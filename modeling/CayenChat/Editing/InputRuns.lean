import CayenChat.Editing.Sound

/-! # Runs of the text input

Every operation finds the text where its ranges expect it and leaves a sound
input. Three things can spoil that: a drag that goes on after the text has
changed under its anchor, a pasted link that is shortened where a longer
composition stood, and a completed name that is not inserted as it is.
-/

namespace CayenChat.Editing

open Utf8

namespace TextInput

variable {script : Script} {parse : List Char → Option Amazon.Link} {t t' : TextInput} {r : Range}

section Keys

theorem no_range : ∀ r, (none : Option Range) = some r → r.start ≤ r.stop := fun r hr => by cases hr

theorem insert_typed (h : t.Sound) (text : List Char) :
    ∃ t', t.replaceTextInRange none text = some t' ∧ Typed t t' :=
  replaceTextInRange_typed h no_range text

theorem left_moves (h : t.Sound) : Moves t (t.left script) := by
  unfold left
  split
  · exact moveTo_moves h (previousBoundary_boundary script t.content _)
  · exact moveTo_moves h h.selection.start

theorem right_moves (h : t.Sound) : Moves t (t.right script) := by
  unfold right
  split
  · exact moveTo_moves h (nextBoundary_boundary script t.content _)
  · exact moveTo_moves h h.selection.stop

theorem wordLeft_moves (h : t.Sound) : Moves t (t.wordLeft script) := by
  apply moveTo_moves h
  split
  · exact wordBoundaryLeft_boundary script t.content _
  · exact h.selection.start

theorem wordRight_moves (h : t.Sound) : Moves t (t.wordRight script) := by
  apply moveTo_moves h
  split
  · exact wordBoundaryRight_boundary script t.content _
  · exact h.selection.stop

theorem selectEverything_moves (h : t.Sound) : Moves t t.selectEverything :=
  moveTo_selectTo (r := ⟨0, size t.content⟩) h
    ⟨Nat.zero_le _, boundary_zero _, boundary_size _⟩

theorem split_cursor {n : ℕ} (hn : Boundary t.content n) :
    ∃ p q, split t.content n = some (p, q) ∧ t.content = p ++ q ∧ size p = n := by
  obtain ⟨p, q, hpq, hp⟩ := hn
  exact ⟨p, q, split_eq_some.mpr ⟨hpq, hp⟩, hpq, hp⟩

theorem lineStart_boundary (p q : List Char) : Boundary (p ++ q) (SelectUnit.lineStart p) :=
  (boundary_dropWhile_reverse p _).append_left q

theorem lineRest_boundary (p q : List Char) :
    Boundary (p ++ q) (size p + SelectUnit.lineRest q) :=
  (boundary_takeWhile q _).append_right p

theorem homeOffset_boundary (h : t.Ranged) :
    ∃ n, t.homeOffset = some n ∧ Boundary t.content n := by
  obtain ⟨p, q, hsplit, hpq, -⟩ := split_cursor h.cursor
  unfold homeOffset
  split
  · exact ⟨0, rfl, boundary_zero _⟩
  · simp only [hsplit, Option.bind_eq_bind, Option.bind_some]
    exact ⟨_, rfl, hpq ▸ lineStart_boundary p q⟩

theorem endOffset_boundary (h : t.Ranged) :
    ∃ n, t.endOffset = some n ∧ Boundary t.content n := by
  obtain ⟨p, q, hsplit, hpq, hp⟩ := split_cursor h.cursor
  unfold endOffset
  split
  · exact ⟨_, rfl, boundary_size _⟩
  · simp only [hsplit, Option.bind_eq_bind, Option.bind_some]
    exact ⟨_, rfl, hp ▸ hpq ▸ lineRest_boundary p q⟩

theorem hardLine_span {n : ℕ} (hn : Boundary t.content n) :
    ∃ line, t.hardLine n = some line ∧ Span t.content line := by
  obtain ⟨p, q, hsplit, hpq, hp⟩ := split_cursor hn
  unfold hardLine
  split
  · exact ⟨_, rfl, Nat.zero_le _, boundary_zero _, boundary_size _⟩
  · simp only [hsplit, Option.bind_eq_bind, Option.bind_some]
    refine ⟨_, rfl, ?_, hpq ▸ lineStart_boundary p q, hp ▸ hpq ▸ lineRest_boundary p q⟩
    have hle := SelectUnit.lineStart_le p
    dsimp only
    omega

theorem insertNewline_typed (h : t.Sound) : ∃ t', t.insertNewline = some t' ∧ Typed t t' := by
  unfold insertNewline
  cases t.lineQuote with
  | none => exact insert_typed h _
  | some quote =>
    obtain ⟨p, q, hsplit, hpq, hp⟩ := split_cursor h.selection.start
    simp only [hsplit, Option.bind_eq_bind, Option.bind_some]
    split
    swap
    · exact insert_typed h _
    have hle := SelectUnit.lineStart_le p
    have hspan : Span t.content ⟨SelectUnit.lineStart p, t.selectedRange.start⟩ :=
      ⟨by dsimp only; omega, hpq ▸ lineStart_boundary p q, h.selection.start⟩
    obtain ⟨line, hline⟩ := hspan.slice
    simp only [hline, Option.bind_some]
    split
    · exact insert_typed h _
    · exact insert_typed h _

theorem deleteTo_typed (h : t.Sound) {n : ℕ} (hn : Boundary t.content n) :
    ∃ t', t.deleteTo n = some t' ∧ Typed t t' := by
  unfold deleteTo
  split
  · have hm := selectTo_moves h hn
    obtain ⟨t', ht', htyped⟩ := insert_typed hm.sound []
    exact ⟨t', ht', hm.typed htyped⟩
  · exact insert_typed h []

theorem deleteToBeginning_typed (h : t.Sound) :
    ∃ t', t.deleteToBeginning = some t' ∧ Typed t t' := by
  obtain ⟨line, hline, hspan⟩ := hardLine_span h.cursor
  unfold deleteToBeginning
  split
  · simp only [hline, Option.bind_eq_bind, Option.bind_some]
    exact deleteTo_typed h hspan.start
  · exact insert_typed h []

theorem deleteToEnd_typed (h : t.Sound) : ∃ t', t.deleteToEnd script = some t' ∧ Typed t t' := by
  obtain ⟨line, hline, hspan⟩ := hardLine_span h.cursor
  unfold deleteToEnd
  split
  · simp only [hline, Option.bind_eq_bind, Option.bind_some]
    apply deleteTo_typed h
    split
    · exact nextBoundary_boundary script t.content _
    · exact hspan.stop
  · exact insert_typed h []

theorem replaceSpan_typed (h : t.Sound) (hr : Span t.content r) (text : List Char) :
    ∃ t', ((t.moveTo r.start).selectTo r.stop).replaceTextInRange none text = some t' ∧
      Typed t t' := by
  have hm := moveTo_selectTo h hr
  obtain ⟨t', ht', htyped⟩ := insert_typed hm.sound text
  exact ⟨t', ht', hm.typed htyped⟩

theorem deleteLine_typed (h : t.Sound) : ∃ t', t.deleteLine = some t' ∧ Typed t t' := by
  obtain ⟨line, hline, hspan⟩ := hardLine_span h.cursor
  unfold deleteLine
  simp only [hline, Option.bind_eq_bind, Option.bind_some]
  exact replaceSpan_typed h hspan []

theorem replaceWhitespace_typed (h : t.Sound) (text : List Char) :
    ∃ t', t.replaceWhitespace text = some t' ∧ Typed t t' := by
  obtain ⟨range, hrange, hspan⟩ := whitespaceAround_span h.cursor
  obtain ⟨old, hold⟩ := hspan.slice
  unfold replaceWhitespace
  simp only [hrange, hold, Option.bind_eq_bind, Option.bind_some]
  split
  · exact ⟨t, rfl, h.typed⟩
  · exact replaceSpan_typed h hspan text

theorem copy_some (h : t.Ranged) : ∃ text, t.copy = some text := by
  obtain ⟨text, htext⟩ := h.selection.slice
  unfold copy
  rw [htext]
  split
  · exact ⟨_, rfl⟩
  · exact ⟨_, rfl⟩

theorem cut_typed (h : t.Sound) : ∃ t', t.cut = some t' ∧ Typed t t' := by
  obtain ⟨text, htext⟩ := copy_some h.toRanged
  unfold cut
  simp only [htext, Option.bind_eq_bind, Option.bind_some]
  cases text with
  | none => exact ⟨t, rfl, h.typed⟩
  | some text => exact insert_typed h []

end Keys

section Mouse

/-- The end of the first selection that a drag keeps still lies between characters. -/
def AnchorKept (script : Script) (t : TextInput) (offset : ℕ) : Prop :=
  t.isSelecting = true → ∀ unit anchor range, t.dragUnit = some (unit, anchor) →
    SelectUnit.range script t.content offset unit = some range →
      Boundary t.content (if range.start < anchor.start then anchor.stop else anchor.start)

theorem onMouseDown_moves (h : t.Sound) {offset : ℕ} (ho : Boundary t.content offset)
    (clickCount : ℕ) (shift : Bool) :
    ∃ t', t.onMouseDown script offset clickCount shift = some t' ∧ Moves t t' := by
  -- whatever is dragged, the text and what is composed stay
  have hdrag : ∀ (selecting : Bool) (drag : Option (SelectUnit × Range)),
      (∀ unit r, drag = some (unit, r) → r.start ≤ r.stop) →
      Moves t { t with isSelecting := selecting, dragUnit := drag } := fun selecting drag hd =>
    ⟨⟨⟨h.selection, h.marked, h.completion, h.names, hd, h.snapshots, h.bounded⟩, h.waiting⟩,
      rfl, rfl, rfl, rfl, rfl⟩
  have hnone : ∀ (unit : SelectUnit) r, (none : Option (SelectUnit × Range)) = some (unit, r) →
      r.start ≤ r.stop := fun unit r hr => by cases hr
  have hpress := hdrag true none hnone
  unfold onMouseDown
  split
  · have hstill := hdrag false t.dragUnit h.anchor
    exact ⟨_, rfl, hstill.trans (selectEverything_moves hstill.sound)⟩
  dsimp only
  split
  · exact ⟨_, rfl, hpress.trans (selectTo_moves hpress.sound ho)⟩
  split
  swap
  · exact ⟨_, rfl, hpress.trans (moveTo_moves hpress.sound ho)⟩
  rename_i unit _
  split
  · exact ⟨_, rfl, hpress.trans (moveTo_moves hpress.sound ho)⟩
  obtain ⟨range, hrange, hspan⟩ := SelectUnit.range_span script t.content offset unit
  simp only [hrange, Option.bind_eq_bind, Option.bind_some]
  refine ⟨_, rfl, hpress.trans ?_⟩
  have hm := moveTo_selectTo hpress.sound hspan
  refine hm.trans ⟨⟨⟨hm.sound.selection, hm.sound.marked, hm.sound.completion, hm.sound.names,
    fun unit r hr => ?_, hm.sound.snapshots, hm.sound.bounded⟩, hm.sound.waiting⟩,
    rfl, rfl, rfl, rfl, rfl⟩
  cases hr
  exact hspan.le

theorem dragTo_moves (h : t.Sound) {offset : ℕ} (ho : Boundary t.content offset)
    (hs : t.isSelecting = true) (hk : t.AnchorKept script offset) :
    ∃ t', t.dragTo script offset = some t' ∧ Moves t t' := by
  unfold dragTo
  cases hd : t.dragUnit with
  | none => exact ⟨_, rfl, selectTo_moves h ho⟩
  | some drag =>
    obtain ⟨unit, anchor⟩ := drag
    obtain ⟨range, hrange, hspan⟩ := SelectUnit.range_span script t.content offset unit
    have hkept := hk hs unit anchor range hd hrange
    have hle := h.anchor unit anchor hd
    dsimp only
    simp only [hrange, Option.bind_eq_bind, Option.bind_some]
    split
    · rename_i hlt
      rw [if_pos hlt] at hkept
      have hr : Span t.content ⟨range.start, anchor.stop⟩ :=
        ⟨hlt.le.trans hle, hspan.start, hkept⟩
      exact ⟨_, rfl, h.move hr true t.isSelecting (hd ▸ h.anchor)⟩
    · rename_i hlt
      rw [if_neg hlt] at hkept
      have hr : Span t.content ⟨anchor.start, range.stop⟩ :=
        ⟨(not_lt.mp hlt).trans hspan.le, hkept, hspan.stop⟩
      exact ⟨_, rfl, h.move hr false t.isSelecting (hd ▸ h.anchor)⟩

theorem onMouseMove_moves (h : t.Sound) {offset : ℕ} (ho : Boundary t.content offset)
    (hk : t.AnchorKept script offset) :
    ∃ t', t.onMouseMove script offset = some t' ∧ Moves t t' := by
  unfold onMouseMove
  split
  · exact dragTo_moves h ho ‹_› hk
  · exact ⟨t, rfl, h, rfl, rfl, rfl, rfl, rfl⟩

theorem onMouseUp_moves (h : t.Sound) {offset : ℕ} (ho : Boundary t.content offset)
    (hk : t.AnchorKept script offset) :
    ∃ t', t.onMouseUp script offset = some t' ∧ Moves t t' := by
  obtain ⟨t', ht', hm⟩ := onMouseMove_moves h ho hk
  unfold onMouseUp
  rw [ht']
  refine ⟨_, rfl, hm.trans ⟨⟨⟨hm.sound.selection, hm.sound.marked, hm.sound.completion,
    hm.sound.names, hm.sound.anchor, hm.sound.snapshots, hm.sound.bounded⟩, hm.sound.waiting⟩,
    rfl, rfl, rfl, rfl, rfl⟩⟩

end Mouse

section Names

/-- The name that takes the place of what was typed, or of the name before it. -/
def nextName (script : Script) (t : TextInput) (members : List (List Char)) :
    Option (List Char) := do
  if t.markedRange.isSome || !t.noSelection then none
  else
    match ← t.completing with
    | some previous => previous.names[(previous.index + 1) % previous.names.length]?
    | none =>
      let start ← nicknameStart script t.content t.cursorOffset
      let typed ← slice t.content start t.cursorOffset
      (nicknameMatches script typed members)[0]?

def Kept (t : TextInput) (name : List Char) : Prop :=
  ¬ t.returns name ∧ size (singleLineOrNormalized t.multiline name) = size name

theorem completing_some (h : t.Ranged) : ∃ found, t.completing = some found ∧
    ∀ previous, found = some previous → t.completion = some previous := by
  unfold completing
  cases hc : t.completion with
  | none => exact ⟨none, rfl, fun previous hp => by cases hp⟩
  | some previous =>
    dsimp only
    split
    swap
    · exact ⟨none, rfl, fun previous hp => by cases hp⟩
    obtain ⟨shown, hshown⟩ := (h.completion previous hc).slice
    have hname := List.getElem?_eq_getElem (h.names previous hc)
    simp only [hshown, hname, Option.bind_eq_bind, Option.bind_some]
    refine ⟨_, rfl, fun found hf => ?_⟩
    split at hf
    · cases hf
      rfl
    · cases hf

theorem completeWith_typed (h : t.Sound) {span : Range} (hs : Span t.content span)
    (hm : t.markedRange = none) {names : List (List Char)} {index : ℕ} {name : List Char}
    (hn : names[index]? = some name) (hk : t.Kept name) :
    ∃ t', t.completeWith span names index = some t' ∧ Typed t t' := by
  have hselect := h.select hs
  obtain ⟨t', ht', hreplaces⟩ := replaceTextInRange_replaces hselect.sound no_range hk.1
  obtain ⟨p, q, q', -, hp, hcontent, hat⟩ := hreplaces.placed
  have hstart : (replaced { t with selectedRange := span } none).start = span.start := by
    unfold replaced
    rw [show ({ t with selectedRange := span } : TextInput).markedRange = none from hm]
    rfl
  rw [hstart] at hp
  have hsize : size (singleLineOrNormalized t.multiline name) = size name := hk.2
  unfold completeWith
  simp only [hn, ht', Option.bind_eq_bind, Option.bind_some]
  refine ⟨_, rfl, hselect.typed ⟨⟨⟨⟨hreplaces.sound.selection, hreplaces.sound.marked,
    fun c hc => ?_, fun c hc => ?_, hreplaces.sound.anchor, hreplaces.sound.snapshots,
    hreplaces.sound.bounded⟩, hreplaces.sound.waiting⟩, hreplaces.ledger, hreplaces.held,
    hreplaces.multiline⟩, hreplaces.lines⟩⟩
  · cases hc
    change Span t'.content ⟨span.start, span.start + size name⟩
    rw [hcontent, ← hp, ← hsize]
    exact span_append p _ q'
  · cases hc
    exact (List.getElem?_eq_some_iff.mp hn).1

theorem completeNickname_typed (h : t.Sound) {members : List (List Char)}
    (hk : ∀ name, t.nextName script members = some name → t.Kept name) :
    ∃ t', t.completeNickname script members = some t' ∧ Typed t t' := by
  unfold completeNickname
  unfold nextName at hk
  split
  · exact ⟨t, rfl, h.typed⟩
  rename_i hgo
  rw [if_neg hgo] at hk
  have hm : t.markedRange = none := by
    rw [Bool.or_eq_true, not_or, Bool.not_eq_true, Option.isSome_eq_false_iff,
      Option.isNone_iff_eq_none] at hgo
    exact hgo.1
  obtain ⟨found, hfound, hprevious⟩ := completing_some h.toRanged
  simp only [hfound, Option.bind_eq_bind, Option.bind_some] at hk ⊢
  cases found with
  | some previous =>
    have hc := hprevious previous rfl
    have hlt := h.names previous hc
    have hname := List.getElem?_eq_getElem
      (Nat.mod_lt (previous.index + 1) (Nat.lt_of_le_of_lt (Nat.zero_le _) hlt))
    exact completeWith_typed h (h.completion previous hc) hm hname (hk _ hname)
  | none =>
    obtain ⟨start, hstart, hb, hle⟩ := @nicknameStart_boundary script _ _ h.cursor
    have hspan : Span t.content ⟨start, t.cursorOffset⟩ := ⟨hle, hb, h.cursor⟩
    obtain ⟨typed, htyped⟩ := hspan.slice
    dsimp only at htyped
    simp only [hstart, htyped, Option.bind_some] at hk ⊢
    split
    · exact ⟨t, rfl, h.typed⟩
    rename_i hne
    cases hnames : nicknameMatches script typed members with
    | nil =>
      rw [hnames] at hne
      exact absurd rfl hne
    | cons name names =>
      rw [hnames] at hk
      exact completeWith_typed h hspan hm rfl (hk name rfl)

end Names

section Pasting

def pasted (t : TextInput) (text : List Char) : List Char :=
  if t.multiline then text else joinPastedLines text

/-- A link that is shortened where a composition stood still has its start where the selection
started. -/
def PasteFits (parse : List Char → Option Amazon.Link) (t : TextInput) (text : List Char)
    (shortens : Bool) : Prop :=
  ∀ marked, t.markedRange = some marked → (t.draft && shortens) = true →
    (Amazon.shortenPasted parse text).isSome = true → t.selectedRange.start ≤ marked.start ∨
      (marked.start ≤ t.selectedRange.start ∧
        Boundary (singleLineOrNormalized t.multiline (t.pasted text))
          (t.selectedRange.start - marked.start))

theorem Typed.trans (h : Typed t t') {t'' : TextInput} (h' : Typed t' t'')
    (hn : t''.markedRange = none) : Typed t t'' where
  sound := h'.sound
  ledger := by rw [h'.ledger, h.ledger, List.append_nil]
  held hsome := by
    rw [hn] at hsome
    cases hsome
  multiline := h'.multiline.trans h.multiline
  lines hs := (h'.lines (h.multiline.trans hs)).trans (h.lines hs)

theorem insert_unmarked (h : t.Sound) (hm : t.markedRange = none) (text : List Char) :
    ∃ t', t.replaceTextInRange none text = some t' ∧ Typed t t' ∧ t'.markedRange = none := by
  by_cases hret : t.returns text
  · exact ⟨t, replaceTextInRange_returns hret none, h.typed, hm⟩
  · obtain ⟨t', ht', hreplaces⟩ := replaceTextInRange_replaces h no_range hret
    exact ⟨t', ht', hreplaces.toTyped, hreplaces.unmarked⟩

theorem pasted_span {text : List Char} (h : t.Sound)
    (hr : Replaces t t' (t.replaced none).start (singleLineOrNormalized t.multiline text))
    (hf : ∀ marked, t.markedRange = some marked → t.selectedRange.start ≤ marked.start ∨
      (marked.start ≤ t.selectedRange.start ∧ Boundary (singleLineOrNormalized t.multiline text)
        (t.selectedRange.start - marked.start))) :
    Span t'.content ⟨t.selectedRange.start, t'.selectedRange.stop⟩ := by
  obtain ⟨p, q, q', hpq, hp, hcontent, hat⟩ := hr.placed
  set new := singleLineOrNormalized t.multiline text
  set start := t.selectedRange.start with hstart
  rw [hat, hcontent]
  have hb : Boundary (p ++ new) start := by
    have hsel : Boundary (p ++ q) start := hpq ▸ h.selection.start
    cases hm : t.markedRange with
    | none =>
      have : size p = start := by
        rw [hp]
        unfold replaced
        rw [hm]
        rfl
      exact this ▸ boundary_append p new
    | some marked =>
      have hpm : size p = marked.start := by
        rw [hp]
        unfold replaced
        rw [hm]
        rfl
      rcases hf marked hm with hle | ⟨hle, hnew⟩
      · exact (hsel.of_append (hpm ▸ hle)).append_left new
      · have := hnew.append_right p
        rwa [hpm, Nat.add_sub_cancel' hle] at this
  exact ⟨hb.le, hb.append_left q', boundary_append (p ++ new) q'⟩

theorem insertPasted_typed (h : t.Sound) {text : List Char} {shortens : Bool}
    (hf : t.PasteFits parse text shortens) :
    ∃ t', t.insertPasted parse text shortens = some t' ∧ Typed t t' := by
  -- the text as it is, and then its short form where there is one
  have htwice : ∀ short : Option (List Char),
      (∀ link, short = some link → (t.draft && shortens) = true ∧
        (Amazon.shortenPasted parse text).isSome = true) →
      ∃ t', ((t.replaceTextInRange none (t.pasted text)).bind fun t' => short.elim (some t') fun link =>
        replaceTextInRange { t' with selectedRange := ⟨t.selectedRange.start, t'.selectedRange.stop⟩ }
          none link) = some t' ∧ Typed t t' := by
    intro short hshort
    cases short with
    | none =>
      obtain ⟨t', ht', htyped⟩ := insert_typed h (t.pasted text)
      exact ⟨t', by rw [ht']; rfl, htyped⟩
    | some link =>
      obtain ⟨hon, hsome⟩ := hshort link rfl
      by_cases hret : t.returns (t.pasted text)
      · rw [replaceTextInRange_returns hret none]
        exact insert_typed h link
      obtain ⟨t₁, ht₁, hr⟩ := replaceTextInRange_replaces h no_range hret
      have hspan := pasted_span h hr fun marked hm => hf marked hm hon hsome
      have hselect := hr.sound.select hspan
      obtain ⟨t₂, ht₂, htyped, hunmarked⟩ := insert_unmarked hselect.sound hr.unmarked link
      rw [ht₁]
      exact ⟨t₂, ht₂, hr.toTyped.trans (hselect.typed htyped) hunmarked⟩
  obtain ⟨t', ht', htyped⟩ := htwice
    (if t.draft && shortens then Amazon.shortenPasted parse text else none) (by
      intro link hlink
      split at hlink
      · rw [hlink]
        exact ⟨‹_›, rfl⟩
      · cases hlink)
  refine ⟨t', ?_, htyped⟩
  rw [← ht']
  unfold insertPasted pasted
  dsimp only
  cases (if t.draft && shortens then Amazon.shortenPasted parse text else none) with
  | none => rfl
  | some link => rfl

end Pasting

end TextInput

namespace Op

variable {t : TextInput}

/-- What an operation is handed: ranges that do not run backwards, and positions between
characters. -/
def Given (t : TextInput) : Op → Prop
  | .replaceTextInRange range _ => ∀ r, range = some r → r.start ≤ r.stop
  | .replaceAndMarkTextInRange range _ selected =>
    (∀ r, range = some r → r.start ≤ r.stop) ∧ ∀ r, selected = some r → r.start ≤ r.stop
  | .textForRange range => range.start ≤ range.stop
  | .moveRows offset _ | .onMouseDown offset _ _ | .onMouseMove offset | .onMouseUp offset =>
    Boundary t.content offset
  | _ => True

/-- A drag finds its anchor, a shortened link its start, and a completed name is inserted as it
is. -/
def Fits (script : Script) (parse : List Char → Option Amazon.Link) (t : TextInput) : Op → Prop
  | .onMouseMove offset | .onMouseUp offset => t.AnchorKept script offset
  | .insertPasted text shortens => t.PasteFits parse text shortens
  | .completeNickname members => ∀ name, t.nextName script members = some name → t.Kept name
  | _ => True

def links : Op → List (List Char)
  | .insertLink link => [link]
  | _ => []

def brings : Op → Bool
  | .insertLink _ | .replaceText _ | .setText _ | .clearAfterSend | .undo | .redo => true
  | _ => false

end Op

namespace TextInput

section Runs

variable {script : Script} {parse : List Char → Option Amazon.Link} {t t' : TextInput} {op : Op}

theorem step_typed (h : t.Sound) (hg : op.Given t) (hf : op.Fits script parse t)
    (hb : op.brings = false) : ∃ t', t.step script parse op = some t' ∧ Typed t t' := by
  have hmove : ∀ {t'}, Moves t t' → ∃ t'', some t' = some t'' ∧ Typed t t'' :=
    fun hm => ⟨_, rfl, hm.toTyped⟩
  have hmoved : ∀ {o : Option TextInput}, (∃ t', o = some t' ∧ Moves t t') →
      ∃ t', o = some t' ∧ Typed t t' := fun ⟨t', ht', hm⟩ => ⟨t', ht', hm.toTyped⟩
  have hto : ∀ {o : Option ℕ} (f : ℕ → TextInput), (∃ n, o = some n ∧ Boundary t.content n) →
      (∀ n, Boundary t.content n → Moves t (f n)) → ∃ t', o.map f = some t' ∧ Typed t t' := by
    rintro _ f ⟨n, rfl, hn⟩ hm
    exact ⟨f n, rfl, (hm n hn).toTyped⟩
  have hstay : ∀ {α : Type} {o : Option α}, (∃ a, o = some a) →
      ∃ t', (o.map fun _ => t) = some t' ∧ Typed t t' := by
    rintro _ _ ⟨a, rfl⟩
    exact ⟨t, rfl, h.typed⟩
  have hread : ∀ range : Range, range.start ≤ range.stop → ∃ text, t.textForRange range = some text := by
    intro range hr
    obtain ⟨text, htext⟩ := (span_fromUtf16 t.content hr).slice
    unfold textForRange
    split
    · exact ⟨_, rfl⟩
    · exact ⟨text, htext⟩
  cases op with
  | replaceTextInRange range text => exact replaceTextInRange_typed h hg text
  | replaceAndMarkTextInRange range text selected => exact replaceAndMark_typed h hg.1 hg.2 text
  | unmarkText => exact unmarkText_typed h
  | textForRange range => exact hstay (hread range hg)
  | left => exact hmove (left_moves h)
  | right => exact hmove (right_moves h)
  | selectLeft => exact hmove (selectTo_moves h (previousBoundary_boundary script t.content _))
  | selectRight => exact hmove (selectTo_moves h (nextBoundary_boundary script t.content _))
  | selectAll => exact hmove (selectEverything_moves h)
  | home => exact hto t.moveTo (homeOffset_boundary h.toRanged) fun n => moveTo_moves h
  | «end» => exact hto t.moveTo (endOffset_boundary h.toRanged) fun n => moveTo_moves h
  | selectHome => exact hto t.selectTo (homeOffset_boundary h.toRanged) fun n => selectTo_moves h
  | selectEnd => exact hto t.selectTo (endOffset_boundary h.toRanged) fun n => selectTo_moves h
  | documentStart => exact hmove (moveTo_moves h (boundary_zero _))
  | documentEnd => exact hmove (moveTo_moves h (boundary_size _))
  | selectDocumentStart => exact hmove (selectTo_moves h (boundary_zero _))
  | selectDocumentEnd => exact hmove (selectTo_moves h (boundary_size _))
  | moveRows target select =>
    have hm : Moves t (t.moveRows target select) := by
      unfold moveRows
      split
      · exact selectTo_moves h hg
      · exact moveTo_moves h hg
    exact hmove hm
  | wordLeft => exact hmove (wordLeft_moves h)
  | wordRight => exact hmove (wordRight_moves h)
  | selectWordLeft => exact hmove (selectTo_moves h (wordBoundaryLeft_boundary script t.content _))
  | selectWordRight =>
    exact hmove (selectTo_moves h (wordBoundaryRight_boundary script t.content _))
  | insertNewline => exact insertNewline_typed h
  | backspace => exact deleteTo_typed h (previousBoundary_boundary script t.content _)
  | delete => exact deleteTo_typed h (nextBoundary_boundary script t.content _)
  | deleteWordBackward => exact deleteTo_typed h (wordBoundaryLeft_boundary script t.content _)
  | deleteWordForward => exact deleteTo_typed h (wordBoundaryRight_boundary script t.content _)
  | deleteToBeginning => exact deleteToBeginning_typed h
  | deleteToEnd => exact deleteToEnd_typed h
  | deleteLine => exact deleteLine_typed h
  | deleteWhitespace => exact replaceWhitespace_typed h []
  | collapseWhitespace => exact replaceWhitespace_typed h [' ']
  | copy => exact hstay (copy_some h.toRanged)
  | cut => exact cut_typed h
  | onMouseDown offset clickCount shift => exact hmoved (onMouseDown_moves h hg clickCount shift)
  | onMouseMove offset => exact hmoved (onMouseMove_moves h hg hf)
  | onMouseUp offset => exact hmoved (onMouseUp_moves h hg hf)
  | completeNickname members => exact completeNickname_typed h hf
  | insertPasted text shortens => exact insertPasted_typed h hf
  | setLineQuote quote =>
    exact hmove ⟨⟨⟨h.selection, h.marked, h.completion, h.names, h.anchor, h.snapshots, h.bounded⟩,
      h.waiting⟩, rfl, rfl, rfl, rfl, rfl⟩
  | _ => cases hb

theorem step_outcome (h : t.Sound) (hg : op.Given t) (hf : op.Fits script parse t) :
    ∃ t', t.step script parse op = some t' ∧ Outcome t t' op.links ∧
      (op.brings = false → t.multiline = false → t'.lines ≤ t.lines) := by
  by_cases hb : op.brings = false
  · obtain ⟨t', ht', htyped⟩ := step_typed h hg hf hb
    have hlinks : op.links = [] := by
      cases op with
      | insertLink link => cases hb
      | _ => rfl
    exact ⟨t', ht', hlinks ▸ htyped.toOutcome, fun _ => htyped.lines⟩
  have hbrought : ∀ {o : Option TextInput} {links}, (∃ t', o = some t' ∧ Outcome t t' links) →
      ∃ t', o = some t' ∧ Outcome t t' links ∧
        (op.brings = false → t.multiline = false → t'.lines ≤ t.lines) :=
    fun ⟨t', ht', ho⟩ => ⟨t', ht', ho, fun hno => absurd hno hb⟩
  cases op with
  | insertLink link => exact hbrought (insertLink_outcome h link)
  | replaceText value => exact hbrought (replaceText_outcome h value)
  | setText value => exact hbrought (setText_outcome h value)
  | clearAfterSend => exact hbrought (clearAfterSend_outcome h)
  | undo => exact hbrought (undoEdit_outcome h)
  | redo => exact hbrought (redoEdit_outcome h)
  | _ => exact absurd rfl hb

def fresh (secret draft doubleClickSelectsAll multiline : Bool) : TextInput :=
  { secret, draft, doubleClickSelectsAll, multiline }

theorem fresh_sound (secret draft doubleClickSelectsAll multiline : Bool) :
    (fresh secret draft doubleClickSelectsAll multiline).Sound :=
  ⟨⟨(boundary_zero []).span, fun r hr => (by cases hr), fun c hc => (by cases hc),
    fun c hc => (by cases hc), fun unit r hr => (by cases hr), fun e he => (by cases he),
    Nat.zero_le _⟩, fun _ => rfl⟩

def advance (script : Script) (parse : List Char → Option Amazon.Link) (o : Option TextInput)
    (op : Op) : Option TextInput := o.bind (·.step script parse op)

/-- In every run from a new input whose drags find their anchors, whose shortened links find their
starts and whose completed names are inserted as they are, no operation cuts the text where it
cannot be cut, the input is sound after each, every link is inserted once, in order and never while
a composition lasts, and no line break comes to a single-line input unless it is brought by
itself. -/
theorem input_stays_sound (script : Script) (parse : List Char → Option Amazon.Link)
    (secret draft doubleClickSelectsAll multiline : Bool) (ops : List Op)
    (h : Machine.Along (fun o op => ∀ t, o = some t → op.Given t ∧ op.Fits script parse t)
      (advance script parse) (some (fresh secret draft doubleClickSelectsAll multiline)) ops) :
    Machine.Along (fun o op => ∃ t t', o = some t ∧ t.step script parse op = some t' ∧
        Outcome t t' op.links ∧ (op.brings = false → t.multiline = false → t'.lines ≤ t.lines))
      (advance script parse) (some (fresh secret draft doubleClickSelectsAll multiline)) ops := by
  refine Machine.Along.of_invariant (fun o => ∃ t, o = some t ∧ t.Sound) ?_ ?_
    ⟨_, rfl, fresh_sound secret draft doubleClickSelectsAll multiline⟩ h
  · rintro _ op ⟨t, rfl, ht⟩ hc
    obtain ⟨t', ht', ho, -⟩ := step_outcome ht (hc t rfl).1 (hc t rfl).2
    exact ⟨t', ht', ho.sound⟩
  · rintro _ op ⟨t, rfl, ht⟩ hc
    obtain ⟨t', ht', ho⟩ := step_outcome ht (hc t rfl).1 (hc t rfl).2
    exact ⟨t, t', rfl, ht', ho⟩

theorem no_boundary (s : List Char) : ∀ n ∈ ([] : List ℕ), Boundary s n := by
  rintro n ⟨⟩

theorem no_span (s : List Char) : ∀ r ∈ ([] : List Range), Span s r := by
  rintro r ⟨⟩

/-- Two words and the space between them; nothing else is looked up. -/
def twoWords : Script where
  graphemes _ := []
  words _ := []
  segments s := if s = "foo bar".toList then [⟨0, 3⟩, ⟨3, 4⟩, ⟨4, 7⟩] else []
  phraseStarts _ _ := false
  alphanumeric c := c.isAlphanum
  lowercase s := s.map Char.toLower
  grapheme_boundary := no_boundary
  word_span := no_span
  segment_span s r hr := by
    split at hr
    · subst s
      simp only [List.mem_cons, List.not_mem_nil, or_false] at hr
      rcases hr with rfl | rfl | rfl
      · exact ⟨by decide, boundary_iff.mpr (by decide), boundary_iff.mpr (by decide)⟩
      · exact ⟨by decide, boundary_iff.mpr (by decide), boundary_iff.mpr (by decide)⟩
      · exact ⟨by decide, boundary_iff.mpr (by decide), boundary_iff.mpr (by decide)⟩
    · cases hr

/-- A link that arrives during a composition is inserted when it ends. -/
theorem input_stays_sound_composing :
    Machine.Along (fun o op => ∃ t t', o = some t ∧ t.step twoWords (fun _ => none) op = some t' ∧
        Outcome t t' op.links ∧ (op.brings = false → t.multiline = false → t'.lines ≤ t.lines))
      (advance twoWords fun _ => none) (some (fresh false true false false))
      [.replaceAndMarkTextInRange none "ka".toList none, .insertLink "http://x".toList,
        .unmarkText] ∧
    (Machine.exec (advance twoWords fun _ => none) (some (fresh false true false false))
      [.replaceAndMarkTextInRange none "ka".toList none, .insertLink "http://x".toList,
        .unmarkText]).map (·.content) = some "ka http://x".toList := by
  have hnone : ∀ r : Range, (none : Option Range) = some r → r.start ≤ r.stop :=
    fun r hr => by cases hr
  refine ⟨input_stays_sound twoWords (fun _ => none) false true false false _
    ⟨fun t _ => ⟨⟨hnone, hnone⟩, trivial⟩, fun t _ => ⟨trivial, trivial⟩,
      fun t _ => ⟨trivial, trivial⟩, trivial⟩, ?_⟩
  decide

/-- A word is clicked twice and sent while the button is held: the mouse then selects beyond the
empty text. -/
theorem drag_after_send :
    (Machine.exec (advance twoWords fun _ => none) (some (fresh false true false false))
      [.replaceTextInRange none "foo bar".toList, .onMouseDown 5 2 false, .clearAfterSend,
        .onMouseMove 0]).map (fun t => (t.content, t.selectedRange)) = some ([], ⟨0, 7⟩) ∧
    ∀ t : TextInput, t.content = [] → t.selectedRange = ⟨0, 7⟩ → ¬ t.Sound := by
  refine ⟨by decide, fun t hc hr h => ?_⟩
  have hle := h.selection.stop.le
  rw [hc, hr] at hle
  exact absurd hle (by decide)

end Runs

end TextInput

end CayenChat.Editing
