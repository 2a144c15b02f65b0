import CayenChat.Editing.Operations
import CayenChat.Lib.Machine

/-! # The text input is sound

What is selected and what is composed lie between characters of the text, and
so do the steps back, each in its own text. An edit replaces a range and then
inserts the links that waited for the end of the composition.
-/

namespace CayenChat.Editing

open Utf8

def breaks (text : List Char) : ℕ := text.countP fun c => c == '\r' || c == '\n'

@[simp] theorem breaks_nil : breaks [] = 0 := rfl

@[simp] theorem breaks_append (s t : List Char) : breaks (s ++ t) = breaks s + breaks t :=
  List.countP_append

namespace TextInput

/-- Every range lies between characters of its text. -/
structure Ranged (t : TextInput) : Prop where
  selection : Span t.content t.selectedRange
  marked : ∀ r, t.markedRange = some r → Span t.content r
  completion : ∀ c, t.completion = some c → Span t.content c.span
  names : ∀ c, t.completion = some c → c.index < c.names.length
  anchor : ∀ unit r, t.dragUnit = some (unit, r) → r.start ≤ r.stop
  snapshots : ∀ e ∈ t.undo ++ t.redo, Span e.content e.selection
  bounded : t.undo.length + t.redo.length ≤ 100

/-- Links wait only during a composition. -/
structure Sound (t : TextInput) : Prop extends Ranged t where
  waiting : t.markedRange = none → t.pendingLinks = []

def lines (t : TextInput) : ℕ := breaks t.content + breaks t.pendingLinks.flatten

variable {t t' t'' : TextInput} {links links' : List (List Char)} {r : Range}

theorem Ranged.cursor (h : t.Ranged) : Boundary t.content t.cursorOffset := by
  unfold cursorOffset
  split
  · exact h.selection.start
  · exact h.selection.stop

section Recording

theorem recordEdit_eq (t : TextInput) : t.recordEdit = t ∨ t.recordEdit = { t with
    undo := (if t.undo.length = 100 then t.undo.drop 1 else t.undo) ++ [t.snapshot], redo := [] } := by
  unfold recordEdit
  split
  · exact .inr rfl
  · exact .inl rfl

theorem Ranged.recordEdit (h : t.Ranged) : t.recordEdit.Ranged := by
  rcases recordEdit_eq t with heq | heq
  · rw [heq]
    exact h
  rw [heq]
  refine ⟨h.selection, h.marked, h.completion, h.names, h.anchor, ?_, ?_⟩
  · intro e he
    rw [List.append_nil] at he
    rcases List.mem_append.mp he with he | he
    · refine h.snapshots e (List.mem_append_left _ ?_)
      split at he
      · exact List.mem_of_mem_drop he
      · exact he
    · rw [List.mem_singleton.mp he]
      exact h.selection
  · have := h.bounded
    simp only [List.length_append, List.length_singleton, List.length_nil]
    split
    · rw [List.length_drop]
      omega
    · omega

theorem recordEdit_frame (t : TextInput) : t.recordEdit.content = t.content ∧
    t.recordEdit.selectedRange = t.selectedRange ∧ t.recordEdit.markedRange = t.markedRange ∧
    t.recordEdit.cursorOffset = t.cursorOffset ∧ t.recordEdit.pendingLinks = t.pendingLinks ∧
    t.recordEdit.inserted = t.inserted ∧ t.recordEdit.multiline = t.multiline := by
  rcases recordEdit_eq t with heq | heq <;> rw [heq] <;> exact ⟨rfl, rfl, rfl, rfl, rfl, rfl, rfl⟩

theorem Ranged.rewrite (h : t.Ranged) (text : List Char) (hr : Span text r) (reversed : Bool)
    {marked : Option Range} (hm : ∀ r, marked = some r → Span text r)
    (pending inserted : List (List Char)) :
    Ranged { t with
      content := text
      selectedRange := r
      selectionReversed := reversed
      markedRange := marked
      completion := none
      pendingLinks := pending
      inserted := inserted } where
  selection := hr
  marked := hm
  completion c hc := by cases hc
  names c hc := by cases hc
  anchor := h.anchor
  snapshots := h.snapshots
  bounded := h.bounded

end Recording

section Links

/-- The links are inserted at the cursor, one after the other. -/
structure Inserts (t t' : TextInput) (links : List (List Char)) : Prop where
  ranged : t'.Ranged
  marked : t'.markedRange = none
  pending : t'.pendingLinks = t.pendingLinks
  inserted : t'.inserted = t.inserted ++ links
  multiline : t'.multiline = t.multiline
  lines : breaks t'.content = breaks t.content + breaks links.flatten
  /-- The text before the cursor stays. -/
  before : ∀ p q, t.content = p ++ q → t.selectedRange = .at (size p) →
    ∃ q', t'.content = p ++ q' ∧ t'.selectedRange = .at (size p)

theorem breaks_linkInsertion (before after : Option Char) (url : List Char) :
    breaks (linkInsertion before after url) = breaks url := by
  unfold linkInsertion
  split <;> split <;> simp [breaks]

theorem insertLinkNow_inserts (h : t.Ranged) (link : List Char) :
    ∃ t', t.insertLinkNow link = some t' ∧ Inserts t t' [link] := by
  obtain ⟨hc, hs, hmark, hcur, hp, hi, hmulti⟩ := recordEdit_frame t
  obtain ⟨p, q, hpq, hsize⟩ := h.cursor
  have hsplit : split t.recordEdit.content t.recordEdit.cursorOffset = some (p, q) := by
    rw [hc, hcur]
    exact split_eq_some.mpr ⟨hpq, hsize⟩
  unfold insertLinkNow
  simp only [hsplit, Option.bind_eq_bind, Option.bind_some]
  refine ⟨_, rfl, ?_, rfl, hp, ?_, hmulti, ?_, ?_⟩
  · refine h.recordEdit.rewrite _ (Boundary.span ?_) false (fun r hr => by cases hr) _ _
    rw [hcur, ← hsize, List.append_assoc]
    exact boundary_append ..
  · dsimp only
    rw [hi]
  · dsimp only
    rw [hpq]
    simp only [breaks_append, breaks_linkInsertion, List.flatten_cons, List.flatten_nil,
      breaks_nil]
    omega
  · intro p' q' hpq' hat
    have hcursor : t.cursorOffset = size p' := by
      unfold cursorOffset
      rw [hat]
      split <;> rfl
    have hpp : (p, q) = (p', q') := Option.some.inj
      ((split_eq_some.mpr ⟨hpq, hsize⟩).symm.trans (split_eq_some.mpr ⟨hpq', hcursor.symm⟩))
    cases hpp
    refine ⟨_, List.append_assoc .., ?_⟩
    dsimp only
    rw [hcur, hcursor]

theorem Inserts.refl (h : t.Ranged) (hm : t.markedRange = none) : Inserts t t [] :=
  ⟨h, hm, rfl, (List.append_nil _).symm, rfl, rfl, fun _ q hpq hat => ⟨q, hpq, hat⟩⟩

theorem Inserts.trans (h : Inserts t t' links) (h' : Inserts t' t'' links') :
    Inserts t t'' (links ++ links') where
  ranged := h'.ranged
  marked := h'.marked
  pending := h'.pending.trans h.pending
  inserted := by rw [h'.inserted, h.inserted, List.append_assoc]
  multiline := h'.multiline.trans h.multiline
  lines := by
    rw [h'.lines, h.lines, List.flatten_append, breaks_append]
    omega
  before p q hpq hat := by
    obtain ⟨q', hq', hat'⟩ := h.before p q hpq hat
    exact h'.before p q' hq' hat'

theorem insertLinks_inserts (h : t.Ranged) (hm : t.markedRange = none) (links : List (List Char)) :
    ∃ t', links.foldlM insertLinkNow t = some t' ∧ Inserts t t' links := by
  induction links generalizing t with
  | nil => exact ⟨t, rfl, .refl h hm⟩
  | cons link links ih =>
    obtain ⟨t', ht', hlink⟩ := insertLinkNow_inserts h link
    obtain ⟨t'', ht'', hlinks⟩ := ih hlink.ranged hlink.marked
    refine ⟨t'', ?_, hlink.trans hlinks⟩
    rw [List.foldlM_cons, ht']
    exact ht''

/-- The links that waited are inserted where the composition has ended. -/
structure Flushes (t t' : TextInput) : Prop where
  sound : t'.Sound
  marked : t'.markedRange = t.markedRange
  ledger : t'.inserted ++ t'.pendingLinks = t.inserted ++ t.pendingLinks
  held : t.markedRange.isSome = true → t'.inserted = t.inserted
  multiline : t'.multiline = t.multiline
  lines : t'.lines = t.lines
  before : ∀ p q, t.content = p ++ q → t.selectedRange = .at (size p) →
    ∃ q', t'.content = p ++ q' ∧ t'.selectedRange = .at (size p)

theorem flushPendingLinks_flushes (h : t.Ranged) :
    ∃ t', t.flushPendingLinks = some t' ∧ Flushes t t' := by
  unfold flushPendingLinks
  split
  · rename_i hstay
    refine ⟨t, rfl, ⟨h, fun hm => ?_⟩, rfl, rfl, fun _ => rfl, rfl, rfl,
      fun _ q hpq hat => ⟨q, hpq, hat⟩⟩
    rw [hm] at hstay
    simpa using hstay
  · rename_i hgo
    rw [Bool.or_eq_true, not_or, Bool.not_eq_true, Option.isSome_eq_false_iff,
      Option.isNone_iff_eq_none] at hgo
    have hr : Ranged { t with pendingLinks := [] } :=
      ⟨h.selection, h.marked, h.completion, h.names, h.anchor, h.snapshots, h.bounded⟩
    obtain ⟨t', ht', hi⟩ := insertLinks_inserts hr hgo.1 t.pendingLinks
    have hnone : t'.pendingLinks = [] := hi.pending
    refine ⟨t', ht', ⟨hi.ranged, fun _ => hnone⟩, hi.marked.trans hgo.1.symm, ?_, fun hm => ?_,
      hi.multiline, ?_, hi.before⟩
    · rw [hnone, hi.inserted, List.append_nil]
    · rw [hgo.1] at hm
      cases hm
    · unfold lines
      rw [hnone, hi.lines]
      rfl

end Links

section Edits

/-- What an operation leaves: a sound input, every link that arrived once and in order, and none of
them inserted where a composition goes on. -/
structure Outcome (t t' : TextInput) (links : List (List Char)) : Prop where
  sound : t'.Sound
  ledger : t'.inserted ++ t'.pendingLinks = t.inserted ++ t.pendingLinks ++ links
  held : t'.markedRange.isSome = true → t'.inserted = t.inserted
  multiline : t'.multiline = t.multiline

/-- No line break comes to a single-line input. -/
structure Typed (t t' : TextInput) : Prop extends Outcome t t' [] where
  lines : t.multiline = false → t'.lines ≤ t.lines

theorem Flushes.outcome {e : TextInput} (h : Flushes e t') (hp : e.pendingLinks = t.pendingLinks)
    (hi : e.inserted = t.inserted) (hm : e.multiline = t.multiline) : Outcome t t' [] where
  sound := h.sound
  ledger := by rw [h.ledger, hp, hi, List.append_nil]
  held hmarked := (h.held (h.marked ▸ hmarked)).trans hi
  multiline := h.multiline.trans hm

/-- Only the selection moves. -/
structure Moves (t t' : TextInput) : Prop where
  sound : t'.Sound
  content : t'.content = t.content
  marked : t'.markedRange = t.markedRange
  pending : t'.pendingLinks = t.pendingLinks
  inserted : t'.inserted = t.inserted
  multiline : t'.multiline = t.multiline

theorem Moves.trans (h : Moves t t') (h' : Moves t' t'') : Moves t t'' :=
  ⟨h'.sound, h'.content.trans h.content, h'.marked.trans h.marked, h'.pending.trans h.pending,
    h'.inserted.trans h.inserted, h'.multiline.trans h.multiline⟩

theorem Moves.lines (h : Moves t t') : t'.lines = t.lines := by
  unfold TextInput.lines
  rw [h.content, h.pending]

theorem Moves.typed (h : Moves t t') (h' : Typed t' t'') : Typed t t'' where
  sound := h'.sound
  ledger := by rw [h'.ledger, h.inserted, h.pending]
  held hm := (h'.held hm).trans h.inserted
  multiline := h'.multiline.trans h.multiline
  lines hs := h.lines ▸ h'.lines (h.multiline.trans hs)

theorem Sound.typed (h : t.Sound) : Typed t t where
  sound := h
  ledger := (List.append_nil _).symm
  held _ := rfl
  multiline := rfl
  lines _ := le_rfl

theorem Moves.toTyped (h : Moves t t') : Typed t t' := h.typed h.sound.typed

theorem Sound.select (h : t.Sound) (hr : Span t.content r) : Moves t { t with selectedRange := r } :=
  ⟨⟨⟨hr, h.marked, h.completion, h.names, h.anchor, h.snapshots, h.bounded⟩, h.waiting⟩,
    rfl, rfl, rfl, rfl, rfl⟩

theorem Sound.move (h : t.Sound) (hr : Span t.content r) (reversed selecting : Bool)
    {drag : Option (SelectUnit × Range)}
    (hd : ∀ unit r, drag = some (unit, r) → r.start ≤ r.stop) : Moves t { t with
      completion := none
      selectedRange := r
      selectionReversed := reversed
      isSelecting := selecting
      dragUnit := drag } :=
  ⟨⟨⟨hr, h.marked, fun c hc => (by cases hc), fun c hc => (by cases hc), hd, h.snapshots,
    h.bounded⟩, h.waiting⟩, rfl, rfl, rfl, rfl, rfl⟩

theorem moveTo_moves (h : t.Sound) {n : ℕ} (hn : Boundary t.content n) : Moves t (t.moveTo n) :=
  h.move hn.span false t.isSelecting h.anchor

theorem selectTo_moves (h : t.Sound) {n : ℕ} (hn : Boundary t.content n) :
    Moves t (t.selectTo n) := by
  have hrange : ∀ range : Range, Boundary t.content range.start → Boundary t.content range.stop →
      Moves t (if range.stop < range.start then { t with
        completion := none
        selectedRange := ⟨range.stop, range.start⟩
        selectionReversed := !t.selectionReversed }
      else { t with completion := none, selectedRange := range }) := by
    intro range hstart hstop
    split
    · exact h.move ⟨by dsimp only; omega, hstop, hstart⟩ _ t.isSelecting h.anchor
    · exact h.move ⟨by omega, hstart, hstop⟩ t.selectionReversed t.isSelecting h.anchor
  refine hrange _ ?_ ?_
  · split
    · exact hn
    · exact h.selection.start
  · split
    · exact h.selection.stop
    · exact hn

theorem moveTo_selectTo (h : t.Sound) (hr : Span t.content r) :
    Moves t ((t.moveTo r.start).selectTo r.stop) :=
  (moveTo_moves h hr.start).trans (selectTo_moves (moveTo_moves h hr.start).sound hr.stop)

theorem breaks_singleLine (text : List Char) : breaks (singleLineOrNormalized false text) = 0 := by
  unfold breaks singleLineOrNormalized
  rw [List.countP_eq_zero]
  intro c hc
  obtain ⟨d, -, rfl⟩ := List.mem_map.mp hc
  split
  · decide
  · rename_i hno
    exact hno

/-- A text is put in the place of a range. -/
structure Replaces (t t' : TextInput) (start : ℕ) (text : List Char) : Prop
    extends Typed t t' where
  placed : ∃ p q q', t.content = p ++ q ∧ size p = start ∧ t'.content = p ++ text ++ q' ∧
    t'.selectedRange = .at (size (p ++ text))
  unmarked : t'.markedRange = none

theorem replaced_span (h : t.Ranged) {range : Option Range}
    (hr : ∀ r, range = some r → r.start ≤ r.stop) : Span t.content (t.replaced range) := by
  unfold replaced
  cases range with
  | some r => exact span_fromUtf16 t.content (hr r rfl)
  | none =>
    cases hm : t.markedRange with
    | some r => exact h.marked r hm
    | none => exact h.selection

def returns (t : TextInput) (text : List Char) : Prop :=
  t.multiline = false ∧ (text = ['\n'] ∨ text = ['\r'])

theorem replaceTextInRange_returns {text : List Char} (hret : t.returns text)
    (range : Option Range) : t.replaceTextInRange range text = some t := by
  unfold replaceTextInRange
  apply if_pos
  simpa [hret.1] using hret.2

theorem replaceTextInRange_replaces (h : t.Sound) {range : Option Range}
    (hr : ∀ r, range = some r → r.start ≤ r.stop) {text : List Char} (hret : ¬ t.returns text) :
    ∃ t', t.replaceTextInRange range text = some t' ∧ Replaces t t' (t.replaced range).start
      (singleLineOrNormalized t.multiline text) := by
  obtain ⟨p, m, q, hpmq, hstart, hstop⟩ := (replaced_span h.toRanged hr).parts
  unfold replaceTextInRange
  rw [if_neg (by simpa [returns] using hret)]
  have hslice : slice t.content (t.replaced range).start (t.replaced range).stop = some m :=
    slice_eq_some.mpr ⟨p, q, hpmq, hstart, hstop⟩
  set new := singleLineOrNormalized t.multiline text with hnew
  simp only [hslice, Option.bind_eq_bind, Option.bind_some]
  set e := if m = new then t else t.recordEdit with he
  have hranged : e.Ranged := by
    rw [he]
    split
    · exact h.toRanged
    · exact h.toRanged.recordEdit
  obtain ⟨hc, hp, hi, hmulti⟩ : e.content = t.content ∧ e.pendingLinks = t.pendingLinks ∧
      e.inserted = t.inserted ∧ e.multiline = t.multiline := by
    obtain ⟨hc, -, -, -, hp, hi, hmulti⟩ := recordEdit_frame t
    rw [he]
    split
    · exact ⟨rfl, rfl, rfl, rfl⟩
    · exact ⟨hc, hp, hi, hmulti⟩
  have hbefore : split e.content (t.replaced range).start = some (p, m ++ q) :=
    split_eq_some.mpr ⟨by rw [hc, hpmq, List.append_assoc], hstart⟩
  have hafter : split e.content (t.replaced range).stop = some (p ++ m, q) :=
    split_eq_some.mpr ⟨by rw [hc, hpmq], by rw [size_append, hstop]⟩
  simp only [hbefore, hafter, Option.bind_some]
  rw [← hstart, ← size_append]
  have hnone : ∀ r, (none : Option Range) = some r → Span (p ++ new ++ q) r :=
    fun r hr => by cases hr
  obtain ⟨t', ht', hf⟩ := flushPendingLinks_flushes (hranged.rewrite _
    (boundary_append (p ++ new) q).span false hnone e.pendingLinks e.inserted)
  refine ⟨t', ht', ⟨⟨hf.outcome hp hi hmulti, fun hs => ?_⟩, ?_, hf.marked⟩⟩
  · rw [hf.lines]
    unfold TextInput.lines
    have hzero : breaks new = 0 := by
      rw [hnew, hs]
      exact breaks_singleLine text
    rw [hp, hpmq]
    simp only [breaks_append, hzero]
    omega
  · obtain ⟨q', hq', hat⟩ := hf.before (p ++ new) q rfl rfl
    exact ⟨p, m ++ q, q', by rw [hpmq, List.append_assoc], rfl, hq', hat⟩

theorem replaceTextInRange_typed (h : t.Sound) {range : Option Range}
    (hr : ∀ r, range = some r → r.start ≤ r.stop) (text : List Char) :
    ∃ t', t.replaceTextInRange range text = some t' ∧ Typed t t' := by
  by_cases hret : t.returns text
  · exact ⟨t, replaceTextInRange_returns hret range, h.typed⟩
  · obtain ⟨t', ht', hreplaces⟩ := replaceTextInRange_replaces h hr hret
    exact ⟨t', ht', hreplaces.toTyped⟩

theorem replaceAndMark_typed (h : t.Sound) {range selected : Option Range}
    (hr : ∀ r, range = some r → r.start ≤ r.stop)
    (hs : ∀ r, selected = some r → r.start ≤ r.stop) (text : List Char) :
    ∃ t', t.replaceAndMarkTextInRange range text selected = some t' ∧ Typed t t' := by
  obtain ⟨p, m, q, hpmq, hstart, hstop⟩ := (replaced_span h.toRanged hr).parts
  obtain ⟨hc, -, -, -, hp, hi, hmulti⟩ := recordEdit_frame t
  set new := singleLineOrNormalized t.multiline text with hnew
  have hbefore : split t.recordEdit.content (t.replaced range).start = some (p, m ++ q) :=
    split_eq_some.mpr ⟨by rw [hc, hpmq, List.append_assoc], hstart⟩
  have hafter : split t.recordEdit.content (t.replaced range).stop = some (p ++ m, q) :=
    split_eq_some.mpr ⟨by rw [hc, hpmq], by rw [size_append, hstop]⟩
  have hmarked : ∀ r, (if new.isEmpty then none else some (⟨size p, size p + size new⟩ : Range)) =
      some r → Span (p ++ new ++ q) r := by
    intro r hr
    split at hr
    · cases hr
    · cases hr
      exact span_append p new q
  have hgo : ∀ r, Span (p ++ new ++ q) r → ∃ t', flushPendingLinks { t.recordEdit with
      content := p ++ new ++ q
      markedRange := if new.isEmpty then none else some ⟨size p, size p + size new⟩
      selectedRange := r
      selectionReversed := false
      completion := none } = some t' ∧ Typed t t' := by
    intro r hr
    obtain ⟨t', ht', hf⟩ := flushPendingLinks_flushes
      (h.toRanged.recordEdit.rewrite _ hr false hmarked t.recordEdit.pendingLinks
        t.recordEdit.inserted)
    refine ⟨t', ht', hf.outcome hp hi hmulti, fun hs => ?_⟩
    rw [hf.lines]
    unfold TextInput.lines
    have hzero : breaks new = 0 := by
      rw [hnew, hs]
      exact breaks_singleLine text
    rw [hp, hpmq]
    simp only [breaks_append, hzero]
    omega
  unfold replaceAndMarkTextInRange
  simp only [hbefore, hafter, Option.bind_eq_bind, Option.bind_some]
  rw [← hnew, ← hstart]
  cases selected with
  | none =>
    refine hgo (.at (size p + size new)) (Boundary.span ?_)
    rw [← size_append]
    exact boundary_append (p ++ new) q
  | some s => exact hgo _ ((span_fromUtf16 new (hs s rfl)).within p q)

theorem unmarkText_typed (h : t.Sound) : ∃ t', t.unmarkText = some t' ∧ Typed t t' := by
  unfold unmarkText
  split
  swap
  · exact ⟨t, rfl, h.typed⟩
  have hr : Ranged { t with markedRange := none } :=
    ⟨h.selection, fun r hr => (by cases hr), h.completion, h.names, h.anchor, h.snapshots,
      h.bounded⟩
  obtain ⟨t', ht', hf⟩ := flushPendingLinks_flushes hr
  exact ⟨t', ht', hf.outcome rfl rfl rfl, fun _ => hf.lines.le⟩

end Edits

section Whole

theorem rewritten (h : t.Sound) {undo redo : List EditSnapshot} {text : List Char}
    (hr : Span text r) (reversed : Bool) (hs : ∀ e ∈ undo ++ redo, Span e.content e.selection)
    (hb : undo.length + redo.length ≤ 100) : ∃ t', flushPendingLinks { t with
      content := text
      selectedRange := r
      selectionReversed := reversed
      markedRange := none
      completion := none
      undo := undo
      redo := redo } = some t' ∧ Outcome t t' [] := by
  obtain ⟨t', ht', hf⟩ := flushPendingLinks_flushes (t := { t with
      content := text
      selectedRange := r
      selectionReversed := reversed
      markedRange := none
      completion := none
      undo := undo
      redo := redo }) ⟨hr, fun r hr => (by cases hr), fun c hc => (by cases hc),
    fun c hc => (by cases hc), h.anchor, hs, hb⟩
  exact ⟨t', ht', hf.outcome rfl rfl rfl⟩

theorem no_snapshots : ∀ e ∈ ([] ++ [] : List EditSnapshot), Span e.content e.selection :=
  fun e he => by cases he

theorem clearAfterSend_outcome (h : t.Sound) :
    ∃ t', t.clearAfterSend = some t' ∧ Outcome t t' [] :=
  rewritten h (boundary_zero []).span false no_snapshots (Nat.zero_le _)

theorem setText_outcome (h : t.Sound) (value : List Char) :
    ∃ t', t.setText value = some t' ∧ Outcome t t' [] :=
  rewritten h (boundary_size value).span false no_snapshots (Nat.zero_le _)

theorem replaceText_outcome (h : t.Sound) (value : List Char) :
    ∃ t', t.replaceText value = some t' ∧ Outcome t t' [] := by
  have hr := h.toRanged.recordEdit
  unfold replaceText
  dsimp only
  split
  · exact rewritten h (boundary_floor value _).span false h.snapshots h.bounded
  · rcases recordEdit_eq t with heq | heq
    · rw [heq]
      exact rewritten h (boundary_floor value _).span false h.snapshots h.bounded
    · rw [heq] at hr ⊢
      exact rewritten h (boundary_floor value _).span false hr.snapshots hr.bounded

theorem undoEdit_outcome (h : t.Sound) : ∃ t', t.undoEdit = some t' ∧ Outcome t t' [] := by
  unfold undoEdit
  cases hl : t.undo.getLast? with
  | none => exact ⟨t, rfl, h.typed.toOutcome⟩
  | some e =>
    have hmem := List.mem_of_getLast? hl
    have hlen := List.length_pos_of_mem hmem
    refine rewritten h (h.snapshots e (List.mem_append_left _ hmem)) e.reversed ?_ ?_
    · intro e' he'
      rcases List.mem_append.mp he' with he' | he'
      · exact h.snapshots e' (List.mem_append_left _ (List.mem_of_mem_dropLast he'))
      rcases List.mem_append.mp he' with he' | he'
      · exact h.snapshots e' (List.mem_append_right _ he')
      · rw [List.mem_singleton.mp he']
        exact h.selection
    · have := h.bounded
      rw [List.length_dropLast, List.length_append, List.length_singleton]
      omega

theorem redoEdit_outcome (h : t.Sound) : ∃ t', t.redoEdit = some t' ∧ Outcome t t' [] := by
  unfold redoEdit
  cases hl : t.redo.getLast? with
  | none => exact ⟨t, rfl, h.typed.toOutcome⟩
  | some e =>
    have hmem := List.mem_of_getLast? hl
    have hlen := List.length_pos_of_mem hmem
    refine rewritten h (h.snapshots e (List.mem_append_right _ hmem)) e.reversed ?_ ?_
    · intro e' he'
      rcases List.mem_append.mp he' with he' | he'
      · rcases List.mem_append.mp he' with he' | he'
        · exact h.snapshots e' (List.mem_append_left _ he')
        · rw [List.mem_singleton.mp he']
          exact h.selection
      · exact h.snapshots e' (List.mem_append_right _ (List.mem_of_mem_dropLast he'))
    · have := h.bounded
      rw [List.length_dropLast, List.length_append, List.length_singleton]
      omega

theorem insertLink_outcome (h : t.Sound) (link : List Char) :
    ∃ t', t.insertLink link = some t' ∧ Outcome t t' [link] := by
  unfold insertLink
  split
  · rename_i hm
    refine ⟨_, rfl, ⟨⟨⟨h.selection, h.marked, h.completion, h.names, h.anchor, h.snapshots,
      h.bounded⟩, fun hno => ?_⟩, (List.append_assoc ..).symm, fun _ => rfl, rfl⟩⟩
    change t.markedRange = none at hno
    rw [hno] at hm
    cases hm
  · rename_i hm
    have hnone : t.markedRange = none := by simpa using hm
    obtain ⟨t', ht', hi⟩ := insertLinkNow_inserts h.toRanged link
    have hpending := hi.pending.trans (h.waiting hnone)
    refine ⟨t', ht', ⟨hi.ranged, fun _ => hpending⟩, ?_, fun hsome => ?_, hi.multiline⟩
    · rw [hi.inserted, hpending, h.waiting hnone, List.append_nil, List.append_nil]
    · rw [hi.marked] at hsome
      cases hsome

end Whole

end TextInput

end CayenChat.Editing
