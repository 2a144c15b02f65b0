import CayenChat.Editing.InputRuns
import CayenChat.Lib.Timeline

/-! # What is recorded

Outside a composition an operation that changes the text records the text as
it was, and one that only selects records nothing. During a composition
nothing is recorded until it ends, and then every link that waited is.
-/

namespace CayenChat.Editing

open Utf8 Timeline

namespace Op

/-- Whether an operation only selects, or only reads. -/
def quiet : Op → Bool
  | .textForRange _ | .left | .right | .selectLeft | .selectRight | .selectAll | .home | .end
  | .selectHome | .selectEnd | .documentStart | .documentEnd | .selectDocumentStart
  | .selectDocumentEnd | .moveRows _ _ | .wordLeft | .wordRight | .selectWordLeft
  | .selectWordRight | .copy | .onMouseDown _ _ _ | .onMouseMove _ | .onMouseUp _
  | .setLineQuote _ => true
  | _ => false

def plain : Op → Bool
  | .replaceTextInRange _ _ | .insertNewline | .backspace | .delete | .deleteWordBackward
  | .deleteWordForward | .deleteToBeginning | .deleteToEnd | .deleteLine | .deleteWhitespace
  | .collapseWhitespace | .cut | .completeNickname _ => true
  | _ => false

def edits (op : Op) : Bool :=
  op.plain || match op with
    | .insertPasted _ _ | .insertLink _ | .replaceText _ => true
    | _ => false

def composes : Op → Bool
  | .insertPasted _ _ | .undo | .redo | .setText _ | .clearAfterSend => false
  | _ => true

theorem links_eq_nil {op : Op} (h : op.quiet = true ∨ op.plain = true) : op.links = [] := by
  cases op with
  | insertLink link => rcases h with h | h <;> cases h
  | _ => rfl

/-- Whether an edit records the selection it finds, and does not select what it replaces first. A
link that is pasted over itself is replaced by the shortened one in a second edit, which selects
forwards. -/
def direct (op : Op) (t : TextInput) : Bool :=
  match op with
  | .backspace | .delete | .deleteWordBackward | .deleteWordForward | .deleteToBeginning
  | .deleteToEnd => !t.noSelection
  | .deleteLine | .deleteWhitespace | .collapseWhitespace | .completeNickname _ => false
  | .insertPasted text _ => !(t.selectionReversed &&
      slice t.content t.selectedRange.start t.selectedRange.stop ==
        some (TextInput.singleLineOrNormalized t.multiline (t.pasted text)))
  | _ => true

end Op

namespace TextInput

def line (t : TextInput) : Line EditSnapshot := ⟨t.undo, t.snapshot, t.redo⟩

/-- No composition lasts, and no link waits for the end of one. -/
structure Calm (t : TextInput) : Prop where
  marked : t.markedRange = none
  pending : t.pendingLinks = []

/-- Links wait only during a composition, and the steps are bounded. -/
structure Settled (t : TextInput) : Prop where
  waiting : t.markedRange = none → t.pendingLinks = []
  bounded : t.undo.length + t.redo.length ≤ 100

/-- The text and its steps stay. -/
structure Selected (t t' : TextInput) : Prop where
  content : t'.content = t.content
  undo : t'.undo = t.undo
  redo : t'.redo = t.redo
  marked : t'.markedRange = t.markedRange
  pending : t'.pendingLinks = t.pendingLinks

/-- What an edit records. -/
structure Records (t t' : TextInput) (taken : List EditSnapshot) : Prop where
  undo : t'.undo = newest 100 (t.undo ++ taken)
  redo : t'.redo = if taken = [] then t.redo else []

variable {script : Script} {parse : List Char → Option Amazon.Link} {t t₁ t' t'' : TextInput}
  {taken later : List EditSnapshot} {op : Op} {range : Option Range} {text : List Char}

theorem Selected.refl (t : TextInput) : Selected t t := ⟨rfl, rfl, rfl, rfl, rfl⟩

theorem Selected.trans (h : Selected t t') (h' : Selected t' t'') : Selected t t'' :=
  ⟨h'.content.trans h.content, h'.undo.trans h.undo, h'.redo.trans h.redo,
    h'.marked.trans h.marked, h'.pending.trans h.pending⟩

theorem Selected.settled (h : Selected t t') (hs : t.Settled) : t'.Settled where
  waiting hm := h.pending.trans (hs.waiting (h.marked ▸ hm))
  bounded := by rw [h.undo, h.redo]; exact hs.bounded

theorem Selected.calm (h : Selected t t') (hc : t.Calm) : t'.Calm :=
  ⟨h.marked.trans hc.marked, h.pending.trans hc.pending⟩

theorem Settled.calm (h : t.Settled) (hm : t.markedRange = none) : t.Calm := ⟨hm, h.waiting hm⟩

theorem Records.refl (hb : t.undo.length ≤ 100) : Records t t [] where
  undo := by rw [List.append_nil, newest_of_le hb]
  redo := rfl

theorem Records.trans (h : Records t t' taken) (h' : Records t' t'' later) :
    Records t t'' (taken ++ later) where
  undo := by rw [h'.undo, h.undo, newest_append_newest, List.append_assoc]
  redo := by
    rw [h'.redo, h.redo]
    cases taken <;> cases later <;> rfl

theorem Selected.records (h : Selected t t') (hb : t.undo.length ≤ 100) : Records t t' [] where
  undo := by rw [h.undo, List.append_nil, newest_of_le hb]
  redo := h.redo

theorem Records.within {t₂ : TextInput} (h : Records t₁ t₂ taken) (hb : Selected t t₁)
    (ha : Selected t₂ t') : Records t t' taken where
  undo := by rw [ha.undo, h.undo, hb.undo]
  redo := by rw [ha.redo, h.redo, hb.redo]

section Quiet

theorem moveTo_selected (n : ℕ) : Selected t (t.moveTo n) := ⟨rfl, rfl, rfl, rfl, rfl⟩

theorem selectTo_selected (n : ℕ) : Selected t (t.selectTo n) := by
  have hrange : ∀ range : Range, Selected t (if range.stop < range.start then { t with
      completion := none
      selectedRange := ⟨range.stop, range.start⟩
      selectionReversed := !t.selectionReversed }
    else { t with completion := none, selectedRange := range }) := by
    intro range
    split <;> exact ⟨rfl, rfl, rfl, rfl, rfl⟩
  exact hrange _

theorem select_selected (r : Range) : Selected t ((t.moveTo r.start).selectTo r.stop) :=
  (moveTo_selected _).trans (selectTo_selected _)

theorem onMouseDown_selected {offset clickCount : ℕ} {shift : Bool}
    (h : t.onMouseDown script offset clickCount shift = some t') : Selected t t' := by
  unfold onMouseDown at h
  split at h
  · cases h
    have hclick : Selected t { t with isSelecting := false } := ⟨rfl, rfl, rfl, rfl, rfl⟩
    exact hclick.trans ((moveTo_selected _).trans (selectTo_selected _))
  have hpress : Selected t { t with isSelecting := true, dragUnit := none } :=
    ⟨rfl, rfl, rfl, rfl, rfl⟩
  dsimp only at h
  split at h
  · cases h
    exact hpress.trans (selectTo_selected _)
  cases hunit : SelectUnit.ofClick clickCount with
  | none =>
    rw [hunit] at h
    cases h
    exact hpress.trans (moveTo_selected _)
  | some unit =>
    rw [hunit] at h
    dsimp only at h
    split at h
    · cases h
      exact hpress.trans (moveTo_selected _)
    · obtain ⟨r, -, hr⟩ := Option.bind_eq_some_iff.mp h
      cases hr
      exact hpress.trans ((select_selected r).trans ⟨rfl, rfl, rfl, rfl, rfl⟩)

theorem onMouseMove_selected {offset : ℕ} (h : t.onMouseMove script offset = some t') :
    Selected t t' := by
  unfold onMouseMove at h
  split at h
  swap
  · cases h
    exact .refl t
  unfold dragTo at h
  cases hdrag : t.dragUnit with
  | none =>
    rw [hdrag] at h
    cases h
    exact selectTo_selected _
  | some drag =>
    obtain ⟨unit, anchor⟩ := drag
    rw [hdrag] at h
    obtain ⟨r, -, hr⟩ := Option.bind_eq_some_iff.mp h
    split at hr <;> cases hr <;> exact ⟨rfl, rfl, rfl, rfl, rfl⟩

theorem onMouseUp_selected {offset : ℕ} (h : t.onMouseUp script offset = some t') :
    Selected t t' := by
  obtain ⟨t₁, h₁, rfl⟩ := Option.map_eq_some_iff.mp h
  exact (onMouseMove_selected h₁).trans ⟨rfl, rfl, rfl, rfl, rfl⟩

theorem step_quiet (hq : op.quiet = true) (h : t.step script parse op = some t') :
    Selected t t' := by
  have hmove : ∀ n, some (t.moveTo n) = some t' → Selected t t' := by
    rintro n h
    cases h
    exact moveTo_selected n
  have hselect : ∀ n, some (t.selectTo n) = some t' → Selected t t' := by
    rintro n h
    cases h
    exact selectTo_selected n
  have hat : ∀ o : Option ℕ, (o.map t.moveTo = some t' ∨ o.map t.selectTo = some t') →
      Selected t t' := by
    rintro (- | n) (h | h)
    · cases h
    · cases h
    · exact hmove n h
    · exact hselect n h
  have hread : ∀ {α : Type} (o : Option α), (o.map fun _ => t) = some t' → Selected t t' := by
    rintro α o h
    obtain ⟨-, -, rfl⟩ := Option.map_eq_some_iff.mp h
    exact .refl t
  cases op with
  | textForRange range => exact hread _ h
  | copy => exact hread _ h
  | left =>
    change some (t.left script) = some t' at h
    unfold left at h
    split at h <;> exact hmove _ h
  | right =>
    change some (t.right script) = some t' at h
    unfold right at h
    split at h <;> exact hmove _ h
  | selectLeft => exact hselect _ h
  | selectRight => exact hselect _ h
  | selectAll =>
    cases h
    exact (moveTo_selected _).trans (selectTo_selected _)
  | home => exact hat _ (.inl h)
  | «end» => exact hat _ (.inl h)
  | selectHome => exact hat _ (.inr h)
  | selectEnd => exact hat _ (.inr h)
  | documentStart => exact hmove _ h
  | documentEnd => exact hmove _ h
  | selectDocumentStart => exact hselect _ h
  | selectDocumentEnd => exact hselect _ h
  | moveRows target select =>
    change some (t.moveRows target select) = some t' at h
    unfold moveRows at h
    split at h
    · exact hselect _ h
    · exact hmove _ h
  | wordLeft => exact hmove _ h
  | wordRight => exact hmove _ h
  | selectWordLeft => exact hselect _ h
  | selectWordRight => exact hselect _ h
  | onMouseDown offset clickCount shift => exact onMouseDown_selected h
  | onMouseMove offset => exact onMouseMove_selected h
  | onMouseUp offset => exact onMouseUp_selected h
  | setLineQuote quote =>
    cases h
    exact ⟨rfl, rfl, rfl, rfl, rfl⟩
  | _ => cases hq

end Quiet

section Recording

theorem recordEdit_records (hm : t.markedRange = none) (hb : t.undo.length ≤ 100) :
    Records t t.recordEdit [t.snapshot] := by
  unfold recordEdit
  rw [if_pos (by simp [hm])]
  refine ⟨?_, rfl⟩
  simp only
  by_cases hfull : t.undo.length = 100
  · rw [if_pos hfull, newest, List.length_append, hfull]
    exact (List.drop_append_of_le_length (by omega)).symm
  · rw [if_neg hfull, newest_of_le]
    simp only [List.length_append, List.length_singleton]
    omega

theorem recordEdit_composing (hm : t.markedRange ≠ none) : t.recordEdit = t := by
  unfold recordEdit
  rw [if_neg]
  simpa using hm

theorem recordEdit_bounded (hb : t.undo.length + t.redo.length ≤ 100) :
    t.recordEdit.undo.length + t.recordEdit.redo.length ≤ 100 := by
  by_cases hm : t.markedRange = none
  · have h := recordEdit_records hm (by omega)
    rw [h.undo, h.redo, length_newest, if_neg (List.cons_ne_nil _ _)]
    simp
  · rw [recordEdit_composing hm]
    exact hb

/-- The links are inserted with one record each, the first of the text before. -/
structure Linked (t t' : TextInput) (n : ℕ) (taken : List EditSnapshot) : Prop where
  records : Records t t' taken
  count : taken.length = n
  first : ∀ s ∈ taken.head?, s = t.snapshot
  kept : taken = [] → t'.content = t.content
  marked : t'.markedRange = none
  pending : t'.pendingLinks = t.pendingLinks
  bounded : t'.undo.length + t'.redo.length ≤ 100

theorem Linked.refl (hm : t.markedRange = none) (hb : t.undo.length + t.redo.length ≤ 100) :
    Linked t t 0 [] :=
  ⟨.refl (by omega), rfl, fun s hs => (by cases hs), fun _ => rfl, hm, rfl, hb⟩

theorem insertLinkNow_linked {link : List Char} (hm : t.markedRange = none)
    (hb : t.undo.length + t.redo.length ≤ 100) (h : t.insertLinkNow link = some t') :
    Linked t t' 1 [t.snapshot] := by
  obtain ⟨-, -, -, -, hp, -⟩ := recordEdit_frame t
  have hr := recordEdit_records hm (by omega)
  obtain ⟨⟨before, after⟩, -, hsome⟩ := Option.bind_eq_some_iff.mp h
  cases hsome
  exact ⟨⟨hr.undo, hr.redo⟩, rfl, fun s hs => (Option.some.inj hs).symm, fun h => (by cases h),
    rfl, hp, recordEdit_bounded hb⟩

theorem insertLinks_linked {links : List (List Char)} (hm : t.markedRange = none)
    (hb : t.undo.length + t.redo.length ≤ 100)
    (h : links.foldlM insertLinkNow t = some t') : ∃ taken, Linked t t' links.length taken := by
  induction links generalizing t with
  | nil =>
    cases h
    exact ⟨[], .refl hm hb⟩
  | cons link links ih =>
    rw [List.foldlM_cons] at h
    obtain ⟨t₁, h₁, hrest⟩ := Option.bind_eq_some_iff.mp h
    have hlink := insertLinkNow_linked hm hb h₁
    obtain ⟨later, hlater⟩ := ih hlink.marked hlink.bounded hrest
    refine ⟨t.snapshot :: later, hlink.records.trans hlater.records, ?_, ?_, ?_, hlater.marked,
      hlater.pending.trans hlink.pending, hlater.bounded⟩
    · rw [List.length_cons, hlater.count, List.length_cons]
    · rintro s hs
      exact (Option.some.inj hs).symm
    · rintro hnil
      cases hnil

/-- What is left to do when a text has changed: the links are inserted unless a composition goes
on. -/
theorem flush_cases (hb : t.undo.length + t.redo.length ≤ 100)
    (h : t.flushPendingLinks = some t') : t'.Settled ∧
    ((t.markedRange ≠ none ∧ t' = t) ∨
      (t.markedRange = none ∧ t'.Calm ∧ ∃ taken, Linked { t with pendingLinks := [] } t'
        t.pendingLinks.length taken)) := by
  unfold flushPendingLinks at h
  by_cases hm : t.markedRange = none
  · by_cases hp : t.pendingLinks = []
    · rw [if_pos (by simp [hp])] at h
      cases h
      have he : { t with pendingLinks := [] } = t := by rw [← hp]
      refine ⟨⟨fun _ => hp, hb⟩, .inr ⟨hm, ⟨hm, hp⟩, [], ?_⟩⟩
      rw [he, hp]
      exact .refl hm hb
    · rw [if_neg (by simp [hm, hp])] at h
      obtain ⟨taken, hl⟩ := insertLinks_linked (t := { t with pendingLinks := [] }) hm hb h
      exact ⟨⟨fun _ => hl.pending, hl.bounded⟩, .inr ⟨hm, ⟨hl.marked, hl.pending⟩, taken, hl⟩⟩
  · rw [if_pos (by simp [Option.isSome_iff_ne_none, hm])] at h
    cases h
    exact ⟨⟨fun hno => absurd hno hm, hb⟩, .inl ⟨hm, rfl⟩⟩

theorem flush_calm (h : t.Calm) : t.flushPendingLinks = some t := by
  unfold flushPendingLinks
  rw [if_pos (by simp [h.pending])]

end Recording

section Replacing

/-- A range of the text was replaced: the text around it is as it was. -/
structure Spliced (content : List Char) (r : Range) (content' : List Char) (old new : List Char) :
    Prop where
  around : ∃ p q, content = p ++ old ++ q ∧ r = ⟨size p, size (p ++ old)⟩ ∧
    content' = p ++ new ++ q

theorem Spliced.same_iff {content content' old new : List Char} {r : Range}
    (h : Spliced content r content' old new) : content' = content ↔ old = new := by
  obtain ⟨p, q, rfl, -, rfl⟩ := h.around
  rw [List.append_left_inj, List.append_right_inj]
  exact eq_comm

theorem split_spliced {content old before after x y : List Char} {start stop : ℕ}
    (hold : slice content start stop = some old) (hb : split content start = some (before, x))
    (ha : split content stop = some (y, after)) (new : List Char) :
    Spliced content ⟨start, stop⟩ (before ++ new ++ after) old new := by
  obtain ⟨p, q, hc, hp, hpo⟩ := slice_eq_some.mp hold
  have hbefore : some (p, old ++ q) = some (before, x) :=
    (split_eq_some.mpr ⟨by rw [hc, List.append_assoc], hp⟩).symm.trans hb
  have hafter : some (p ++ old, q) = some (y, after) :=
    (split_eq_some.mpr ⟨hc, by rw [size_append, hpo]⟩).symm.trans ha
  cases hbefore
  cases hafter
  exact ⟨before, after, hc, by rw [size_append, hpo, hp], rfl⟩

/-- A replacement is dropped as a Return, or a range is replaced, recorded when that changes the
text. -/
theorem replaceTextInRange_cases (h : t.replaceTextInRange range text = some t') :
    t' = t ∨ ∃ old content, Spliced t.content (t.replaced range) content old
        (singleLineOrNormalized t.multiline text) ∧
      flushPendingLinks { (if old = singleLineOrNormalized t.multiline text then t
          else t.recordEdit) with
        content := content
        selectedRange := .at ((t.replaced range).start +
          size (singleLineOrNormalized t.multiline text))
        selectionReversed := false
        markedRange := none
        completion := none } = some t' := by
  unfold replaceTextInRange at h
  split at h
  · cases h
    exact .inl rfl
  right
  dsimp only at h
  obtain ⟨old, hold, h⟩ := Option.bind_eq_some_iff.mp h
  obtain ⟨⟨before, x⟩, hb, h⟩ := Option.bind_eq_some_iff.mp h
  obtain ⟨⟨y, after⟩, ha, h⟩ := Option.bind_eq_some_iff.mp h
  have hc : ∀ new : List Char, (if old = new then t else t.recordEdit).content = t.content := by
    intro new
    split
    · rfl
    · exact (recordEdit_frame t).1
  rw [hc] at hb ha
  exact ⟨old, _, split_spliced hold hb ha _, h⟩

/-- An operation may select, replaces a range, and may select again; a direct one replaces where it
is asked to, any other what it has selected. -/
def Rewrites (direct : Bool) (t t' : TextInput) : Prop :=
  Selected t t' ∨ ∃ t₀ range text t₁, Selected t t₀ ∧ (direct = true → t₀ = t) ∧
    (direct = false → range = none) ∧ t₀.replaceTextInRange range text = some t₁ ∧ Selected t₁ t'

theorem rewrites_direct {direct : Bool} (hd : direct = true)
    (h : t.replaceTextInRange range text = some t') : Rewrites direct t t' :=
  .inr ⟨t, range, text, t', .refl t, fun _ => rfl, fun hno => absurd (hd.symm.trans hno) (by simp),
    h, .refl t'⟩

theorem rewrites_selected {t₀ : TextInput} (hs : Selected t t₀)
    (h : t₀.replaceTextInRange none text = some t') : Rewrites false t t' :=
  .inr ⟨t₀, none, text, t', hs, fun hd => (by cases hd), fun _ => rfl, h, .refl t'⟩

theorem deleteTo_rewrites {n : ℕ} (h : t.deleteTo n = some t') : Rewrites (!t.noSelection) t t' := by
  unfold deleteTo at h
  split at h
  · rename_i hsel
    rw [hsel]
    exact rewrites_selected (selectTo_selected n) h
  · rename_i hsel
    exact rewrites_direct (by simpa using hsel) h

theorem replaceWhitespace_rewrites (h : t.replaceWhitespace text = some t') :
    Rewrites false t t' := by
  obtain ⟨r, -, h⟩ := Option.bind_eq_some_iff.mp h
  obtain ⟨old, -, h⟩ := Option.bind_eq_some_iff.mp h
  split at h
  · cases h
    exact .inl (.refl t)
  · exact rewrites_selected (select_selected r) h

theorem completeWith_rewrites {span : Range} {names : List (List Char)} {index : ℕ}
    (h : t.completeWith span names index = some t') : Rewrites false t t' := by
  obtain ⟨name, -, h⟩ := Option.bind_eq_some_iff.mp h
  obtain ⟨t₁, h₁, h⟩ := Option.bind_eq_some_iff.mp h
  cases h
  exact .inr ⟨{ t with selectedRange := span }, none, name, t₁, ⟨rfl, rfl, rfl, rfl, rfl⟩,
    fun hd => (by cases hd), fun _ => rfl, h₁, ⟨rfl, rfl, rfl, rfl, rfl⟩⟩

theorem step_plain (hq : op.plain = true) (h : t.step script parse op = some t') :
    Rewrites (op.direct t) t t' := by
  cases op with
  | replaceTextInRange range text => exact rewrites_direct rfl h
  | insertNewline =>
    change t.insertNewline = some t' at h
    unfold insertNewline at h
    cases hquote : t.lineQuote with
    | none =>
      rw [hquote] at h
      exact rewrites_direct rfl h
    | some quote =>
      rw [hquote] at h
      dsimp only at h
      obtain ⟨⟨before, after⟩, -, h⟩ := Option.bind_eq_some_iff.mp h
      dsimp only at h
      split at h
      · obtain ⟨l, -, h⟩ := Option.bind_eq_some_iff.mp h
        split at h <;> exact rewrites_direct rfl h
      · exact rewrites_direct rfl h
  | backspace => exact deleteTo_rewrites h
  | delete => exact deleteTo_rewrites h
  | deleteWordBackward => exact deleteTo_rewrites h
  | deleteWordForward => exact deleteTo_rewrites h
  | deleteToBeginning =>
    change t.deleteToBeginning = some t' at h
    unfold deleteToBeginning at h
    split at h
    · obtain ⟨l, -, h⟩ := Option.bind_eq_some_iff.mp h
      exact deleteTo_rewrites h
    · rename_i hsel
      exact rewrites_direct (by simpa [Op.direct] using hsel) h
  | deleteToEnd =>
    change t.deleteToEnd script = some t' at h
    unfold deleteToEnd at h
    split at h
    · obtain ⟨l, -, h⟩ := Option.bind_eq_some_iff.mp h
      exact deleteTo_rewrites h
    · rename_i hsel
      exact rewrites_direct (by simpa [Op.direct] using hsel) h
  | deleteLine =>
    obtain ⟨r, -, h⟩ := Option.bind_eq_some_iff.mp (show t.deleteLine = some t' from h)
    exact rewrites_selected (select_selected r) h
  | deleteWhitespace => exact replaceWhitespace_rewrites h
  | collapseWhitespace => exact replaceWhitespace_rewrites h
  | cut =>
    obtain ⟨copied, -, h⟩ := Option.bind_eq_some_iff.mp (show t.cut = some t' from h)
    cases copied with
    | none =>
      cases h
      exact .inl (.refl t)
    | some copied => exact rewrites_direct rfl h
  | completeNickname members =>
    change t.completeNickname script members = some t' at h
    unfold completeNickname at h
    split at h
    · cases h
      exact .inl (.refl t)
    obtain ⟨found, -, h⟩ := Option.bind_eq_some_iff.mp h
    cases found with
    | some previous => exact completeWith_rewrites h
    | none =>
      obtain ⟨start, -, h⟩ := Option.bind_eq_some_iff.mp h
      obtain ⟨typed, -, h⟩ := Option.bind_eq_some_iff.mp h
      dsimp only at h
      split at h
      · cases h
        exact .inl (.refl t)
      · exact completeWith_rewrites h
  | _ => cases hq

end Replacing

end TextInput

def EditSnapshot.Shows (s : EditSnapshot) (content : List Char) : Prop :=
  ∃ old new, TextInput.Spliced s.content s.selection content old new

namespace TextInput

/-- What an edit outside a composition leaves and records. -/
structure Took (direct : Bool) (t t' : TextInput) (taken : List EditSnapshot) : Prop where
  calm : t'.Calm
  bounded : t'.undo.length + t'.redo.length ≤ 100
  records : Records t t' taken
  content : ∀ s ∈ taken.head?, s.content = t.content
  exact : direct = true → ∀ s ∈ taken.head?, s = t.snapshot
  kept : taken = [] → t'.content = t.content

variable {script : Script} {parse : List Char → Option Amazon.Link} {t t₁ t' t'' : TextInput}
  {taken later : List EditSnapshot} {op : Op} {range : Option Range} {text : List Char}
  {direct : Bool}

section Single

theorem Selected.took (h : Selected t t') (hc : t.Calm) (hb : t.undo.length + t.redo.length ≤ 100) :
    Took direct t t' [] where
  calm := h.calm hc
  bounded := by rw [h.undo, h.redo]; exact hb
  records := h.records (by omega)
  content s hs := by cases hs
  exact _ s hs := by cases hs
  kept _ := h.content

theorem rewritten_same (direct : Bool) {content : List Char} {r : Range} (hc : t.Calm)
    (hb : t.undo.length + t.redo.length ≤ 100) (hsame : content = t.content)
    (h : flushPendingLinks { t with
      content := content
      selectedRange := r
      selectionReversed := false
      markedRange := none
      completion := none } = some t') :
    t'.snapshot = ⟨t.content, r, false⟩ ∧ Took direct t t' [] := by
  set e : TextInput := { t with
    content := content
    selectedRange := r
    selectionReversed := false
    markedRange := none
    completion := none } with he
  have hstays : Selected t e := ⟨hsame, rfl, rfl, hc.marked.symm, rfl⟩
  rw [flush_calm (hstays.calm hc)] at h
  obtain rfl : e = t' := Option.some.inj h
  exact ⟨by rw [← hsame]; rfl, hstays.took hc hb⟩

theorem rewritten_recorded {content : List Char} {r : Range} (hc : t.Calm)
    (hb : t.undo.length + t.redo.length ≤ 100) (h : flushPendingLinks { t.recordEdit with
      content := content
      selectedRange := r
      selectionReversed := false
      markedRange := none
      completion := none } = some t') :
    t'.content = content ∧ Took true t t' [t.snapshot] := by
  have hp : t.recordEdit.pendingLinks = t.pendingLinks := (recordEdit_frame t).2.2.2.2.1
  have hr := recordEdit_records hc.marked (by omega)
  set e : TextInput := { t.recordEdit with
    content := content
    selectedRange := r
    selectionReversed := false
    markedRange := none
    completion := none } with he
  have hcalm : e.Calm := ⟨rfl, hp.trans hc.pending⟩
  rw [flush_calm hcalm] at h
  obtain rfl : e = t' := Option.some.inj h
  refine ⟨rfl, hcalm, recordEdit_bounded hb, ⟨hr.undo, hr.redo⟩, ?_, ?_, fun hno => by cases hno⟩
  · rintro s hmem
    cases hmem
    rfl
  · rintro - s hmem
    exact (Option.some.inj hmem).symm

theorem replaceTextInRange_took (hc : t.Calm) (hb : t.undo.length + t.redo.length ≤ 100)
    (h : t.replaceTextInRange range text = some t') :
    ∃ taken, Took true t t' taken ∧ taken.length ≤ 1 ∧ (t'.content = t.content → taken = []) ∧
      (range = none → taken ≠ [] → t.snapshot.Shows t'.content) := by
  rcases replaceTextInRange_cases h with rfl | ⟨old, content, hs, hf⟩
  · exact ⟨[], (Selected.refl t').took hc hb, by simp, fun _ => rfl, fun _ hno => absurd rfl hno⟩
  by_cases hsame : old = singleLineOrNormalized t.multiline text
  · rw [if_pos hsame] at hf
    obtain ⟨-, htook⟩ := rewritten_same true hc hb (hs.same_iff.mpr hsame) hf
    exact ⟨[], htook, by simp, fun _ => rfl, fun _ hno => absurd rfl hno⟩
  · rw [if_neg hsame] at hf
    obtain ⟨hcontent, htook⟩ := rewritten_recorded hc hb hf
    rw [hcontent]
    refine ⟨[t.snapshot], htook, le_rfl, fun heq => absurd (hs.same_iff.mp heq) hsame, ?_⟩
    rintro rfl -
    have hreplaced : t.replaced none = t.selectedRange := by
      unfold replaced
      rw [hc.marked]
      rfl
    exact ⟨old, _, hreplaced ▸ hs⟩

theorem replaceTextInRange_over_itself (hc : t.Calm) (hb : t.undo.length + t.redo.length ≤ 100)
    (h : t.replaceTextInRange none text = some t') (hsame : t'.content = t.content) : t' = t ∨
    slice t.content t.selectedRange.start t.selectedRange.stop =
        some (singleLineOrNormalized t.multiline text) ∧
      t'.snapshot = ⟨t.content, .at t.selectedRange.stop, false⟩ := by
  have hreplaced : t.replaced none = t.selectedRange := by
    unfold replaced
    rw [hc.marked]
    rfl
  rcases replaceTextInRange_cases h with rfl | ⟨old, content, hs, hf⟩
  · exact .inl rfl
  rw [hreplaced] at hs hf
  by_cases hold : old = singleLineOrNormalized t.multiline text
  · rw [if_pos hold] at hf
    obtain ⟨p, q, hpq, hr, -⟩ := hs.around
    have hsnap := (rewritten_same true hc hb (hs.same_iff.mpr hold) hf).1
    refine .inr ⟨?_, ?_⟩
    · rw [← hold]
      exact slice_eq_some.mpr ⟨p, q, hpq, by rw [hr], by rw [hr, size_append]⟩
    · rw [hsnap, ← hold, hr, size_append]
  · rw [if_neg hold] at hf
    obtain ⟨hcontent, -⟩ := rewritten_recorded hc hb hf
    exact absurd (hs.same_iff.mp (hcontent ▸ hsame)) hold

theorem Rewrites.took (h : Rewrites direct t t') (hc : t.Calm)
    (hb : t.undo.length + t.redo.length ≤ 100) :
    ∃ taken, Took direct t t' taken ∧ taken.length ≤ 1 ∧ (t'.content = t.content → taken = []) ∧
      (direct = false → ∀ s ∈ taken.head?, s.Shows t'.content) := by
  rcases h with h | ⟨t₀, range, text, t₁, hs, hd, hr, h, hs'⟩
  · exact ⟨[], h.took hc hb, by simp, fun _ => rfl, fun _ s hs => (by cases hs)⟩
  have hb₀ : t₀.undo.length + t₀.redo.length ≤ 100 := by rw [hs.undo, hs.redo]; exact hb
  obtain ⟨taken, htook, hcount, hsame, hshows⟩ := replaceTextInRange_took (hs.calm hc) hb₀ h
  refine ⟨taken, ⟨hs'.calm htook.calm, ?_, htook.records.within hs hs', ?_, ?_, ?_⟩, hcount, ?_, ?_⟩
  · rw [hs'.undo, hs'.redo]
    exact htook.bounded
  · rintro s hmem
    exact (htook.content s hmem).trans hs.content
  · rintro hdirect s hmem
    rw [htook.exact rfl s hmem, hd hdirect]
  · rintro hnil
    rw [hs'.content, htook.kept hnil, hs.content]
  · rintro heq
    apply hsame
    rw [← hs'.content, heq, hs.content]
  · rintro hno s hmem
    rw [htook.exact rfl s hmem, hs'.content]
    apply hshows (hr hno)
    rintro rfl
    cases hmem

theorem Took.trans (h : Took direct t t' taken) (h' : Took true t' t'' later)
    (hd : direct = true → taken = [] → later ≠ [] → t'.snapshot = t.snapshot) :
    Took direct t t'' (taken ++ later) where
  calm := h'.calm
  bounded := h'.bounded
  records := h.records.trans h'.records
  content s hs := by
    cases taken with
    | nil => exact (h'.content s hs).trans (h.kept rfl)
    | cons first rest => exact h.content s hs
  exact hdirect s hs := by
    cases taken with
    | nil =>
      rw [h'.exact rfl s hs]
      apply hd hdirect rfl
      rintro rfl
      cases hs
    | cons first rest => exact h.exact hdirect s hs
  kept hnil := by
    obtain ⟨hnone, hlater⟩ := List.append_eq_nil_iff.mp hnil
    rw [h'.kept hlater, h.kept hnone]

theorem insertPasted_took {shortens : Bool} (hc : t.Calm)
    (hb : t.undo.length + t.redo.length ≤ 100) (h : t.insertPasted parse text shortens = some t') :
    ∃ taken, Took ((Op.insertPasted text shortens).direct t) t t' taken ∧ taken.length ≤ 2 := by
  set d := (Op.insertPasted text shortens).direct t with hd
  obtain ⟨t₁, h₁, h⟩ := Option.bind_eq_some_iff.mp h
  obtain ⟨taken, htook, hcount, hsame, -⟩ := replaceTextInRange_took hc hb h₁
  have hfirst : Took d t t₁ taken := ⟨htook.calm, htook.bounded, htook.records, htook.content,
    fun _ => htook.exact rfl, htook.kept⟩
  cases hshort : (if t.draft && shortens then Amazon.shortenPasted parse text else none) with
  | none =>
    rw [hshort] at h
    cases h
    exact ⟨taken, hfirst, by omega⟩
  | some short =>
    rw [hshort] at h
    dsimp only at h
    set s : TextInput := { t₁ with selectedRange := ⟨t.selectedRange.start, t₁.selectedRange.stop⟩ }
      with hs
    have hmoves : Selected t₁ s := ⟨rfl, rfl, rfl, rfl, rfl⟩
    obtain ⟨later, hlater, hcount', -, -⟩ :=
      replaceTextInRange_took (hmoves.calm hfirst.calm) hfirst.bounded h
    refine ⟨taken ++ later, ?_, by rw [List.length_append]; omega⟩
    have hbetween : Took d t s taken := ⟨hmoves.calm hfirst.calm, hfirst.bounded,
      hfirst.records.within (.refl t) hmoves, hfirst.content, hfirst.exact, hfirst.kept⟩
    refine hbetween.trans hlater ?_
    -- When nothing was recorded, the text was dropped or pasted over itself.
    rintro hdirect hnil -
    rcases replaceTextInRange_over_itself hc hb h₁ (htook.kept hnil) with hdrop | ⟨hslice, hsnap⟩
    · rw [hs, hdrop]
    · have hforwards : t.selectionReversed = false := by
        rw [hd] at hdirect
        unfold Op.direct at hdirect
        simpa [pasted, hslice] using hdirect
      have hstop : t₁.selectedRange = .at t.selectedRange.stop := congrArg (·.selection) hsnap
      have hcontent : t₁.content = t.content := congrArg (·.content) hsnap
      have hreversed : t₁.selectionReversed = false := congrArg (·.reversed) hsnap
      rw [hs]
      unfold snapshot
      simp only [hstop, hcontent, hreversed, hforwards]
      rfl

theorem insertLink_took {link : List Char} (hc : t.Calm)
    (hb : t.undo.length + t.redo.length ≤ 100) (h : t.insertLink link = some t') :
    Took true t t' [t.snapshot] := by
  unfold insertLink at h
  rw [if_neg (by simp [hc.marked])] at h
  have hl := insertLinkNow_linked hc.marked hb h
  refine ⟨⟨hl.marked, hl.pending.trans hc.pending⟩, hl.bounded, hl.records, ?_, fun _ => hl.first,
    hl.kept⟩
  rintro s hs
  rw [hl.first s hs]
  rfl

theorem replaceText_took {value : List Char} (hc : t.Calm)
    (hb : t.undo.length + t.redo.length ≤ 100) (h : t.replaceText value = some t') :
    ∃ taken, Took true t t' taken ∧ taken.length ≤ 1 ∧ (t'.content = t.content → taken = []) := by
  unfold replaceText at h
  dsimp only at h
  by_cases hsame : t.content = value
  · rw [if_pos hsame] at h
    obtain ⟨-, htook⟩ := rewritten_same true hc hb hsame.symm h
    exact ⟨[], htook, by simp, fun _ => rfl⟩
  · rw [if_neg hsame] at h
    obtain ⟨hcontent, htook⟩ := rewritten_recorded hc hb h
    exact ⟨[t.snapshot], htook, le_rfl, fun heq => absurd (hcontent ▸ heq).symm hsame⟩

end Single

section Composing

/-- A composition goes on, with the steps as they were and the links that have arrived. -/
structure Continues (t t' : TextInput) (links : List (List Char)) : Prop where
  marked : t'.markedRange ≠ none
  undo : t'.undo = t.undo
  redo : t'.redo = t.redo
  pending : t'.pendingLinks = t.pendingLinks ++ links

/-- A composition ends, and every link that waited is recorded. -/
structure Ends (t t' : TextInput) (taken : List EditSnapshot) : Prop where
  calm : t'.Calm
  bounded : t'.undo.length + t'.redo.length ≤ 100
  records : Records t t' taken
  count : taken.length = t.pendingLinks.length

theorem flush_composing {e : TextInput} (hb : t.undo.length + t.redo.length ≤ 100)
    (hu : e.undo = t.undo) (hr : e.redo = t.redo) (hp : e.pendingLinks = t.pendingLinks)
    (h : e.flushPendingLinks = some t') : Continues t t' [] ∨ ∃ taken, Ends t t' taken := by
  have hbe : e.undo.length + e.redo.length ≤ 100 := by rw [hu, hr]; exact hb
  obtain ⟨-, ⟨hm, rfl⟩ | ⟨hm, hcalm, taken, hl⟩⟩ := flush_cases hbe h
  · exact .inl ⟨hm, hu, hr, hp.trans (List.append_nil _).symm⟩
  · refine .inr ⟨taken, hcalm, hl.bounded, ⟨?_, ?_⟩, hl.count.trans (by rw [hp])⟩
    · rw [← hu]
      exact hl.records.undo
    · rw [← hr]
      exact hl.records.redo

theorem Rewrites.composing (h : Rewrites direct t t') (hm : t.markedRange ≠ none)
    (hb : t.undo.length + t.redo.length ≤ 100) :
    Continues t t' [] ∨ ∃ taken, Ends t t' taken := by
  rcases h with h | ⟨t₀, range, text, t₁, hs, -, -, h, hs'⟩
  · exact .inl ⟨h.marked ▸ hm, h.undo, h.redo, h.pending.trans (List.append_nil _).symm⟩
  have hm₀ : t₀.markedRange ≠ none := hs.marked ▸ hm
  have hone : Continues t t₁ [] ∨ ∃ taken, Ends t t₁ taken := by
    rcases replaceTextInRange_cases h with rfl | ⟨old, content, -, hf⟩
    · exact .inl ⟨hm₀, hs.undo, hs.redo, hs.pending.trans (List.append_nil _).symm⟩
    · rw [recordEdit_composing hm₀, ite_self] at hf
      refine flush_composing hb ?_ ?_ ?_ hf
      · exact hs.undo
      · exact hs.redo
      · exact hs.pending
  rcases hone with hgo | ⟨taken, hends⟩
  · exact .inl ⟨hs'.marked ▸ hgo.marked, hs'.undo.trans hgo.undo, hs'.redo.trans hgo.redo,
      hs'.pending.trans hgo.pending⟩
  · refine .inr ⟨taken, hs'.calm hends.calm, ?_, hends.records.within (.refl t) hs', hends.count⟩
    rw [hs'.undo, hs'.redo]
    exact hends.bounded

theorem step_composing (hop : op.composes = true) (hm : t.markedRange ≠ none)
    (hb : t.undo.length + t.redo.length ≤ 100) (h : t.step script parse op = some t') :
    Continues t t' op.links ∨ op.links = [] ∧ ∃ taken, Ends t t' taken := by
  have hsome : t.markedRange.isSome = true := Option.isSome_iff_ne_none.mpr hm
  have hnolink : ∀ {P : Prop}, op.links = [] → Continues t t' [] ∨ P →
      Continues t t' op.links ∨ op.links = [] ∧ P := by
    rintro P hl (hgo | hp)
    · exact .inl (hl ▸ hgo)
    · exact .inr ⟨hl, hp⟩
  by_cases hq : op.quiet = true
  · have hs := step_quiet hq h
    rw [Op.links_eq_nil (.inl hq)]
    exact .inl ⟨hs.marked ▸ hm, hs.undo, hs.redo, hs.pending.trans (List.append_nil _).symm⟩
  by_cases hplain : op.plain = true
  · exact hnolink (Op.links_eq_nil (.inr hplain)) ((step_plain hplain h).composing hm hb)
  cases op with
  | replaceAndMarkTextInRange range text selected =>
    obtain ⟨⟨before, x⟩, -, h⟩ := Option.bind_eq_some_iff.mp h
    obtain ⟨⟨y, after⟩, -, h⟩ := Option.bind_eq_some_iff.mp h
    rw [recordEdit_composing hm] at h
    exact hnolink rfl (flush_composing hb (by rfl) (by rfl) (by rfl) h)
  | unmarkText =>
    change t.unmarkText = some t' at h
    unfold unmarkText at h
    rw [if_pos hsome] at h
    exact hnolink rfl (flush_composing hb (by rfl) (by rfl) (by rfl) h)
  | insertLink link =>
    change t.insertLink link = some t' at h
    unfold insertLink at h
    rw [if_pos hsome] at h
    cases h
    exact .inl ⟨hm, rfl, rfl, rfl⟩
  | replaceText value =>
    change t.replaceText value = some t' at h
    unfold replaceText at h
    rw [recordEdit_composing hm, ite_self] at h
    exact hnolink rfl (flush_composing hb (by rfl) (by rfl) (by rfl) h)
  | insertPasted text shortens => cases hop
  | undo => cases hop
  | redo => cases hop
  | setText value => cases hop
  | clearAfterSend => cases hop
  | _ => first | exact absurd rfl hq | exact absurd rfl hplain

end Composing

section Settling

theorem replaceTextInRange_settled (hs : t.Settled) (h : t.replaceTextInRange range text = some t') :
    t'.Settled := by
  rcases replaceTextInRange_cases h with rfl | ⟨old, content, -, hf⟩
  · exact hs
  refine (flush_cases ?_ hf).1
  split
  · exact hs.bounded
  · exact recordEdit_bounded hs.bounded

theorem restore_settled {s : EditSnapshot} (hb : t.undo.length + t.redo.length ≤ 100)
    (h : t.restore s = some t') : t'.Settled :=
  (flush_cases (t := { t with
    content := s.content
    selectedRange := s.selection
    selectionReversed := s.reversed
    markedRange := none
    completion := none }) hb h).1

theorem step_settled (hs : t.Settled) (h : t.step script parse op = some t') : t'.Settled := by
  have hb := hs.bounded
  have hp : t.recordEdit.pendingLinks = t.pendingLinks := (recordEdit_frame t).2.2.2.2.1
  by_cases hq : op.quiet = true
  · exact (step_quiet hq h).settled hs
  by_cases hplain : op.plain = true
  · rcases step_plain hplain h with h | ⟨t₀, range, text, t₁, hs₀, -, -, h, hs₁⟩
    · exact h.settled hs
    · exact hs₁.settled (replaceTextInRange_settled (hs₀.settled hs) h)
  cases op with
  | replaceAndMarkTextInRange range text selected =>
    obtain ⟨⟨before, x⟩, -, h⟩ := Option.bind_eq_some_iff.mp h
    obtain ⟨⟨y, after⟩, -, h⟩ := Option.bind_eq_some_iff.mp h
    refine (flush_cases ?_ h).1
    exact recordEdit_bounded hb
  | unmarkText =>
    change t.unmarkText = some t' at h
    unfold unmarkText at h
    split at h
    · exact (flush_cases (t := { t with markedRange := none }) hb h).1
    · cases h
      exact hs
  | insertPasted text shortens =>
    obtain ⟨t₁, h₁, h⟩ := Option.bind_eq_some_iff.mp h
    have hs₁ := replaceTextInRange_settled hs h₁
    split at h
    · cases h
      exact hs₁
    · exact replaceTextInRange_settled (t := { t₁ with
        selectedRange := ⟨t.selectedRange.start, t₁.selectedRange.stop⟩ })
        ⟨hs₁.waiting, hs₁.bounded⟩ h
  | insertLink link =>
    change t.insertLink link = some t' at h
    unfold insertLink at h
    split at h
    · rename_i hm
      cases h
      refine ⟨fun hno => ?_, hb⟩
      change t.markedRange = none at hno
      rw [hno] at hm
      cases hm
    · rename_i hm
      have hnone : t.markedRange = none := by simpa using hm
      have hl := insertLinkNow_linked hnone hb h
      exact ⟨fun _ => hl.pending.trans (hs.waiting hnone), hl.bounded⟩
  | replaceText value =>
    change t.replaceText value = some t' at h
    unfold replaceText at h
    refine (flush_cases ?_ h).1
    dsimp only
    split
    · exact hb
    · exact recordEdit_bounded hb
  | undo =>
    change t.undoEdit = some t' at h
    unfold undoEdit at h
    split at h
    · cases h
      exact hs
    · rename_i s hlast
      have := List.length_pos_of_mem (List.mem_of_getLast? hlast)
      refine restore_settled ?_ h
      simp only [List.length_dropLast, List.length_append, List.length_singleton]
      omega
  | redo =>
    change t.redoEdit = some t' at h
    unfold redoEdit at h
    split at h
    · cases h
      exact hs
    · rename_i s hlast
      have := List.length_pos_of_mem (List.mem_of_getLast? hlast)
      refine restore_settled ?_ h
      simp only [List.length_dropLast, List.length_append, List.length_singleton]
      omega
  | setText value => exact (flush_cases (t := { t with
      content := value
      selectedRange := .at (size value)
      selectionReversed := false
      markedRange := none
      completion := none
      undo := []
      redo := [] }) (Nat.zero_le _) h).1
  | clearAfterSend => exact (flush_cases (t := { t with
      content := []
      selectedRange := .at 0
      selectionReversed := false
      markedRange := none
      completion := none
      undo := []
      redo := [] }) (Nat.zero_le _) h).1
  | _ => first | exact absurd rfl hq | exact absurd rfl hplain

theorem reached_settled {secret draft all multiline : Bool} {ops : List Op}
    (h : Machine.exec (advance script parse) (some (fresh secret draft all multiline)) ops =
      some t) : t.Settled := by
  refine Machine.exec_invariant' (I := fun o => ∀ t, o = some t → t.Settled) ?_ ?_ t h
  · rintro (- | s) op hs t₁ h
    · cases h
    · exact step_settled (hs s rfl) h
  · rintro t₀ hfresh
    obtain rfl := Option.some.inj hfresh
    exact ⟨fun _ => rfl, Nat.zero_le _⟩

end Settling

end TextInput

end CayenChat.Editing
