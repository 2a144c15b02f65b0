import CayenChat.Editing.Records

/-! # Undo and redo

An edit is an operation of its own or a whole composition. The texts that a
list of edits records, the text as it is, and the texts undone form a line
that undo and redo walk along.
-/

namespace CayenChat.Editing

open Utf8 Timeline

/-- An edit that can be undone: an operation of its own, or a composition with all that happens
until it ends. -/
inductive Edit
  | single (op : Op)
  | composition (range : Option Range) (text : List Char) (selected : Option Range)
    (ops : List Op)

namespace TextInput

variable (script : Script) (parse : List Char → Option Amazon.Link)

def perform (t : TextInput) : Edit → Option TextInput
  | .single op => t.step script parse op
  | .composition range text selected ops => do
    let t ← t.replaceAndMarkTextInRange range text selected
    ops.foldlM (step script parse) t

def performAll (t : TextInput) (edits : List Edit) : Option TextInput :=
  edits.foldlM (perform script parse) t

def Composes : TextInput → List Op → Prop
  | t, [] => t.markedRange = none
  | t, op :: ops => t.markedRange ≠ none ∧ op.composes = true ∧
    ∀ t', t.step script parse op = some t' → Composes t' ops

def Whole (t : TextInput) : Edit → Prop
  | .single op => op.edits = true
  | .composition range text selected ops => ∀ t',
    t.replaceAndMarkTextInRange range text selected = some t' → Composes script parse t' ops

def WholeAll : TextInput → List Edit → Prop
  | _, [] => True
  | t, e :: es => Whole script parse t e ∧ ∀ t', t.perform script parse e = some t' → WholeAll t' es

end TextInput

namespace Edit

/-- The most records an edit makes: one, one more for the link that a paste shortens, and one for
each link that arrives during a composition. -/
def most : Edit → ℕ
  | .single (.insertPasted _ _) => 2
  | .single _ => 1
  | .composition _ _ _ ops => 1 + (ops.flatMap Op.links).length

def always : Edit → Bool
  | .single (.insertLink _) | .composition _ _ _ _ => true
  | _ => false

def once : Edit → Bool
  | .single (.replaceText _) => true
  | .single op => op.plain
  | _ => false

theorem plain_most {op : Op} (h : op.plain = true) :
    (single op).most = 1 ∧ (single op).always = false := by
  cases op with
  | insertPasted text shortens => cases h
  | insertLink link => cases h
  | _ => exact ⟨rfl, rfl⟩

def direct (t : TextInput) : Edit → Bool
  | .single op => op.direct t
  | .composition _ _ _ _ => true

/-- What an edit records. -/
structure Took (e : Edit) (t t' : TextInput) (taken : List EditSnapshot) : Prop
    extends TextInput.Took (e.direct t) t t' taken where
  most : taken.length ≤ e.most
  always : e.always = true → taken.length = e.most
  nothing : e.once = true → t'.content = t.content → taken = []
  shows : e.once = true → e.direct t = false → ∀ s ∈ taken.head?, s.Shows t'.content

end Edit

namespace TextInput

variable {script : Script} {parse : List Char → Option Amazon.Link} {t t₁ t' t'' : TextInput}
  {taken later : List EditSnapshot} {op : Op} {ops : List Op} {e : Edit} {edits : List Edit}
  {range selected : Option Range} {text : List Char}

section Edits

theorem composes_ends (hm : t.markedRange ≠ none) (hb : t.undo.length + t.redo.length ≤ 100)
    (hc : Composes script parse t ops) (h : ops.foldlM (step script parse) t = some t') :
    t'.Calm ∧ t'.undo.length + t'.redo.length ≤ 100 ∧ ∃ taken, Records t t' taken ∧
      taken.length = t.pendingLinks.length + (ops.flatMap Op.links).length := by
  induction ops generalizing t with
  | nil => exact absurd hc hm
  | cons op ops ih =>
    obtain ⟨-, hop, hrest⟩ := hc
    rw [List.foldlM_cons] at h
    obtain ⟨t₁, h₁, h⟩ := Option.bind_eq_some_iff.mp h
    rcases step_composing hop hm hb h₁ with hgo | ⟨hl, taken, hends⟩
    · have hb₁ : t₁.undo.length + t₁.redo.length ≤ 100 := by rw [hgo.undo, hgo.redo]; exact hb
      obtain ⟨hcalm, hbound, taken, hr, hcount⟩ := ih hgo.marked hb₁ (hrest t₁ h₁) h
      refine ⟨hcalm, hbound, taken, ⟨?_, ?_⟩, ?_⟩
      · rw [hr.undo, hgo.undo]
      · rw [hr.redo, hgo.redo]
      · rw [hcount, hgo.pending, List.length_append, List.flatMap_cons, List.length_append]
        omega
    · cases ops with
      | nil =>
        cases h
        exact ⟨hends.calm, hends.bounded, taken, hends.records, by simp [hends.count, hl]⟩
      | cons op' ops => exact absurd hends.calm.marked (hrest t₁ h₁).1

theorem composition_took (hc : t.Calm) (hb : t.undo.length + t.redo.length ≤ 100)
    (hw : Whole script parse t (.composition range text selected ops))
    (h : t.perform script parse (.composition range text selected ops) = some t') :
    ∃ taken, (Edit.composition range text selected ops).Took t t' taken := by
  obtain ⟨t₁, h₁, h⟩ := Option.bind_eq_some_iff.mp h
  have hcomposes := hw t₁ h₁
  have hp : t.recordEdit.pendingLinks = t.pendingLinks := (recordEdit_frame t).2.2.2.2.1
  have hr := recordEdit_records hc.marked (by omega)
  have hbegun : Records t t₁ [t.snapshot] ∧ t₁.pendingLinks = [] ∧
      t₁.undo.length + t₁.redo.length ≤ 100 := by
    obtain ⟨⟨before, x⟩, -, h₁⟩ := Option.bind_eq_some_iff.mp h₁
    obtain ⟨⟨y, after⟩, -, h₁⟩ := Option.bind_eq_some_iff.mp h₁
    have hflush : ∀ e : TextInput, e.undo = t.recordEdit.undo → e.redo = t.recordEdit.redo →
        e.pendingLinks = t.recordEdit.pendingLinks → e.flushPendingLinks = some t₁ →
        Records t t₁ [t.snapshot] ∧ t₁.pendingLinks = [] ∧
          t₁.undo.length + t₁.redo.length ≤ 100 := by
      rintro e hu hre hpe hf
      have hnone : e.flushPendingLinks = some e := by
        unfold flushPendingLinks
        rw [if_pos (by simp [hpe, hp, hc.pending])]
      obtain rfl : e = t₁ := Option.some.inj (hnone.symm.trans hf)
      refine ⟨⟨hu.trans hr.undo, hre.trans hr.redo⟩, hpe.trans (hp.trans hc.pending), ?_⟩
      rw [hu, hre]
      exact recordEdit_bounded hb
    refine hflush _ ?_ ?_ ?_ h₁ <;> rfl
  obtain ⟨hrec, hpending, hbound⟩ := hbegun
  have htook : ∀ {later}, t'.Calm → t'.undo.length + t'.redo.length ≤ 100 → Records t₁ t' later →
      later.length = (ops.flatMap Op.links).length →
      (Edit.composition range text selected ops).Took t t' (t.snapshot :: later) := by
    rintro later hcalm hb' hlater hcount
    have hmost : (t.snapshot :: later).length = 1 + (ops.flatMap Op.links).length := by
      rw [List.length_cons, hcount, Nat.add_comm]
    refine ⟨⟨hcalm, hb', hrec.trans hlater, ?_, ?_, fun hno => (by cases hno)⟩, hmost.le,
      fun _ => hmost, fun hno => (by cases hno), fun hno => (by cases hno)⟩
    · rintro s hmem
      rw [← Option.some.inj hmem]
      rfl
    · rintro - s hmem
      exact (Option.some.inj hmem).symm
  by_cases hm : t₁.markedRange = none
  · cases ops with
    | nil =>
      cases h
      exact ⟨[t.snapshot], htook ⟨hm, hpending⟩ hbound (.refl (by omega)) rfl⟩
    | cons op ops => exact absurd hm hcomposes.1
  · obtain ⟨hcalm, hb', later, hlater, hcount⟩ := composes_ends hm hbound hcomposes h
    rw [hpending, List.length_nil, Nat.zero_add] at hcount
    exact ⟨_, htook hcalm hb' hlater hcount⟩

theorem perform_took (hc : t.Calm) (hb : t.undo.length + t.redo.length ≤ 100)
    (hw : Whole script parse t e) (h : t.perform script parse e = some t') :
    ∃ taken, e.Took t t' taken := by
  cases e with
  | composition range text selected ops => exact composition_took hc hb hw h
  | single op =>
    by_cases hplain : op.plain = true
    · obtain ⟨taken, htook, hcount, hsame, hshows⟩ := (step_plain hplain h).took hc hb
      obtain ⟨hmost, halways⟩ := Edit.plain_most hplain
      exact ⟨taken, htook, hmost ▸ hcount, fun hno => absurd (halways.symm.trans hno) (by simp),
        fun _ => hsame, fun _ => hshows⟩
    have hedits : op.edits = true := hw
    cases op with
    | insertPasted text shortens =>
      obtain ⟨taken, htook, hcount⟩ := insertPasted_took hc hb h
      exact ⟨taken, htook, hcount, fun hno => (by cases hno), fun hno => (by cases hno),
        fun hno => (by cases hno)⟩
    | insertLink link =>
      exact ⟨[t.snapshot], insertLink_took hc hb h, le_rfl, fun _ => rfl, fun hno => (by cases hno),
        fun hno => (by cases hno)⟩
    | replaceText value =>
      obtain ⟨taken, htook, hcount, hsame⟩ := replaceText_took hc hb h
      exact ⟨taken, htook, hcount, fun hno => (by cases hno), fun _ => hsame,
        fun _ hno => (by cases hno)⟩
    | _ => first | exact absurd rfl hplain | cases hedits

def Recorded (script : Script) (parse : List Char → Option Amazon.Link) :
    TextInput → List Edit → List EditSnapshot → Prop
  | _, [], taken => taken = []
  | t, e :: es, taken => ∃ t₁ now later, t.perform script parse e = some t₁ ∧ e.Took t t₁ now ∧
    Recorded script parse t₁ es later ∧ taken = now ++ later

theorem performAll_recorded (hc : t.Calm) (hb : t.undo.length + t.redo.length ≤ 100)
    (hw : WholeAll script parse t edits) (h : t.performAll script parse edits = some t') :
    ∃ taken, Recorded script parse t edits taken ∧ Took false t t' taken ∧
      taken.length ≤ (edits.map Edit.most).sum := by
  induction edits generalizing t with
  | nil =>
    cases h
    exact ⟨[], rfl, (Selected.refl _).took hc hb, le_rfl⟩
  | cons e es ih =>
    unfold performAll at h
    rw [List.foldlM_cons] at h
    obtain ⟨t₁, h₁, h⟩ := Option.bind_eq_some_iff.mp h
    obtain ⟨now, hnow⟩ := perform_took hc hb hw.1 h₁
    obtain ⟨later, hrecorded, hlater, hmost⟩ := ih hnow.calm hnow.bounded (hw.2 t₁ h₁) h
    refine ⟨now ++ later, ⟨t₁, now, later, h₁, hnow, hrecorded, rfl⟩, ⟨hlater.calm,
      hlater.bounded, hnow.records.trans hlater.records, ?_, fun hno => (by cases hno), ?_⟩, ?_⟩
    · rintro s hs
      cases now with
      | nil => exact (hlater.content s hs).trans (hnow.kept rfl)
      | cons first rest => exact hnow.content s hs
    · rintro hnil
      obtain ⟨hnone, hnone'⟩ := List.append_eq_nil_iff.mp hnil
      rw [hlater.kept hnone', hnow.kept hnone]
    · have := hnow.most
      simp only [List.length_append, List.map_cons, List.sum_cons]
      omega

end Edits

section Walks

def go (t : TextInput) : Way → Option TextInput
  | .back => t.undoEdit
  | .forth => t.redoEdit

def walk (t : TextInput) (ways : List Way) : Option TextInput := ways.foldlM go t

theorem restore_calm {s : EditSnapshot} (hp : t.pendingLinks = []) : ∃ t', t.restore s = some t' ∧
    t'.Calm ∧ t'.snapshot = s ∧ t'.undo = t.undo ∧ t'.redo = t.redo := by
  set e : TextInput := { t with
    content := s.content
    selectedRange := s.selection
    selectionReversed := s.reversed
    markedRange := none
    completion := none } with he
  have hcalm : e.Calm := ⟨rfl, hp⟩
  exact ⟨e, flush_calm hcalm, hcalm, rfl, rfl, rfl⟩

theorem go_line (hc : t.Calm) (way : Way) :
    ∃ t', t.go way = some t' ∧ t'.Calm ∧ t'.line = t.line.go way := by
  cases way with
  | back =>
    change ∃ t', t.undoEdit = some t' ∧ t'.Calm ∧ t'.line = t.line.back
    unfold undoEdit
    cases hlast : t.undo.getLast? with
    | none => exact ⟨t, rfl, hc, (Line.back_of_none hlast).symm⟩
    | some s =>
      obtain ⟨t', ht', hc', hs, hu, hr⟩ := restore_calm (s := s) (t := { t with
        undo := t.undo.dropLast, redo := t.redo ++ [t.snapshot] }) hc.pending
      refine ⟨t', ht', hc', ?_⟩
      rw [Line.back_of_some (k := t.line) hlast, line, hs, hu, hr]
      rfl
  | forth =>
    change ∃ t', t.redoEdit = some t' ∧ t'.Calm ∧ t'.line = t.line.forth
    unfold redoEdit
    cases hlast : t.redo.getLast? with
    | none => exact ⟨t, rfl, hc, (Line.forth_of_none hlast).symm⟩
    | some s =>
      obtain ⟨t', ht', hc', hs, hu, hr⟩ := restore_calm (s := s) (t := { t with
        redo := t.redo.dropLast, undo := t.undo ++ [t.snapshot] }) hc.pending
      refine ⟨t', ht', hc', ?_⟩
      rw [Line.forth_of_some (k := t.line) hlast, line, hs, hu, hr]
      rfl

theorem walk_line (hc : t.Calm) (ways : List Way) :
    ∃ t', t.walk ways = some t' ∧ t'.Calm ∧ t'.line = t.line.walk ways := by
  induction ways generalizing t with
  | nil => exact ⟨t, rfl, hc, rfl⟩
  | cons way ways ih =>
    obtain ⟨t₁, h₁, hc₁, hl₁⟩ := go_line hc way
    obtain ⟨t', h', hc', hl'⟩ := ih hc₁
    refine ⟨t', ?_, hc', ?_⟩
    · unfold walk
      rw [List.foldlM_cons, h₁]
      exact h'
    · rw [hl', hl₁]
      rfl

theorem walk_back_forth {past : List EditSnapshot} (hc : t.Calm) (hu : t.undo = past ++ taken) :
    ∃ b f, t.walk (List.replicate taken.length .back) = some b ∧ b.Calm ∧
      (taken ++ [t.snapshot]).head? = some b.snapshot ∧
      b.walk (List.replicate taken.length .forth) = some f ∧ f.line = t.line := by
  obtain ⟨b, hb, hcb, hlb⟩ := walk_line hc (List.replicate taken.length .back)
  obtain ⟨f, hf, -, hlf⟩ := walk_line hcb (List.replicate taken.length .forth)
  refine ⟨b, f, hb, hcb, ?_, hf, ?_⟩
  · have hback := Line.back_present (k := t.line) hu
    rw [← hlb] at hback
    exact hback
  · rw [hlf, hlb]
    apply Line.back_forth
    change taken.length ≤ t.undo.length
    rw [hu, List.length_append]
    omega

end Walks

section Exact

/-- In every state without a composition that a run reaches, and for every list of edits, each
edit records the text it finds: once, twice when it is a paste that shortens a link, and a
composition once and once more for every link that waited for its end. A record keeps the newest
hundred and discards exactly what was undone. When no more than a hundred were made, undoing them
restores the text of before the first and what it recorded as selected, which is the selection of
before unless the edit selects what it replaces first, and redoing them restores the text and the
selection of after the last; and any mixture of undo and redo walks along the recorded texts. -/
theorem edits_undone (script : Script) (parse : List Char → Option Amazon.Link)
    (secret draft all multiline : Bool) (ops : List Op) (edits : List Edit)
    (hr : Machine.exec (advance script parse) (some (fresh secret draft all multiline)) ops = some t)
    (hm : t.markedRange = none) (hw : WholeAll script parse t edits)
    (h : t.performAll script parse edits = some t') :
    ∃ taken, Recorded script parse t edits taken ∧
      taken.length ≤ (edits.map Edit.most).sum ∧
      (taken = [] → t'.content = t.content ∧ t'.undo = t.undo ∧ t'.redo = t.redo) ∧
      (taken ≠ [] → t'.undo = newest 100 (t.undo ++ taken) ∧ t'.redo = []) ∧
      (taken.length ≤ 100 → ∃ b f, t'.walk (List.replicate taken.length .back) = some b ∧
        b.content = t.content ∧ (taken ++ [t'.snapshot]).head? = some b.snapshot ∧
        (∀ e es t₁, edits = e :: es → t.perform script parse e = some t₁ →
          t₁.content ≠ t.content → e.direct t = true → b.snapshot = t.snapshot) ∧
        b.walk (List.replicate taken.length .forth) = some f ∧ f.line = t'.line) ∧
      ∀ ways, ∃ w, t'.walk ways = some w ∧ w.markedRange = none ∧
        w.line.entries = t'.undo ++ t'.snapshot :: t'.redo.reverse ∧
        w.undo.length = ways.foldl
          (fun place way => way.move (t'.undo.length + t'.redo.length) place) t'.undo.length ∧
        (t'.undo ++ t'.snapshot :: t'.redo.reverse)[w.undo.length]? = some w.snapshot := by
  have hs := reached_settled hr
  have hb : t.undo.length ≤ 100 := le_trans (Nat.le_add_right _ _) hs.bounded
  obtain ⟨taken, hrecorded, htook, hmost⟩ := performAll_recorded (hs.calm hm) hs.bounded hw h
  refine ⟨taken, hrecorded, hmost, ?_, ?_, ?_, ?_⟩
  · rintro rfl
    refine ⟨htook.kept rfl, ?_, htook.records.redo⟩
    rw [htook.records.undo, List.append_nil, newest_of_le hb]
  · rintro hsome
    refine ⟨htook.records.undo, ?_⟩
    rw [htook.records.redo, if_neg hsome]
  · rintro hfew
    obtain ⟨past, hpast⟩ := newest_append_of_le (l := t.undo) hfew
    obtain ⟨b, f, hback, -, hhead, hforth, hline⟩ :=
      walk_back_forth htook.calm (htook.records.undo.trans hpast)
    refine ⟨b, f, hback, ?_, hhead, ?_, hforth, hline⟩
    · cases taken with
      | nil =>
        have hnow : t'.snapshot = b.snapshot := Option.some.inj hhead
        exact (congrArg EditSnapshot.content hnow).symm.trans (htook.kept rfl)
      | cons first rest =>
        have hfirst : first = b.snapshot := Option.some.inj hhead
        exact (congrArg EditSnapshot.content hfirst).symm.trans (htook.content first rfl)
    · rintro e es t₁ rfl h₁ hchanged hdirect
      obtain ⟨t₂, now, later, h₂, hnow, -, rfl⟩ := hrecorded
      obtain rfl : t₁ = t₂ := Option.some.inj (h₁.symm.trans h₂)
      cases now with
      | nil => exact absurd (hnow.kept rfl) hchanged
      | cons first rest =>
        have hfirst : first = b.snapshot := Option.some.inj hhead
        rw [← hfirst]
        exact hnow.exact hdirect first rfl
  · rintro ways
    obtain ⟨w, hwalk, hcalm, hline⟩ := walk_line htook.calm ways
    have hentries : w.line.entries = t'.line.entries := by rw [hline, Line.walk_entries]
    have hlast : t'.line.entries.length - 1 = t'.undo.length + t'.redo.length := by
      rw [Line.length_entries]
      change t'.undo.length + 1 + t'.redo.length - 1 = _
      omega
    refine ⟨w, hwalk, hcalm.marked, hentries, ?_, ?_⟩
    · have hplace := Line.walk_place (k := t'.line) ways
      rw [← hline, hlast] at hplace
      exact hplace
    · change t'.line.entries[w.line.past.length]? = _
      rw [← hentries]
      exact Line.entries_present

def typedAndComposed : List Edit :=
  [.single (.replaceTextInRange none ['b']), .composition none ['k'] none
    [.replaceAndMarkTextInRange none ['k', 'a'] none, .insertLink ['x'], .unmarkText]]

theorem edits_undone_composed : ∃ (t t' : TextInput) (taken : List EditSnapshot),
    Machine.exec (advance twoWords fun _ => none) (some (fresh false true false false))
      [.replaceTextInRange none ['a']] = some t ∧
    t.performAll twoWords (fun _ => none) typedAndComposed = some t' ∧
    t'.content = "abka x".toList ∧ taken.length ≤ 3 ∧
    ∃ b, t'.walk (List.replicate taken.length .back) = some b ∧ b.content = ['a'] := by
  have hwhole : ∀ t : TextInput, Machine.exec (advance twoWords fun _ => none)
      (some (fresh false true false false)) [.replaceTextInRange none ['a']] = some t →
      WholeAll twoWords (fun _ => none) t typedAndComposed := by
    rintro t h
    obtain rfl := Option.some.inj h
    refine ⟨rfl, ?_⟩
    rintro t₁ h₁
    obtain rfl := Option.some.inj h₁
    refine ⟨?_, fun _ _ => trivial⟩
    rintro t₂ h₂
    obtain rfl := Option.some.inj h₂
    refine ⟨by decide, rfl, ?_⟩
    rintro t₃ h₃
    obtain rfl := Option.some.inj h₃
    refine ⟨by decide, rfl, ?_⟩
    rintro t₄ h₄
    obtain rfl := Option.some.inj h₄
    refine ⟨by decide, rfl, ?_⟩
    rintro t₅ h₅
    obtain rfl := Option.some.inj h₅
    rfl
  obtain ⟨taken, -, hmost, -, -, hundo, -⟩ := edits_undone twoWords (fun _ => none) false true
    false false [.replaceTextInRange none ['a']] typedAndComposed rfl rfl (hwhole _ rfl) rfl
  have hthree : taken.length ≤ 3 := hmost
  obtain ⟨b, -, hb, hcontent, -⟩ := hundo (hthree.trans (by decide))
  exact ⟨_, _, taken, rfl, rfl, rfl, hthree, b, hb, hcontent⟩

def longLink : List Char :=
  "https://amazon.co.jp/dp/B012345678?q=".toList ++ List.replicate 70 'x'

def productLink : Amazon.Link :=
  ⟨"https", "", none, none, none, some "amazon.co.jp", some ["dp", "B012345678"]⟩

/-- A deletion that selects what it deletes comes back with that selected; a composition that
changes nothing is recorded; and a shortened link is a record of its own. -/
theorem selected_and_recorded :
    (∃ t t₁ t₂, Machine.exec (advance twoWords fun _ => none)
        (some (fresh false true false false)) [.replaceTextInRange none ['a']] = some t ∧
      t.markedRange = none ∧ t.step twoWords (fun _ => none) .backspace = some t₁ ∧
      t₁.undo.length = t.undo.length + 1 ∧ t₁.undoEdit = some t₂ ∧ t₂.content = t.content ∧
      t.selectedRange = ⟨1, 1⟩ ∧ t₂.selectedRange = ⟨0, 1⟩) ∧
    (∃ t, (fresh false true false false).performAll twoWords (fun _ => none)
        [.composition none ['k'] none [.replaceAndMarkTextInRange none [] none]] = some t ∧
      t.markedRange = none ∧ t.content = [] ∧ t.undo.length = 1) ∧
    ((fresh false true false false).insertPasted (fun _ => some productLink) longLink true).map
      (fun t => (t.content, t.undo.length)) =
        some ("https://amazon.co.jp/dp/B012345678".toList, 2) := by
  refine ⟨⟨_, _, _, rfl, rfl, rfl, rfl, rfl, rfl, rfl, rfl⟩, ⟨_, rfl, rfl, rfl, rfl⟩, ?_⟩
  decide +kernel

end Exact

end TextInput

end CayenChat.Editing
