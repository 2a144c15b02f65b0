import CayenChat.Lib.Lowercase
import CayenChat.Lib.Ranges
import CayenChat.Wire.Text

/-! # Keywords in a text

Every occurrence of a keyword, whatever its case, in a text, less those that overlap an
occurrence of an excluded one. Characters are compared by their lowercase forms, and ranges
are of whole characters.
-/

namespace CayenChat.Text
open Utf8 Utf8.Range Lowercase

/-- Takes a lowercase form off a word of which `pending` comes first: `none` where they differ,
and nothing is left where the word ends. -/
def matchForm : List Char → Char → List Char → Option (Option (Char × List Char))
  | [], pending, wanted => some (some (pending, wanted))
  | lower :: form, pending, wanted =>
    if lower ≠ pending then none
    else
      match wanted with
      | [] => some none
      | next :: wanted => matchForm form next wanted

/-- The characters of a text from an index on, as far as the word goes. -/
def matchFrom (lower : Lowercase) : ℕ → List Char → Char → List Char → Option ℕ
  | _, [], _, _ => none
  | index, ch :: text, pending, wanted =>
    match matchForm (lower.form ch) pending wanted with
    | none => none
    | some none => some (index + ch.utf8Size)
    | some (some (pending, wanted)) => matchFrom lower (index + ch.utf8Size) text pending wanted

/-- The length in bytes of what a text begins with that is the word in another case. -/
def matchAt (lower : Lowercase) (text word : List Char) : Option ℕ :=
  match word with
  | [] => none
  | pending :: wanted => matchFrom lower 0 text pending wanted

def overlapsAny (excluded : List Range) (range : Range) : Bool :=
  let next := Search.partitionPoint (fun cut => decide (cut.stop ≤ range.start)) excluded
  excluded[next]?.any fun cut => decide (cut.start < range.stop)

def charIndices : ℕ → List Char → List (ℕ × List Char)
  | _, [] => []
  | start, ch :: text => (start, ch :: text) :: charIndices (start + ch.utf8Size) text

def words (lower : Lowercase) (keywords : List String) : List (List Char) :=
  ((keywords.map trim).filter (· != "")).map fun word => lower.fold word.toList

/-- Adds the matches from one start that overlap nothing excluded. -/
def pushMatches (lower : Lowercase) (keywords : List (List Char)) (excluded : List Range)
    (merged : List Range) (start : ℕ) (text : List Char) : List Range :=
  keywords.foldl (fun merged word =>
    match matchAt lower text word with
    | none => merged
    | some len =>
      if overlapsAny excluded ⟨start, start + len⟩ then merged
      else push merged ⟨start, start + len⟩) merged

def keywordRangesOutside (lower : Lowercase) (text : List Char) (keywords : List String)
    (excluded : List Range) : List Range :=
  if words lower keywords = [] then []
  else
    (charIndices 0 text).foldl (fun merged (start, text) =>
      pushMatches lower (words lower keywords) excluded merged start text) []

def keywordRanges (lower : Lowercase) (text : List Char) (keywords : List String) : List Range :=
  keywordRangesOutside lower text keywords []

def rangesOutside (ranges excluded : List Range) : List Range :=
  ranges.filter fun range => !overlapsAny excluded range

/-! ## Occurrences -/

/-- A range of characters whose lowercase form has a word in front, and is the shortest from its
start that does. -/
def OccursIn (lower : Lowercase) (word text : List Char) (r : Range) : Prop :=
  ∃ p m c q, text = p ++ (m ++ [c]) ++ q ∧ r = ⟨size p, size p + size (m ++ [c])⟩ ∧
    word <+: lower.fold (m ++ [c]) ∧ (lower.fold m).length < word.length

def Occurrence (lower : Lowercase) (text : List Char) (keywords : List String) (r : Range) : Prop :=
  ∃ keyword ∈ keywords, trim keyword ≠ "" ∧ OccursIn lower (lower.fold (trim keyword).toList) text r

variable {lower : Lowercase} {text word form wanted wanted' : List Char} {pending pending' : Char}
  {start index n : ℕ} {r : Range} {keywords : List String} {ws : List (List Char)}
  {excluded merged : List Range}

theorem matchForm_eq_left : matchForm form pending wanted = some (some (pending', wanted')) ↔
    pending :: wanted = form ++ pending' :: wanted' := by
  induction form generalizing pending wanted with
  | nil => simp [matchForm]
  | cons lower form ih =>
    unfold matchForm
    split
    · next hne =>
      simp only [reduceCtorEq, List.cons_append, List.cons.injEq, false_iff, not_and]
      exact fun h => absurd h.symm hne
    · next heq =>
      rw [not_not] at heq
      subst heq
      cases wanted with
      | nil => simp
      | cons next wanted =>
        simp only [List.cons_append, List.cons.injEq, true_and]
        exact ih

theorem matchForm_eq_end :
    matchForm form pending wanted = some none ↔ pending :: wanted <+: form := by
  induction form generalizing pending wanted with
  | nil => simp [matchForm]
  | cons lower form ih =>
    unfold matchForm
    split
    · next hne =>
      simp only [reduceCtorEq, List.cons_prefix_cons, false_iff, not_and]
      exact fun h => absurd h.symm hne
    · next heq =>
      rw [not_not] at heq
      subst heq
      cases wanted with
      | nil => simp
      | cons next wanted =>
        simp only [List.cons_prefix_cons, true_and]
        exact ih

/-- The match of a word in a text with a first character ends in the form of that character, or
goes on with what is left of the word. -/
theorem match_cons {ch : Char} :
    (∃ m c q, ch :: text = m ++ [c] ++ q ∧ n = index + size (m ++ [c]) ∧
      word <+: lower.fold (m ++ [c]) ∧ (lower.fold m).length < word.length) ↔
    (word ≠ [] ∧ word <+: lower.form ch ∧ n = index + ch.utf8Size) ∨
      ∃ left, left ≠ [] ∧ word = lower.form ch ++ left ∧ ∃ m c q, text = m ++ [c] ++ q ∧
        n = index + ch.utf8Size + size (m ++ [c]) ∧ left <+: lower.fold (m ++ [c]) ∧
        (lower.fold m).length < left.length := by
  constructor
  · rintro ⟨m, c, q, htext, rfl, hp, hlt⟩
    cases m with
    | nil =>
      obtain ⟨rfl, rfl⟩ := List.cons.inj htext
      refine .inl ⟨?_, by simpa using hp, by simp⟩
      rintro rfl
      simp at hlt
    | cons d m =>
      obtain ⟨rfl, rfl⟩ := List.cons.inj htext
      rw [fold_cons, List.length_append] at hlt
      rw [List.cons_append, fold_cons] at hp
      obtain ⟨left, rfl⟩ : lower.form ch <+: word := by
        refine List.prefix_of_prefix_length_le (List.prefix_append _ _) hp ?_
        omega
      rw [List.length_append] at hlt
      refine .inr ⟨left, ?_, rfl, m, c, q, rfl, ?_, (List.prefix_append_right_inj _).mp hp, ?_⟩
      · rintro rfl
        simp at hlt
      · rw [List.cons_append, size_cons, Nat.add_assoc]
      · omega
  · rintro (⟨hne, hp, rfl⟩ | ⟨left, hne, rfl, m, c, q, rfl, rfl, hp, hlt⟩)
    · exact ⟨[], ch, text, rfl, by simp, by simpa using hp, List.length_pos_iff.mpr hne⟩
    · refine ⟨ch :: m, c, q, rfl, ?_, ?_, ?_⟩
      · rw [List.cons_append, size_cons, Nat.add_assoc]
      · rw [List.cons_append, fold_cons]
        exact (List.prefix_append_right_inj _).mpr hp
      · rw [fold_cons, List.length_append, List.length_append]
        omega

theorem matchFrom_eq_some : matchFrom lower index text pending wanted = some n ↔
    ∃ m c q, text = m ++ [c] ++ q ∧ n = index + size (m ++ [c]) ∧
      pending :: wanted <+: lower.fold (m ++ [c]) ∧
      (lower.fold m).length < (pending :: wanted).length := by
  induction text generalizing index pending wanted with
  | nil => simp [matchFrom]
  | cons ch text ih =>
    rw [match_cons]
    unfold matchFrom
    cases hform : matchForm (lower.form ch) pending wanted with
    | none =>
      simp only [reduceCtorEq, false_iff, not_or]
      refine ⟨?_, ?_⟩
      · rintro ⟨-, hp, -⟩
        rw [matchForm_eq_end.mpr hp] at hform
        cases hform
      · rintro ⟨left, hne, hword, -⟩
        obtain ⟨p, w, rfl⟩ := List.exists_cons_of_ne_nil hne
        rw [matchForm_eq_left.mpr hword] at hform
        cases hform
    | some rest =>
      cases rest with
      | none =>
        have hp := matchForm_eq_end.mp hform
        simp only [Option.some.injEq]
        constructor
        · rintro rfl
          exact .inl ⟨List.cons_ne_nil _ _, hp, rfl⟩
        · rintro (⟨-, -, rfl⟩ | ⟨left, hne, hword, -⟩)
          · rfl
          · have hlen := hp.length_le
            have hpos := List.length_pos_iff.mpr hne
            rw [hword, List.length_append] at hlen
            omega
      | some rest =>
        obtain ⟨pending', wanted'⟩ := rest
        have hword := matchForm_eq_left.mp hform
        simp only [ih]
        constructor
        · intro h
          exact .inr ⟨pending' :: wanted', List.cons_ne_nil _ _, hword, h⟩
        · rintro (⟨-, hp, -⟩ | ⟨left, -, hleft, h⟩)
          · have hlen := hp.length_le
            rw [hword, List.length_append, List.length_cons] at hlen
            omega
          · rw [hword, List.append_cancel_left_eq] at hleft
            rw [hleft]
            exact h

theorem matchAt_eq_some : matchAt lower text word = some n ↔
    ∃ m c q, text = m ++ [c] ++ q ∧ n = size (m ++ [c]) ∧
      word <+: lower.fold (m ++ [c]) ∧ (lower.fold m).length < word.length := by
  cases word with
  | nil => simp [matchAt]
  | cons pending wanted =>
    rw [matchAt, matchFrom_eq_some]
    simp only [Nat.zero_add]

/-! ## What is merged -/

def matchesAt (lower : Lowercase) (ws : List (List Char)) (start : ℕ) (text : List Char) :
    List Range :=
  ws.filterMap fun word => (matchAt lower text word).map fun len => ⟨start, start + len⟩

def allMatches (lower : Lowercase) (ws : List (List Char)) (text : List Char) : List Range :=
  (charIndices 0 text).flatMap fun i => matchesAt lower ws i.1 i.2

theorem pushMatches_eq : pushMatches lower ws excluded merged start text =
    ((matchesAt lower ws start text).filter fun r =>
      !overlapsAny excluded r).foldl push merged := by
  unfold pushMatches matchesAt
  induction ws generalizing merged with
  | nil => rfl
  | cons word ws ih =>
    rw [List.foldl_cons, ih, List.filterMap_cons]
    cases matchAt lower text word with
    | none => rfl
    | some len =>
      simp only [Option.map_some, List.filter_cons]
      by_cases h : overlapsAny excluded ⟨start, start + len⟩ = true
      · simp [h]
      · simp [h]

theorem keywordRangesOutside_eq : keywordRangesOutside lower text keywords excluded =
    ((allMatches lower (words lower keywords) text).filter fun r =>
      !overlapsAny excluded r).foldl push [] := by
  unfold keywordRangesOutside allMatches
  split
  · next h =>
    rw [h]
    induction charIndices 0 text with
    | nil => rfl
    | cons i is ih => simpa [matchesAt] using ih
  · generalize ([] : List Range) = merged
    induction charIndices 0 text generalizing merged with
    | nil => rfl
    | cons i is ih =>
      obtain ⟨start, t⟩ := i
      rw [List.foldl_cons, ih, List.flatMap_cons, List.filter_append, List.foldl_append]
      dsimp only
      rw [pushMatches_eq]

theorem mem_charIndices {t : List Char} : (n, t) ∈ charIndices start text ↔
    t ≠ [] ∧ ∃ p, text = p ++ t ∧ n = start + size p := by
  induction text generalizing start with
  | nil =>
    simp only [charIndices, List.not_mem_nil, false_iff, not_and, not_exists]
    rintro ht p hp -
    exact ht (List.append_eq_nil_iff.mp hp.symm).2
  | cons c text ih =>
    rw [charIndices, List.mem_cons, Prod.mk.injEq, ih]
    constructor
    · rintro (⟨rfl, rfl⟩ | ⟨ht, p, rfl, rfl⟩)
      · exact ⟨List.cons_ne_nil _ _, [], rfl, rfl⟩
      · exact ⟨ht, c :: p, rfl, by rw [size_cons, Nat.add_assoc]⟩
    · rintro ⟨ht, p, hp, rfl⟩
      cases p with
      | nil => exact .inl ⟨rfl, hp.symm⟩
      | cons d p =>
        obtain ⟨rfl, rfl⟩ := List.cons.inj hp
        exact .inr ⟨ht, p, rfl, by rw [size_cons, Nat.add_assoc]⟩

theorem pairwise_charIndices : (charIndices start text).Pairwise fun i j => i.1 < j.1 := by
  induction text generalizing start with
  | nil => exact .nil
  | cons c text ih =>
    refine List.pairwise_cons.mpr ⟨fun i hi => ?_, ih⟩
    obtain ⟨-, p, -, hn⟩ := mem_charIndices.mp hi
    have := c.utf8Size_pos
    rw [hn]
    omega

theorem mem_matchesAt : r ∈ matchesAt lower ws start text ↔
    ∃ word ∈ ws, ∃ len, matchAt lower text word = some len ∧ r = ⟨start, start + len⟩ := by
  simp only [matchesAt, List.mem_filterMap, Option.map_eq_some_iff]
  constructor
  · rintro ⟨word, hw, len, hlen, rfl⟩
    exact ⟨word, hw, len, hlen, rfl⟩
  · rintro ⟨word, hw, len, hlen, rfl⟩
    exact ⟨word, hw, len, hlen, rfl⟩

theorem mem_allMatches :
    r ∈ allMatches lower ws text ↔ ∃ word ∈ ws, OccursIn lower word text r := by
  simp only [allMatches, List.mem_flatMap, mem_matchesAt, Prod.exists, mem_charIndices,
    matchAt_eq_some]
  constructor
  · rintro ⟨start, t, ⟨-, p, rfl, rfl⟩, word, hw, len, ⟨m, c, q, rfl, rfl, hp, hlt⟩, rfl⟩
    exact ⟨word, hw, p, m, c, q, by simp, by simp, hp, hlt⟩
  · rintro ⟨word, hw, p, m, c, q, rfl, rfl, hp, hlt⟩
    refine ⟨size p, m ++ [c] ++ q, ⟨by simp, p, by simp, by simp⟩, word, hw, _,
      ⟨m, c, q, rfl, rfl, hp, hlt⟩, rfl⟩

theorem pairwise_allMatches :
    (allMatches lower ws text).Pairwise fun r s => r.start ≤ s.start := by
  refine List.pairwise_flatMap.mpr ⟨fun i _ => ?_, ?_⟩
  · refine List.pairwise_of_forall_mem_list fun r hr s hs => ?_
    obtain ⟨-, -, -, -, rfl⟩ := mem_matchesAt.mp hr
    obtain ⟨-, -, -, -, rfl⟩ := mem_matchesAt.mp hs
    exact Nat.le_refl _
  · refine pairwise_charIndices.imp fun {i j} hij r hr s hs => ?_
    obtain ⟨-, -, -, -, rfl⟩ := mem_matchesAt.mp hr
    obtain ⟨-, -, -, -, rfl⟩ := mem_matchesAt.mp hs
    exact hij.le

theorem OccursIn.lt (h : OccursIn lower word text r) : r.start < r.stop := by
  obtain ⟨p, m, c, q, -, rfl, -, -⟩ := h
  have := c.utf8Size_pos
  simp
  omega

theorem OccursIn.span (h : OccursIn lower word text r) : Span text r := by
  obtain ⟨p, m, c, q, rfl, rfl, -, -⟩ := h
  exact span_append p (m ++ [c]) q

theorem occurs_words : (∃ word ∈ words lower keywords, OccursIn lower word text r) ↔
    Occurrence lower text keywords r := by
  simp only [words, List.mem_map, List.mem_filter, bne_iff_ne, Occurrence]
  constructor
  · rintro ⟨word, ⟨trimmed, ⟨⟨keyword, hk, rfl⟩, hne⟩, rfl⟩, h⟩
    exact ⟨keyword, hk, hne, h⟩
  · rintro ⟨keyword, hk, hne, h⟩
    exact ⟨_, ⟨_, ⟨⟨keyword, hk, rfl⟩, hne⟩, rfl⟩, h⟩

theorem Occurrence.lt (h : Occurrence lower text keywords r) : r.start < r.stop := by
  obtain ⟨_, -, -, h⟩ := h
  exact h.lt

/-- Whatever is excluded, the ranges are separate, of whole characters, and cover the matches that
are left. -/
theorem keywordRangesOutside_spec (lower : Lowercase) (text : List Char) (keywords : List String)
    (excluded : List Range) :
    let found := keywordRangesOutside lower text keywords excluded
    Separate found ∧ (∀ r ∈ found, Span text r) ∧ ∀ n, Covers found n ↔
      ∃ r, Occurrence lower text keywords r ∧ overlapsAny excluded r = false ∧ r.Contains n := by
  have hmem : ∀ r, r ∈ (allMatches lower (words lower keywords) text).filter
      (fun r => !overlapsAny excluded r) ↔
        Occurrence lower text keywords r ∧ overlapsAny excluded r = false := by
    intro r
    rw [List.mem_filter, mem_allMatches, occurs_words, Bool.not_eq_true']
  have hlt : ∀ r ∈ (allMatches lower (words lower keywords) text).filter
      (fun r => !overlapsAny excluded r), r.start < r.stop := fun r hr => ((hmem r).mp hr).1.lt
  dsimp only
  rw [keywordRangesOutside_eq]
  obtain ⟨hsep, hcov⟩ := foldl_push ⟨by simp, .nil⟩ (by simp)
    (pairwise_allMatches.filter _) hlt
  refine ⟨hsep, ?_, fun n => ?_⟩
  · refine span_foldl_push (by simp) fun r hr => ?_
    obtain ⟨⟨_, -, -, h⟩, -⟩ := (hmem r).mp hr
    exact h.span
  · rw [hcov n]
    simp only [Covers, List.not_mem_nil, false_and, exists_false, false_or, hmem, and_assoc]

theorem overlapsAny_eq (h : Separate excluded) :
    overlapsAny excluded r = true ↔ ∃ cut ∈ excluded, r.Overlaps cut :=
  overlaps_first (fun s hs => (h.lt s hs).le) (h.gap.imp fun hgap => hgap.le)

theorem overlapsAny_keywordRanges (hr : r.start < r.stop) :
    overlapsAny (keywordRanges lower text keywords) r = true ↔
      ∃ x, Occurrence lower text keywords x ∧ r.Overlaps x := by
  obtain ⟨hsep, -, hcov⟩ := keywordRangesOutside_spec lower text keywords []
  rw [keywordRanges, overlapsAny_eq hsep]
  constructor
  · rintro ⟨cut, hcut, ho⟩
    obtain ⟨n, hrn, hcn⟩ := (overlaps_iff hr (hsep.lt cut hcut)).mp ho
    obtain ⟨x, hx, -, hxn⟩ := (hcov n).mp ⟨cut, hcut, hcn⟩
    exact ⟨x, hx, (overlaps_iff hr hx.lt).mpr ⟨n, hrn, hxn⟩⟩
  · rintro ⟨x, hx, ho⟩
    obtain ⟨n, hrn, hxn⟩ := (overlaps_iff hr hx.lt).mp ho
    obtain ⟨cut, hcut, hcn⟩ := (hcov n).mpr ⟨x, hx, rfl, hxn⟩
    exact ⟨cut, hcut, (overlaps_iff hr (hsep.lt cut hcut)).mpr ⟨n, hrn, hcn⟩⟩

end CayenChat.Text
