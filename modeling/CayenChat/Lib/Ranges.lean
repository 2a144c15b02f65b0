import CayenChat.Lib.Utf8
import CayenChat.Lib.Search

/-! # Sets of positions as ranges

A list of ranges stands for the positions in them. Ranges that come in the order of their
starts are merged as they come, so that the list stays ascending and no two ranges touch; in
such a list an overlap with a range is found by binary search.
-/

namespace Utf8

namespace Range

variable {r s : Range} {rs : List Range} {n : ℕ}

def Contains (r : Range) (n : ℕ) : Prop := r.start ≤ n ∧ n < r.stop

def Overlaps (r s : Range) : Prop := r.start < s.stop ∧ s.start < r.stop

instance : Decidable (r.Overlaps s) := inferInstanceAs (Decidable (_ ∧ _))

def Covers (rs : List Range) (n : ℕ) : Prop := ∃ r ∈ rs, r.Contains n

theorem overlaps_iff (hr : r.start < r.stop) (hs : s.start < s.stop) :
    r.Overlaps s ↔ ∃ n, r.Contains n ∧ s.Contains n := by
  constructor
  · rintro ⟨h, h'⟩
    refine ⟨max r.start s.start, ⟨?_, ?_⟩, ?_, ?_⟩ <;> omega
  · rintro ⟨n, ⟨h1, h2⟩, h3, h4⟩
    exact ⟨by omega, by omega⟩

/-- Ascending ranges with positions, with a gap between any two. -/
structure Separate (rs : List Range) : Prop where
  lt : ∀ r ∈ rs, r.start < r.stop
  gap : rs.Pairwise fun r s => r.stop < s.start

/-- A range added at the end, as a part of the last one where the two touch. -/
def push (rs : List Range) (found : Range) : List Range :=
  match rs.getLast? with
  | some last =>
    if found.start ≤ last.stop then rs.dropLast ++ [⟨last.start, max last.stop found.stop⟩]
    else rs ++ [found]
  | none => rs ++ [found]

theorem push_nil : push [] r = [r] := rfl

theorem push_concat : push (rs ++ [s]) r =
    if r.start ≤ s.stop then rs ++ [⟨s.start, max s.stop r.stop⟩] else rs ++ [s] ++ [r] := by
  simp [push]

theorem covers_append (rs ss : List Range) :
    Covers (rs ++ ss) n ↔ Covers rs n ∨ Covers ss n := by
  simp only [Covers, List.mem_append, or_and_right, exists_or]

theorem covers_singleton : Covers [r] n ↔ r.Contains n := by
  simp [Covers]

theorem covers_push (hrs : ∀ s ∈ rs, s.start ≤ r.start) :
    Covers (push rs r) n ↔ Covers rs n ∨ r.Contains n := by
  rcases List.eq_nil_or_concat rs with rfl | ⟨rs, s, rfl⟩
  · rw [push_nil, covers_singleton]
    simp [Covers]
  · have hs := hrs s (by simp)
    rw [List.concat_eq_append, push_concat]
    split
    · next hle =>
      have hmax : Contains ⟨s.start, max s.stop r.stop⟩ n ↔ s.Contains n ∨ r.Contains n := by
        simp only [Contains]
        omega
      rw [covers_append, covers_append, covers_singleton, covers_singleton, hmax, or_assoc]
    · rw [covers_append, covers_singleton]

theorem Separate.push (h : Separate rs) (hrs : ∀ s ∈ rs, s.start ≤ r.start)
    (hr : r.start < r.stop) : Separate (push rs r) := by
  rcases List.eq_nil_or_concat rs with rfl | ⟨rs, s, rfl⟩
  · rw [push_nil]
    exact ⟨by simpa using hr, List.pairwise_singleton _ _⟩
  · rw [List.concat_eq_append] at h hrs ⊢
    obtain ⟨hinit, -, hlast⟩ := List.pairwise_append.mp h.gap
    have hs := h.lt s (by simp)
    rw [push_concat]
    split
    · constructor
      · intro t ht
        rcases List.mem_append.mp ht with ht | ht
        · exact h.lt t (List.mem_append_left _ ht)
        · rw [List.mem_singleton.mp ht]
          exact Nat.lt_of_lt_of_le hs (Nat.le_max_left ..)
      · refine List.pairwise_append.mpr ⟨hinit, List.pairwise_singleton _ _, fun t ht u hu => ?_⟩
        rw [List.mem_singleton.mp hu]
        exact hlast t ht s (List.mem_singleton_self s)
    · constructor
      · intro t ht
        rcases List.mem_append.mp ht with ht | ht
        · exact h.lt t ht
        · rw [List.mem_singleton.mp ht]
          exact hr
      · refine List.pairwise_append.mpr ⟨h.gap, List.pairwise_singleton _ _, fun t ht u hu => ?_⟩
        rw [List.mem_singleton.mp hu]
        rcases List.mem_append.mp ht with ht | ht
        · have hgap := hlast t ht s (List.mem_singleton_self s)
          have hle := hrs s (by simp)
          omega
        · rw [List.mem_singleton.mp ht]
          omega

theorem start_le_of_push (hrs : ∀ s ∈ rs, s.start ≤ r.start) :
    ∀ s ∈ push rs r, s.start ≤ r.start := by
  rcases List.eq_nil_or_concat rs with rfl | ⟨rs, t, rfl⟩
  · simp [push_nil]
  · rw [List.concat_eq_append] at hrs ⊢
    rw [push_concat]
    split
    · intro s hs
      rcases List.mem_append.mp hs with hs | hs
      · exact hrs s (List.mem_append_left _ hs)
      · rw [List.mem_singleton.mp hs]
        exact hrs t (by simp)
    · intro s hs
      rcases List.mem_append.mp hs with hs | hs
      · exact hrs s hs
      · rw [List.mem_singleton.mp hs]

/-- Ranges that come in the order of their starts are merged into separate ones with the same
positions. -/
theorem foldl_push {found : List Range} (hrs : Separate rs)
    (hle : ∀ s ∈ rs, ∀ r ∈ found, s.start ≤ r.start)
    (hfound : found.Pairwise fun r s => r.start ≤ s.start) (hlt : ∀ r ∈ found, r.start < r.stop) :
    Separate (found.foldl push rs) ∧
      ∀ n, Covers (found.foldl push rs) n ↔ Covers rs n ∨ Covers found n := by
  induction found generalizing rs with
  | nil => exact ⟨hrs, fun n => by simp [Covers]⟩
  | cons r found ih =>
    obtain ⟨hfirst, hrest⟩ := List.pairwise_cons.mp hfound
    have hr : ∀ s ∈ rs, s.start ≤ r.start := fun s hs => hle s hs r List.mem_cons_self
    obtain ⟨hsep, hcov⟩ := ih (hrs.push hr (hlt r List.mem_cons_self))
      (fun s hs t ht => Nat.le_trans (start_le_of_push hr s hs) (hfirst t ht)) hrest
      fun t ht => hlt t (List.mem_cons_of_mem _ ht)
    refine ⟨hsep, fun n => ?_⟩
    rw [List.foldl_cons, hcov n, covers_push hr, or_assoc]
    simp [Covers]

theorem span_push {text : List Char} (hrs : ∀ s ∈ rs, Span text s) (hr : Span text r) :
    ∀ s ∈ push rs r, Span text s := by
  rcases List.eq_nil_or_concat rs with rfl | ⟨rs, t, rfl⟩
  · simpa [push_nil] using hr
  · rw [List.concat_eq_append] at hrs ⊢
    have ht := hrs t (by simp)
    rw [push_concat]
    split
    · intro s hs
      rcases List.mem_append.mp hs with hs | hs
      · exact hrs s (List.mem_append_left _ hs)
      · rw [List.mem_singleton.mp hs]
        refine ⟨Nat.le_trans ht.le (Nat.le_max_left ..), ht.start, ?_⟩
        rcases Nat.le_total t.stop r.stop with hle | hle
        · simpa [hle] using hr.stop
        · simpa [hle] using ht.stop
    · intro s hs
      rcases List.mem_append.mp hs with hs | hs
      · exact hrs s hs
      · rw [List.mem_singleton.mp hs]
        exact hr

theorem span_foldl_push {text : List Char} {found : List Range} (hrs : ∀ s ∈ rs, Span text s)
    (hfound : ∀ r ∈ found, Span text r) : ∀ s ∈ found.foldl push rs, Span text s := by
  induction found generalizing rs with
  | nil => exact hrs
  | cons r found ih =>
    exact ih (span_push hrs (hfound r List.mem_cons_self)) fun t ht =>
      hfound t (List.mem_cons_of_mem _ ht)

theorem overlaps_first (hlt : ∀ s ∈ rs, s.start ≤ s.stop)
    (hrs : rs.Pairwise fun s t => s.stop ≤ t.start) :
    (rs[Search.partitionPoint (fun s => decide (s.stop ≤ r.start)) rs]?.any fun s =>
      decide (s.start < r.stop)) = true ↔ ∃ s ∈ rs, r.Overlaps s := by
  have hsplit : rs.Pairwise fun s t => decide (t.stop ≤ r.start) = true →
      decide (s.stop ≤ r.start) = true := by
    refine List.Pairwise.imp_of_mem (fun {s t} _ ht hst h => ?_) hrs
    have := hlt t ht
    simp only [decide_eq_true_eq] at h ⊢
    omega
  have hdrop := Search.drop_partitionPoint hsplit
  rw [← List.head?_drop, hdrop]
  have hrest : ∀ s ∈ rs, r.start < s.stop →
      s ∈ rs.filter fun s => !decide (s.stop ≤ r.start) := by
    intro s hs hlt
    rw [List.mem_filter]
    exact ⟨hs, by simpa using hlt⟩
  have hsub : (rs.filter fun s => !decide (s.stop ≤ r.start)).Pairwise
      fun s t => s.stop ≤ t.start := hrs.filter _
  have hmem : ∀ s ∈ rs.filter fun s => !decide (s.stop ≤ r.start), s ∈ rs ∧ r.start < s.stop := by
    intro s hs
    obtain ⟨hs, hstop⟩ := List.mem_filter.mp hs
    exact ⟨hs, by simpa using hstop⟩
  generalize (rs.filter fun s => !decide (s.stop ≤ r.start)) = left at *
  cases left with
  | nil =>
    simp only [List.head?_nil, Option.any_none, Bool.false_eq_true, false_iff]
    rintro ⟨s, hs, hstart, -⟩
    exact absurd (hrest s hs hstart) List.not_mem_nil
  | cons first left =>
    obtain ⟨hfirst, hstart⟩ := hmem first List.mem_cons_self
    simp only [List.head?_cons, Option.any_some, decide_eq_true_eq]
    constructor
    · intro h
      exact ⟨first, hfirst, hstart, h⟩
    · rintro ⟨s, hs, hlow, hhigh⟩
      rcases List.mem_cons.mp (hrest s hs hlow) with rfl | hleft
      · exact hhigh
      · have hgap := List.rel_of_pairwise_cons hsub hleft
        have := hlt first hfirst
        omega

end Range

end Utf8
