import CayenChat.Lib.Map

/-! # Dropping what ranks lowest

The number of a given rank among several, and what of a table stays when all
values up to that number are dropped.
-/

namespace Cutoff

def rank (i : ℕ) (xs : List ℕ) : ℕ := (xs.mergeSort (· ≤ ·)).getD i 0

variable {i : ℕ} {xs ys : List ℕ} {c : ℕ}

theorem pairwise_sorted : (xs.mergeSort (· ≤ ·)).Pairwise (· ≤ ·) := by
  have h := @List.pairwise_mergeSort ℕ (fun a b => decide (a ≤ b))
    (by simp only [decide_eq_true_eq]; omega)
    (by simp only [Bool.or_eq_true, decide_eq_true_eq]; omega) xs
  simpa using h

theorem rank_mem (h : i < xs.length) : rank i xs ∈ xs := by
  have hl : i < (xs.mergeSort (· ≤ ·)).length := by simpa using h
  unfold rank
  rw [List.getD_eq_getElem _ _ hl]
  exact List.mem_mergeSort.mp (List.getElem_mem hl)

theorem rank_of_const (h : i < xs.length) (hc : ∀ x ∈ xs, x = c) : rank i xs = c :=
  hc _ (rank_mem h)

theorem filter_sorted (h : ys.Pairwise (· ≤ ·)) (hi : i < ys.length) :
    ys.filter (ys[i] < ·) = (ys.drop (i + 1)).filter (ys[i] < ·) := by
  have ht : (ys.take (i + 1)).filter (ys[i] < ·) = [] := by
    rw [List.filter_eq_nil_iff]
    intro y hy
    obtain ⟨j, hj, rfl⟩ := List.getElem_of_mem hy
    rw [List.length_take] at hj
    have hle : ys[j] ≤ ys[i] := by
      rcases Nat.lt_or_eq_of_le (show j ≤ i by omega) with hji | rfl
      · exact List.pairwise_iff_getElem.mp h j i (by omega) hi hji
      · exact Nat.le_refl _
    simpa [List.getElem_take] using hle
  have hs : ys.filter (ys[i] < ·) = (ys.take (i + 1)).filter (ys[i] < ·) ++
      (ys.drop (i + 1)).filter (ys[i] < ·) := by
    rw [← List.filter_append, List.take_append_drop]
  rw [hs, ht, List.nil_append]

theorem length_filter_rank (p : ℕ → Bool) :
    (xs.filter p).length = ((xs.mergeSort (· ≤ ·)).filter p).length :=
  ((List.mergeSort_perm xs _).filter p).length_eq.symm

theorem length_above_le (h : i < xs.length) :
    (xs.filter (rank i xs < ·)).length + (i + 1) ≤ xs.length := by
  have hl : i < (xs.mergeSort (· ≤ ·)).length := by simpa using h
  have hr : rank i xs = (xs.mergeSort (· ≤ ·))[i] := List.getD_eq_getElem _ _ hl
  rw [length_filter_rank, hr, filter_sorted pairwise_sorted hl]
  have := List.length_filter_le (fun x => decide ((xs.mergeSort (· ≤ ·))[i] < x))
    ((xs.mergeSort (· ≤ ·)).drop (i + 1))
  rw [List.length_drop, List.length_mergeSort] at this
  omega

theorem length_above (h : i + 1 < xs.length) (hlt : rank i xs < rank (i + 1) xs) :
    (xs.filter (rank i xs < ·)).length + (i + 1) = xs.length := by
  have hl : i + 1 < (xs.mergeSort (· ≤ ·)).length := by simpa using h
  have hr : rank i xs = (xs.mergeSort (· ≤ ·))[i] := List.getD_eq_getElem _ _ (by omega)
  have hr' : rank (i + 1) xs = (xs.mergeSort (· ≤ ·))[i + 1] := List.getD_eq_getElem _ _ hl
  have hall : ∀ y ∈ (xs.mergeSort (· ≤ ·)).drop (i + 1),
      decide ((xs.mergeSort (· ≤ ·))[i] < y) = true := by
    intro y hy
    obtain ⟨j, hj, rfl⟩ := List.getElem_of_mem hy
    rw [List.length_drop] at hj
    rw [List.getElem_drop, decide_eq_true_eq, ← hr]
    refine hlt.trans_le ?_
    rw [hr']
    rcases Nat.eq_zero_or_pos j with rfl | hpos
    · exact Nat.le_refl _
    · exact List.pairwise_iff_getElem.mp pairwise_sorted (i + 1) (i + 1 + j) hl (by omega) (by omega)
  rw [length_filter_rank, hr, filter_sorted pairwise_sorted (by omega),
    List.filter_eq_self.mpr hall, List.length_drop, List.length_mergeSort]
  omega

end Cutoff

namespace Map

variable {κ ν : Type*}

theorem length_values {m : Map κ ν} : (values m).length = m.entries.length := by
  rw [values, List.length_map]

theorem length_keepValues {p : ν → Bool} {m : Map κ ν} :
    (keepValues p m).entries.length = ((values m).filter p).length := by
  rw [values, List.filter_map, List.length_map]
  rfl

end Map
