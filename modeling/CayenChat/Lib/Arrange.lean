import Mathlib

/-! # Arranging lists

What a list keeps of its order when an element is put in at a position, and
when it is sorted by a relation that leaves some elements equal.
-/

namespace Arrange

variable {α : Type*} {R S : α → α → Prop} {l : List α} {a : α} {i : ℕ}

theorem insertIdx_eq (hi : i ≤ l.length) : l.insertIdx i a = l.take i ++ a :: l.drop i := by
  induction l generalizing i with
  | nil =>
    obtain rfl : i = 0 := Nat.le_zero.mp hi
    rfl
  | cons b l ih =>
    cases i with
    | zero => rfl
    | succ i =>
      rw [List.insertIdx_succ_cons, ih (Nat.le_of_succ_le_succ hi)]
      rfl

theorem pairwise_insertIdx (hl : l.Pairwise R) (hi : i ≤ l.length) (hb : ∀ b ∈ l.take i, R b a)
    (ha : ∀ b ∈ l.drop i, R a b) : (l.insertIdx i a).Pairwise R := by
  rw [insertIdx_eq hi]
  rw [← List.take_append_drop i l, List.pairwise_append] at hl
  obtain ⟨ht, hd, hc⟩ := hl
  refine List.pairwise_append.mpr ⟨ht, List.pairwise_cons.mpr ⟨ha, hd⟩, ?_⟩
  rintro b hbt c hcd
  rcases List.mem_cons.mp hcd with rfl | hcd
  · exact hb b hbt
  · exact hc b hbt c hcd

theorem mapM_some {β : Type*} {f : α → Option β} {g : α → β}
    (h : ∀ a ∈ l, f a = some (g a)) : l.mapM f = some (l.map g) := by
  induction l with
  | nil => rfl
  | cons a l ih =>
    rw [List.mapM_cons, h a List.mem_cons_self, ih fun b hb => h b (List.mem_cons_of_mem _ hb)]
    rfl

section Stable

variable [DecidableRel R]

theorem pairwise_orderedInsert (hl : l.Pairwise fun b c => R c b → S b c)
    (ha : ∀ b ∈ l, R b a → S a b) : (l.orderedInsert R a).Pairwise fun b c => R c b → S b c := by
  induction l with
  | nil => exact List.pairwise_singleton _ _
  | cons b l ih =>
    rw [List.orderedInsert_cons]
    split_ifs with hab
    · exact List.pairwise_cons.mpr ⟨ha, hl⟩
    · obtain ⟨hb, hl⟩ := List.pairwise_cons.mp hl
      refine List.pairwise_cons.mpr ⟨fun c hc hcb => ?_, ih hl fun c hc => ha c (.tail _ hc)⟩
      rcases (List.mem_orderedInsert R).mp hc with rfl | hc
      · exact absurd hcb hab
      · exact hb c hc hcb

theorem stable_insertionSort (hl : l.Pairwise fun b c => R c b → S b c) :
    (l.insertionSort R).Pairwise fun b c => R c b → S b c := by
  induction l with
  | nil => exact .nil
  | cons b l ih =>
    obtain ⟨hb, hl⟩ := List.pairwise_cons.mp hl
    apply pairwise_orderedInsert (ih hl)
    intro c hc
    exact hb c ((List.mem_insertionSort R).mp hc)

end Stable

end Arrange
