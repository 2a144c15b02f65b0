import Mathlib

/-! # Searching a list without overlaps

The occurrences of a pattern that a scan from the left finds when it goes on
behind each match. Positions are sums of weights of what stands before. An
occurrence that no letter of the pattern stands before is found.
-/

namespace Occurrences

variable {α : Type*} {w : α → ℕ} {pattern text p q : List α} {start n : ℕ}

def weight (w : α → ℕ) (xs : List α) : ℕ := (xs.map w).sum

/-- The positions of the matches of a pattern in what is left of a text from a position on, none
of them overlapping. -/
def scan [DecidableEq α] (w : α → ℕ) (pattern : List α) : ℕ → List α → List ℕ
  | _, [] => []
  | start, c :: cs =>
    if pattern <+: c :: cs then
      start :: scan w pattern (start + weight w pattern) (cs.drop (pattern.length - 1))
    else scan w pattern (start + w c) cs
termination_by _ text => text.length
decreasing_by
  · rw [List.length_drop, List.length_cons]
    omega
  · exact Nat.lt_succ_self _

theorem weight_append (xs ys : List α) : weight w (xs ++ ys) = weight w xs + weight w ys := by
  simp [weight]

theorem weight_cons (x : α) (xs : List α) : weight w (x :: xs) = w x + weight w xs := by
  simp [weight]

variable [DecidableEq α]

omit [DecidableEq α] in
theorem drop_of_match (hne : pattern ≠ []) {c : α} {cs : List α} (h : pattern ++ q = c :: cs) :
    cs.drop (pattern.length - 1) = q := by
  obtain ⟨d, ds, rfl⟩ := List.exists_cons_of_ne_nil hne
  rw [List.cons_append, List.cons.injEq] at h
  rw [← h.2, List.length_cons, Nat.add_sub_cancel, List.drop_left]

theorem occurs_of_mem_scan (hne : pattern ≠ []) (h : n ∈ scan w pattern start text) :
    ∃ p q, text = p ++ pattern ++ q ∧ n = start + weight w p := by
  fun_induction scan w pattern start text with
  | case1 start => cases h
  | case2 start c cs hp ih =>
    obtain ⟨rest, hrest⟩ := hp
    rw [drop_of_match hne hrest] at h ih
    rcases List.mem_cons.mp h with rfl | h
    · exact ⟨[], rest, hrest.symm, rfl⟩
    · obtain ⟨p, q, rfl, rfl⟩ := ih h
      exact ⟨pattern ++ p, q, by rw [← hrest]; simp, by rw [weight_append, Nat.add_assoc]⟩
  | case3 start c cs hp ih =>
    obtain ⟨p, q, rfl, rfl⟩ := ih h
    exact ⟨c :: p, q, rfl, by rw [weight_cons, Nat.add_assoc]⟩

theorem pairwise_scan (hne : pattern ≠ []) (hw : ∀ x ∈ pattern, 0 < w x) :
    (scan w pattern start text).Pairwise (· < ·) := by
  fun_induction scan w pattern start text with
  | case1 start => exact .nil
  | case2 start c cs hp ih =>
    refine List.pairwise_cons.mpr ⟨fun n hn => ?_, ih⟩
    obtain ⟨p, q, -, rfl⟩ := occurs_of_mem_scan hne hn
    have hpos : 0 < weight w pattern := by
      obtain ⟨d, ds, rfl⟩ := List.exists_cons_of_ne_nil hne
      rw [weight_cons]
      have := hw d List.mem_cons_self
      omega
    omega
  | case3 start c cs hp ih => exact ih

/-- An occurrence is found where what stands before it cannot end a match: letters make up the
pattern, and no letter stands directly before the occurrence. -/
theorem mem_scan (hne : pattern ≠ []) {letter : α → Prop} (hletter : ∀ x ∈ pattern, letter x)
    (hp : ∀ x ∈ p.getLast?, ¬ letter x) :
    start + weight w p ∈ scan w pattern start (p ++ pattern ++ q) := by
  generalize ht : p ++ pattern ++ q = text
  fun_induction scan w pattern start text generalizing p with
  | case1 start =>
    rw [List.append_assoc, List.append_eq_nil_iff, List.append_eq_nil_iff] at ht
    exact absurd ht.2.1 hne
  | case2 start c cs hm ih =>
    obtain ⟨rest, hrest⟩ := hm
    rw [drop_of_match hne hrest] at ih ⊢
    rw [← hrest, List.append_assoc] at ht
    rcases List.append_eq_append_iff.mp ht with ⟨r, hr, hrest'⟩ | ⟨r, hr, hrest'⟩
    · -- What stands before is a part of the match, so it is empty.
      obtain rfl : p = [] := by
        by_contra hpne
        refine hp (p.getLast hpne) (List.getLast?_eq_getLast_of_ne_nil hpne) (hletter _ ?_)
        rw [hr]
        exact List.mem_append_left _ (List.getLast_mem hpne)
      exact List.mem_cons_self
    · refine List.mem_cons_of_mem _ ?_
      rw [hr, weight_append, ← Nat.add_assoc]
      refine ih (fun x hx => hp x ?_) (by rw [hrest', List.append_assoc])
      have hrne : r ≠ [] := by
        rintro rfl
        cases hx
      rw [hr, List.getLast?_append_of_ne_nil _ hrne]
      exact hx
  | case3 start c cs hm ih =>
    cases p with
    | nil =>
      refine absurd ?_ hm
      rw [← ht, List.nil_append]
      exact List.prefix_append ..
    | cons d p =>
      rw [List.cons_append, List.cons_append, List.cons.injEq] at ht
      obtain ⟨rfl, ht⟩ := ht
      rw [weight_cons, ← Nat.add_assoc]
      refine ih (fun x hx => hp x ?_) ht
      cases p with
      | nil => cases hx
      | cons e p => exact hx

end Occurrences
