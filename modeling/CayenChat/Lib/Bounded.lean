import Mathlib

/-! # Bounded tables

A table of bounded length that makes room by dropping its oldest entry.
-/

namespace Bounded

variable {α : Type*} {cap : ℕ} {l : List α} {a b : α}

def push (cap : ℕ) (l : List α) (a : α) : List α :=
  (if cap ≤ l.length then l.drop 1 else l) ++ [a]

theorem push_of_lt (h : l.length < cap) : push cap l a = l ++ [a] := by
  rw [push, if_neg (Nat.not_le.mpr h)]

theorem mem_push_self : a ∈ push cap l a := by simp [push]

theorem mem_of_mem_push (h : b ∈ push cap l a) : b ∈ l ∨ b = a := by
  unfold push at h
  split_ifs at h <;> simp only [List.mem_append, List.mem_singleton] at h
  · exact h.imp List.mem_of_mem_drop id
  · exact h

/-- The last entries of a list, when one is added. -/
theorem push_rtake (h : 0 < cap) : push cap (l.rtake cap) a = (l ++ [a]).rtake cap := by
  obtain ⟨n, rfl⟩ := Nat.exists_eq_succ_of_ne_zero h.ne'
  rw [List.rtake_concat_succ, push, List.rtake, List.rtake, List.length_drop, List.drop_drop]
  congr 1
  split_ifs
  · congr 1
    omega
  · congr 1
    omega

end Bounded
