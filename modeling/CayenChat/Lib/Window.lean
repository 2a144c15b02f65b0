import Mathlib

/-! # Events within a sliding window

An event is let through while fewer than a bound were let through within a
window before it. Then no interval shorter than the window holds more than
the bound.
-/

namespace Window

def fresh (width now : ℕ) (times : List ℕ) : List ℕ := times.filter fun t => now - t < width

/-- Times in order, each with fewer than `bound` within the window before it. -/
inductive Paced (width bound : ℕ) : List ℕ → Prop
  | nil : Paced width bound []
  | next {times : List ℕ} {now : ℕ} (past : Paced width bound times)
      (ordered : ∀ t ∈ times, t ≤ now) (room : (fresh width now times).length < bound) :
      Paced width bound (times ++ [now])

variable {width bound now later a : ℕ} {times : List ℕ}

@[simp] theorem fresh_nil : fresh width now [] = [] := rfl

theorem fresh_append {more : List ℕ} :
    fresh width now (times ++ more) = fresh width now times ++ fresh width now more :=
  List.filter_append ..

theorem fresh_fresh (h : now ≤ later) :
    fresh width later (fresh width now times) = fresh width later times := by
  unfold fresh
  rw [List.filter_filter]
  apply List.filter_congr
  intro t _
  simp only [Bool.and_eq_left_iff_imp, decide_eq_true_eq]
  omega

/-- Dropping the oldest times while they are stale leaves the fresh ones, the times being in
order. -/
theorem dropWhile_stale (h : times.Pairwise (· ≤ ·)) :
    times.dropWhile (fun t => !decide (now - t < width)) = fresh width now times := by
  induction times with
  | nil => rfl
  | cons t times ih =>
    rw [List.pairwise_cons] at h
    by_cases ht : now - t < width
    · have hall : ∀ u ∈ t :: times, decide (now - u < width) = true := by
        intro u hu
        rw [decide_eq_true_eq]
        rcases List.mem_cons.mp hu with rfl | hu
        · exact ht
        · have := h.1 u hu
          omega
      rw [List.dropWhile_cons_of_neg (by simpa using ht), fresh, List.filter_eq_self.mpr hall]
    · rw [List.dropWhile_cons_of_pos (by simpa using ht), ih h.2, fresh, fresh,
        List.filter_cons_of_neg (by simpa using ht)]

theorem fresh_of_stale (ho : times.Pairwise (· ≤ ·))
    (h : ∀ t, times.getLast? = some t → ¬ now - t < width) : fresh width now times = [] := by
  cases hl : times.getLast? with
  | none =>
    rw [List.getLast?_eq_none_iff.mp hl]
    rfl
  | some last =>
    obtain ⟨older, rfl⟩ := List.getLast?_eq_some_iff.mp hl
    have hstale := h last hl
    apply List.filter_eq_nil_iff.mpr
    intro t ht
    rw [decide_eq_true_eq]
    have hle : t ≤ last := by
      rcases List.mem_append.mp ht with ht | ht
      · exact (List.pairwise_append.mp ho).2.2 t ht last (List.mem_singleton_self _)
      · exact (List.mem_singleton.mp ht).le
    omega

theorem Paced.ordered (h : Paced width bound times) : times.Pairwise (· ≤ ·) := by
  induction h with
  | nil => exact List.Pairwise.nil
  | next _ ho _ ih =>
    apply List.pairwise_append.mpr
    refine ⟨ih, List.pairwise_singleton .., ?_⟩
    rintro t ht u hu
    rw [List.mem_singleton.mp hu]
    exact ho t ht

theorem Paced.within (h : Paced width bound times) (a : ℕ) :
    (times.filter fun t => a ≤ t && t < a + width).length ≤ bound := by
  induction h with
  | nil => exact Nat.zero_le _
  | @next times now _ ho hr ih =>
    rw [List.filter_append, List.length_append]
    by_cases hn : a ≤ now ∧ now < a + width
    · have hle : (times.filter fun t => a ≤ t && t < a + width).length
          ≤ (fresh width now times).length := by
        apply List.Sublist.length_le
        apply List.monotone_filter_right
        intro t ht
        simp only [Bool.and_eq_true, decide_eq_true_eq] at ht ⊢
        omega
      have hone := List.length_filter_le (fun t => decide (a ≤ t) && decide (t < a + width)) [now]
      rw [List.length_singleton] at hone
      omega
    · have hnone : [now].filter (fun t => a ≤ t && t < a + width) = [] := by
        rw [List.filter_eq_nil_iff]
        intro t ht
        rw [List.mem_singleton.mp ht]
        simpa using hn
      rw [hnone]
      exact ih

end Window
