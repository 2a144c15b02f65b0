import Mathlib

/-! # Runs of adjacent elements

A list is cut where an element does not join the one before it. An element put at the end makes the
last run longer, or a run of its own.
-/

namespace Adjacent

variable {α : Type*} {joins : α → α → Bool} {l run : List α} {runs : List (List α)} {a : α}

theorem splitBy_concat (h : l.splitBy joins = runs ++ [run])
    (ha : ∀ x ∈ run.getLast?, joins x a = true) :
    (l ++ [a]).splitBy joins = runs ++ [run ++ [a]] := by
  obtain ⟨hl, hnil, hchain, hapart⟩ := List.splitBy_eq_iff.mp h
  have hne : run ≠ [] := by
    rintro rfl
    simp at hnil
  refine List.splitBy_eq_iff.mpr ⟨by simp [hl], ?_, ?_, ?_⟩
  · simp_all
  · intro m hm
    obtain hm | hm := List.mem_append.mp hm
    · exact hchain m (List.mem_append_left _ hm)
    · obtain rfl := List.mem_singleton.mp hm
      rw [List.isChain_append]
      refine ⟨hchain run (by simp), by simp, ?_⟩
      intro x hx y hy
      simp only [List.head?_cons, Option.mem_def, Option.some.injEq] at hy
      subst hy
      exact ha x hx
  · rw [List.isChain_append] at hapart ⊢
    obtain ⟨hruns, -, hlast⟩ := hapart
    refine ⟨hruns, by simp, ?_⟩
    intro x hx y hy
    simp only [List.head?_cons, Option.mem_def, Option.some.injEq] at hy
    subst hy
    obtain ⟨hx', _, happ⟩ := hlast x hx run (by simp)
    exact ⟨hx', by simp, by simpa [List.head_append, hne] using happ⟩

theorem getLast?_run (h : l.splitBy joins = runs ++ [run]) : run.getLast? = l.getLast? := by
  obtain ⟨rfl, hnil, -, -⟩ := List.splitBy_eq_iff.mp h
  have hne : run ≠ [] := by
    rintro rfl
    simp at hnil
  rw [List.flatten_append, List.flatten_singleton, List.getLast?_append_of_ne_nil _ hne]

theorem length_splitBy_of_apart (h : ∀ last ∈ l.getLast?, joins last a = false) :
    ((l ++ [a]).splitBy joins).length = (l.splitBy joins).length + 1 := by
  rw [List.splitBy_append_cons [] h, List.length_append]
  rfl

theorem length_splitBy_of_joins {last : α} (hl : l.getLast? = some last)
    (h : joins last a = true) :
    ((l ++ [a]).splitBy joins).length = (l.splitBy joins).length := by
  obtain hnil | ⟨runs, run, hruns⟩ := List.eq_nil_or_concat (l.splitBy joins)
  · rw [List.splitBy_eq_nil] at hnil
    simp [hnil] at hl
  · rw [List.concat_eq_append] at hruns
    have hrun : ∀ x ∈ run.getLast?, joins x a = true := by
      rw [getLast?_run hruns, hl]
      simp [h]
    rw [splitBy_concat hruns hrun, hruns, List.length_append, List.length_append]
    rfl

end Adjacent
