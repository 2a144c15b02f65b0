import CayenChat.Lib.Utf8

/-! # Lowercase forms

Texts compared without regard to case: the lowercase form of a text is that of its characters,
one after another. A character has a form of one to three characters.
-/

open Utf8

/-- The lowercase forms of characters. -/
structure Lowercase where
  form : Char → List Char
  ne_nil : ∀ c, form c ≠ []
  length_le : ∀ c, (form c).length ≤ 3

namespace Lowercase

variable {lower : Lowercase} {s t m m' : List Char}

def fold (lower : Lowercase) (s : List Char) : List Char := s.flatMap lower.form

@[simp] theorem fold_nil : lower.fold [] = [] := rfl
@[simp] theorem fold_cons (c : Char) (s : List Char) :
    lower.fold (c :: s) = lower.form c ++ lower.fold s := rfl
@[simp] theorem fold_append (s t : List Char) :
    lower.fold (s ++ t) = lower.fold s ++ lower.fold t := by
  simp [fold]

@[simp] theorem fold_eq_nil : lower.fold s = [] ↔ s = [] := by
  cases s with
  | nil => simp
  | cons c s => simp [lower.ne_nil c]

theorem length_form_pos (lower : Lowercase) (c : Char) : 0 < (lower.form c).length :=
  List.length_pos_iff.mpr (lower.ne_nil c)

theorem length_fold_le (lower : Lowercase) (s : List Char) :
    (lower.fold s).length ≤ size s * 3 := by
  induction s with
  | nil => simp
  | cons c s ih =>
    have hform := lower.length_le c
    have hsize := c.utf8Size_pos
    rw [fold_cons, List.length_append, size_cons]
    omega

theorem length_fold_lt (hm : m <+: m') (hne : m ≠ m') :
    (lower.fold m).length < (lower.fold m').length := by
  obtain ⟨t, rfl⟩ := hm
  have ht : t ≠ [] := by
    rintro rfl
    exact hne (List.append_nil m).symm
  have hpos : 0 < (lower.fold t).length := List.length_pos_iff.mpr (mt fold_eq_nil.mp ht)
  rw [fold_append, List.length_append]
  omega

theorem prefix_unique (hm : m <+: s) (hm' : m' <+: s)
    (h : (lower.fold m).length = (lower.fold m').length) : m = m' := by
  by_contra hne
  rcases List.prefix_or_prefix_of_prefix hm hm' with hp | hp
  · have := @length_fold_lt lower _ _ hp hne
    omega
  · have := @length_fold_lt lower _ _ hp (Ne.symm hne)
    omega

end Lowercase
