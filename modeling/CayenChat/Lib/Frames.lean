import Mathlib

/-! # Frames at the start of a list

A list starts with the codes of some frames, up to where no code of a frame
follows. Where no code is the start of another and none is empty, the frames
and what follows them are found in one way.
-/

namespace Frames

variable {α β : Type*} {code : α → List β} {l rest rest' : List β} {frames frames' : List α} {a : α}

/-- The frames a list starts with, and what follows them. -/
structure Framed (code : α → List β) (l : List β) (frames : List α) (rest : List β) : Prop where
  eq : l = frames.flatMap code ++ rest
  stops : ∀ a, ¬code a <+: rest

/-- No code is the start of another, or empty. -/
structure PrefixFree (code : α → List β) : Prop where
  eq_of_append : ∀ {a b : α} {s t : List β}, code a ++ s = code b ++ t → a = b
  ne_nil : ∀ a, code a ≠ []

theorem framed_nil (h : ∀ a, ¬code a <+: rest) : Framed code rest [] rest := ⟨rfl, h⟩

theorem Framed.cons (h : Framed code l frames rest) (a : α) :
    Framed code (code a ++ l) (a :: frames) rest :=
  ⟨by rw [h.eq, List.flatMap_cons, List.append_assoc], h.stops⟩

theorem Framed.filter (h : Framed code l frames rest) (p : α → Bool) :
    Framed code ((frames.filter p).flatMap code ++ rest) (frames.filter p) rest := ⟨rfl, h.stops⟩

theorem Framed.unique (hc : PrefixFree code) (h : Framed code l frames rest)
    (h' : Framed code l frames' rest') : frames = frames' ∧ rest = rest' := by
  induction frames generalizing l frames' with
  | nil =>
    have heq := h.eq.symm.trans h'.eq
    cases frames' with
    | nil => exact ⟨rfl, heq⟩
    | cons a frames' =>
      refine absurd ?_ (h.stops a)
      rw [List.flatMap_nil, List.nil_append, List.flatMap_cons, List.append_assoc] at heq
      exact ⟨_, heq.symm⟩
  | cons a frames ih =>
    have heq := h.eq.symm.trans h'.eq
    rw [List.flatMap_cons, List.append_assoc] at heq
    cases frames' with
    | nil => exact absurd ⟨_, heq⟩ (h'.stops a)
    | cons b frames' =>
      rw [List.flatMap_cons, List.append_assoc] at heq
      obtain rfl := hc.eq_of_append heq
      obtain ⟨rfl, rfl⟩ := ih ⟨rfl, h.stops⟩ ⟨List.append_cancel_left heq, h'.stops⟩
      exact ⟨rfl, rfl⟩

theorem exists_framed (hc : PrefixFree code) (l : List β) :
    ∃ frames rest, Framed code l frames rest := by
  induction hn : l.length using Nat.strong_induction_on generalizing l with
  | _ n ih =>
    by_cases h : ∃ a, code a <+: l
    · obtain ⟨a, tail, rfl⟩ := h
      have hpos := List.length_pos_iff.mpr (hc.ne_nil a)
      rw [List.length_append] at hn
      obtain ⟨frames, rest, hf⟩ := ih tail.length (by omega) tail rfl
      exact ⟨a :: frames, rest, hf.cons a⟩
    · exact ⟨[], l, framed_nil fun a ha => h ⟨a, ha⟩⟩

end Frames
