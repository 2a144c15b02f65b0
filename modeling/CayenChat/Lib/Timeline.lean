import Mathlib

/-! # Steps back and forth

The present stands in a line behind what came before it and ahead of what was
undone. Going back or forth only changes the place in the line, so any mixture
of steps is told by a number; a record cuts the line behind the present and
keeps the newest entries.
-/

namespace Timeline

variable {σ : Type*} {n : ℕ} {l m : List σ}

section Newest

def newest (n : ℕ) (l : List σ) : List σ := l.drop (l.length - n)

theorem newest_of_le (h : l.length ≤ n) : newest n l = l := by
  unfold newest
  rw [Nat.sub_eq_zero_of_le h, List.drop_zero]

@[simp] theorem length_newest : (newest n l).length = min n l.length := by
  simp only [newest, List.length_drop]
  omega

theorem newest_append_newest : newest n (newest n l ++ m) = newest n (l ++ m) := by
  have hcut : newest n l ++ m = (l ++ m).drop (l.length - n) := by
    unfold newest
    rw [List.drop_append_of_le_length (Nat.sub_le _ _)]
  rw [hcut]
  unfold newest
  rw [List.drop_drop]
  congr 1
  simp only [List.length_drop, List.length_append]
  omega

theorem newest_append_of_le (h : m.length ≤ n) : ∃ l', newest n (l ++ m) = l' ++ m := by
  refine ⟨l.drop ((l ++ m).length - n), ?_⟩
  apply List.drop_append_of_le_length
  simp only [List.length_append]
  omega

end Newest

/-- A step back or forth. -/
inductive Way
  | back
  | forth
deriving DecidableEq

/-- The place after a step in a line whose last place is given. -/
def Way.move (last place : ℕ) : Way → ℕ
  | .back => place - 1
  | .forth => min (place + 1) last

/-- What is present, what came before it, the newest last, and what was undone, the latest
last. -/
@[ext]
structure Line (σ : Type*) where
  past : List σ
  present : σ
  undone : List σ

namespace Line

variable {k : Line σ}

def back (k : Line σ) : Line σ :=
  match k.past.getLast? with
  | none => k
  | some s => ⟨k.past.dropLast, s, k.undone ++ [k.present]⟩

def forth (k : Line σ) : Line σ :=
  match k.undone.getLast? with
  | none => k
  | some s => ⟨k.past ++ [k.present], s, k.undone.dropLast⟩

def go (k : Line σ) : Way → Line σ
  | .back => k.back
  | .forth => k.forth

def walk (k : Line σ) (ways : List Way) : Line σ := ways.foldl go k

theorem back_of_none (h : k.past.getLast? = none) : k.back = k := by
  unfold back
  rw [h]

theorem back_of_some {s : σ} (h : k.past.getLast? = some s) :
    k.back = ⟨k.past.dropLast, s, k.undone ++ [k.present]⟩ := by
  unfold back
  rw [h]

theorem forth_of_none (h : k.undone.getLast? = none) : k.forth = k := by
  unfold forth
  rw [h]

theorem forth_of_some {s : σ} (h : k.undone.getLast? = some s) :
    k.forth = ⟨k.past ++ [k.present], s, k.undone.dropLast⟩ := by
  unfold forth
  rw [h]

def entries (k : Line σ) : List σ := k.past ++ k.present :: k.undone.reverse

@[simp] theorem length_entries :
    k.entries.length = k.past.length + 1 + k.undone.length := by
  simp [entries]
  omega

@[simp] theorem entries_present : k.entries[k.past.length]? = some k.present := by
  simp [entries]

theorem ext_entries {k k' : Line σ} (h : k.entries = k'.entries)
    (hp : k.past.length = k'.past.length) : k = k' := by
  obtain ⟨hpast, hrest⟩ := List.append_inj h hp
  obtain ⟨hpresent, hundone⟩ := List.cons.inj hrest
  ext1
  · exact hpast
  · exact hpresent
  · exact List.reverse_injective hundone

section Steps

theorem go_entries (w : Way) : (k.go w).entries = k.entries := by
  cases w with
  | back =>
    change k.back.entries = k.entries
    cases hs : k.past.getLast? with
    | none => rw [back_of_none hs]
    | some s =>
      have hpast : k.past.dropLast ++ [s] = k.past := List.dropLast_append_getLast? s hs
      rw [back_of_some hs]
      simp only [entries, List.reverse_append, List.reverse_singleton]
      conv_rhs => rw [← hpast]
      simp
  | forth =>
    change k.forth.entries = k.entries
    cases hs : k.undone.getLast? with
    | none => rw [forth_of_none hs]
    | some s =>
      have hundone : k.undone.dropLast ++ [s] = k.undone := List.dropLast_append_getLast? s hs
      rw [forth_of_some hs]
      simp only [entries]
      conv_rhs => rw [← hundone]
      simp

theorem go_place (w : Way) :
    (k.go w).past.length = w.move (k.entries.length - 1) k.past.length := by
  cases w with
  | back =>
    change k.back.past.length = k.past.length - 1
    cases hs : k.past.getLast? with
    | none =>
      rw [back_of_none hs, List.getLast?_eq_none_iff.mp hs]
      rfl
    | some s =>
      rw [back_of_some hs]
      simp
  | forth =>
    change k.forth.past.length = min (k.past.length + 1) (k.entries.length - 1)
    cases hs : k.undone.getLast? with
    | none =>
      rw [forth_of_none hs, length_entries, List.getLast?_eq_none_iff.mp hs]
      simp
    | some s =>
      have := List.length_pos_of_mem (List.mem_of_getLast? hs)
      rw [forth_of_some hs]
      simp
      omega

theorem walk_entries (ways : List Way) : (k.walk ways).entries = k.entries := by
  induction ways generalizing k with
  | nil => rfl
  | cons w ways ih => exact ih.trans (go_entries w)

theorem walk_place (ways : List Way) : (k.walk ways).past.length =
    ways.foldl (fun place w => w.move (k.entries.length - 1) place) k.past.length := by
  induction ways generalizing k with
  | nil => rfl
  | cons w ways ih =>
    have h := ih (k := k.go w)
    rw [go_entries, go_place] at h
    exact h

theorem back_place (n : ℕ) :
    (k.walk (List.replicate n .back)).past.length = k.past.length - n := by
  induction n generalizing k with
  | zero => rfl
  | succ n ih =>
    have h := ih (k := k.go .back)
    rw [go_place] at h
    change ((k.go .back).walk _).past.length = _
    rw [h]
    simp only [Way.move]
    omega

theorem forth_place (n : ℕ) : (k.walk (List.replicate n .forth)).past.length =
    min (k.past.length + n) (k.entries.length - 1) := by
  induction n generalizing k with
  | zero => simp [walk]
  | succ n ih =>
    have h := ih (k := k.go .forth)
    rw [go_entries, go_place] at h
    change ((k.go .forth).walk _).past.length = _
    rw [h]
    simp only [Way.move]
    omega

theorem back_forth (h : n ≤ k.past.length) :
    (k.walk (List.replicate n .back)).walk (List.replicate n .forth) = k := by
  apply ext_entries
  · rw [walk_entries, walk_entries]
  · rw [forth_place, back_place, walk_entries, length_entries]
    omega

theorem back_present (h : k.past = l ++ m) :
    (m ++ [k.present]).head? = some (k.walk (List.replicate m.length .back)).present := by
  set b := k.walk (List.replicate m.length .back) with hb
  have hplace : b.past.length = l.length := by
    rw [hb, back_place, h, List.length_append]
    omega
  have hpresent : k.entries[l.length]? = some b.present := by
    rw [← hplace, ← walk_entries (k := k) (List.replicate m.length .back)]
    exact entries_present
  rw [← hpresent, entries, h, List.append_assoc, List.getElem?_append_right le_rfl, Nat.sub_self]
  cases m with
  | nil => rfl
  | cons s m => rfl

end Steps

end Line

end Timeline
