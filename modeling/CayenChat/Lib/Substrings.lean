import CayenChat.Lib.Utf8

/-! # Finding a text in another

Where a pattern first stands in a text, from its start or from a position on.
-/

namespace Utf8

variable {pattern s t p q : List Char} {start n a b : ℕ}

theorem length_le_size (s : List Char) : s.length ≤ size s := by
  induction s with
  | nil => exact Nat.le_refl _
  | cons c s ih =>
    have := c.utf8Size_pos
    rw [List.length_cons, size_cons]
    omega

def find (pattern : List Char) : List Char → Option ℕ
  | [] => if pattern = [] then some 0 else none
  | c :: s => if pattern <+: c :: s then some 0 else (find pattern s).map (c.utf8Size + ·)

def findFrom (pattern s : List Char) (start : ℕ) : Option ℕ :=
  (split s start).bind fun parts => (find pattern parts.2).map (start + ·)

def Stands (pattern s : List Char) (n : ℕ) : Prop := ∃ p q, s = p ++ pattern ++ q ∧ size p = n

theorem stands_nil : Stands pattern [] n ↔ pattern = [] ∧ n = 0 := by
  constructor
  · rintro ⟨p, q, h, rfl⟩
    obtain ⟨h, -⟩ := List.append_eq_nil_iff.mp h.symm
    obtain ⟨rfl, hp⟩ := List.append_eq_nil_iff.mp h
    exact ⟨hp, rfl⟩
  · rintro ⟨rfl, rfl⟩
    exact ⟨[], [], rfl, rfl⟩

theorem stands_cons {c : Char} : Stands pattern (c :: s) n ↔
    (pattern <+: c :: s ∧ n = 0) ∨ ∃ k, Stands pattern s k ∧ n = c.utf8Size + k := by
  constructor
  · rintro ⟨p, q, h, rfl⟩
    cases p with
    | nil => exact .inl ⟨⟨q, h.symm⟩, rfl⟩
    | cons d p =>
      obtain ⟨rfl, rfl⟩ := List.cons.inj h
      exact .inr ⟨size p, ⟨p, q, rfl, rfl⟩, rfl⟩
  · rintro (⟨⟨q, h⟩, rfl⟩ | ⟨k, ⟨p, q, rfl, rfl⟩, rfl⟩)
    · exact ⟨[], q, h.symm, rfl⟩
    · exact ⟨c :: p, q, rfl, rfl⟩

theorem find_spec (pattern s : List Char) :
    (∃ n, find pattern s = some n ∧ Stands pattern s n ∧ ∀ k, Stands pattern s k → n ≤ k) ∨
      find pattern s = none ∧ ∀ n, ¬Stands pattern s n := by
  induction s with
  | nil =>
    unfold find
    split
    · next h => exact .inl ⟨0, rfl, stands_nil.mpr ⟨h, rfl⟩, fun k _ => Nat.zero_le k⟩
    · next h => exact .inr ⟨rfl, fun n hn => h (stands_nil.mp hn).1⟩
  | cons c s ih =>
    unfold find
    split
    · next h => exact .inl ⟨0, rfl, stands_cons.mpr (.inl ⟨h, rfl⟩), fun k _ => Nat.zero_le k⟩
    · next h =>
      rcases ih with ⟨n, hn, hs, hle⟩ | ⟨hn, hno⟩
      · refine .inl ⟨c.utf8Size + n, by rw [hn]; rfl, stands_cons.mpr (.inr ⟨n, hs, rfl⟩), ?_⟩
        intro k hk
        rcases stands_cons.mp hk with ⟨hp, -⟩ | ⟨j, hj, rfl⟩
        · exact absurd hp h
        · exact Nat.add_le_add_left (hle j hj) _
      · refine .inr ⟨by rw [hn]; rfl, fun n hn => ?_⟩
        rcases stands_cons.mp hn with ⟨hp, -⟩ | ⟨k, hk, -⟩
        · exact h hp
        · exact hno k hk

theorem prefix_of_size_le (h : p ++ q = s ++ t) (hle : size s ≤ size p) :
    ∃ u, p = s ++ u ∧ t = u ++ q := by
  rcases List.append_eq_append_iff.mp h with ⟨u, rfl, rfl⟩ | ⟨u, rfl, rfl⟩
  · have hu : u = [] := by
      rw [size_append] at hle
      apply size_eq_zero.mp
      omega
    subst hu
    exact ⟨[], by simp, by simp⟩
  · exact ⟨u, rfl, rfl⟩

theorem stands_append (hle : size s ≤ n) :
    Stands pattern (s ++ t) n ↔ Stands pattern t (n - size s) := by
  constructor
  · rintro ⟨p, q, h, rfl⟩
    rw [List.append_assoc] at h
    obtain ⟨u, rfl, rfl⟩ := prefix_of_size_le h.symm hle
    exact ⟨u, q, by simp, by simp⟩
  · rintro ⟨p, q, rfl, hp⟩
    exact ⟨s ++ p, q, by simp, by rw [size_append]; omega⟩

theorem findFrom_spec (pattern : List Char) (hstart : Boundary s start) :
    (∃ n, findFrom pattern s start = some n ∧ start ≤ n ∧ Stands pattern s n ∧
      ∀ k, start ≤ k → Stands pattern s k → n ≤ k) ∨
      findFrom pattern s start = none ∧ ∀ k, start ≤ k → ¬Stands pattern s k := by
  obtain ⟨p, t, rfl, rfl⟩ := hstart
  unfold findFrom
  rw [split_append, Option.bind_some]
  rcases find_spec pattern t with ⟨n, hn, hs, hle⟩ | ⟨hn, hno⟩
  · refine .inl ⟨size p + n, by rw [hn]; rfl, Nat.le_add_right .., ?_, fun k hk hks => ?_⟩
    · rw [stands_append (Nat.le_add_right ..), Nat.add_sub_cancel_left]
      exact hs
    · have := hle _ ((stands_append hk).mp hks)
      omega
  · exact .inr ⟨by rw [hn]; rfl, fun k hk hks => hno _ ((stands_append hk).mp hks)⟩

theorem findFrom_of_le (ha : Boundary s a) (hb : Boundary s b) (hab : a ≤ b) (hbn : b ≤ n)
    (h : findFrom pattern s a = some n) : findFrom pattern s b = some n := by
  rcases findFrom_spec pattern ha with ⟨m, hm, -, hms, hle⟩ | ⟨hm, -⟩
  · rw [h, Option.some.injEq] at hm
    subst hm
    rcases findFrom_spec pattern hb with ⟨k, hk, hbk, hks, hle'⟩ | ⟨-, hno⟩
    · rw [hk, Nat.le_antisymm (hle' n hbn hms) (hle k (by omega) hks)]
    · exact absurd hms (hno n hbn)
  · rw [h] at hm
    cases hm

theorem findFrom_none_of_le (ha : Boundary s a) (hb : Boundary s b) (hab : a ≤ b)
    (h : findFrom pattern s a = none) : findFrom pattern s b = none := by
  rcases findFrom_spec pattern ha with ⟨m, hm, -⟩ | ⟨-, hno⟩
  · rw [h] at hm
    cases hm
  · rcases findFrom_spec pattern hb with ⟨k, -, hbk, hks, -⟩ | ⟨hk, -⟩
    · exact absurd hks (hno k (by omega))
    · exact hk

end Utf8
