import CayenChat.Lib.Substrings

/-! # Numbers in a radix

A number below a bound, read from digits with an optional plus sign in front.
-/

namespace Radix

variable {radix bound acc : ℕ} {c : Char} {cs : List Char}

/-- The value of a digit. -/
def toDigit (radix : ℕ) (c : Char) : Option ℕ :=
  let n := c.toNat
  let value :=
    if 48 ≤ n ∧ n ≤ 57 then n - 48
    else if 97 ≤ n ∧ n ≤ 122 then n - 87
    else if 65 ≤ n ∧ n ≤ 90 then n - 55
    else radix
  if value < radix then some value else none

def isDigit (radix : ℕ) (c : Char) : Bool := (toDigit radix c).isSome

def value (radix : ℕ) (cs : List Char) : ℕ :=
  cs.foldl (fun acc c => acc * radix + (toDigit radix c).getD 0) 0

def push (bound radix acc : ℕ) (c : Char) : Option ℕ := do
  let digit ← toDigit radix c
  if acc * radix + digit < bound then some (acc * radix + digit) else none

def fromStrRadix (bound radix : ℕ) (cs : List Char) : Option ℕ :=
  match cs with
  | [] => none
  | ['+'] => none
  | '+' :: digits => digits.foldlM (push bound radix) 0
  | digits => digits.foldlM (push bound radix) 0

theorem toDigit_lt {d : ℕ} (h : toDigit radix c = some d) : d < radix := by
  unfold toDigit at h
  dsimp only at h
  split_ifs at h <;> obtain rfl := Option.some.inj h <;> assumption

theorem isDigit_plus : isDigit radix '+' = false := by
  simp [isDigit, toDigit]

theorem ascii_of_isDigit (h : isDigit radix c = true) : c.toNat < 128 := by
  simp only [isDigit, toDigit] at h
  split_ifs at h <;> first | omega | simp at h

theorem size_digits (h : ∀ c ∈ cs, isDigit radix c = true) : Utf8.size cs = cs.length := by
  induction cs with
  | nil => rfl
  | cons c cs ih =>
    obtain ⟨hc, hcs⟩ := List.forall_mem_cons.mp h
    have hone : c.utf8Size = 1 := by
      rw [Char.utf8Size_eq_one_iff, UInt32.le_iff_toNat_le]
      exact Nat.le_of_lt_succ (ascii_of_isDigit hc)
    rw [Utf8.size_cons, ih hcs, hone, List.length_cons, Nat.add_comm]

theorem getD_toDigit_lt (hr : 0 < radix) (c : Char) : (toDigit radix c).getD 0 < radix := by
  cases h : toDigit radix c with
  | none => exact hr
  | some d => exact toDigit_lt h

theorem foldl_lt (hr : 0 < radix) {n : ℕ} (h : acc < radix ^ n) :
    cs.foldl (fun acc c => acc * radix + (toDigit radix c).getD 0) acc <
      radix ^ (n + cs.length) := by
  induction cs generalizing acc n with
  | nil => exact h
  | cons c cs ih =>
    have hd := getD_toDigit_lt hr c
    have hnext : acc * radix + (toDigit radix c).getD 0 < radix ^ (n + 1) := by
      calc acc * radix + (toDigit radix c).getD 0
          < acc * radix + radix := Nat.add_lt_add_left hd _
        _ = (acc + 1) * radix := (Nat.succ_mul acc radix).symm
        _ ≤ radix ^ n * radix := Nat.mul_le_mul_right radix h
        _ = radix ^ (n + 1) := (Nat.pow_succ ..).symm
    have := ih hnext
    rwa [Nat.add_assoc, Nat.add_comm 1] at this

theorem value_lt (hr : 0 < radix) (cs : List Char) : value radix cs < radix ^ cs.length := by
  have hzero : 0 < radix ^ 0 := by simp
  have hlt : value radix cs < radix ^ (0 + cs.length) := foldl_lt hr hzero
  rwa [Nat.zero_add] at hlt

theorem le_foldl (hr : 0 < radix) :
    acc ≤ cs.foldl (fun acc c => acc * radix + (toDigit radix c).getD 0) acc := by
  induction cs generalizing acc with
  | nil => exact le_rfl
  | cons c cs ih =>
    have hmul := Nat.le_mul_of_pos_right acc hr
    exact le_trans (le_trans hmul (Nat.le_add_right ..)) ih

theorem foldlM_push (hr : 0 < radix) (h : ∀ c ∈ cs, isDigit radix c = true)
    (hb : cs.foldl (fun acc c => acc * radix + (toDigit radix c).getD 0) acc < bound) :
    cs.foldlM (push bound radix) acc =
      some (cs.foldl (fun acc c => acc * radix + (toDigit radix c).getD 0) acc) := by
  induction cs generalizing acc with
  | nil => rfl
  | cons c cs ih =>
    obtain ⟨hc, hcs⟩ := List.forall_mem_cons.mp h
    obtain ⟨d, hd⟩ := Option.isSome_iff_exists.mp hc
    have hstep : (toDigit radix c).getD 0 = d := by simp [hd]
    rw [List.foldl_cons, hstep] at hb ⊢
    have hlt : acc * radix + d < bound := lt_of_le_of_lt (le_foldl hr) hb
    have hpush : push bound radix acc c = some (acc * radix + d) := by
      simp [push, hd, hlt]
    rw [List.foldlM_cons, hpush, Option.bind_eq_bind, Option.bind_some]
    exact ih hcs hb

theorem isDigit_of_foldlM (h : (cs.foldlM (push bound radix) acc).isSome = true) :
    ∀ c ∈ cs, isDigit radix c = true := by
  induction cs generalizing acc with
  | nil => simp
  | cons c cs ih =>
    rw [List.foldlM_cons, Option.bind_eq_bind] at h
    cases hp : push bound radix acc c with
    | none => simp [hp] at h
    | some next =>
      rw [hp, Option.bind_some] at h
      obtain ⟨d, hd, -⟩ := Option.bind_eq_some_iff.mp hp
      rintro e (- | ⟨-, he⟩)
      · simp [isDigit, hd]
      · exact ih h e he

theorem fromStrRadix_digits (hr : 0 < radix) (hne : cs ≠ [])
    (h : ∀ c ∈ cs, isDigit radix c = true) (hb : radix ^ cs.length ≤ bound) :
    fromStrRadix bound radix cs = some (value radix cs) := by
  have hread := foldlM_push hr h (lt_of_lt_of_le (value_lt hr cs) hb)
  obtain ⟨c, cs, rfl⟩ := List.exists_cons_of_ne_nil hne
  have hplus : c ≠ '+' := by
    rintro rfl
    have := h '+' List.mem_cons_self
    rw [isDigit_plus] at this
    exact Bool.false_ne_true this
  unfold fromStrRadix
  split <;> simp_all [value]

theorem fromStrRadix_isSome (hr : 0 < radix) (hb : radix ^ cs.length ≤ bound) :
    (fromStrRadix bound radix cs).isSome = true ↔ ∃ digits, digits ≠ [] ∧
      (cs = digits ∨ cs = '+' :: digits) ∧ ∀ c ∈ digits, isDigit radix c = true := by
  constructor
  · intro h
    unfold fromStrRadix at h
    split at h
    · simp at h
    · simp at h
    · rename_i digits hne
      refine ⟨digits, ?_, .inr rfl, isDigit_of_foldlM h⟩
      rintro rfl
      exact hne rfl
    · rename_i hne _ _
      exact ⟨cs, hne, .inl rfl, isDigit_of_foldlM h⟩
  · rintro ⟨digits, hne, rfl | rfl, h⟩
    · rw [fromStrRadix_digits hr hne h hb]
      rfl
    · have hlong : radix ^ digits.length ≤ bound :=
        le_trans (Nat.pow_le_pow_right hr (Nat.le_succ _)) hb
      have hread := foldlM_push hr h (lt_of_lt_of_le (value_lt hr digits) hlong)
      unfold fromStrRadix
      split <;> simp_all

end Radix
