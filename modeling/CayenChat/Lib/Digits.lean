import Mathlib

/-! # Numbers in decimal digits

Numbers written in a fixed number of decimal digits, as ASCII bytes: the value
of the digits, writing and reading back, and the order of texts that begin with
them.
-/

namespace Decimal

def isDigit (byte : UInt8) : Bool := 48 ≤ byte.toNat && byte.toNat ≤ 57

def digit (n : ℕ) : UInt8 := UInt8.ofNat (48 + n % 10)

def value (bytes : List UInt8) : ℕ := bytes.foldl (fun acc byte => acc * 10 + (byte.toNat - 48)) 0

def write : ℕ → ℕ → List UInt8
  | 0, _ => []
  | w + 1, n => write w (n / 10) ++ [digit n]

variable {w m n : ℕ} {bytes : List UInt8} {byte : UInt8}

@[simp] theorem digit_toNat (n : ℕ) : (digit n).toNat = 48 + n % 10 := by
  unfold digit
  rw [UInt8.toNat_ofNat_of_lt']
  exact Nat.lt_of_lt_of_le (Nat.add_lt_add_left (Nat.mod_lt n (by decide)) 48) (by decide)

theorem isDigit_digit (n : ℕ) : isDigit (digit n) = true := by
  unfold isDigit
  simp only [digit_toNat, Bool.and_eq_true, decide_eq_true_eq]
  omega

theorem digit_of_isDigit (h : isDigit byte = true) : digit (byte.toNat - 48) = byte := by
  unfold isDigit at h
  simp only [Bool.and_eq_true, decide_eq_true_eq] at h
  apply UInt8.toNat_inj.mp
  rw [digit_toNat]
  omega

theorem value_concat (bytes : List UInt8) (byte : UInt8) :
    value (bytes ++ [byte]) = value bytes * 10 + (byte.toNat - 48) := by
  rw [value, List.foldl_append]
  rfl

@[simp] theorem write_length (w n : ℕ) : (write w n).length = w := by
  induction w generalizing n with
  | zero => rfl
  | succ w ih => rw [write, List.length_append, ih, List.length_singleton]

theorem write_digits (w n : ℕ) : (write w n).all isDigit = true := by
  induction w generalizing n with
  | zero => rfl
  | succ w ih =>
    rw [write, List.all_append, ih]
    simp [isDigit_digit]

theorem value_write (h : n < 10 ^ w) : value (write w n) = n := by
  induction w generalizing n with
  | zero =>
    rw [pow_zero] at h
    obtain rfl : n = 0 := by omega
    rfl
  | succ w ih =>
    rw [write, value_concat, ih (by rw [pow_succ] at h; omega), digit_toNat]
    omega

theorem write_value (h : bytes.all isDigit = true) :
    write bytes.length (value bytes) = bytes := by
  induction bytes using List.reverseRecOn with
  | nil => rfl
  | append_singleton bytes byte ih =>
    rw [List.all_append, Bool.and_eq_true] at h
    have hb : isDigit byte = true := by simpa using h.2
    have hlt : byte.toNat - 48 < 10 := by
      unfold isDigit at hb
      simp only [Bool.and_eq_true, decide_eq_true_eq] at hb
      omega
    have hq : (value bytes * 10 + (byte.toNat - 48)) / 10 = value bytes := by omega
    have hd : digit (value bytes * 10 + (byte.toNat - 48)) = byte := by
      have hr : (value bytes * 10 + (byte.toNat - 48)) % 10 = (byte.toNat - 48) % 10 := by omega
      rw [digit, hr]
      exact digit_of_isDigit hb
    rw [List.length_append, List.length_singleton, write, value_concat, hq, ih h.1, hd]

theorem value_lt (h : bytes.all isDigit = true) : value bytes < 10 ^ bytes.length := by
  induction bytes using List.reverseRecOn with
  | nil => exact Nat.one_pos
  | append_singleton bytes byte ih =>
    rw [List.all_append, Bool.and_eq_true] at h
    have hb : isDigit byte = true := by simpa using h.2
    unfold isDigit at hb
    simp only [Bool.and_eq_true, decide_eq_true_eq] at hb
    have := ih h.1
    rw [value_concat, List.length_append, List.length_singleton, pow_succ]
    omega

theorem digit_lt {m n : ℕ} (hm : m < 10) (hn : n < 10) : digit m < digit n ↔ m < n := by
  rw [UInt8.lt_iff_toNat_lt, digit_toNat, digit_toNat, Nat.mod_eq_of_lt hm, Nat.mod_eq_of_lt hn]
  omega

theorem digit_inj {m n : ℕ} (hm : m < 10) (hn : n < 10) : digit m = digit n ↔ m = n := by
  rw [← UInt8.toNat_inj, digit_toNat, digit_toNat, Nat.mod_eq_of_lt hm, Nat.mod_eq_of_lt hn]
  omega

theorem write_append_lt {xs ys : List UInt8} (hm : m < 10 ^ w) (hn : n < 10 ^ w) :
    write w m ++ xs < write w n ++ ys ↔ m < n ∨ m = n ∧ xs < ys := by
  induction w generalizing m n xs ys with
  | zero =>
    rw [pow_zero, Nat.lt_one_iff] at hm hn
    simp [write, hm, hn]
  | succ w ih =>
    rw [pow_succ] at hm hn
    simp only [write, List.append_assoc, List.singleton_append]
    rw [ih (by omega) (by omega), List.cons_lt_cons_iff]
    have hd : ∀ k, digit k = digit (k % 10) := fun k => by rw [digit, digit, Nat.mod_mod]
    rw [hd m, hd n, digit_lt (Nat.mod_lt _ (by decide)) (Nat.mod_lt _ (by decide)),
      digit_inj (Nat.mod_lt _ (by decide)) (Nat.mod_lt _ (by decide))]
    by_cases hxy : xs < ys
    · simp only [hxy, and_true]
      omega
    · simp only [hxy, and_false, or_false]
      omega

end Decimal

/-! ## Leading bits of numbers written in digits

A block of addresses holds the numbers that agree with its base in their
leading bits. Written in digits of `d` bits, whole leading digits can be
compared one by one, and the last one by its own leading bits.
-/

namespace Digits

variable {d len : ℕ}

/-- The number that digits of `d` bits spell, the most significant one first. -/
def value (d : ℕ) : List ℕ → ℕ
  | [] => 0
  | x :: xs => x * 2 ^ (d * xs.length) + value d xs

/-- Two numbers of `w` bits agree in their first `len` bits. -/
def Agree (w len a b : ℕ) : Prop := a / 2 ^ (w - len) = b / 2 ^ (w - len)

/-- Two sequences of digits agree in their first `len` bits. -/
def Leads (d : ℕ) : ℕ → List ℕ → List ℕ → Prop
  | len, x :: xs, y :: ys =>
    if len ≤ d then x / 2 ^ (d - len) = y / 2 ^ (d - len) else x = y ∧ Leads d (len - d) xs ys
  | _, _, _ => True

theorem value_lt {xs : List ℕ} (h : ∀ x ∈ xs, x < 2 ^ d) : value d xs < 2 ^ (d * xs.length) := by
  induction xs with
  | nil => simp [value]
  | cons x xs ih =>
    have hx : x + 1 ≤ 2 ^ d := h x List.mem_cons_self
    have hrest := ih fun y hy => h y (List.mem_cons_of_mem _ hy)
    calc value d (x :: xs) < x * 2 ^ (d * xs.length) + 2 ^ (d * xs.length) := by
          unfold value; omega
      _ = (x + 1) * 2 ^ (d * xs.length) := by ring
      _ ≤ 2 ^ d * 2 ^ (d * xs.length) := Nat.mul_le_mul_right _ hx
      _ = 2 ^ (d * (x :: xs).length) := by
          rw [← pow_add, List.length_cons]
          ring_nf

theorem value_div_of_le {x : ℕ} {xs : List ℕ} (h : ∀ y ∈ xs, y < 2 ^ d) (hl : len ≤ d) :
    value d (x :: xs) / 2 ^ (d * (x :: xs).length - len) = x / 2 ^ (d - len) := by
  have he : d * (x :: xs).length - len = d * xs.length + (d - len) := by
    rw [List.length_cons, mul_add]
    omega
  have hv : value d (x :: xs) / 2 ^ (d * xs.length) = x := by
    unfold value
    rw [add_comm, Nat.add_mul_div_right _ _ (by positivity), Nat.div_eq_of_lt (value_lt h), zero_add]
  rw [he, pow_add, ← Nat.div_div_eq_div_mul, hv]

theorem div_eq_iff {x y u v n k : ℕ} (hk : k ≤ n) (hu : u < 2 ^ n) (hv : v < 2 ^ n) :
    (x * 2 ^ n + u) / 2 ^ k = (y * 2 ^ n + v) / 2 ^ k ↔ x = y ∧ u / 2 ^ k = v / 2 ^ k := by
  have hn : 2 ^ n = 2 ^ (n - k) * 2 ^ k := by rw [← pow_add, Nat.sub_add_cancel hk]
  have hsplit : ∀ z w, (z * 2 ^ n + w) / 2 ^ k = z * 2 ^ (n - k) + w / 2 ^ k := by
    intro z w
    rw [hn, ← mul_assoc, add_comm, Nat.add_mul_div_right _ _ (by positivity), add_comm]
  have hlt : ∀ w, w < 2 ^ n → w / 2 ^ k < 2 ^ (n - k) := by
    intro w hw
    rw [hn] at hw
    exact Nat.div_lt_of_lt_mul (by rwa [mul_comm])
  rw [hsplit, hsplit]
  constructor
  · intro h
    have hx : x = y := by
      have := congrArg (· / 2 ^ (n - k)) h
      simpa only [add_comm _ (_ / _), Nat.add_mul_div_right _ _ (Nat.two_pow_pos (n - k)),
        Nat.div_eq_of_lt (hlt u hu), Nat.div_eq_of_lt (hlt v hv), zero_add] using this
    subst hx
    exact ⟨rfl, Nat.add_left_cancel h⟩
  · rintro ⟨rfl, h⟩
    rw [h]

theorem agree_iff {xs ys : List ℕ} (he : xs.length = ys.length) (hx : ∀ x ∈ xs, x < 2 ^ d)
    (hy : ∀ y ∈ ys, y < 2 ^ d) (hl : len ≤ d * xs.length) :
    Agree (d * xs.length) len (value d xs) (value d ys) ↔ Leads d len xs ys := by
  induction xs generalizing ys len with
  | nil =>
    have : ys = [] := List.length_eq_zero_iff.mp he.symm
    subst this
    exact iff_of_true rfl trivial
  | cons x xs ih =>
    obtain _ | ⟨y, ys⟩ := ys
    · cases he
    have he' : xs.length = ys.length := Nat.succ.inj he
    have hxs : ∀ z ∈ xs, z < 2 ^ d := fun z hz => hx z (List.mem_cons_of_mem _ hz)
    have hys : ∀ z ∈ ys, z < 2 ^ d := fun z hz => hy z (List.mem_cons_of_mem _ hz)
    unfold Leads
    split
    case isTrue hd =>
      unfold Agree
      rw [value_div_of_le hxs hd, he, value_div_of_le hys hd]
    case isFalse hd =>
      rw [List.length_cons, mul_add, mul_one] at hl ⊢
      rw [← ih he' hxs hys (by omega)]
      have hk : d * xs.length + d - len = d * xs.length - (len - d) := by omega
      have hv := value_lt hys
      unfold Agree
      rw [hk, value, value, ← he']
      rw [← he'] at hv
      exact div_eq_iff (Nat.sub_le ..) (value_lt hxs) hv

end Digits
