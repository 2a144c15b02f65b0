import Mathlib

/-! # Positions in a text

A text is a list of characters, and a position in it a number of bytes of its
UTF-8 form, or of units of its UTF-16 form. Cutting a text fails between the
bytes of a character and past the end.
-/

namespace Utf8

def size (s : List Char) : ℕ := (s.map Char.utf8Size).sum

@[simp] theorem size_nil : size [] = 0 := rfl
@[simp] theorem size_cons (c : Char) (s : List Char) : size (c :: s) = c.utf8Size + size s := rfl
@[simp] theorem size_append (s t : List Char) : size (s ++ t) = size s + size t := by
  simp [size]

@[simp] theorem size_reverse (s : List Char) : size s.reverse = size s := by
  simp [size, List.sum_reverse]

theorem size_eq_zero {s : List Char} : size s = 0 ↔ s = [] := by
  cases s with
  | nil => simp
  | cons c s =>
    have := c.utf8Size_pos
    simp only [size_cons, List.cons_ne_nil, iff_false]
    omega

def units (c : Char) : ℕ := if c.toNat < 0x10000 then 1 else 2

def split : List Char → ℕ → Option (List Char × List Char)
  | s, 0 => some ([], s)
  | [], _ + 1 => none
  | c :: s, n + 1 =>
    if c.utf8Size ≤ n + 1 then (split s (n + 1 - c.utf8Size)).map fun (p, q) => (c :: p, q)
    else none

def slice (s : List Char) (start stop : ℕ) : Option (List Char) := do
  let (p, _) ← split s stop
  let (_, m) ← split p start
  pure m

def Boundary (s : List Char) (n : ℕ) : Prop := ∃ p q, s = p ++ q ∧ size p = n

variable {s t p q m : List Char} {n a b : ℕ}

theorem split_append (p q : List Char) : split (p ++ q) (size p) = some (p, q) := by
  induction p with
  | nil => cases q <;> rfl
  | cons c p ih =>
    have hpos := c.utf8Size_pos
    obtain ⟨k, hk⟩ : ∃ k, size (c :: p) = k + 1 := ⟨size (c :: p) - 1, by simp; omega⟩
    have hle : c.utf8Size ≤ k + 1 := by
      rw [← hk, size_cons]
      omega
    have hrest : k + 1 - c.utf8Size = size p := by
      rw [← hk, size_cons]
      omega
    rw [hk, List.cons_append, split, if_pos hle, hrest, ih]
    rfl

theorem split_eq_some : split s n = some (p, q) ↔ s = p ++ q ∧ size p = n := by
  constructor
  · intro h
    fun_induction split s n generalizing p with
    | case1 s =>
      cases h
      exact ⟨rfl, rfl⟩
    | case2 n => cases h
    | case3 c s n hle ih =>
      obtain ⟨⟨p', q'⟩, hs, heq⟩ := Option.map_eq_some_iff.mp h
      cases heq
      obtain ⟨rfl, hsize⟩ := ih hs
      exact ⟨rfl, by simp; omega⟩
    | case4 c s n hle => cases h
  · rintro ⟨rfl, rfl⟩
    exact split_append p q

theorem boundary_iff : Boundary s n ↔ (split s n).isSome = true := by
  rw [Option.isSome_iff_exists]
  constructor
  · rintro ⟨p, q, h⟩
    exact ⟨(p, q), split_eq_some.mpr h⟩
  · rintro ⟨⟨p, q⟩, h⟩
    exact ⟨p, q, split_eq_some.mp h⟩

instance : Decidable (Boundary s n) := decidable_of_iff _ boundary_iff.symm

theorem boundary_zero (s : List Char) : Boundary s 0 := ⟨[], s, rfl, rfl⟩

theorem boundary_size (s : List Char) : Boundary s (size s) := ⟨s, [], by simp, rfl⟩

theorem boundary_append (p q : List Char) : Boundary (p ++ q) (size p) := ⟨p, q, rfl, rfl⟩

theorem Boundary.le (h : Boundary s n) : n ≤ size s := by
  obtain ⟨p, q, rfl, rfl⟩ := h
  simp

theorem Boundary.append_left (h : Boundary s n) (t : List Char) : Boundary (s ++ t) n := by
  obtain ⟨p, q, rfl, rfl⟩ := h
  exact ⟨p, q ++ t, by simp, rfl⟩

theorem Boundary.append_right (h : Boundary t n) (s : List Char) :
    Boundary (s ++ t) (size s + n) := by
  obtain ⟨p, q, rfl, rfl⟩ := h
  exact ⟨s ++ p, q, by simp, by simp⟩

theorem Boundary.of_append (h : Boundary (p ++ q) n) (hn : n ≤ size p) : Boundary p n := by
  obtain ⟨p', q', h, rfl⟩ := h
  rcases List.append_eq_append_iff.mp h with ⟨r, rfl, rfl⟩ | ⟨r, rfl, rfl⟩
  · have hr : r = [] := by
      rw [size_append] at hn
      apply size_eq_zero.mp
      omega
    simpa [hr] using boundary_size p
  · exact boundary_append p' r

theorem Boundary.of_append_right (h : Boundary (p ++ q) n) (hn : size p ≤ n) :
    Boundary q (n - size p) := by
  obtain ⟨p', q', h, rfl⟩ := h
  rcases List.append_eq_append_iff.mp h with ⟨r, rfl, rfl⟩ | ⟨r, rfl, rfl⟩
  · simpa using boundary_append r q'
  · have hr : r = [] := by
      rw [size_append] at hn
      apply size_eq_zero.mp
      omega
    simpa [hr] using boundary_zero q

def floor (s : List Char) : ℕ → ℕ
  | 0 => 0
  | n + 1 => if Boundary s (n + 1) then n + 1 else floor s n

theorem boundary_floor (s : List Char) (n : ℕ) : Boundary s (floor s n) := by
  induction n with
  | zero => exact boundary_zero s
  | succ n ih =>
    unfold floor
    split
    · assumption
    · exact ih

theorem boundary_dropWhile_reverse (p : List Char) (f : Char → Bool) :
    Boundary p (size (p.reverse.dropWhile f)) := by
  refine ⟨(p.reverse.dropWhile f).reverse, (p.reverse.takeWhile f).reverse, ?_, size_reverse _⟩
  rw [← List.reverse_append, List.takeWhile_append_dropWhile, List.reverse_reverse]

theorem boundary_takeWhile (q : List Char) (f : Char → Bool) :
    Boundary q (size (q.takeWhile f)) :=
  ⟨q.takeWhile f, q.dropWhile f, List.takeWhile_append_dropWhile.symm, rfl⟩

theorem boundary_find? {ns : List ℕ} {d : ℕ} (hs : ∀ n ∈ ns, Boundary s n) (hd : Boundary s d)
    (f : ℕ → Bool) : Boundary s ((ns.find? f).getD d) := by
  cases h : ns.find? f with
  | none => exact hd
  | some n => exact hs n (List.mem_of_find?_eq_some h)

/-! ## Ranges -/

structure Range where
  start : ℕ
  stop : ℕ
  deriving DecidableEq

def Range.at (n : ℕ) : Range := ⟨n, n⟩

/-- A range between two characters of the text. -/
structure Span (s : List Char) (r : Range) : Prop where
  le : r.start ≤ r.stop
  start : Boundary s r.start
  stop : Boundary s r.stop

variable {r : Range}

theorem Boundary.span (h : Boundary s n) : Span s (.at n) := ⟨Nat.le_refl n, h, h⟩

theorem Span.parts (h : Span s r) :
    ∃ p m q, s = p ++ m ++ q ∧ size p = r.start ∧ size p + size m = r.stop := by
  obtain ⟨p, q, rfl, hstop⟩ := h.stop
  obtain ⟨p', m, rfl, hstart⟩ := h.start.of_append (by rw [hstop]; exact h.le)
  exact ⟨p', m, q, rfl, hstart, by rw [← size_append, hstop]⟩

theorem span_append (p m q : List Char) : Span (p ++ m ++ q) ⟨size p, size p + size m⟩ where
  le := Nat.le_add_right ..
  start := ⟨p, m ++ q, by simp, rfl⟩
  stop := ⟨p ++ m, q, rfl, by simp⟩

theorem Span.within (h : Span m r) (p q : List Char) :
    Span (p ++ m ++ q) ⟨size p + r.start, size p + r.stop⟩ where
  le := Nat.add_le_add_left h.le _
  start := (h.start.append_right p).append_left q
  stop := (h.stop.append_right p).append_left q

theorem slice_append (p m q : List Char) :
    slice (p ++ m ++ q) (size p) (size p + size m) = some m := by
  rw [slice, ← size_append, split_append]
  simp [split_append]

theorem slice_eq_some : slice s a b = some m ↔
    ∃ p q, s = p ++ m ++ q ∧ size p = a ∧ size p + size m = b := by
  constructor
  · intro h
    obtain ⟨⟨p, q⟩, hb, h⟩ := Option.bind_eq_some_iff.mp h
    obtain ⟨⟨p', m'⟩, ha, h⟩ := Option.bind_eq_some_iff.mp h
    cases h
    obtain ⟨rfl, rfl⟩ := split_eq_some.mp hb
    obtain ⟨rfl, rfl⟩ := split_eq_some.mp ha
    exact ⟨p', q, rfl, rfl, by simp⟩
  · rintro ⟨p, q, rfl, rfl, rfl⟩
    exact slice_append p m q

theorem Span.slice (h : Span s r) : ∃ m, slice s r.start r.stop = some m := by
  obtain ⟨p, m, q, rfl, hstart, hstop⟩ := h.parts
  exact ⟨m, slice_eq_some.mpr ⟨p, q, rfl, hstart, hstop⟩⟩

/-! ## Offsets in UTF-16 -/

def fromUtf16 : List Char → ℕ → ℕ
  | [], _ => 0
  | c :: s, n => if n = 0 then 0 else c.utf8Size + fromUtf16 s (n - units c)

def toUtf16 : List Char → ℕ → ℕ
  | [], _ => 0
  | c :: s, n => if n = 0 then 0 else units c + toUtf16 s (n - c.utf8Size)

theorem boundary_fromUtf16 (s : List Char) (n : ℕ) : Boundary s (fromUtf16 s n) := by
  fun_induction fromUtf16 s n with
  | case1 n => exact boundary_zero []
  | case2 c s => exact boundary_zero _
  | case3 c s n hn ih => simpa using ih.append_right [c]

theorem fromUtf16_mono (s : List Char) (h : a ≤ b) : fromUtf16 s a ≤ fromUtf16 s b := by
  induction s generalizing a b with
  | nil => exact Nat.le_refl _
  | cons c s ih =>
    unfold fromUtf16
    split
    · exact Nat.zero_le _
    · rw [if_neg (by omega)]
      exact Nat.add_le_add_left (ih (by omega)) _

def Range.fromUtf16 (s : List Char) (r : Range) : Range :=
  ⟨Utf8.fromUtf16 s r.start, Utf8.fromUtf16 s r.stop⟩

theorem span_fromUtf16 (s : List Char) (h : r.start ≤ r.stop) : Span s (r.fromUtf16 s) :=
  ⟨fromUtf16_mono s h, boundary_fromUtf16 s _, boundary_fromUtf16 s _⟩

/-! ## Bytes -/

def bytes (s : List Char) : List UInt8 := s.flatMap String.utf8EncodeChar

@[simp] theorem bytes_nil : bytes [] = [] := rfl
@[simp] theorem bytes_cons (c : Char) (s : List Char) :
    bytes (c :: s) = String.utf8EncodeChar c ++ bytes s := rfl
@[simp] theorem bytes_append (s t : List Char) : bytes (s ++ t) = bytes s ++ bytes t := by
  simp [bytes]

theorem bytes_injective : Function.Injective bytes := by
  intro s t h
  apply String.ofList_injective
  rw [← String.toByteArray_inj, String.toByteArray_ofList, String.toByteArray_ofList]
  exact congrArg List.toByteArray h

theorem eq_of_encode_ascii {c : Char} {b : UInt8} {bs : List UInt8} (hb : b.toNat < 128)
    (h : String.utf8EncodeChar c = b :: bs) : c.toNat = b.toNat ∧ bs = [] := by
  have hc : c.val.toNat = c.toNat := rfl
  unfold String.utf8EncodeChar at h
  simp only [hc] at h
  split at h
  · next hle =>
    obtain ⟨rfl, rfl⟩ := List.cons.inj h
    refine ⟨?_, rfl⟩
    rw [UInt8.toNat_ofNat']
    omega
  · exfalso
    split at h
    on_goal 2 => split at h
    all_goals obtain ⟨rfl, -⟩ := List.cons.inj h
    all_goals simp only [UInt8.toNat_ofNat'] at hb
    all_goals omega

theorem encode_ascii {c : Char} (hc : c.toNat < 128) :
    String.utf8EncodeChar c = [UInt8.ofNat c.toNat] := by
  have hval : c.val.toNat = c.toNat := rfl
  unfold String.utf8EncodeChar
  simp only [hval]
  rw [if_pos (by omega)]

theorem bytes_eq_cons_ascii {b : UInt8} {bs : List UInt8} (hb : b.toNat < 128)
    (h : bytes s = b :: bs) : ∃ c s', s = c :: s' ∧ c.toNat = b.toNat ∧ bytes s' = bs := by
  cases s with
  | nil => cases h
  | cons c s =>
    rw [bytes_cons] at h
    obtain ⟨b', r, hr⟩ := List.exists_cons_of_ne_nil (@String.utf8EncodeChar_ne_nil c)
    rw [hr, List.cons_append, List.cons.injEq] at h
    obtain ⟨rfl, hrest⟩ := h
    obtain ⟨hc, rfl⟩ := eq_of_encode_ascii hb hr
    exact ⟨c, s, rfl, hc, hrest⟩

theorem bytes_prefix_ascii (hp : ∀ c ∈ p, c.toNat < 128) : bytes p <+: bytes s ↔ p <+: s := by
  induction p generalizing s with
  | nil => simp
  | cons c p ih =>
    obtain ⟨hc, htail⟩ := List.forall_mem_cons.mp hp
    constructor
    · rintro ⟨r, hr⟩
      rw [bytes_cons, encode_ascii hc, List.singleton_append, List.cons_append] at hr
      have hb : (UInt8.ofNat c.toNat).toNat = c.toNat := by
        rw [UInt8.toNat_ofNat']
        omega
      obtain ⟨c', s', rfl, heq, hs⟩ := bytes_eq_cons_ascii (by rw [hb]; exact hc) hr.symm
      obtain rfl : c' = c := Char.toNat_inj.mp (heq.trans hb)
      rw [List.cons_prefix_cons]
      exact ⟨rfl, (ih htail).mp ⟨r, hs.symm⟩⟩
    · rintro ⟨r, rfl⟩
      rw [bytes_append]
      exact List.prefix_append ..

end Utf8
