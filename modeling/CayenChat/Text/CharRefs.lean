import CayenChat.App.Timeline
import CayenChat.Lib.Adjacent
import CayenChat.Lib.Radix
import CayenChat.Lib.Substrings

/-! # Numeric character references

References to characters by number are found in a text for display only. Adjacent ones form a run,
and those that touch a link are left alone. Slices that cut a character fail.
-/

namespace CayenChat.Text
open App Utf8 Radix

def maxDigits : ℕ := 8

def maxRuns : ℕ := 64

/-- The character of a number, unless showing it is unsafe. -/
def character (value : ℕ) : Option Char :=
  if Nat.isValidChar value then
    let ch := Char.ofNat value
    if isControl ch ∨ [0x2028, 0x2029, 0xFEFF].contains value ∨ isBidiControl ch ∨
        (0xFDD0 ≤ value ∧ value ≤ 0xFDEF) ∨ value &&& 0xFFFE = 0xFFFE then none
    else some ch
  else none

def digitByte (radix : ℕ) (byte : UInt8) : Bool := isDigit radix (Char.ofNat byte.toNat)

def afterMark : List Char → Option (List Char)
  | '&' :: '#' :: rest => some rest
  | _ => none

def afterRadix : List Char → List Char × ℕ
  | 'x' :: hex => (hex, 16)
  | 'X' :: hex => (hex, 16)
  | rest => (rest, 10)

def parseDigits (radix : ℕ) (digits : List Char) : Option (Option (ℕ × Char)) :=
  let count := (((bytes digits).take (maxDigits + 1)).takeWhile (digitByte radix)).length
  if count = 0 ∨ maxDigits < count ∨ (bytes digits)[count]? ≠ some 59 then some none
  else do
    let (number, _) ← split digits count
    some (((fromStrRadix (2 ^ 32) radix number).bind character).map (count, ·))

/-- The reference at the start of a text: its length and its character. -/
def parse (text : List Char) : Option (Option (ℕ × Char)) :=
  match afterMark text with
  | none => some none
  | some rest => do
    let (digits, radix) := afterRadix rest
    let named ← parseDigits radix digits
    some (named.map fun (count, ch) => (size text - size digits + count + 1, ch))

def addReference (runs : List (Range × List Char)) (start stop : ℕ) (ch : Char) :
    Option (List (Range × List Char)) :=
  match runs.getLast?.filter fun (range, _) => range.stop = start with
  | some (range, shown) => some (runs.dropLast ++ [(⟨range.start, stop⟩, shown ++ [ch])])
  | none => if maxRuns ≤ runs.length then none else some (runs ++ [(⟨start, stop⟩, [ch])])

def touchesLink (links : List (Range × String)) (start stop : ℕ) : Bool :=
  links.any fun (link, _) => link.start < stop && start < link.stop

/-- The runs from a position on. -/
def findReferencesFrom (text : List Char) (links : List (Range × String)) :
    ℕ → ℕ → List (Range × List Char) → Option (List (Range × List Char))
  | 0, _, _ => none
  | fuel + 1, origin, runs => do
    let (_, rest) ← split text origin
    match Utf8.find ['&', '#'] rest with
    | none => some runs
    | some offset =>
      let start := origin + offset
      let (_, tail) ← split text start
      match ← parse tail with
      | none => findReferencesFrom text links fuel (start + 1) runs
      | some (len, ch) =>
        let stop := start + len
        if touchesLink links start stop then
          findReferencesFrom text links fuel stop runs
        else
          match addReference runs start stop ch with
          | none => some runs
          | some added => findReferencesFrom text links fuel stop added

def findReferences (text : List Char) (links : List (Range × String)) :
    Option (List (Range × List Char)) :=
  findReferencesFrom text links (size text + 1) 0 []

/-! ## What a reference is -/

/-- A character that may be shown where only its number was written. -/
structure Showable (ch : Char) : Prop where
  control : isControl ch = false
  separator : ch.toNat ≠ 0x2028 ∧ ch.toNat ≠ 0x2029 ∧ ch.toNat ≠ 0xFEFF
  direction : isBidiControl ch = false
  assigned : ¬(0xFDD0 ≤ ch.toNat ∧ ch.toNat ≤ 0xFDEF) ∧ ch.toNat % 0x10000 < 0xFFFE

/-- One to eight digits that name a character. -/
structure Names (radix : ℕ) (digits : List Char) (ch : Char) : Prop where
  any : digits ≠ []
  short : digits.length ≤ 8
  all : ∀ c ∈ digits, isDigit radix c = true
  value : Radix.value radix digits = ch.toNat
  showable : Showable ch

/-- A reference as written, and its character. -/
inductive IsReference : List Char → Char → Prop
  | decimal {digits : List Char} {ch : Char} (named : Names 10 digits ch) :
      IsReference ('&' :: '#' :: (digits ++ [';'])) ch
  | hex {mark : Char} {digits : List Char} {ch : Char} (marked : mark = 'x' ∨ mark = 'X')
      (named : Names 16 digits ch) : IsReference ('&' :: '#' :: mark :: (digits ++ [';'])) ch

variable {text digits rest p q m : List Char} {ch : Char} {radix value count : ℕ} {r : Range}

theorem and_fffe (n : ℕ) : n &&& 0xFFFE = 0xFFFE ↔ 0xFFFE ≤ n % 0x10000 := by
  have hhalf : (n &&& 0xFFFE) / 2 = n / 2 % 0x8000 := by
    rw [Nat.and_div_two]
    exact Nat.and_two_pow_sub_one_eq_mod (n / 2) 15
  have heven : (n &&& 0xFFFE) % 2 = 0 := by
    have := Nat.and_mod_two_pow (a := n) (b := 0xFFFE) (n := 1)
    simpa using this
  omega

theorem toNat_ofNat_of_valid (h : Nat.isValidChar value) : (Char.ofNat value).toNat = value := by
  rw [Char.ofNat, dif_pos h]
  simp [Char.ofNatAux, Char.toNat]

theorem character_eq_some : character value = some ch ↔ value = ch.toNat ∧ Showable ch := by
  unfold character
  constructor
  · intro h
    dsimp only at h
    split_ifs at h with hvalid hunsafe
    obtain rfl := Option.some.inj h
    have hvalue := toNat_ofNat_of_valid hvalid
    simp only [List.contains_eq_mem, List.mem_cons, List.not_mem_nil, or_false, not_or,
      decide_eq_true_eq, and_fffe, Bool.not_eq_true] at hunsafe
    obtain ⟨hcontrol, hseparator, hdirection, hassigned, hlast⟩ := hunsafe
    refine ⟨hvalue.symm, hcontrol, ?_, hdirection, ?_⟩ <;> rw [hvalue]
    · exact hseparator
    · exact ⟨hassigned, by omega⟩
  · rintro ⟨rfl, hcontrol, ⟨hline, hparagraph, hmark⟩, hdirection, hassigned, hlast⟩
    have hvalid : Nat.isValidChar ch.toNat := ch.valid
    rw [if_pos hvalid, Char.ofNat_toNat]
    dsimp only
    rw [if_neg]
    simp only [List.contains_eq_mem, List.mem_cons, List.not_mem_nil, or_false, not_or,
      decide_eq_true_eq, and_fffe, Bool.not_eq_true]
    exact ⟨hcontrol, ⟨hline, hparagraph, hmark⟩, hdirection, hassigned, by omega⟩

/-! ## Digits as bytes -/

theorem digitByte_ascii {c : Char} (h : c.toNat < 128) :
    digitByte radix (UInt8.ofNat c.toNat) = isDigit radix c := by
  have hb : (UInt8.ofNat c.toNat).toNat = c.toNat := by
    rw [UInt8.toNat_ofNat']
    omega
  rw [digitByte, hb, Char.ofNat_toNat]

theorem isDigit_of_digitByte {c : Char} {b : UInt8} {bs : List UInt8}
    (h : String.utf8EncodeChar c = b :: bs) (hb : digitByte radix b = true) :
    isDigit radix c = true := by
  have hvalid : Nat.isValidChar b.toNat := by
    have := b.toNat_lt
    unfold Nat.isValidChar
    omega
  have hlt := ascii_of_isDigit hb
  rw [toNat_ofNat_of_valid hvalid] at hlt
  obtain ⟨hc, -⟩ := eq_of_encode_ascii hlt h
  rwa [digitByte, ← hc, Char.ofNat_toNat] at hb

theorem length_takeWhile_bytes (radix : ℕ) (cs : List Char) :
    ((bytes cs).takeWhile (digitByte radix)).length = (cs.takeWhile (isDigit radix)).length := by
  induction cs with
  | nil => rfl
  | cons c cs ih =>
    rw [bytes_cons]
    cases hc : isDigit radix c with
    | true =>
      have hlt := ascii_of_isDigit hc
      rw [encode_ascii hlt, List.singleton_append, List.takeWhile_cons_of_pos, List.length_cons,
        ih, List.takeWhile_cons_of_pos hc, List.length_cons]
      rw [digitByte_ascii hlt, hc]
    | false =>
      obtain ⟨b, bs, hb⟩ := List.exists_cons_of_ne_nil (@String.utf8EncodeChar_ne_nil c)
      rw [hb, List.cons_append, List.takeWhile_cons_of_neg,
        List.takeWhile_cons_of_neg (by rw [hc]; exact Bool.false_ne_true)]
      · rfl
      · intro hd
        rw [isDigit_of_digitByte hb hd] at hc
        exact Bool.false_ne_true hc.symm

theorem length_bytes_digits (h : ∀ c ∈ digits, isDigit radix c = true) :
    (bytes digits).length = digits.length := by
  induction digits with
  | nil => rfl
  | cons c digits ih =>
    obtain ⟨hc, hcs⟩ := List.forall_mem_cons.mp h
    rw [bytes_cons, encode_ascii (ascii_of_isDigit hc), List.length_append, ih hcs]
    simp [Nat.add_comm]

theorem semicolon_behind (h : ∀ c ∈ digits, isDigit radix c = true) :
    (bytes (digits ++ rest))[digits.length]? = some 59 ↔ ∃ q, rest = ';' :: q := by
  have hlen := length_bytes_digits h
  rw [bytes_append, List.getElem?_append_right hlen.le, hlen, Nat.sub_self,
    ← List.head?_eq_getElem?]
  constructor
  · intro hhead
    obtain ⟨bs, hbs⟩ := List.head?_eq_some_iff.mp hhead
    obtain ⟨c, q, rfl, hc, -⟩ := bytes_eq_cons_ascii (by decide) hbs
    obtain rfl : c = ';' := Char.toNat_inj.mp hc
    exact ⟨q, rfl⟩
  · rintro ⟨q, rfl⟩
    rfl

theorem count_digits (radix : ℕ) (cs : List Char) :
    (((bytes cs).take (maxDigits + 1)).takeWhile (digitByte radix)).length =
      min (maxDigits + 1) (cs.takeWhile (isDigit radix)).length := by
  rw [← length_takeWhile_bytes, ← List.length_take, List.take_takeWhile]

/-! ## Parsing -/

theorem isDigit_semicolon (radix : ℕ) : isDigit radix ';' = false := by simp [isDigit, toDigit]

theorem run_of_digits (h : ∀ c ∈ digits, isDigit radix c = true) (q : List Char) :
    (digits ++ ';' :: q).takeWhile (isDigit radix) = digits := by
  rw [List.takeWhile_append_of_pos h, List.takeWhile_cons_of_neg, List.append_nil]
  simp [isDigit_semicolon]

theorem parseDigits_spec (hr : radix = 10 ∨ radix = 16) (digits : List Char) :
    ∃ result, parseDigits radix digits = some result ∧ ∀ count ch, result = some (count, ch) ↔
      ∃ named q, digits = named ++ ';' :: q ∧ named.length = count ∧ Names radix named ch := by
  have hpos : 0 < radix := by omega
  obtain ⟨named, hnamed⟩ : ∃ named, digits.takeWhile (isDigit radix) = named := ⟨_, rfl⟩
  have hsplit : digits = named ++ digits.dropWhile (isDigit radix) := by
    rw [← hnamed, List.takeWhile_append_dropWhile]
  have hall : ∀ c ∈ named, isDigit radix c = true := by
    intro c hc
    rw [← hnamed] at hc
    exact List.mem_takeWhile_imp hc
  have honly : ∀ other q ch, digits = other ++ ';' :: q → Names radix other ch →
      other = named ∧ ';' :: q = digits.dropWhile (isDigit radix) := by
    intro other q ch hother hnames
    have heq : other = named := by rw [← hnamed, hother, run_of_digits hnames.all]
    subst heq
    refine ⟨rfl, ?_⟩
    rw [hother] at hsplit
    exact List.append_cancel_left (hsplit.trans (by rw [← hother]))
  unfold parseDigits
  simp only [count_digits, hnamed]
  by_cases hgood : named ≠ [] ∧ named.length ≤ maxDigits ∧
      ∃ q, digits.dropWhile (isDigit radix) = ';' :: q
  · obtain ⟨hne, hshort, q, hq⟩ := hgood
    have hlen := List.length_pos_iff.mpr hne
    have hcount : min (maxDigits + 1) named.length = named.length := by omega
    have hsemicolon : (bytes digits)[named.length]? = some 59 := by
      rw [hsplit]
      exact (semicolon_behind hall).mpr ⟨q, hq⟩
    have hcut : split digits named.length = some (named, ';' :: q) := by
      rw [hsplit, hq, ← size_digits hall]
      exact split_append ..
    have hbound : radix ^ named.length ≤ 2 ^ 32 := by
      have hle : radix ≤ 16 := by omega
      calc radix ^ named.length ≤ 16 ^ named.length := Nat.pow_le_pow_left hle _
        _ ≤ 16 ^ 8 := Nat.pow_le_pow_right (by decide) hshort
        _ = 2 ^ 32 := by decide
    rw [hcount, if_neg (by simp [hsemicolon, hne, hshort]), hcut]
    refine ⟨_, rfl, ?_⟩
    intro count ch
    rw [fromStrRadix_digits hpos hne hall hbound, Option.bind_some, Option.map_eq_some_iff]
    constructor
    · rintro ⟨found, hfound, heq⟩
      obtain ⟨rfl, rfl⟩ := Prod.mk.inj heq
      obtain ⟨hvalue, hshow⟩ := character_eq_some.mp hfound
      exact ⟨named, q, hq ▸ hsplit, rfl, hne, hshort, hall, hvalue, hshow⟩
    · rintro ⟨other, q', hother, rfl, hnames⟩
      obtain ⟨rfl, -⟩ := honly other q' ch hother hnames
      exact ⟨ch, character_eq_some.mpr ⟨hnames.value, hnames.showable⟩, rfl⟩
  · have hbad : min (maxDigits + 1) named.length = 0 ∨
        maxDigits < min (maxDigits + 1) named.length ∨
        (bytes digits)[min (maxDigits + 1) named.length]? ≠ some 59 := by
      by_contra hnot
      push Not at hnot
      obtain ⟨hne, hshort, hsemicolon⟩ := hnot
      have hcount : min (maxDigits + 1) named.length = named.length := by omega
      rw [hcount] at hne hshort hsemicolon
      rw [hsplit] at hsemicolon
      exact hgood ⟨by rintro rfl; exact hne rfl, hshort, (semicolon_behind hall).mp hsemicolon⟩
    rw [if_pos hbad]
    refine ⟨none, rfl, ?_⟩
    intro count ch
    constructor
    · rintro ⟨⟩
    · rintro ⟨other, q, hother, -, hnames⟩
      obtain ⟨rfl, hq⟩ := honly other q ch hother hnames
      exact absurd ⟨hnames.any, hnames.short, q, hq.symm⟩ hgood

theorem afterMark_eq_some : afterMark text = some rest ↔ text = '&' :: '#' :: rest := by
  unfold afterMark
  split <;> simp_all

theorem afterRadix_cases (rest : List Char) :
    (∃ mark hex, (mark = 'x' ∨ mark = 'X') ∧ rest = mark :: hex ∧ afterRadix rest = (hex, 16)) ∨
      (∀ mark hex, rest = mark :: hex → mark ≠ 'x' ∧ mark ≠ 'X') ∧
        afterRadix rest = (rest, 10) := by
  unfold afterRadix
  split
  · exact .inl ⟨'x', _, .inl rfl, rfl, rfl⟩
  · exact .inl ⟨'X', _, .inr rfl, rfl, rfl⟩
  · rename_i hx hX
    refine .inr ⟨?_, rfl⟩
    rintro mark hex rfl
    exact ⟨fun h => hx hex (by rw [h]), fun h => hX hex (by rw [h])⟩

theorem not_isDigit_mark {c : Char} (h : isDigit 10 c = true) : c ≠ 'x' ∧ c ≠ 'X' := by
  constructor <;> rintro rfl <;> revert h <;> decide

theorem isReference_start (h : IsReference m ch) : ∃ rest, m = '&' :: '#' :: rest := by
  cases h with
  | decimal _ => exact ⟨_, rfl⟩
  | hex _ _ => exact ⟨_, rfl⟩

theorem isReference_hex {mark : Char} (hm : mark = 'x' ∨ mark = 'X') :
    (∃ m q, '&' :: '#' :: mark :: digits = m ++ q ∧ size m = count ∧ IsReference m ch) ↔
      ∃ named q, digits = named ++ ';' :: q ∧ 3 + named.length + 1 = count ∧ Names 16 named ch := by
  have hone : mark.utf8Size = 1 := by obtain rfl | rfl := hm <;> rfl
  have hsize : ∀ named : List Char, (∀ c ∈ named, isDigit 16 c = true) →
      size ('&' :: '#' :: mark :: (named ++ [';'])) = 3 + named.length + 1 := by
    intro named hall
    have hand : '&'.utf8Size = 1 := rfl
    have hnumber : '#'.utf8Size = 1 := rfl
    have hsemicolon : ';'.utf8Size = 1 := rfl
    simp only [size_cons, size_append, size_nil, size_digits hall, hone, hand, hnumber,
      hsemicolon]
    omega
  constructor
  · rintro ⟨m, q, heq, rfl, href⟩
    cases href with
    | @decimal other _ hnames =>
      obtain ⟨c, cs, rfl⟩ := List.exists_cons_of_ne_nil hnames.any
      have hc := not_isDigit_mark (hnames.all c List.mem_cons_self)
      simp only [List.cons_append, List.cons.injEq] at heq
      obtain ⟨-, -, rfl, -⟩ := heq
      obtain rfl | rfl := hm
      · exact absurd rfl hc.1
      · exact absurd rfl hc.2
    | @hex mark' named _ _ hnames =>
      simp only [List.cons_append, List.append_assoc, List.nil_append, List.cons.injEq] at heq
      obtain ⟨-, -, rfl, heq⟩ := heq
      exact ⟨named, q, heq, (hsize named hnames.all).symm, hnames⟩
  · rintro ⟨named, q, rfl, rfl, hnames⟩
    exact ⟨_, q, by simp, hsize named hnames.all, .hex hm hnames⟩

theorem isReference_decimal (hm : ∀ mark hex, digits = mark :: hex → mark ≠ 'x' ∧ mark ≠ 'X') :
    (∃ m q, '&' :: '#' :: digits = m ++ q ∧ size m = count ∧ IsReference m ch) ↔
      ∃ named q, digits = named ++ ';' :: q ∧ 2 + named.length + 1 = count ∧ Names 10 named ch := by
  have hsize : ∀ named : List Char, (∀ c ∈ named, isDigit 10 c = true) →
      size ('&' :: '#' :: (named ++ [';'])) = 2 + named.length + 1 := by
    intro named hall
    have hand : '&'.utf8Size = 1 := rfl
    have hnumber : '#'.utf8Size = 1 := rfl
    have hsemicolon : ';'.utf8Size = 1 := rfl
    simp only [size_cons, size_append, size_nil, size_digits hall, hand, hnumber, hsemicolon]
    omega
  constructor
  · rintro ⟨m, q, heq, rfl, href⟩
    cases href with
    | @decimal named _ hnames =>
      simp only [List.cons_append, List.append_assoc, List.nil_append, List.cons.injEq] at heq
      obtain ⟨-, -, heq⟩ := heq
      exact ⟨named, q, heq, (hsize named hnames.all).symm, hnames⟩
    | @hex mark named _ hmark hnames =>
      simp only [List.cons_append, List.append_assoc, List.nil_append, List.cons.injEq] at heq
      obtain ⟨-, -, heq⟩ := heq
      have := hm mark _ heq
      tauto
  · rintro ⟨named, q, rfl, rfl, hnames⟩
    exact ⟨_, q, by simp, hsize named hnames.all, .decimal hnames⟩

theorem parse_spec (text : List Char) :
    ∃ result, parse text = some result ∧ ∀ len ch, result = some (len, ch) ↔
      ∃ m q, text = m ++ q ∧ size m = len ∧ IsReference m ch := by
  unfold parse
  cases hrest : afterMark text with
  | none =>
    refine ⟨none, rfl, ?_⟩
    intro len ch
    constructor
    · rintro ⟨⟩
    · rintro ⟨m, q, rfl, -, href⟩
      obtain ⟨rest, rfl⟩ := isReference_start href
      rw [afterMark_eq_some.mpr (List.cons_append ..)] at hrest
      cases hrest
  | some rest =>
    obtain rfl := afterMark_eq_some.mp hrest
    have hand : '&'.utf8Size = 1 := rfl
    have hnumber : '#'.utf8Size = 1 := rfl
    obtain ⟨mark, hex, hm, rfl, hradix⟩ | ⟨hm, hradix⟩ := afterRadix_cases rest
    · obtain ⟨named, hnamed, hiff⟩ := parseDigits_spec (.inr rfl) hex
      have hone : mark.utf8Size = 1 := by obtain rfl | rfl := hm <;> rfl
      simp only [hradix, hnamed, Option.bind_eq_bind, Option.bind_some]
      refine ⟨_, rfl, ?_⟩
      intro len ch
      rw [isReference_hex hm, Option.map_eq_some_iff]
      constructor
      · rintro ⟨⟨count, ch'⟩, hfound, heq⟩
        obtain ⟨rfl, rfl⟩ := Prod.mk.inj heq
        obtain ⟨ds, q, hds, rfl, hnames⟩ := (hiff count ch').mp hfound
        refine ⟨ds, q, hds, ?_, hnames⟩
        simp only [size_cons, hand, hnumber, hone]
        omega
      · rintro ⟨ds, q, hds, rfl, hnames⟩
        refine ⟨_, (hiff _ ch).mpr ⟨ds, q, hds, rfl, hnames⟩, ?_⟩
        simp only [size_cons, hand, hnumber, hone]
        congr 1
        omega
    · obtain ⟨named, hnamed, hiff⟩ := parseDigits_spec (.inl rfl) rest
      simp only [hradix, hnamed, Option.bind_eq_bind, Option.bind_some]
      refine ⟨_, rfl, ?_⟩
      intro len ch
      rw [isReference_decimal hm, Option.map_eq_some_iff]
      constructor
      · rintro ⟨⟨count, ch'⟩, hfound, heq⟩
        obtain ⟨rfl, rfl⟩ := Prod.mk.inj heq
        obtain ⟨ds, q, hds, rfl, hnames⟩ := (hiff count ch').mp hfound
        refine ⟨ds, q, hds, ?_, hnames⟩
        simp only [size_cons, hand, hnumber]
        omega
      · rintro ⟨ds, q, hds, rfl, hnames⟩
        refine ⟨_, (hiff _ ch).mpr ⟨ds, q, hds, rfl, hnames⟩, ?_⟩
        simp only [size_cons, hand, hnumber]
        congr 1
        omega

/-! ## All references of a text -/

def Occurs (text : List Char) (r : Range) (ch : Char) : Prop :=
  ∃ p m q, text = p ++ m ++ q ∧ size p = r.start ∧ size p + size m = r.stop ∧ IsReference m ch

theorem isReference_tail (h : IsReference m ch) : ∃ tail, m = '&' :: tail ∧ '&' ∉ tail := by
  have hnot : ∀ radix : ℕ, isDigit radix '&' = false := by simp [isDigit, toDigit]
  cases h with
  | @decimal digits _ hnames =>
    refine ⟨_, rfl, ?_⟩
    have hdigits : '&' ∉ digits := by
      intro hmem
      have := hnames.all _ hmem
      rw [hnot] at this
      exact Bool.false_ne_true this
    simpa using hdigits
  | @hex mark digits _ hmark hnames =>
    refine ⟨_, rfl, ?_⟩
    have hdigits : '&' ∉ digits := by
      intro hmem
      have := hnames.all _ hmem
      rw [hnot] at this
      exact Bool.false_ne_true this
    obtain rfl | rfl := hmark <;> simpa using hdigits

theorem Occurs.behind {r r' : Range} {ch ch' : Char} (h : Occurs text r ch)
    (h' : Occurs text r' ch') (hlt : r.start < r'.start) : r.stop ≤ r'.start := by
  obtain ⟨p, m, q, rfl, hp, hm, href⟩ := h
  obtain ⟨p', m', q', heq, hp', -, href'⟩ := h'
  by_contra hstop
  rw [List.append_assoc, List.append_assoc] at heq
  obtain ⟨u, rfl, hu⟩ := prefix_of_size_le heq.symm (by omega)
  rw [size_append] at hp'
  obtain ⟨v, rfl, hv⟩ := prefix_of_size_le hu (by omega)
  have hune : u ≠ [] := by
    rintro rfl
    rw [size_nil] at hp'
    omega
  have hvne : v ≠ [] := by
    rintro rfl
    rw [List.append_nil] at hm
    omega
  obtain ⟨tail, htail, hmem⟩ := isReference_tail href
  obtain ⟨tail', rfl, -⟩ := isReference_tail href'
  obtain ⟨c, u, rfl⟩ := List.exists_cons_of_ne_nil hune
  obtain ⟨d, v, rfl⟩ := List.exists_cons_of_ne_nil hvne
  simp only [List.cons_append, List.cons.injEq] at htail hv
  obtain ⟨-, rfl⟩ := htail
  obtain ⟨rfl, -⟩ := hv
  exact hmem (List.mem_append_right u List.mem_cons_self)

theorem occurs_at {result : Option (ℕ × Char)}
    (hiff : ∀ len ch, result = some (len, ch) ↔
      ∃ m q, rest = m ++ q ∧ size m = len ∧ IsReference m ch)
    (hstart : r.start = size p) :
    Occurs (p ++ rest) r ch ↔ ∃ len, result = some (len, ch) ∧ r.stop = size p + len := by
  constructor
  · rintro ⟨p', m, q, heq, hp, hm, href⟩
    rw [List.append_assoc] at heq
    obtain ⟨u, rfl, hu⟩ := prefix_of_size_le heq.symm (by omega)
    have hnil : u = [] := by
      rw [size_append] at hp
      exact size_eq_zero.mp (by omega)
    subst hnil
    rw [List.append_nil] at hm
    exact ⟨size m, (hiff _ _).mpr ⟨m, q, hu, rfl, href⟩, hm.symm⟩
  · rintro ⟨len, hresult, hstop⟩
    obtain ⟨m, q, rfl, rfl, href⟩ := (hiff len ch).mp hresult
    exact ⟨p, m, q, (List.append_assoc ..).symm, hstart.symm, hstop.symm, href⟩

theorem Occurs.stands (h : Occurs text r ch) : Stands ['&', '#'] text r.start := by
  obtain ⟨p, m, q, rfl, hp, -, href⟩ := h
  obtain ⟨rest, rfl⟩ := isReference_start href
  exact ⟨p, rest ++ q, by simp, hp⟩

def addReferences : List (Range × List Char) → List (Range × Char) → List (Range × List Char)
  | runs, [] => runs
  | runs, (r, ch) :: references =>
    match addReference runs r.start r.stop ch with
    | none => runs
    | some added => addReferences added references

/-- The references from a position on that touch no link. -/
structure Free (text : List Char) (links : List (Range × String)) (origin : ℕ)
    (references : List (Range × Char)) : Prop where
  mem : ∀ r ch, (r, ch) ∈ references ↔
    origin ≤ r.start ∧ Occurs text r ch ∧ touchesLink links r.start r.stop = false
  sorted : references.Pairwise fun a b => a.1.stop ≤ b.1.start

variable {links : List (Range × String)} {references : List (Range × Char)} {origin start fuel : ℕ}

theorem Free.skip (h : Free text links start references)
    (hnone : ∀ r ch, origin ≤ r.start → Occurs text r ch →
      touchesLink links r.start r.stop = false → start ≤ r.start) (hle : origin ≤ start) :
    Free text links origin references where
  mem := by
    intro r ch
    rw [h.mem]
    constructor
    · rintro ⟨hs, ho, ht⟩
      exact ⟨hle.trans hs, ho, ht⟩
    · rintro ⟨hs, ho, ht⟩
      exact ⟨hnone r ch hs ho ht, ho, ht⟩
  sorted := h.sorted

theorem findReferencesFrom_spec (links : List (Range × String)) (hb : Boundary text origin)
    (hfuel : size text < origin + fuel) :
    ∃ references, Free text links origin references ∧ ∀ runs,
      findReferencesFrom text links fuel origin runs = some (addReferences runs references) := by
  induction fuel generalizing origin with
  | zero =>
    have := hb.le
    omega
  | succ fuel ih =>
    obtain ⟨p, rest, rfl, rfl⟩ := hb
    obtain ⟨offset, hfind, ⟨u, tail, rfl, rfl⟩, hleast⟩ | ⟨hfind, hnone⟩ :=
      find_spec ['&', '#'] rest
    · have hat : size p + size u = size (p ++ u) := (size_append ..).symm
      have hbefore : ∀ r ch, size p ≤ r.start → Occurs (p ++ (u ++ ['&', '#'] ++ tail)) r ch →
          size (p ++ u) ≤ r.start := by
        intro r ch hs ho
        have := hleast _ ((stands_append hs).mp ho.stands)
        omega
      have hsplit : split (p ++ (u ++ ['&', '#'] ++ tail)) (size (p ++ u)) =
          some (p ++ u, ['&', '#'] ++ tail) := by
        have hsame : p ++ (u ++ ['&', '#'] ++ tail) = (p ++ u) ++ (['&', '#'] ++ tail) := by simp
        rw [hsame, split_append]
      obtain ⟨result, hparse, hiff⟩ := parse_spec (['&', '#'] ++ tail)
      have hsame : p ++ (u ++ ['&', '#'] ++ tail) = (p ++ u) ++ (['&', '#'] ++ tail) := by simp
      cases result with
      | none =>
        have hnext : Boundary (p ++ (u ++ ['&', '#'] ++ tail)) (size (p ++ u) + 1) :=
          ⟨p ++ u ++ ['&'], '#' :: tail, by simp, size_append _ ['&']⟩
        obtain ⟨references, hfree, hloop⟩ := ih hnext (by omega)
        refine ⟨references, hfree.skip ?_ (by omega), ?_⟩
        · rintro r ch hs ho -
          have hle := hbefore r ch hs ho
          by_contra hlt
          rw [hsame] at ho
          obtain ⟨len, hres, -⟩ := (occurs_at hiff (by omega)).mp ho
          cases hres
        · intro runs
          rw [findReferencesFrom, split_append]
          simp only [Option.bind_eq_bind, Option.bind_some, hfind, hat, hsplit, hparse]
          exact hloop runs
      | some found =>
        obtain ⟨len, ch⟩ := found
        have ho : Occurs (p ++ (u ++ ['&', '#'] ++ tail))
            ⟨size (p ++ u), size (p ++ u) + len⟩ ch := by
          rw [hsame]
          exact (occurs_at hiff rfl).mpr ⟨len, rfl, rfl⟩
        have hpos : 0 < len := by
          obtain ⟨m, q, -, rfl, href⟩ := (hiff len ch).mp rfl
          obtain ⟨m, rfl⟩ := isReference_start href
          have := Char.utf8Size_pos '&'
          rw [size_cons]
          omega
        have hnext : Boundary (p ++ (u ++ ['&', '#'] ++ tail)) (size (p ++ u) + len) := by
          obtain ⟨p', m, q, heq, -, hstop, -⟩ := ho
          exact ⟨p' ++ m, q, heq, by rw [size_append]; exact hstop⟩
        have hcases : ∀ r ch', size p ≤ r.start →
            Occurs (p ++ (u ++ ['&', '#'] ++ tail)) r ch' →
            (r = ⟨size (p ++ u), size (p ++ u) + len⟩ ∧ ch' = ch) ∨
              size (p ++ u) + len ≤ r.start := by
          intro r ch' hs ho'
          obtain heq | hlt := (hbefore r ch' hs ho').eq_or_lt
          · rw [hsame] at ho'
            obtain ⟨len', hres, hstop⟩ := (occurs_at hiff heq.symm).mp ho'
            obtain ⟨rfl, rfl⟩ := Prod.mk.inj (Option.some.inj hres)
            obtain ⟨rstart, rstop⟩ := r
            subst heq hstop
            exact .inl ⟨rfl, rfl⟩
          · exact .inr (ho.behind ho' hlt)
        obtain ⟨references, hfree, hloop⟩ := ih hnext (by omega)
        cases ht : touchesLink links (size (p ++ u)) (size (p ++ u) + len) with
        | true =>
          refine ⟨references, hfree.skip ?_ (by omega), ?_⟩
          · intro r ch' hs ho' ht'
            obtain ⟨rfl, -⟩ | hle := hcases r ch' hs ho'
            · rw [ht] at ht'
              cases ht'
            · exact hle
          · intro runs
            rw [findReferencesFrom, split_append]
            simp only [Option.bind_eq_bind, Option.bind_some, hfind, hat, hsplit, hparse, ht,
              if_true]
            exact hloop runs
        | false =>
          refine ⟨(⟨size (p ++ u), size (p ++ u) + len⟩, ch) :: references, ⟨?_, ?_⟩, ?_⟩
          · intro r ch'
            rw [List.mem_cons, hfree.mem]
            constructor
            · rintro (heq | ⟨hs, ho', ht'⟩)
              · obtain ⟨rfl, rfl⟩ := Prod.mk.inj heq
                exact ⟨by rw [← hat]; exact Nat.le_add_right .., ho, ht⟩
              · exact ⟨by omega, ho', ht'⟩
            · rintro ⟨hs, ho', ht'⟩
              obtain ⟨rfl, rfl⟩ | hle := hcases r ch' hs ho'
              · exact .inl rfl
              · exact .inr ⟨hle, ho', ht'⟩
          · refine List.pairwise_cons.mpr ⟨?_, hfree.sorted⟩
            rintro ⟨r, ch'⟩ hr
            exact ((hfree.mem r ch').mp hr).1
          · intro runs
            rw [findReferencesFrom, split_append]
            simp only [Option.bind_eq_bind, Option.bind_some, hfind, hat, hsplit, hparse, ht,
              Bool.false_eq_true, if_false]
            rw [addReferences]
            cases addReference runs (size (p ++ u)) (size (p ++ u) + len) ch with
            | none => rfl
            | some added => exact hloop added
    · refine ⟨[], ⟨?_, .nil⟩, ?_⟩
      · intro r ch
        constructor
        · rintro ⟨⟩
        · rintro ⟨hs, ho, -⟩
          exact absurd ((stands_append hs).mp ho.stands) (hnone _)
      · intro runs
        rw [findReferencesFrom, split_append]
        simp only [Option.bind_eq_bind, Option.bind_some, hfind]
        rfl

/-! ## Runs -/

def joined (a b : Range × Char) : Bool := a.1.stop = b.1.start

def runOf (references : List (Range × Char)) : Range × List Char :=
  (⟨(references.head?.map fun r => r.1.start).getD 0,
    (references.getLast?.map fun r => r.1.stop).getD 0⟩, references.map Prod.snd)

variable {done : List (Range × Char)}

theorem runOf_concat {run : List (Range × Char)} (h : run ≠ []) (last : Range × Char) :
    runOf (run ++ [last]) = (⟨(runOf run).1.start, last.1.stop⟩, (runOf run).2 ++ [last.2]) := by
  obtain ⟨first, run, rfl⟩ := List.exists_cons_of_ne_nil h
  have hlast : (first :: run ++ [last]).getLast? = some last := List.getLast?_concat
  simp only [runOf, hlast]
  simp

theorem addReference_splitBy (r : Range) (ch : Char) :
    addReference ((done.splitBy joined).map runOf) r.start r.stop ch =
      if (∀ last ∈ done.getLast?, joined last (r, ch) = false) ∧
          maxRuns ≤ (done.splitBy joined).length then none
      else some (((done ++ [(r, ch)]).splitBy joined).map runOf) := by
  obtain hnil | ⟨runs, run, hruns⟩ := List.eq_nil_or_concat (done.splitBy joined)
  · have hdone := List.splitBy_eq_nil.mp hnil
    subst hdone
    have hone : [(r, ch)].splitBy joined = [[(r, ch)]] := rfl
    simp [addReference, maxRuns, hone, runOf]
  · rw [List.concat_eq_append] at hruns
    have hne : run ≠ [] := by
      rintro rfl
      exact List.nil_notMem_splitBy joined done (by simp [hruns])
    obtain ⟨first, last, rfl⟩ : ∃ first last, run = first ++ [last] := by
      obtain rfl | ⟨first, last, hrun⟩ := List.eq_nil_or_concat run
      · exact absurd rfl hne
      · exact ⟨first, last, by rw [hrun, List.concat_eq_append]⟩
    have hlast : done.getLast? = some last := by
      rw [← Adjacent.getLast?_run hruns, List.getLast?_concat]
    have hend : (runOf (first ++ [last])).1.stop = last.1.stop := by simp [runOf]
    rw [hlast]
    cases hj : joined last (r, ch) with
    | true =>
      have hconcat := Adjacent.splitBy_concat (a := (r, ch)) hruns (by simp [hj])
      have hstop : last.1.stop = r.start := by simpa [joined] using hj
      rw [if_neg (by simp [hj]), hconcat, hruns]
      simp only [addReference, List.map_append, List.map_cons, List.map_nil, List.getLast?_concat,
        Option.filter_some, hend, hstop, decide_true, if_true, List.dropLast_concat]
      rw [runOf_concat hne]
    | false =>
      have hstop : last.1.stop ≠ r.start := by simpa [joined] using hj
      have happend : (done ++ [(r, ch)]).splitBy joined = done.splitBy joined ++ [[(r, ch)]] := by
        refine List.splitBy_append ?_
        rw [hlast]
        simp [hj]
      rw [happend, hruns]
      simp only [addReference, List.map_append, List.map_cons, List.map_nil, List.getLast?_concat,
        Option.filter_some, hend, hstop, decide_false, Bool.false_eq_true, if_false,
        List.length_append, List.length_map]
      simp [runOf, hj]

theorem addReferences_splitBy (h : (done.splitBy joined).length ≤ maxRuns) :
    addReferences ((done.splitBy joined).map runOf) references =
      (((done ++ references).splitBy joined).take maxRuns).map runOf := by
  induction references generalizing done with
  | nil => rw [addReferences, List.append_nil, List.take_of_length_le h]
  | cons reference references ih =>
    obtain ⟨r, ch⟩ := reference
    rw [addReferences, addReference_splitBy]
    split_ifs with hfull
    · obtain ⟨hapart, hroom⟩ := hfull
      rw [List.splitBy_append_cons references hapart, List.take_left' (by omega)]
    · have hlen : ((done ++ [(r, ch)]).splitBy joined).length ≤ maxRuns := by
        by_cases hapart : ∀ last ∈ done.getLast?, joined last (r, ch) = false
        · rw [Adjacent.length_splitBy_of_apart hapart]
          by_contra hroom
          exact hfull ⟨hapart, by omega⟩
        · push Not at hapart
          obtain ⟨last, hlast, hj⟩ := hapart
          rw [Adjacent.length_splitBy_of_joins hlast (by simpa using hj)]
          exact h
      dsimp only
      rw [ih hlen, List.append_assoc, List.singleton_append]

/-- The runs are those of all references that touch no link, and no more than there is room for. -/
theorem references_found (text : List Char) (links : List (Range × String)) :
    ∃ references : List (Range × Char),
      (∀ r ch, (r, ch) ∈ references ↔
        Occurs text r ch ∧ ∀ link ∈ links, ¬(link.1.start < r.stop ∧ r.start < link.1.stop)) ∧
      (references.Pairwise fun a b => a.1.stop ≤ b.1.start) ∧
      findReferences text links =
        some (((references.splitBy joined).take maxRuns).map runOf) := by
  obtain ⟨references, hfree, hloop⟩ :=
    findReferencesFrom_spec links (boundary_zero text) (by omega : size text < 0 + (size text + 1))
  refine ⟨references, ?_, hfree.sorted, ?_⟩
  · intro r ch
    rw [hfree.mem, touchesLink, List.any_eq_false]
    simp
  · rw [findReferences, hloop]
    have hall : addReferences ((([] : List (Range × Char)).splitBy joined).map runOf) references =
        ((([] ++ references).splitBy joined).take maxRuns).map runOf :=
      addReferences_splitBy (by simp)
    simpa using hall

end CayenChat.Text
