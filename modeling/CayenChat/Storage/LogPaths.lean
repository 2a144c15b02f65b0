import CayenChat.Lib.Utf8
import CayenChat.Wire.Text

/-! # Log directories

Names from servers and users as parts of a path. What no system accepts is escaped as bytes in
hexadecimal digits, and a name that gets too long is cut and ends in a hash of the whole. The
hash function is a parameter.
-/

namespace CayenChat.Storage
open Utf8

def componentLimit : ℕ := 200

def shortenedSuffix : ℕ := 17

def isBidiControl (ch : Char) : Bool :=
  (0x202A ≤ ch.toNat && ch.toNat ≤ 0x202E) || (0x2066 ≤ ch.toNat && ch.toNat ≤ 0x2069)

def hexLower (byte : UInt8) : List Char :=
  [Nat.digitChar (byte.toNat / 16), Nat.digitChar (byte.toNat % 16)]

def hexUpper (byte : UInt8) : List Char := (hexLower byte).map Char.toUpper

def pushEscaped (ch : Char) : List Char :=
  (String.utf8EncodeChar ch).flatMap fun byte => '%' :: hexUpper byte

def forbidden : List Char := ['/', '\\', ':', '*', '?', '\x22', '<', '>', '|']

def isUnsafe (ch : Char) : Bool :=
  forbidden.contains ch || ch == '%' || ch == '~' || isControl ch || isBidiControl ch

def trimEnd (s : List Char) : List Char := (s.reverse.dropWhile isWhitespace).reverse

def deviceNames : List (List Char) :=
  [['C', 'O', 'N'], ['P', 'R', 'N'], ['A', 'U', 'X'], ['N', 'U', 'L'],
    ['C', 'O', 'N', 'I', 'N', '$'], ['C', 'O', 'N', 'O', 'U', 'T', '$']]

def devicePorts : List (List Char) := [['C', 'O', 'M'], ['L', 'P', 'T']]

def deviceNumbers : List (List Char) :=
  [['1'], ['2'], ['3'], ['4'], ['5'], ['6'], ['7'], ['8'], ['9'], ['¹'], ['²'], ['³']]

def isDeviceName (stem : List Char) : Bool :=
  let upper := (trimEnd stem).map Char.toUpper
  deviceNames.contains upper ||
    (devicePorts.find? fun port => port.isPrefixOf upper).any fun port =>
      deviceNumbers.contains (upper.drop port.length)

def stem (name : List Char) : List Char := name.takeWhile (· != '.')

def escapes (device dots : Bool) (index : ℕ) (ch : Char) (rest : List Char) : Bool :=
  isUnsafe ch || dots || (device && index == 0) || (rest.isEmpty && (ch == '.' || ch == ' '))

def written (device dots : Bool) (index : ℕ) (ch : Char) (rest : List Char) : List Char :=
  if escapes device dots index ch rest then pushEscaped ch else [ch]

def pushChars (device dots : Bool) : ℕ → List Char → List Char → ℕ → List Char × ℕ
  | _, [], out, cut => (out, cut)
  | index, ch :: chars, out, cut =>
    let out := out ++ written device dots index ch chars
    pushChars device dots (index + 1) chars out
      (if size out ≤ componentLimit - shortenedSuffix then size out else cut)

def escaped (name : List Char) : List Char × ℕ :=
  pushChars (isDeviceName (stem name)) (!name.isEmpty && name.all (· == '.')) 0 name [] 0

variable (sha256 : List UInt8 → Vector UInt8 32)

/-- One safe part of a path for a name. -/
def pathComponent (name : List Char) : Option (List Char) :=
  let (out, cut) := escaped name
  let out := if out = [] then ['%', '0', '0'] else out
  if componentLimit < size out then
    (split out cut).map fun (kept, _) =>
      kept ++ '~' :: ((sha256 (bytes name)).toList.take 8).flatMap hexLower
  else some out

inductive Scope
  | channel
  | «private»
  deriving DecidableEq, Repr

def Scope.directory : Scope → List Char
  | channel => ['c', 'h', 'a', 'n', 'n', 'e', 'l', 's']
  | «private» => ['p', 'r', 'i', 'v', 'a', 't', 'e']

def logDirectory (root : List (List Char)) (network : List Char) (scope : Scope)
    (conversation : List Char) : Option (List (List Char)) := do
  let network ← pathComponent sha256 network
  let conversation ← pathComponent sha256 conversation
  pure (root ++ [network, scope.directory, conversation])

/-! ## Safe parts -/

/-- A part of a path that every system takes as a name. -/
structure SafeComponent (c : List Char) : Prop where
  ne_nil : c ≠ []
  size_le : size c ≤ componentLimit
  safe : ∀ ch ∈ c, ch ∉ forbidden ∧ isControl ch = false ∧ isBidiControl ch = false
  not_dots : ∃ ch ∈ c, ch ≠ '.'
  last : ∀ ch ∈ c.getLast?, ch ≠ '.' ∧ ch ≠ ' '
  device : isDeviceName (stem c) = false

variable {name s t kept : List Char} {ch : Char} {device dots : Bool} {index cut n : ℕ} {b : UInt8}

def escapedFrom (device dots : Bool) : ℕ → List Char → List Char
  | _, [] => []
  | index, ch :: chars =>
    written device dots index ch chars ++ escapedFrom device dots (index + 1) chars

theorem pushChars_spec (index : ℕ) (out kept : List Char) (hkept : kept <+: out)
    (hle : size kept ≤ componentLimit - shortenedSuffix) :
    (pushChars device dots index name out (size kept)).1 =
        out ++ escapedFrom device dots index name ∧
      ∃ kept', kept' <+: (pushChars device dots index name out (size kept)).1 ∧
        size kept' = (pushChars device dots index name out (size kept)).2 ∧
        size kept' ≤ componentLimit - shortenedSuffix := by
  induction name generalizing index out kept with
  | nil => exact ⟨(List.append_nil out).symm, kept, hkept, rfl, hle⟩
  | cons ch name ih =>
    rw [pushChars]
    split
    · next hfits =>
      obtain ⟨h, hcut⟩ := ih (index + 1) (out ++ written device dots index ch name) _
        List.prefix_rfl hfits
      exact ⟨by rw [h, escapedFrom, List.append_assoc], hcut⟩
    · obtain ⟨h, hcut⟩ := ih (index + 1) (out ++ written device dots index ch name) kept
        (hkept.trans (List.prefix_append _ _)) hle
      exact ⟨by rw [h, escapedFrom, List.append_assoc], hcut⟩

/-! ## Digits -/

theorem hex_char : ∀ n < 16, (Nat.digitChar n).toUpper ∉ ['.', ' ', '~'] ∧
    isUnsafe (Nat.digitChar n).toUpper = false ∧ isUnsafe (Nat.digitChar n) = false ∧
    Nat.digitChar n ∉ ['.', ' '] ∧ (Nat.digitChar n).utf8Size = 1 := by
  decide

theorem digitChar_injective : ∀ n < 16, ∀ m < 16, Nat.digitChar n = Nat.digitChar m → n = m := by
  decide

def hexValue (c : Char) : ℕ :=
  ((List.range 16).find? fun n => (Nat.digitChar n).toUpper == c).getD 0

theorem hexValue_digitChar : ∀ n < 16, hexValue (Nat.digitChar n).toUpper = n := by
  decide

theorem byte_digits (b : UInt8) : b.toNat / 16 < 16 ∧ b.toNat % 16 < 16 := by
  have := b.toNat_lt
  omega

def decode : List Char → List UInt8
  | [] => []
  | '%' :: a :: b :: s => UInt8.ofNat (16 * hexValue a + hexValue b) :: decode s
  | c :: s => String.utf8EncodeChar c ++ decode s

theorem decode_cons (hc : ch ≠ '%') : decode (ch :: s) = String.utf8EncodeChar ch ++ decode s := by
  rw [decode]
  intro a b rest h
  exact absurd h hc

theorem decode_pushEscaped :
    decode (pushEscaped ch ++ s) = String.utf8EncodeChar ch ++ decode s := by
  unfold pushEscaped
  induction String.utf8EncodeChar ch with
  | nil => rfl
  | cons b bs ih =>
    obtain ⟨hhigh, hlow⟩ := byte_digits b
    have hb : UInt8.ofNat (16 * (b.toNat / 16) + b.toNat % 16) = b := by
      rw [Nat.div_add_mod, UInt8.ofNat_toNat]
    rw [List.flatMap_cons, hexUpper, hexLower]
    simp only [List.map_cons, List.map_nil, List.cons_append, List.nil_append]
    rw [decode, hexValue_digitChar _ hhigh, hexValue_digitChar _ hlow, hb, ih]

/-! ## What is written -/

theorem plain_of_escapes (h : escapes device dots index ch s = false) : isUnsafe ch = false := by
  unfold escapes at h
  simp only [Bool.or_eq_false_iff] at h
  exact h.1.1.1

theorem ne_of_safe (h : isUnsafe ch = false) : ch ≠ '%' ∧ ch ≠ '~' := by
  unfold isUnsafe at h
  simp only [Bool.or_eq_false_iff, beq_eq_false_iff_ne] at h
  exact ⟨h.1.1.1.2, h.1.1.2⟩

theorem written_cases (device dots : Bool) (index : ℕ) (ch : Char) (s : List Char) :
    (escapes device dots index ch s = true ∧ written device dots index ch s = pushEscaped ch) ∨
      (escapes device dots index ch s = false ∧ written device dots index ch s = [ch]) := by
  unfold written
  cases h : escapes device dots index ch s with
  | true => exact .inl ⟨rfl, rfl⟩
  | false => exact .inr ⟨rfl, rfl⟩

theorem decode_escapedFrom : decode (escapedFrom device dots index name) = bytes name := by
  induction name generalizing index with
  | nil => rfl
  | cons ch name ih =>
    rw [escapedFrom]
    rcases written_cases device dots index ch name with ⟨-, hw⟩ | ⟨he, hw⟩
    · rw [hw, decode_pushEscaped, ih, bytes_cons]
    · rw [hw, List.singleton_append, decode_cons (ne_of_safe (plain_of_escapes he)).1, ih, bytes_cons]

theorem mem_pushEscaped {c : Char} (h : c ∈ pushEscaped ch) :
    c = '%' ∨ isUnsafe c = false ∧ c ≠ '.' ∧ c ≠ ' ' := by
  obtain ⟨b, -, hc⟩ := List.mem_flatMap.mp h
  obtain ⟨hhigh, hlow⟩ := byte_digits b
  simp only [hexUpper, hexLower, List.map_cons, List.map_nil, List.mem_cons, List.not_mem_nil,
    or_false] at hc
  rcases hc with rfl | rfl | rfl
  · exact .inl rfl
  · obtain ⟨hno, hsafe, -⟩ := hex_char _ hhigh
    simp only [List.mem_cons, List.not_mem_nil, or_false, not_or] at hno
    exact .inr ⟨hsafe, hno.1, hno.2.1⟩
  · obtain ⟨hno, hsafe, -⟩ := hex_char _ hlow
    simp only [List.mem_cons, List.not_mem_nil, or_false, not_or] at hno
    exact .inr ⟨hsafe, hno.1, hno.2.1⟩

theorem pushEscaped_eq_cons (ch : Char) : ∃ s, pushEscaped ch = '%' :: s := by
  obtain ⟨b, bs, h⟩ := List.exists_cons_of_ne_nil (@String.utf8EncodeChar_ne_nil ch)
  exact ⟨_, by rw [pushEscaped, h]; rfl⟩

theorem written_ne_nil : written device dots index ch s ≠ [] := by
  rcases written_cases device dots index ch s with ⟨-, hw⟩ | ⟨-, hw⟩
  · obtain ⟨t, ht⟩ := pushEscaped_eq_cons ch
    rw [hw, ht]
    exact List.cons_ne_nil _ _
  · rw [hw]
    exact List.cons_ne_nil _ _

theorem mem_escapedFrom {c : Char} (h : c ∈ escapedFrom device dots index name) :
    c = '%' ∨ isUnsafe c = false := by
  induction name generalizing index with
  | nil => cases h
  | cons ch name ih =>
    rw [escapedFrom, List.mem_append] at h
    rcases h with h | h
    · rcases written_cases device dots index ch name with ⟨-, hw⟩ | ⟨he, hw⟩
      · rw [hw] at h
        exact (mem_pushEscaped h).imp_right And.left
      · rw [hw, List.mem_singleton] at h
        exact .inr (h ▸ plain_of_escapes he)
    · exact ih h

theorem escapedFrom_ne_nil (hne : name ≠ []) : escapedFrom device dots index name ≠ [] := by
  obtain ⟨ch, name, rfl⟩ := List.exists_cons_of_ne_nil hne
  rw [escapedFrom]
  exact List.append_ne_nil_of_left_ne_nil written_ne_nil _

theorem getLast_escapedFrom {c : Char} (h : c ∈ (escapedFrom device dots index name).getLast?) :
    c ≠ '.' ∧ c ≠ ' ' := by
  induction name generalizing index with
  | nil => cases h
  | cons ch name ih =>
    rw [escapedFrom] at h
    rcases eq_or_ne name [] with rfl | hne
    · rw [escapedFrom, List.append_nil] at h
      rcases written_cases device dots index ch [] with ⟨-, hw⟩ | ⟨he, hw⟩
      · rw [hw] at h
        rcases mem_pushEscaped (List.mem_of_getLast? h) with rfl | ⟨-, hc⟩
        · decide
        · exact hc
      · rw [hw, List.getLast?_singleton, Option.mem_some] at h
        subst h
        unfold escapes at he
        simp only [Bool.or_eq_false_iff, List.isEmpty_nil, Bool.true_and,
          beq_eq_false_iff_ne] at he
        exact he.2
    · rw [List.getLast?_append_of_ne_nil _ (escapedFrom_ne_nil hne)] at h
      exact ih h

theorem exists_ne_dot (hne : name ≠ []) (hdots : dots = true ∨ ∃ ch ∈ name, ch ≠ '.') :
    ∃ c ∈ escapedFrom device dots index name, c ≠ '.' := by
  induction name generalizing index with
  | nil => exact absurd rfl hne
  | cons ch name ih =>
    rw [escapedFrom]
    rcases written_cases device dots index ch name with ⟨-, hw⟩ | ⟨he, hw⟩
    · obtain ⟨t, ht⟩ := pushEscaped_eq_cons ch
      exact ⟨'%', by rw [hw, ht]; simp, by decide⟩
    · by_cases hch : ch = '.'
      · have hrest : ∃ c ∈ name, c ≠ '.' := by
          rcases hdots with rfl | ⟨c, hc, hcd⟩
          · unfold escapes at he
            simp at he
          · rcases List.mem_cons.mp hc with rfl | hc
            · exact absurd hch hcd
            · exact ⟨c, hc, hcd⟩
        obtain ⟨c, hc, -⟩ := id hrest
        obtain ⟨c, hc, hcd⟩ := @ih (index + 1) (List.ne_nil_of_mem hc) (.inr hrest)
        exact ⟨c, List.mem_append_right _ hc, hcd⟩
      · exact ⟨ch, by rw [hw]; simp, hch⟩

/-! ## Device names -/

theorem mem_trimEnd {c : Char} (hc : isWhitespace c = false) (h : c ∈ s) : c ∈ trimEnd s := by
  have hsplit := @List.takeWhile_append_dropWhile _ isWhitespace s.reverse
  have hmem : c ∈ s.reverse := List.mem_reverse.mpr h
  rw [← hsplit, List.mem_append] at hmem
  unfold trimEnd
  rw [List.mem_reverse]
  refine hmem.resolve_left fun hw => ?_
  have := List.mem_takeWhile_imp hw
  rw [hc] at this
  cases this

theorem device_chars : ∀ l ∈ deviceNames ++ devicePorts ++ deviceNumbers, '%' ∉ l ∧ '~' ∉ l := by
  decide

theorem isDeviceName_of_mem {c : Char} (hc : c = '%' ∨ c = '~') (h : c ∈ s) :
    isDeviceName s = false := by
  have hwhite : isWhitespace c = false := by
    rcases hc with rfl | rfl <;> decide
  have hupper : c ∈ (trimEnd s).map Char.toUpper := by
    refine List.mem_map.mpr ⟨c, mem_trimEnd hwhite h, ?_⟩
    rcases hc with rfl | rfl <;> decide
  have hno {l : List Char} (hl : l ∈ deviceNames ++ devicePorts ++ deviceNumbers) : c ∉ l := by
    obtain ⟨hp, ht⟩ := device_chars l hl
    rcases hc with rfl | rfl
    · exact hp
    · exact ht
  unfold isDeviceName
  dsimp only
  generalize (trimEnd s).map Char.toUpper = upper at hupper
  rw [Bool.or_eq_false_iff]
  constructor
  · rw [← Bool.not_eq_true, List.contains_iff_mem]
    intro hmem
    exact hno (by simp [hmem]) hupper
  · rw [← Bool.not_eq_true, Option.any_eq_true]
    rintro ⟨port, hport, hnumber⟩
    rw [List.contains_iff_mem] at hnumber
    have hmem := List.mem_of_find?_eq_some hport
    have hpre := List.find?_some hport
    obtain ⟨number, rfl⟩ := List.isPrefixOf_iff_prefix.mp hpre
    rw [List.drop_left] at hnumber
    rcases List.mem_append.mp hupper with h | h
    · exact hno (by simp [hmem]) h
    · exact hno (by simp [hnumber]) h

theorem mem_stem_cons {c d : Char} (hd : d ≠ '.') : c ∈ stem (d :: s) ↔ c = d ∨ c ∈ stem s := by
  simp [stem, hd]

theorem stem_escapedFrom : '%' ∈ stem (escapedFrom device dots index name) ∨
    stem (escapedFrom device dots index name) = stem name := by
  induction name generalizing index with
  | nil => exact .inr rfl
  | cons ch name ih =>
    rw [escapedFrom]
    rcases written_cases device dots index ch name with ⟨-, hw⟩ | ⟨-, hw⟩
    · obtain ⟨t, ht⟩ := pushEscaped_eq_cons ch
      rw [hw, ht, List.cons_append]
      exact .inl ((mem_stem_cons (by decide)).mpr (.inl rfl))
    · rw [hw, List.singleton_append]
      by_cases hdot : ch = '.'
      · exact .inr (by simp [stem, hdot])
      · rcases @ih (index + 1) with h | h
        · exact .inl ((mem_stem_cons hdot).mpr (.inr h))
        · right
          unfold stem at h ⊢
          simp [hdot, h]

theorem isDeviceName_escapedFrom :
    isDeviceName (stem (escapedFrom (isDeviceName (stem name)) dots 0 name)) = false := by
  cases hdevice : isDeviceName (stem name) with
  | false =>
    have hstem : '%' ∈ stem (escapedFrom false dots 0 name) ∨
        stem (escapedFrom false dots 0 name) = stem name := stem_escapedFrom
    rcases hstem with h | h
    · exact isDeviceName_of_mem (.inl rfl) h
    · rw [h, hdevice]
  | true =>
    cases name with
    | nil => exact absurd hdevice (by decide)
    | cons ch name =>
      have he : escapes true dots 0 ch name = true := by
        unfold escapes
        simp
      obtain ⟨t, ht⟩ := pushEscaped_eq_cons ch
      rw [escapedFrom, written, if_pos he, ht, List.cons_append]
      exact isDeviceName_of_mem (.inl rfl) ((mem_stem_cons (by decide)).mpr (.inl rfl))

theorem isDeviceName_cut (hkept : kept <+: s) (h : isDeviceName (stem s) = false) :
    isDeviceName (stem (kept ++ '~' :: t)) = false := by
  unfold stem at h ⊢
  rw [List.takeWhile_append]
  split
  · next hall =>
    refine isDeviceName_of_mem (.inr rfl) ?_
    simp
  · next hdot =>
    obtain ⟨u, rfl⟩ := hkept
    rw [List.takeWhile_append, if_neg hdot] at h
    exact h

/-! ## The whole part -/

theorem size_flatMap_hexLower (bs : List UInt8) : size (bs.flatMap hexLower) = 2 * bs.length := by
  induction bs with
  | nil => rfl
  | cons b bs ih =>
    obtain ⟨hhigh, hlow⟩ := byte_digits b
    rw [List.flatMap_cons, size_append, ih, hexLower, size_cons, size_cons, size_nil,
      (hex_char _ hhigh).2.2.2.2, (hex_char _ hlow).2.2.2.2, List.length_cons]
    omega

theorem mem_hexLower {c : Char} {bs : List UInt8} (h : c ∈ bs.flatMap hexLower) :
    isUnsafe c = false ∧ c ≠ '.' ∧ c ≠ ' ' := by
  obtain ⟨b, -, hc⟩ := List.mem_flatMap.mp h
  obtain ⟨hhigh, hlow⟩ := byte_digits b
  simp only [hexLower, List.mem_cons, List.not_mem_nil, or_false] at hc
  rcases hc with rfl | rfl
  · obtain ⟨-, -, hsafe, hno, -⟩ := hex_char _ hhigh
    simp only [List.mem_cons, List.not_mem_nil, or_false, not_or] at hno
    exact ⟨hsafe, hno⟩
  · obtain ⟨-, -, hsafe, hno, -⟩ := hex_char _ hlow
    simp only [List.mem_cons, List.not_mem_nil, or_false, not_or] at hno
    exact ⟨hsafe, hno⟩

theorem flatMap_hexLower_injective {bs bs' : List UInt8}
    (h : bs.flatMap hexLower = bs'.flatMap hexLower) : bs = bs' := by
  induction bs generalizing bs' with
  | nil =>
    cases bs' with
    | nil => rfl
    | cons b bs' => cases h
  | cons b bs ih =>
    cases bs' with
    | nil => cases h
    | cons b' bs' =>
      simp only [List.flatMap_cons, hexLower, List.cons_append, List.nil_append,
        List.cons.injEq] at h
      obtain ⟨hhigh, hlow, hrest⟩ := h
      have hdiv := digitChar_injective _ (byte_digits b).1 _ (byte_digits b').1 hhigh
      have hmod := digitChar_injective _ (byte_digits b).2 _ (byte_digits b').2 hlow
      have hb : b.toNat = b'.toNat := by
        rw [← Nat.div_add_mod b.toNat 16, hdiv, hmod, Nat.div_add_mod]
      rw [UInt8.toNat_inj.mp hb, ih hrest]

theorem safe_of_isUnsafe {c : Char} (h : isUnsafe c = false ∨ c = '%' ∨ c = '~') :
    c ∉ forbidden ∧ isControl c = false ∧ isBidiControl c = false := by
  rcases h with h | rfl | rfl
  · unfold isUnsafe at h
    simp only [Bool.or_eq_false_iff] at h
    refine ⟨?_, h.1.2, h.2⟩
    rw [← List.contains_iff_mem, h.1.1.1.1]
    exact Bool.false_ne_true
  · decide
  · decide

theorem pathComponent_cases (sha256 : List UInt8 → Vector UInt8 32) (name : List Char) :
    (name = [] ∧ pathComponent sha256 name = some ['%', '0', '0']) ∨
    name ≠ [] ∧ ∃ device dots, device = isDeviceName (stem name) ∧
      (dots = true ∨ ∃ ch ∈ name, ch ≠ '.') ∧
      ((size (escapedFrom device dots 0 name) ≤ componentLimit ∧
        pathComponent sha256 name = some (escapedFrom device dots 0 name)) ∨
      ∃ kept, kept <+: escapedFrom device dots 0 name ∧
        size kept ≤ componentLimit - shortenedSuffix ∧ pathComponent sha256 name =
          some (kept ++ '~' :: ((sha256 (bytes name)).toList.take 8).flatMap hexLower)) := by
  rcases eq_or_ne name [] with rfl | hne
  · exact .inl ⟨rfl, rfl⟩
  · obtain ⟨hout, kept, hkept, hsize, hle⟩ := @pushChars_spec name (isDeviceName (stem name))
      (!name.isEmpty && name.all (· == '.')) 0 [] [] List.prefix_rfl (Nat.zero_le _)
    have hesc : escaped name = pushChars (isDeviceName (stem name))
        (!name.isEmpty && name.all (· == '.')) 0 name [] (size []) := rfl
    rw [← hesc] at hout hkept hsize
    rw [List.nil_append] at hout
    have hdots : (!name.isEmpty && name.all (· == '.')) = true ∨ ∃ ch ∈ name, ch ≠ '.' := by
      by_cases hall : ∃ ch ∈ name, ch ≠ '.'
      · exact .inr hall
      · left
        push Not at hall
        simpa [List.isEmpty_iff, hne] using hall
    refine .inr ⟨hne, _, _, rfl, hdots, ?_⟩
    have hwritten := @escapedFrom_ne_nil name (isDeviceName (stem name))
      (!name.isEmpty && name.all (· == '.')) 0 hne
    rw [← hout] at hwritten ⊢
    unfold pathComponent
    simp only
    rw [if_neg hwritten]
    split
    · refine .inr ⟨kept, hkept, hle, ?_⟩
      obtain ⟨rest, hrest⟩ := hkept
      rw [← hsize, ← hrest, split_append]
      rfl
    · next hlong => exact .inl ⟨by omega, rfl⟩

theorem tilde_not_mem : '~' ∉ escapedFrom device dots index name := by
  intro h
  rcases mem_escapedFrom h with h | h
  · exact absurd h (by decide)
  · exact (ne_of_safe h).2 rfl

theorem exists_pathComponent (sha256 : List UInt8 → Vector UInt8 32) (name : List Char) :
    ∃ c, pathComponent sha256 name = some c ∧ SafeComponent c := by
  rcases pathComponent_cases sha256 name with ⟨-, hc⟩ |
    ⟨hne, device, dots, hdevice, hdots, ⟨hsize, hc⟩ | ⟨kept, hkept, hsize, hc⟩⟩
  · refine ⟨_, hc, by decide, by decide, fun ch hch => ?_, ⟨'%', by simp, by decide⟩,
      fun ch hch => ?_, by decide⟩
    · simp only [List.mem_cons, List.not_mem_nil, or_false] at hch
      rcases hch with rfl | rfl | rfl
      · exact safe_of_isUnsafe (.inr (.inl rfl))
      · exact safe_of_isUnsafe (.inl (by decide))
      · exact safe_of_isUnsafe (.inl (by decide))
    · cases hch
      decide
  · refine ⟨_, hc, escapedFrom_ne_nil hne, hsize, fun ch hch => ?_, exists_ne_dot hne hdots,
      fun ch hch => getLast_escapedFrom hch, ?_⟩
    · rcases mem_escapedFrom hch with h | h
      · exact safe_of_isUnsafe (.inr (.inl h))
      · exact safe_of_isUnsafe (.inl h)
    · subst hdevice
      exact isDeviceName_escapedFrom
  · have hdigits : ((sha256 (bytes name)).toList.take 8).length = 8 := by simp
    refine ⟨_, hc, by simp, ?_, fun ch hch => ?_, ⟨'~', by simp, by decide⟩, fun ch hch => ?_, ?_⟩
    · rw [size_append, size_cons, size_flatMap_hexLower, hdigits]
      have htilde : '~'.utf8Size = 1 := rfl
      have hlimit : componentLimit = 200 := rfl
      have hsuffix : shortenedSuffix = 17 := rfl
      omega
    · rcases List.mem_append.mp hch with hch | hch
      · rcases mem_escapedFrom (hkept.subset hch) with h | h
        · exact safe_of_isUnsafe (.inr (.inl h))
        · exact safe_of_isUnsafe (.inl h)
      · rcases List.mem_cons.mp hch with rfl | hch
        · exact safe_of_isUnsafe (.inr (.inr rfl))
        · exact safe_of_isUnsafe (.inl (mem_hexLower hch).1)
    · have hnil : ((sha256 (bytes name)).toList.take 8).flatMap hexLower ≠ [] := by
        intro h
        have := size_flatMap_hexLower ((sha256 (bytes name)).toList.take 8)
        rw [h, hdigits] at this
        cases this
      rw [List.getLast?_append_of_ne_nil _ (List.cons_ne_nil _ _), ← List.singleton_append,
        List.getLast?_append_of_ne_nil _ hnil] at hch
      exact (mem_hexLower (List.mem_of_getLast? hch)).2
    · refine isDeviceName_cut hkept ?_
      subst hdevice
      exact isDeviceName_escapedFrom

theorem safe_directory (scope : Scope) : SafeComponent scope.directory := by
  have hall : (scope.directory.all fun ch => !isUnsafe ch && ch != '.' && ch != ' ') = true := by
    cases scope <;> rfl
  have hsafe : ∀ ch ∈ scope.directory, isUnsafe ch = false ∧ ch ≠ '.' ∧ ch ≠ ' ' := by
    intro ch hch
    simpa [and_assoc] using List.all_eq_true.mp hall ch hch
  have hne : scope.directory ≠ [] := by cases scope <;> decide
  obtain ⟨ch, hch⟩ := List.exists_mem_of_ne_nil _ hne
  refine ⟨hne, ?_, fun ch hch => safe_of_isUnsafe (.inl (hsafe ch hch).1),
    ⟨ch, hch, (hsafe ch hch).2.1⟩, fun ch hch => (hsafe ch (List.mem_of_getLast? hch)).2, ?_⟩
  · cases scope <;> decide
  · cases scope <;> rfl

theorem eq_behind_tilde {a b a' b' : List Char} (ha : '~' ∉ a) (ha' : '~' ∉ a')
    (h : a ++ '~' :: b = a' ++ '~' :: b') : b = b' := by
  rcases List.append_eq_append_iff.mp h with ⟨u, rfl, hu⟩ | ⟨u, rfl, hu⟩
  · cases u with
    | nil => exact (List.cons.inj hu).2
    | cons c u =>
      obtain ⟨rfl, -⟩ := List.cons.inj hu
      exact absurd (by simp) ha'
  · cases u with
    | nil => exact (List.cons.inj hu).2.symm
    | cons c u =>
      obtain ⟨rfl, -⟩ := List.cons.inj hu
      exact absurd (by simp) ha

theorem pathComponent_eq (sha256 : List UInt8 → Vector UInt8 32) (hs : s ≠ []) (ht : t ≠ [])
    (h : pathComponent sha256 s = pathComponent sha256 t) :
    s = t ∨ (sha256 (bytes s)).toList.take 8 = (sha256 (bytes t)).toList.take 8 := by
  rcases pathComponent_cases sha256 s with ⟨hnil, -⟩ |
    ⟨-, device, dots, -, -, hcs⟩
  · exact absurd hnil hs
  rcases pathComponent_cases sha256 t with ⟨hnil, -⟩ |
    ⟨-, device', dots', -, -, hct⟩
  · exact absurd hnil ht
  have htilde : ∀ kept b, '~' ∈ kept ++ '~' :: b := by simp
  rcases hcs with ⟨-, hc⟩ | ⟨kept, hkept, -, hc⟩
  · rcases hct with ⟨-, hc'⟩ | ⟨kept', -, -, hc'⟩
    · rw [hc, hc', Option.some.injEq] at h
      have hbytes := congrArg decode h
      rw [decode_escapedFrom, decode_escapedFrom] at hbytes
      exact .inl (bytes_injective hbytes)
    · rw [hc, hc', Option.some.injEq] at h
      have hmem := htilde kept' (((sha256 (bytes t)).toList.take 8).flatMap hexLower)
      rw [← h] at hmem
      exact absurd hmem tilde_not_mem
  · rcases hct with ⟨-, hc'⟩ | ⟨kept', hkept', -, hc'⟩
    · rw [hc, hc', Option.some.injEq] at h
      have hmem := htilde kept (((sha256 (bytes s)).toList.take 8).flatMap hexLower)
      rw [h] at hmem
      exact absurd hmem tilde_not_mem
    · rw [hc, hc', Option.some.injEq] at h
      refine .inr (flatMap_hexLower_injective (eq_behind_tilde ?_ ?_ h))
      · exact fun hmem => tilde_not_mem (hkept.subset hmem)
      · exact fun hmem => tilde_not_mem (hkept'.subset hmem)

/-- Logs stay below their root and apart from each other. Every name has a part of a path that is
safe on every system; the directory of a conversation is the root, the part of its network, that of
its scope and its own; and where no two names in use have one hash, two names that are not empty
have two parts, so that two conversations have two directories. -/
theorem log_paths_safe (sha256 : List UInt8 → Vector UInt8 32) :
    (∀ name, ∃ c, pathComponent sha256 name = some c ∧ SafeComponent c) ∧
    (∀ names : Set (List Char),
      Set.InjOn (fun name => (sha256 (bytes name)).toList.take 8) names →
        Set.InjOn (pathComponent sha256) (names \ {[]})) ∧
    (∀ root network scope conversation, ∃ a b, SafeComponent a ∧ SafeComponent b ∧
      SafeComponent scope.directory ∧
      logDirectory sha256 root network scope conversation =
        some (root ++ [a, scope.directory, b])) ∧
    ∀ names : Set (List Char),
      Set.InjOn (fun name => (sha256 (bytes name)).toList.take 8) names → ∀ root,
        ∀ n ∈ names \ {[]}, ∀ m ∈ names \ {[]}, ∀ n' ∈ names \ {[]}, ∀ m' ∈ names \ {[]},
          ∀ scope scope',
            logDirectory sha256 root n scope m = logDirectory sha256 root n' scope' m' →
              n = n' ∧ scope = scope' ∧ m = m' := by
  have hinj : ∀ names : Set (List Char),
      Set.InjOn (fun name => (sha256 (bytes name)).toList.take 8) names →
        Set.InjOn (pathComponent sha256) (names \ {[]}) := by
    rintro names hnames s ⟨hs, hsne⟩ t ⟨ht, htne⟩ h
    rcases pathComponent_eq sha256 hsne htne h with heq | heq
    · exact heq
    · exact hnames hs ht heq
  have hdir : ∀ root network scope conversation, ∃ a b, SafeComponent a ∧ SafeComponent b ∧
      pathComponent sha256 network = some a ∧ pathComponent sha256 conversation = some b ∧
      logDirectory sha256 root network scope conversation =
        some (root ++ [a, scope.directory, b]) := by
    intro root network scope conversation
    obtain ⟨a, ha, hsafe⟩ := exists_pathComponent sha256 network
    obtain ⟨b, hb, hsafe'⟩ := exists_pathComponent sha256 conversation
    exact ⟨a, b, hsafe, hsafe', ha, hb, by rw [logDirectory, ha, hb]; rfl⟩
  refine ⟨exists_pathComponent sha256, hinj, ?_, ?_⟩
  · intro root network scope conversation
    obtain ⟨a, b, ha, hb, -, -, h⟩ := hdir root network scope conversation
    exact ⟨a, b, ha, hb, safe_directory scope, h⟩
  · intro names hnames root n hn m hm n' hn' m' hm' scope scope' h
    obtain ⟨a, b, -, -, ha, hb, hd⟩ := hdir root n scope m
    obtain ⟨a', b', -, -, ha', hb', hd'⟩ := hdir root n' scope' m'
    rw [hd, hd', Option.some.injEq, List.append_cancel_left_eq] at h
    simp only [List.cons.injEq, and_true] at h
    obtain ⟨rfl, hscope, rfl⟩ := h
    refine ⟨hinj names hnames hn hn' (ha.trans ha'.symm), ?_,
      hinj names hnames hm hm' (hb.trans hb'.symm)⟩
    revert hscope
    cases scope <;> cases scope' <;> decide

end CayenChat.Storage
