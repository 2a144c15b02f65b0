import CayenChat.Wire.Text

/-! # Nicknames and channel names

Names are compared as the server folds them. Nicknames always use the
RFC 1459 mapping, channel names the mapping of the network.
-/

namespace CayenChat

/-- How a server folds names for comparison. -/
inductive CaseMapping | ascii | rfc1459Strict | rfc1459
  deriving DecidableEq, Repr

namespace CaseMapping

/-- The mapping a server uses when it advertises nothing. -/
instance : Inhabited CaseMapping := ⟨rfc1459⟩

/-- The mapping named by a `CASEMAPPING` value. -/
def parse (value : String) : CaseMapping :=
  if eqIgnoreAsciiCase value "rfc1459" then rfc1459
  else if eqIgnoreAsciiCase value "rfc1459-strict" then rfc1459Strict
  else ascii

/-- A character in its folded form. -/
def foldChar : CaseMapping → Char → Char
  | ascii, c => c.toLower
  | _, '[' => '{'
  | _, ']' => '}'
  | _, '\\' => '|'
  | rfc1459, '~' => '^'
  | _, c => c.toLower

def fold (m : CaseMapping) (name : String) : String :=
  String.ofList (name.toList.map m.foldChar)

def same (m : CaseMapping) (left right : String) : Bool :=
  byteLen left == byteLen right && left.toList.map m.foldChar == right.toList.map m.foldChar

theorem utf8Size_toLower (c : Char) : c.toLower.utf8Size = c.utf8Size := by
  unfold Char.toLower
  split_ifs with h
  · have hz : c.val.toNat ≤ 90 := UInt32.le_iff_toNat_le.mp h.2
    have hd : ('a'.val - 'A'.val).toNat = 32 := rfl
    have hm : (127 : UInt32).toNat = 127 := rfl
    have hl : c.val + ('a'.val - 'A'.val) ≤ 127 := by
      rw [UInt32.le_iff_toNat_le, UInt32.toNat_add, hd]
      omega
    have hc : c.val ≤ 127 := by rw [UInt32.le_iff_toNat_le]; omega
    rw [Char.utf8Size_eq_one_iff.mpr hc]
    exact Char.utf8Size_eq_one_iff.mpr hl
  · rfl

theorem utf8Size_foldChar (m : CaseMapping) (c : Char) : (m.foldChar c).utf8Size = c.utf8Size := by
  unfold foldChar
  split <;> first | exact utf8Size_toLower _ | rfl

theorem byteLen_fold (m : CaseMapping) (name : String) : byteLen (m.fold name) = byteLen name := by
  simp [byteLen, fold, Function.comp_def, utf8Size_foldChar]

theorem same_iff {m : CaseMapping} {left right : String} :
    m.same left right = true ↔ m.fold left = m.fold right := by
  simp only [same, Bool.and_eq_true, beq_iff_eq]
  constructor
  · rintro ⟨_, h⟩; rw [fold, fold, h]
  · intro h
    refine ⟨by rw [← byteLen_fold m left, h, byteLen_fold], ?_⟩
    simpa [fold] using congrArg String.toList h

@[simp] theorem same_self (m : CaseMapping) (name : String) : m.same name name = true :=
  same_iff.mpr rfl

theorem same_comm {m : CaseMapping} {left right : String} :
    m.same left right = m.same right left := by
  rw [Bool.eq_iff_iff, same_iff, same_iff, eq_comm]

theorem foldChar_cases (m : CaseMapping) (c : Char) :
    m.foldChar c = c ∨ (65 ≤ c.toNat ∧ c.toNat ≤ 126 ∧
      65 ≤ (m.foldChar c).toNat ∧ (m.foldChar c).toNat ≤ 126) := by
  have hl : c.toLower = c ∨ (65 ≤ c.toNat ∧ c.toNat ≤ 126 ∧
      65 ≤ c.toLower.toNat ∧ c.toLower.toNat ≤ 126) := by
    unfold Char.toLower
    split_ifs with h
    · right
      have hz : c.val.toNat ≤ 90 := UInt32.le_iff_toNat_le.mp h.2
      have ha : 65 ≤ c.val.toNat := UInt32.le_iff_toNat_le.mp h.1
      have hd : ('a'.val - 'A'.val).toNat = 32 := rfl
      have hv : (c.val + ('a'.val - 'A'.val)).toNat = c.val.toNat + 32 := by
        rw [UInt32.toNat_add, hd]
        omega
      refine ⟨ha, by unfold Char.toNat; omega, ?_, ?_⟩ <;>
      · unfold Char.toNat
        dsimp only
        omega
    · exact Or.inl rfl
  unfold foldChar
  split
  · exact hl
  · exact Or.inr (by decide)
  · exact Or.inr (by decide)
  · exact Or.inr (by decide)
  · exact Or.inr (by decide)
  · exact hl

/-- What holds of no character from `A` to `~` holds of a folded character exactly when it does of
the character. -/
theorem foldChar_eq (m : CaseMapping) {P : Char → Bool}
    (hP : ∀ c : Char, 65 ≤ c.toNat → c.toNat ≤ 126 → P c = false) (c : Char) :
    P (m.foldChar c) = P c := by
  rcases m.foldChar_cases c with h | ⟨h₁, h₂, h₃, h₄⟩
  · rw [h]
  · rw [hP _ h₁ h₂, hP _ h₃ h₄]

theorem startsWithAny_fold (m : CaseMapping) {cs : List Char}
    (hcs : ∀ c ∈ cs, c.toNat < 65) (name : String) :
    startsWithAny cs (m.fold name) = startsWithAny cs name := by
  have hP (c : Char) (h : 65 ≤ c.toNat) (_ : c.toNat ≤ 126) : cs.contains c = false := by
    rw [Bool.eq_false_iff, ne_eq, List.contains_iff_mem]
    exact fun hc => Nat.not_lt.mpr h (hcs c hc)
  unfold startsWithAny fold
  rw [String.toList_ofList]
  cases name.toList with
  | nil => rfl
  | cons c rest => exact m.foldChar_eq hP c

theorem any_fold (m : CaseMapping) {P : Char → Bool}
    (hP : ∀ c : Char, 65 ≤ c.toNat → c.toNat ≤ 126 → P c = false) (name : String) :
    (m.fold name).toList.any P = name.toList.any P := by
  rw [fold, String.toList_ofList, List.any_map]
  exact congrArg _ (funext (m.foldChar_eq hP))

example : rfc1459.same "#Foo[1]\\~" "#foo{1}|^" = true := by decide
example : ascii.same "#foo[1]" "#foo{1}" = false := by decide

end CaseMapping

def nicknameKey (nickname : String) : String := CaseMapping.rfc1459.fold nickname

def sameNickname (left right : String) : Bool := CaseMapping.rfc1459.same left right

theorem sameNickname_iff {left right : String} :
    sameNickname left right = true ↔ nicknameKey left = nicknameKey right :=
  CaseMapping.same_iff

def validChannel (value : String) : Bool :=
  startsWithAny ['#', '&', '!'] value && decide (1 < byteLen value) &&
    !value.toList.any fun c => isWhitespace c || isControl c || c == ','

theorem validChannel_fold (m : CaseMapping) (name : String) :
    validChannel (m.fold name) = validChannel name := by
  have hP (c : Char) (h : 65 ≤ c.toNat) (h' : c.toNat ≤ 126) :
      (isWhitespace c || isControl c || c == ',') = false := by
    have hc : c ≠ ',' := by
      rintro rfl
      exact absurd h (by decide)
    simp only [isWhitespace, isControl, Bool.or_eq_false_iff, Bool.and_eq_false_iff,
      decide_eq_false_iff_not, beq_eq_false_iff_ne, ne_eq, hc, not_false_eq_true, and_true]
    omega
  rw [validChannel, validChannel, m.startsWithAny_fold (by simp), CaseMapping.byteLen_fold,
    m.any_fold hP]

def validNickname (value : String) : Bool :=
  value != "" && !startsWithAny ['#', '&', '!', '~', '@', '%', '+'] value &&
    !value.toList.any fun c => isWhitespace c || isControl c || c == ',' || c == ':'

end CayenChat
