import Mathlib

/-! # Text as the standard library reads it

The string operations the client takes from Rust's standard library, on the
characters of a string. Lengths are UTF-8 lengths, white space and control
characters are the Unicode classes.
-/

namespace CayenChat

/-- `str::len`: the length in bytes of the UTF-8 form. -/
def byteLen (s : String) : ℕ := (s.toList.map Char.utf8Size).sum

/-- `str::as_bytes`. -/
def utf8Bytes (s : String) : List UInt8 := s.toByteArray.data.toList

/-- `str::from_utf8`. -/
def fromUtf8 (bytes : List UInt8) : Option String := String.fromUTF8? ⟨bytes.toArray⟩

/-- `char::is_whitespace`. -/
def isWhitespace (c : Char) : Bool :=
  let n := c.toNat
  (9 ≤ n && n ≤ 13) || n == 0x20 || n == 0x85 || n == 0xA0 || n == 0x1680 ||
    (0x2000 ≤ n && n ≤ 0x200A) || n == 0x2028 || n == 0x2029 || n == 0x202F ||
    n == 0x205F || n == 0x3000

/-- `char::is_control`. -/
def isControl (c : Char) : Bool :=
  let n := c.toNat
  n ≤ 0x1F || (0x7F ≤ n && n ≤ 0x9F)

/-- `u8::is_ascii_graphic` of every byte. -/
def asciiGraphic (s : String) : Bool := s.toList.all fun c => 0x21 ≤ c.toNat && c.toNat ≤ 0x7E

/-- `str::is_ascii`. -/
def isAscii (s : String) : Bool := s.toList.all fun c => c.toNat ≤ 0x7F

/-- `str::to_ascii_uppercase`. -/
def toAsciiUppercase (s : String) : String := String.ofList (s.toList.map Char.toUpper)

/-- `str::to_ascii_lowercase`. -/
def toAsciiLowercase (s : String) : String := String.ofList (s.toList.map Char.toLower)

/-- `str::eq_ignore_ascii_case`. -/
def eqIgnoreAsciiCase (a b : String) : Bool :=
  a.toList.map Char.toLower == b.toList.map Char.toLower

/-- `str::strip_prefix` with a character. -/
def stripFirst (c : Char) (s : String) : Option String :=
  match s.toList with
  | [] => none
  | d :: rest => if d = c then some (String.ofList rest) else none

/-- `str::strip_prefix` with a string. -/
def stripStart (p s : String) : Option String :=
  if p.toList.isPrefixOf s.toList then some (String.ofList (s.toList.drop p.toList.length)) else none

/-- `str::starts_with` with a string. -/
def startsWith (p s : String) : Bool := p.toList.isPrefixOf s.toList

/-- `str::replace` of a character. -/
def replaceChar (c : Char) (new s : String) : String :=
  String.ofList (s.toList.flatMap fun d => if d = c then new.toList else [d])

/-- `str::starts_with` with a set of characters. -/
def startsWithAny (cs : List Char) (s : String) : Bool :=
  match s.toList with
  | [] => false
  | d :: _ => cs.contains d

/-- `str::trim_start_matches` with a set of characters. -/
def trimStartMatches (cs : List Char) (s : String) : String :=
  String.ofList (s.toList.dropWhile cs.contains)

/-- `str::trim`. -/
def trim (s : String) : String :=
  String.ofList ((s.toList.dropWhile isWhitespace).reverse.dropWhile isWhitespace).reverse

theorem dropWhile_eq_self {cs : List Char} (h : ∀ c ∈ cs, isWhitespace c = false) :
    cs.dropWhile isWhitespace = cs := by
  cases cs with
  | nil => rfl
  | cons c cs => rw [List.dropWhile_cons_of_neg (by simp [h c List.mem_cons_self])]

theorem trim_eq_self {s : String} (h : ∀ c ∈ s.toList, isWhitespace c = false) : trim s = s := by
  have hreverse : ∀ c ∈ s.toList.reverse, isWhitespace c = false := by simpa using h
  rw [trim, dropWhile_eq_self h, dropWhile_eq_self hreverse, List.reverse_reverse,
    String.ofList_toList]

/-- `str::split` at a character. -/
def splitChar (c : Char) (s : String) : List String :=
  (s.toList.splitOnP (· == c)).map String.ofList

/-- `str::split_whitespace`. -/
def splitWhitespace (s : String) : List String :=
  ((s.toList.splitOnP isWhitespace).filter (!·.isEmpty)).map String.ofList

/-- `str::split_once` at a character. -/
def splitOnce (c : Char) (s : String) : Option (String × String) :=
  match s.toList.span (· != c) with
  | (_, []) => none
  | (before, _ :: after) => some (String.ofList before, String.ofList after)

/-- `str::strip_suffix` with a character. -/
def stripLast (c : Char) (s : String) : Option String :=
  if s.toList.getLast? = some c then some (String.ofList s.toList.dropLast) else none

/-- `str::contains` with a set of characters. -/
def containsAny (cs : List Char) (s : String) : Bool := s.toList.any cs.contains

/-- `[T]::join` of strings. -/
def joinWith (sep : String) : List String → String
  | [] => ""
  | [s] => s
  | s :: ss => s ++ sep ++ joinWith sep ss

private def replaceFirstChars (p new : List Char) : List Char → List Char
  | [] => []
  | c :: cs =>
    if p.isPrefixOf (c :: cs) then new ++ (c :: cs).drop p.length
    else c :: replaceFirstChars p new cs

/-- `str::replacen` of one occurrence of a nonempty pattern. -/
def replaceFirst (p new s : String) : String :=
  String.ofList (replaceFirstChars p.toList new.toList s.toList)

/-- `str::parse` of an unsigned number of at most `bound`. -/
def parseUnsigned (bound : ℕ) (s : String) : Option ℕ :=
  let digits := (stripFirst '+' s).getD s
  if digits.toList ≠ [] ∧ digits.toList.all Char.isDigit then
    let n := digits.toList.foldl (fun n c => 10 * n + (c.toNat - '0'.toNat)) 0
    if n ≤ bound then some n else none
  else none

@[simp] theorem byteLen_append (s t : String) : byteLen (s ++ t) = byteLen s + byteLen t := by
  simp [byteLen]

theorem byteLen_ofList (l : List Char) : byteLen (String.ofList l) = (l.map Char.utf8Size).sum := by
  rw [byteLen, String.toList_ofList]

theorem length_le_byteLen (s : String) : s.toList.length ≤ byteLen s := by
  unfold byteLen
  induction s.toList with
  | nil => exact Nat.le_refl 0
  | cons c l ih =>
    have := c.utf8Size_pos
    rw [List.length_cons, List.map_cons, List.sum_cons]
    omega

theorem utf8Size_of_ascii {c : Char} (h : c.toNat ≤ 0x7F) : c.utf8Size = 1 :=
  Char.utf8Size_eq_one_iff.mpr (UInt32.le_iff_toNat_le.mpr h)

theorem byteLen_of_ascii {l : List Char} (h : ∀ c ∈ l, c.toNat ≤ 0x7F) :
    byteLen (String.ofList l) = l.length := by
  rw [byteLen_ofList]
  induction l with
  | nil => rfl
  | cons c l ih =>
    rw [List.map_cons, List.sum_cons, utf8Size_of_ascii (h c (List.mem_cons_self ..)),
      ih fun d hd => h d (List.mem_cons_of_mem _ hd), List.length_cons, Nat.add_comm]

theorem stripFirst_eq_some {c : Char} {s r : String} :
    stripFirst c s = some r ↔ s.toList = c :: r.toList := by
  unfold stripFirst
  split
  · simp_all
  · rename_i d rest h
    split_ifs with hd
    · subst hd
      rw [h, Option.some.injEq, List.cons.injEq]
      exact ⟨fun h => ⟨rfl, by simp [← h]⟩, fun h => by rw [h.2, String.ofList_toList]⟩
    · simp [h, hd]

theorem stripFirst_unique {c d : Char} {s r r' : String} (h : stripFirst c s = some r)
    (h' : stripFirst d s = some r') : c = d ∧ r = r' := by
  rw [stripFirst_eq_some] at h h'
  rw [h, List.cons.injEq] at h'
  exact ⟨h'.1, String.toList_inj.mp h'.2⟩

@[simp] theorem stripFirst_append (c : Char) (r : String) :
    stripFirst c (String.ofList [c] ++ r) = some r := by
  rw [stripFirst_eq_some]; simp

example : splitWhitespace " batch  draft/chathistory " = ["batch", "draft/chathistory"] := by
  decide

example : replaceFirst "for *" "targets" "History for * is" = "History targets is" := by decide

example : splitOnce '=' "sasl=PLAIN,EXTERNAL" = some ("sasl", "PLAIN,EXTERNAL") := by decide

end CayenChat

/-! ## Credentials sent to services

Text sent to a service that takes passwords is not shown or kept.
-/

namespace CayenChat

def isSecretServiceCommand (command : String) : Bool :=
  ["IDENTIFY", "ID", "LOGIN", "AUTH", "REGISTER", "GHOST", "RECOVER", "RELEASE", "SET", "NEWPASS",
    "PASS"].contains (toAsciiUppercase command)

/-- Whether a target is a service that takes passwords, also as `nick@server`. -/
def isCredentialService (target : String) : Bool :=
  ["NICKSERV", "CHANSERV", "USERSERV", "Q", "X", "AUTHSERV"].contains
    (toAsciiUppercase ((splitChar '@' target).headD target))

def isServiceSecret (target body : String) : Bool :=
  isCredentialService target && (splitWhitespace body).head?.any isSecretServiceCommand

def echoText (target text : String) : String :=
  if isServiceSecret target text then "[redacted]" else text

def actionText (text : String) : Option String :=
  (stripStart "\x01ACTION " text).map fun action => (stripLast (Char.ofNat 1) action).getD action

def isCtcp (text : String) : Bool := (stripFirst (Char.ofNat 1) text).isSome

example : echoText "NickServ@services" "identify secret" = "[redacted]" := by decide
example : actionText "\x01ACTION waves\x01" = some "waves" := by decide

end CayenChat

/-! ## Text from others, made plain

Formatting codes of received text are removed before it is shown in a log.
-/

namespace CayenChat

def isFormattingCode (c : Char) : Bool :=
  [0x01, 0x02, 0x03, 0x0F, 0x11, 0x16, 0x1D, 0x1E, 0x1F].contains c.toNat

def skipDigits (cs : List Char) : List Char := cs.drop (min 2 (cs.takeWhile Char.isDigit).length)

/-- The characters after a color: digits, and a second color behind a comma. -/
def skipColor (cs : List Char) : List Char :=
  let rest := skipDigits cs
  if rest.length = cs.length then rest
  else
    match rest with
    | ',' :: d :: more => if d.isDigit then skipDigits (d :: more) else rest
    | _ => rest

theorem length_skipDigits_le (cs : List Char) : (skipDigits cs).length ≤ cs.length := by
  rw [skipDigits, List.length_drop]
  omega

theorem length_skipColor_le (cs : List Char) : (skipColor cs).length ≤ cs.length := by
  have h := length_skipDigits_le cs
  unfold skipColor
  dsimp only
  split
  · exact h
  · split
    · rename_i d more hm
      split
      · have hd := length_skipDigits_le (d :: more)
        rw [hm, List.length_cons] at h
        omega
      · exact h
    · exact h

/-- Every character but formatting codes. -/
def plainChars : List Char → List Char
  | [] => []
  | c :: cs =>
    if c.toNat = 3 then plainChars (skipColor cs)
    else if isFormattingCode c then plainChars cs
    else c :: plainChars cs
termination_by cs => cs.length
decreasing_by
  · have := length_skipColor_le cs
    simp only [List.length_cons]
    omega
  · simp
  · simp

def stripFormatting (text : String) : String := String.ofList (plainChars text.toList)

end CayenChat
