import Mathlib
import CayenChat.Wire.Message

/-! # Message tags

Lookups in the parsed tags: the last occurrence of a key wins and an empty
value equals a missing one. Times are counted in milliseconds from 1970.
-/

namespace CayenChat

abbrev Instant := ℕ

abbrev SystemTime := ℤ

namespace Tags

def maxTagBytes : ℕ := 8191

def maxBatchReferenceBytes : ℕ := 64

/-- Whether a batch opened as `BATCH +reference` is followed. -/
def followedBatch (reference : String) : Bool :=
  reference != "" && decide (byteLen reference ≤ maxBatchReferenceBytes)

def escapedLen (value : String) : ℕ :=
  (value.toList.map fun c => if c ∈ [';', ' ', '\\', '\r', '\n'] then 2 else c.utf8Size).sum

/-- Size of the tag section as it would appear on the wire. -/
def tagBytes (tags : List Tag) : ℕ :=
  if tags = [] then 0
  else
    (tags.map fun tag => byteLen tag.key +
      match tag.value with
      | some value => if value = "" then 0 else 1 + escapedLen value
      | none => 0).sum + (tags.length - 1) + 2

/-- The value of a key, or `none` when absent, empty, over the size limit or undecodable. -/
def tagValue (m : IrcMessage) (key : String) : Option String :=
  match m.tags with
  | none => none
  | some tags =>
    if maxTagBytes < tagBytes tags then none
    else
      match tags.reverse.find? (·.key == key) with
      | some ⟨_, some value⟩ =>
        if value = "" ∨ value.toList.contains (Char.ofNat 0xFFFD) then none else some value
      | _ => none

def hasTag (m : IrcMessage) (key : String) : Bool :=
  match m.tags with
  | none => false
  | some tags => decide (tagBytes tags ≤ maxTagBytes) && tags.any (·.key == key)

def msgid (m : IrcMessage) : Option String := tagValue m "msgid"

def account (m : IrcMessage) : Option String := (tagValue m "account").filter (· != "*")

def isLeap (year : ℕ) : Bool := (year % 4 == 0 && year % 100 != 0) || year % 400 == 0

def daysInMonth (year month : ℕ) : ℕ :=
  match month with
  | 2 => if isLeap year then 29 else 28
  | 4 | 6 | 9 | 11 => 30
  | _ => 31

/-- Days since 1970-01-01 for a proleptic Gregorian date from 1970 on. -/
def daysFromCivil (year month day : ℕ) : ℕ :=
  let year := if month ≤ 2 then year - 1 else year
  let era := year / 400
  let yearOfEra := year - era * 400
  let monthIndex := (month + 9) % 12
  let dayOfYear := (153 * monthIndex + 2) / 5 + day - 1
  let dayOfEra := yearOfEra * 365 + yearOfEra / 4 - yearOfEra / 100 + dayOfYear
  era * 146097 + dayOfEra - 719468

def digits (bytes : List UInt8) (start stop : ℕ) : Option ℕ :=
  let slice := (bytes.take stop).drop start
  if slice.length = stop - start ∧ slice ≠ [] ∧ slice.all (fun b => 48 ≤ b && b ≤ 57) then
    some (slice.foldl (fun n (b : UInt8) => 10 * n + (b.toNat - 48)) 0)
  else none

/-- The milliseconds after the seconds: a dot and digits, or nothing. -/
def fractionMillis : List UInt8 → Option ℕ
  | [] => some 0
  | 46 :: fraction =>
    if fraction ≠ [] ∧ fraction.all (fun b => 48 ≤ b && b ≤ 57) then
      some (((fraction ++ [48, 48, 48]).take 3).foldl (fun n (b : UInt8) => 10 * n + (b.toNat - 48)) 0)
    else none
  | _ => none

/-- Parses `YYYY-MM-DDThh:mm:ss.sssZ` in UTC. -/
def parseServerTime (value : String) : Option SystemTime := do
  let bytes := value.toByteArray.data.toList
  guard (20 ≤ bytes.length ∧ bytes[4]? = some 45 ∧ bytes[7]? = some 45 ∧ bytes[10]? = some 84 ∧
    bytes[13]? = some 58 ∧ bytes[16]? = some 58 ∧ bytes.getLast? = some 90)
  let year ← digits bytes 0 4
  let month ← digits bytes 5 7
  let day ← digits bytes 8 10
  let hour ← digits bytes 11 13
  let minute ← digits bytes 14 16
  let second ← (digits bytes 17 19).map (min 59)
  let millis ← fractionMillis ((bytes.take (bytes.length - 1)).drop 19)
  guard (1970 ≤ year ∧ 1 ≤ month ∧ month ≤ 12 ∧ day ≠ 0 ∧ day ≤ daysInMonth year month ∧
    hour ≤ 23 ∧ minute ≤ 59)
  let seconds := daysFromCivil year month day * 86400 + hour * 3600 + minute * 60 + second
  return ((seconds * 1000 + millis : ℕ) : ℤ)

/-- The `time` tag as an instant, when server-time is enabled on this connection. -/
def serverTime (m : IrcMessage) (enabled : Bool) : Option SystemTime :=
  if enabled then (tagValue m "time").bind parseServerTime else none

def padded (width n : ℕ) : String :=
  let digits := toString n
  String.ofList (List.replicate (width - digits.length) '0') ++ digits

/-- Formats an instant as server-time does, in UTC with milliseconds. -/
def formatServerTime (time : SystemTime) : String :=
  let days := time / 86400000
  let rest := (time % 86400000).toNat
  let z := days + 719468
  let era := z / 146097
  let doe := (z % 146097).toNat
  let yoe := (doe - doe / 1460 + doe / 36524 - doe / 146096) / 365
  let doy := doe - (365 * yoe + yoe / 4 - yoe / 100)
  let mp := (5 * doy + 2) / 153
  let day := doy - (153 * mp + 2) / 5 + 1
  let month := if mp < 10 then mp + 3 else mp - 9
  let year : ℤ := yoe + era * 400 + (if month ≤ 2 then 1 else 0)
  let sign := if year < 0 then "-" else if 9999 < year then "+" else ""
  sign ++ padded 4 year.natAbs ++ "-" ++ padded 2 month ++ "-" ++ padded 2 day ++ "T" ++
    padded 2 (rest / 3600000) ++ ":" ++ padded 2 (rest / 60000 % 60) ++ ":" ++
    padded 2 (rest / 1000 % 60) ++ "." ++ padded 3 (rest % 1000) ++ "Z"

example : parseServerTime "2026-09-28T10:00:00.000Z" = some 1790589600000 := by decide
example : formatServerTime 1790589600000 = "2026-09-28T10:00:00.000Z" := by decide

end Tags

def IrcMessage.batchTag (m : IrcMessage) : Option String := Tags.tagValue m "batch"

end CayenChat
