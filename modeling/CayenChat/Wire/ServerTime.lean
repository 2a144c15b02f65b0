import CayenChat.Lib.Calendar
import CayenChat.Lib.Digits

/-! # The time of a message

Reading `YYYY-MM-DDThh:mm:ss.sssZ`, byte by byte and with checked arithmetic,
against the texts that name an instant and the days counted one by one from
1970-01-01.
-/

namespace CayenChat.ServerTime

open Decimal Calendar

/-- How a reading ends without a value: the text is not accepted, or an index or a number is out of
range. -/
inductive Stop where
  | rejected
  | panicked
  deriving DecidableEq

def u32 (n : ℕ) : Except Stop ℕ := if n < 2 ^ 32 then .ok n else .error .panicked

def u64 (n : ℕ) : Except Stop ℕ := if n < 2 ^ 64 then .ok n else .error .panicked

def minus (m n : ℕ) : Except Stop ℕ := if n ≤ m then .ok (m - n) else .error .panicked

def index (bytes : List UInt8) (i : ℕ) : Except Stop UInt8 :=
  match bytes[i]? with
  | some byte => .ok byte
  | none => .error .panicked

def slice (bytes : List UInt8) (start stop : ℕ) : Except Stop (List UInt8) :=
  if start ≤ stop ∧ stop ≤ bytes.length then .ok ((bytes.take stop).drop start)
  else .error .panicked

def expect (bytes : List UInt8) (i : ℕ) (byte : UInt8) : Except Stop Unit := do
  if (← index bytes i) = byte then .ok () else .error .rejected

def number (bytes : List UInt8) : Except Stop ℕ :=
  bytes.foldlM (fun acc byte => do u32 ((← u32 (acc * 10)) + (← minus byte.toNat 48))) 0

def digits (bytes : List UInt8) (start stop : ℕ) : Except Stop ℕ :=
  if stop ≤ bytes.length then
    let slice := (bytes.take stop).drop start
    if slice.isEmpty || !slice.all isDigit then .error .rejected else number slice
  else .error .rejected

def fractionMillis : List UInt8 → Except Stop ℕ
  | [] => .ok 0
  | 46 :: fraction =>
    if !fraction.isEmpty && fraction.all isDigit then number ((fraction ++ [48, 48, 48]).take 3)
    else .error .rejected
  | _ => .error .rejected

def isLeap (year : ℕ) : Bool := year % 4 == 0 && year % 100 != 0 || year % 400 == 0

def daysInMonth (year month : ℕ) : ℕ :=
  match month with
  | 2 => if isLeap year then 29 else 28
  | 4 | 6 | 9 | 11 => 30
  | _ => 31

def daysFromCivil (year month day : ℕ) : Except Stop ℕ := do
  let year ← (if month ≤ 2 then minus year 1 else .ok year)
  let era := year / 400
  let yearOfEra ← minus year (← u32 (era * 400))
  let monthIndex := (← u32 (month + 9)) % 12
  let dayOfYear ← minus (← u32 ((← u32 ((← u32 (153 * monthIndex)) + 2)) / 5 + day)) 1
  let yearDays ← minus (← u32 ((← u32 (yearOfEra * 365)) + yearOfEra / 4)) (yearOfEra / 100)
  let dayOfEra ← u32 (yearDays + dayOfYear)
  minus (← u64 ((← u64 (era * 146097)) + dayOfEra)) 719468

def unixTime (millis : ℕ) : Except Stop ℕ :=
  if millis / 1000 < 2 ^ 63 then .ok millis else .error .rejected

/-- The instant of fields that are checked first. -/
def instant (year month day hour minute second millis : ℕ) : Except Stop ℕ :=
  if year < 1970 ∨ ¬ (1 ≤ month ∧ month ≤ 12) ∨ day = 0 ∨ daysInMonth year month < day ∨
      23 < hour ∨ 59 < minute then .error .rejected
  else do
    let days ← daysFromCivil year month day
    let time ← u32 ((← u32 ((← u32 (hour * 3600)) + (← u32 (minute * 60)))) + second)
    let seconds ← u64 ((← u64 (days * 86400)) + time)
    unixTime (← u64 ((← u64 (seconds * 1000)) + millis))

def parseServerTime (bytes : List UInt8) : Except Stop ℕ :=
  if bytes.length < 20 then .error .rejected
  else do
    expect bytes 4 45
    expect bytes 7 45
    expect bytes 10 84
    expect bytes 13 58
    expect bytes 16 58
    match bytes.getLast? with
    | some last => if last = 90 then .ok () else .error .rejected
    | none => .error .rejected
    let year ← digits bytes 0 4
    let month ← digits bytes 5 7
    let day ← digits bytes 8 10
    let hour ← digits bytes 11 13
    let minute ← digits bytes 14 16
    let second := min (← digits bytes 17 19) 59
    let millis ← fractionMillis (← slice bytes 19 (← minus bytes.length 1))
    instant year month day hour minute second millis

/-! ## Spelled fields -/

/-- Fields that can be written in their fixed numbers of digits, with any fraction of the second. -/
structure Stamp where
  year : ℕ
  month : ℕ
  day : ℕ
  hour : ℕ
  minute : ℕ
  second : ℕ
  fraction : List (Fin 10)
  year_lt : year < 10 ^ 4
  month_lt : month < 10 ^ 2
  day_lt : day < 10 ^ 2
  hour_lt : hour < 10 ^ 2
  minute_lt : minute < 10 ^ 2
  second_lt : second < 10 ^ 2

def digitBytes (fraction : List (Fin 10)) : List UInt8 := fraction.map fun d => digit d.val

def fractionText : List (Fin 10) → List UInt8
  | [] => []
  | fraction => 46 :: digitBytes fraction

def thousandths (fraction : List (Fin 10)) : ℕ :=
  ((fraction.map Fin.val ++ [0, 0, 0]).take 3).foldl (fun acc d => acc * 10 + d) 0

namespace Stamp

def spell (stamp : Stamp) : List UInt8 :=
  write 4 stamp.year ++ 45 :: (write 2 stamp.month ++ 45 :: (write 2 stamp.day ++
    84 :: (write 2 stamp.hour ++ 58 :: (write 2 stamp.minute ++ 58 :: (write 2 stamp.second ++
      (fractionText stamp.fraction ++ [90]))))))

def date (stamp : Stamp) : Date := ⟨stamp.year, stamp.month, stamp.day⟩

/-- The milliseconds of the fields on a day after 1970-01-01, a leap second counted as the second
before. -/
def millis (stamp : Stamp) (days : ℕ) : ℕ :=
  (days * 86400 + stamp.hour * 3600 + stamp.minute * 60 + min stamp.second 59) * 1000 +
    thousandths stamp.fraction

/-- The date is that of a day from 1970-01-01 on, and the time lies in the day up to its seconds. -/
structure On (stamp : Stamp) (days : ℕ) : Prop where
  date : after days = stamp.date
  hour : stamp.hour < 24
  minute : stamp.minute < 60

end Stamp

end CayenChat.ServerTime
