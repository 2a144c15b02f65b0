import CayenChat.Wire.ServerTime

/-! # What the times of messages name

The texts that are read are those of spelled fields on a real date, with any
seconds, and nothing goes out of range on the way. The doc's seconds end at
`60`; above it every text is read where none should be.
-/

namespace CayenChat.ServerTime

open Decimal Calendar

variable {bytes : List UInt8} {m n start stop : ℕ}

/-! ## Checked arithmetic -/

theorem ok_bind {α β : Type} (a : α) (f : α → Except Stop β) : (Except.ok a >>= f) = f a := rfl

theorem error_bind {α β : Type} (e : Stop) (f : α → Except Stop β) :
    ((Except.error e : Except Stop α) >>= f) = .error e := rfl

theorem guard_bind {α : Type} (c : Prop) [Decidable c] (x : Except Stop α) :
    ((if c then (.ok () : Except Stop Unit) else .error .rejected) >>= fun _ => x) =
      if c then x else .error .rejected := by
  split_ifs <;> rfl

theorem u32_ok (h : n < 2 ^ 32) : u32 n = .ok n := if_pos h
theorem u64_ok (h : n < 2 ^ 64) : u64 n = .ok n := if_pos h
theorem minus_ok (h : n ≤ m) : minus m n = .ok (m - n) := if_pos h

theorem number_concat (byte : UInt8) : number (bytes ++ [byte]) = (number bytes >>= fun acc =>
    u32 (acc * 10) >>= fun tens => minus byte.toNat 48 >>= fun d => u32 (tens + d)) := by
  unfold number
  rw [List.foldlM_append]
  simp only [List.foldlM_cons, List.foldlM_nil, bind_pure]

theorem number_digits (h : bytes.all isDigit = true) (hl : bytes.length ≤ 9) :
    number bytes = .ok (value bytes) := by
  induction bytes using List.reverseRecOn with
  | nil => rfl
  | append_singleton bytes byte ih =>
    have hlt := value_lt h
    rw [List.all_append, Bool.and_eq_true] at h
    have hb : isDigit byte = true := by simpa using h.2
    unfold isDigit at hb
    simp only [Bool.and_eq_true, decide_eq_true_eq] at hb
    rw [value_concat] at hlt
    have hp : 10 ^ (bytes ++ [byte]).length ≤ 10 ^ 9 := Nat.pow_le_pow_right (by decide) hl
    rw [List.length_append, List.length_singleton] at hl
    rw [number_concat, ih h.1 (by omega), value_concat]
    simp only [ok_bind]
    rw [u32_ok (by omega), minus_ok hb.1]
    exact u32_ok (by omega)

theorem digits_eq (hs : start < stop) (hl : stop ≤ bytes.length) (hw : stop - start ≤ 9) :
    digits bytes start stop = if ((bytes.take stop).drop start).all isDigit then
      .ok (value ((bytes.take stop).drop start)) else .error .rejected := by
  have hlen : ((bytes.take stop).drop start).length = stop - start := by
    rw [List.length_drop, List.length_take, min_eq_left hl]
  have hne : ((bytes.take stop).drop start).isEmpty = false := by
    rw [List.isEmpty_eq_false_iff, ← List.length_pos_iff, hlen]
    omega
  unfold digits
  rw [if_pos hl]
  dsimp only
  rw [hne, Bool.false_or]
  by_cases hall : ((bytes.take stop).drop start).all isDigit = true
  · rw [hall, if_pos rfl, number_digits hall (by omega)]
    rfl
  · rw [Bool.not_eq_true] at hall
    rw [hall, if_neg Bool.false_ne_true]
    rfl

/-! ## Dates and times -/

theorem daysInMonth_eq (year month : ℕ) : daysInMonth year month = monthLength year month := by
  have hl : isLeap year = true ↔ IsLeap year := by
    unfold isLeap IsLeap
    simp
  unfold daysInMonth monthLength
  split <;> simp only [hl]

theorem daysFromCivil_eq {date : Date} (h : date.Valid) (hy : date.year < 10 ^ 4) :
    daysFromCivil date.year date.month date.day = .ok (date.dayNumber - 719468) := by
  obtain ⟨d, rfl⟩ := exists_after h
  have hn := dayNumber_after d
  obtain ⟨h1970, hm, hm', hd, hd'⟩ := h
  have h31 := hd'.trans (monthLength_le ..)
  generalize after d = date at *
  obtain ⟨year, month, day⟩ := date
  dsimp only at *
  have hyear : (if month ≤ 2 then minus year 1 else Except.ok year) =
      .ok (if month ≤ 2 then year - 1 else year) := by
    split_ifs
    · exact minus_ok (by omega)
    · rfl
  have hlt : (if month ≤ 2 then year - 1 else year) < 10 ^ 4 := by split_ifs <;> omega
  unfold Date.dayNumber at hn ⊢
  dsimp only at hn ⊢
  unfold daysFromCivil
  rw [hyear]
  simp only [ok_bind]
  generalize (if month ≤ 2 then year - 1 else year) = y at *
  simp (disch := omega) only [u32_ok, u64_ok, minus_ok, ok_bind]

theorem dayNumber_lt {date : Date} (h : date.Valid) (hy : date.year < 10 ^ 4) :
    date.dayNumber < 10 ^ 7 := by
  have h31 := h.day_le.trans (monthLength_le ..)
  have hindex : (date.month + 9) % 12 < 12 := Nat.mod_lt _ (by decide)
  have hlt : (if date.month ≤ 2 then date.year - 1 else date.year) < 10 ^ 4 := by
    split_ifs <;> omega
  unfold Date.dayNumber
  dsimp only
  omega

theorem instant_ok {date : Date} (h : date.Valid) (hy : date.year < 10 ^ 4) {hour minute second
    millis : ℕ} (hh : hour < 24) (hm : minute < 60) (hs : second < 60) (hl : millis < 1000) :
    instant date.year date.month date.day hour minute second millis =
      .ok (((date.dayNumber - 719468) * 86400 + hour * 3600 + minute * 60 + second) * 1000 +
        millis) := by
  have hlt := dayNumber_lt h hy
  have hd := daysFromCivil_eq h hy
  obtain ⟨h1970, hm1, hm12, hd1, hle⟩ := h
  have hdays : date.dayNumber - 719468 < 10 ^ 7 := (Nat.sub_le ..).trans_lt hlt
  unfold instant
  rw [daysInMonth_eq, if_neg (by omega), hd, ok_bind]
  generalize date.dayNumber - 719468 = days at *
  rw [u32_ok (by omega), ok_bind, u32_ok (by omega), ok_bind, u32_ok (by omega), ok_bind,
    u32_ok (by omega), ok_bind, u64_ok (by omega), ok_bind, u64_ok (by omega), ok_bind,
    u64_ok (by omega), ok_bind, u64_ok (by omega), ok_bind, unixTime, if_pos (by omega)]
  have hsum : (days * 86400 + (hour * 3600 + minute * 60 + second)) * 1000 + millis =
      (days * 86400 + hour * 3600 + minute * 60 + second) * 1000 + millis := by omega
  rw [hsum]

theorem instant_rejected {date : Date} {hour minute second millis : ℕ}
    (h : ¬ (date.Valid ∧ hour < 24 ∧ minute < 60)) :
    instant date.year date.month date.day hour minute second millis = .error .rejected := by
  refine if_pos ?_
  rw [daysInMonth_eq]
  by_contra hc
  refine h ⟨⟨?_, ?_, ?_, ?_, ?_⟩, ?_, ?_⟩ <;> omega

/-! ## The bytes of a text -/

def field (bytes : List UInt8) : Except Stop ℕ :=
  if bytes.all isDigit then .ok (value bytes) else .error .rejected

theorem parse_short (h : bytes.length < 20) : parseServerTime bytes = .error .rejected := if_pos h

theorem parse_cons (a0 a1 a2 a3 a4 a5 a6 a7 a8 a9 a10 a11 a12 a13 a14 a15 a16 a17 a18 z : UInt8)
    (middle : List UInt8) :
    parseServerTime (a0 :: a1 :: a2 :: a3 :: a4 :: a5 :: a6 :: a7 :: a8 :: a9 :: a10 :: a11 ::
      a12 :: a13 :: a14 :: a15 :: a16 :: a17 :: a18 :: (middle ++ [z])) =
    if a4 = 45 ∧ a7 = 45 ∧ a10 = 84 ∧ a13 = 58 ∧ a16 = 58 ∧ z = 90 then do
      let year ← field [a0, a1, a2, a3]
      let month ← field [a5, a6]
      let day ← field [a8, a9]
      let hour ← field [a11, a12]
      let minute ← field [a14, a15]
      let second ← field [a17, a18]
      let millis ← fractionMillis middle
      instant year month day hour minute (min second 59) millis
    else .error .rejected := by
  have hlen : (a0 :: a1 :: a2 :: a3 :: a4 :: a5 :: a6 :: a7 :: a8 :: a9 :: a10 :: a11 ::
      a12 :: a13 :: a14 :: a15 :: a16 :: a17 :: a18 :: (middle ++ [z])).length =
      middle.length + 20 := by
    simp only [List.length_cons, List.length_append, List.length_nil]
  generalize hb : a0 :: a1 :: a2 :: a3 :: a4 :: a5 :: a6 :: a7 :: a8 :: a9 :: a10 :: a11 ::
      a12 :: a13 :: a14 :: a15 :: a16 :: a17 :: a18 :: (middle ++ [z]) = bytes at *
  have hlast : bytes.getLast? = some z := by
    rw [← hb]
    simp only [List.getLast?_cons, List.getLast?_append]
    simp
  have hexpect : ∀ i b c, bytes[i]? = some b →
      expect bytes i c = if b = c then .ok () else .error .rejected := by
    intro i b c h
    unfold expect index
    rw [h]
    rfl
  have hslice : slice bytes 19 (middle.length + 19) = .ok middle := by
    unfold slice
    rw [if_pos ⟨by omega, by omega⟩, ← hb]
    simp
  have hdigits : ∀ start stop, start < stop → stop ≤ 19 → stop - start ≤ 9 →
      digits bytes start stop = field ((bytes.take stop).drop start) :=
    fun start stop h1 h2 h3 => digits_eq h1 (by omega) h3
  unfold parseServerTime
  rw [if_neg (by omega), hexpect 4 a4 _ (by rw [← hb]; rfl), hexpect 7 a7 _ (by rw [← hb]; rfl),
    hexpect 10 a10 _ (by rw [← hb]; rfl), hexpect 13 a13 _ (by rw [← hb]; rfl),
    hexpect 16 a16 _ (by rw [← hb]; rfl), hlast, hlen, minus_ok (by omega)]
  rw [hdigits 0 4 (by decide) (by decide) (by decide), hdigits 5 7 (by decide) (by decide) (by decide),
    hdigits 8 10 (by decide) (by decide) (by decide),
    hdigits 11 13 (by decide) (by decide) (by decide),
    hdigits 14 16 (by decide) (by decide) (by decide),
    hdigits 17 19 (by decide) (by decide) (by decide)]
  have htake : (bytes.take 4).drop 0 = [a0, a1, a2, a3] ∧ (bytes.take 7).drop 5 = [a5, a6] ∧
      (bytes.take 10).drop 8 = [a8, a9] ∧ (bytes.take 13).drop 11 = [a11, a12] ∧
      (bytes.take 16).drop 14 = [a14, a15] ∧ (bytes.take 19).drop 17 = [a17, a18] := by
    rw [← hb]
    exact ⟨rfl, rfl, rfl, rfl, rfl, rfl⟩
  rw [htake.1, htake.2.1, htake.2.2.1, htake.2.2.2.1, htake.2.2.2.2.1, htake.2.2.2.2.2]
  have hstop : middle.length + 20 - 1 = middle.length + 19 := by omega
  simp only [hstop, hslice, ok_bind, error_bind, guard_bind, ite_and]

/-! ## Spelled fields are read -/

theorem digitBytes_digits (fraction : List (Fin 10)) :
    (digitBytes fraction).all isDigit = true := by
  rw [List.all_eq_true]
  intro b hb
  obtain ⟨d, -, rfl⟩ := List.mem_map.mp hb
  exact isDigit_digit _

theorem padded_digits (fraction : List (Fin 10)) :
    ((digitBytes fraction ++ [48, 48, 48]).take 3).all isDigit = true := by
  have h : (digitBytes fraction ++ [48, 48, 48]).all isDigit = true := by
    rw [List.all_append, digitBytes_digits]
    rfl
  rw [List.all_eq_true] at h ⊢
  exact fun b hb => h b (List.mem_of_mem_take hb)

theorem value_padded (fraction : List (Fin 10)) :
    value ((digitBytes fraction ++ [48, 48, 48]).take 3) = thousandths fraction := by
  have hz : ([48, 48, 48] : List UInt8) = ([0, 0, 0] : List ℕ).map digit := rfl
  have hm : digitBytes fraction = (fraction.map Fin.val).map digit := by
    rw [List.map_map]; rfl
  have hd : ∀ d ∈ (fraction.map Fin.val ++ [0, 0, 0]).take 3, d < 10 := by
    intro d hm
    rcases List.mem_append.mp (List.mem_of_mem_take hm) with hm | hm
    · obtain ⟨e, -, rfl⟩ := List.mem_map.mp hm
      exact e.isLt
    · simp at hm
      omega
  rw [hz, hm, ← List.map_append, ← List.map_take, value, thousandths, List.foldl_map]
  exact List.foldl_ext _ _ _ fun acc d hm => by
    rw [digit_toNat, Nat.mod_eq_of_lt (hd d hm), Nat.add_sub_cancel_left]

theorem thousandths_lt (fraction : List (Fin 10)) : thousandths fraction < 1000 := by
  rw [← value_padded]
  exact (value_lt (padded_digits fraction)).trans_le
    (Nat.pow_le_pow_right (by decide) (List.length_take_le ..))

theorem fractionMillis_text (fraction : List (Fin 10)) :
    fractionMillis (fractionText fraction) = .ok (thousandths fraction) := by
  cases fraction with
  | nil => rfl
  | cons d ds =>
    rw [← value_padded, ← number_digits (padded_digits (d :: ds))
      ((List.length_take_le ..).trans (by decide))]
    exact if_pos (by rw [digitBytes_digits]; rfl)

theorem exists_digitBytes {text : List UInt8} (h : text.all isDigit = true) :
    ∃ fraction, digitBytes fraction = text := by
  refine ⟨text.map fun b => Fin.ofNat 10 (b.toNat - 48), ?_⟩
  unfold digitBytes
  rw [List.map_map]
  conv_rhs => rw [← List.map_id text]
  apply List.map_congr_left
  intro b hb
  have hd := digit_of_isDigit (List.all_eq_true.mp h b hb)
  rw [Function.comp_apply, Fin.val_ofNat, digit, Nat.mod_mod]
  exact hd

theorem fractionMillis_cases (text : List UInt8) :
    (∃ fraction, fractionText fraction = text) ∨ fractionMillis text = .error .rejected := by
  unfold fractionMillis
  split
  · exact .inl ⟨[], rfl⟩
  · rename_i text
    by_cases h : (!text.isEmpty && text.all isDigit) = true
    · left
      simp only [Bool.and_eq_true, Bool.not_eq_true', List.isEmpty_eq_false_iff] at h
      obtain ⟨fraction, rfl⟩ := exists_digitBytes h.2
      refine ⟨fraction, ?_⟩
      cases fraction with
      | nil => exact absurd rfl h.1
      | cons d ds => rfl
    · exact .inr (if_neg h)
  · exact .inr rfl

theorem field_write {w : ℕ} (h : n < 10 ^ w) : field (write w n) = .ok n := by
  rw [field, if_pos (write_digits w n), value_write h]

theorem write_two (n : ℕ) : ∃ a b, write 2 n = [a, b] := ⟨_, _, rfl⟩

theorem write_four (n : ℕ) : ∃ a b c d, write 4 n = [a, b, c, d] := ⟨_, _, _, _, rfl⟩

theorem parse_spell (stamp : Stamp) : parseServerTime stamp.spell =
    instant stamp.year stamp.month stamp.day stamp.hour stamp.minute (min stamp.second 59)
      (thousandths stamp.fraction) := by
  obtain ⟨a0, a1, a2, a3, hy⟩ := write_four stamp.year
  obtain ⟨a5, a6, hmo⟩ := write_two stamp.month
  obtain ⟨a8, a9, hd⟩ := write_two stamp.day
  obtain ⟨a11, a12, hh⟩ := write_two stamp.hour
  obtain ⟨a14, a15, hmi⟩ := write_two stamp.minute
  obtain ⟨a17, a18, hs⟩ := write_two stamp.second
  unfold Stamp.spell
  rw [hy, hmo, hd, hh, hmi, hs]
  refine (parse_cons ..).trans ?_
  rw [if_pos ⟨rfl, rfl, rfl, rfl, rfl, rfl⟩, ← hy, ← hmo, ← hd, ← hh, ← hmi, ← hs,
    field_write stamp.year_lt, field_write stamp.month_lt, field_write stamp.day_lt,
    field_write stamp.hour_lt, field_write stamp.minute_lt, field_write stamp.second_lt,
    fractionMillis_text]
  rfl

/-! ## What is read is spelled -/

theorem field_cases (bytes : List UInt8) : field bytes = .error .rejected ∨
    ∃ n, n < 10 ^ bytes.length ∧ write bytes.length n = bytes ∧ field bytes = .ok n := by
  by_cases h : bytes.all isDigit = true
  · exact .inr ⟨value bytes, value_lt h, write_value h, if_pos h⟩
  · exact .inl (if_neg h)

theorem spelled_or_rejected (bytes : List UInt8) :
    (∃ stamp : Stamp, stamp.spell = bytes) ∨ parseServerTime bytes = .error .rejected := by
  by_cases hlen : bytes.length < 20
  · exact .inr (parse_short hlen)
  obtain ⟨front, rest, rfl, hfront⟩ : ∃ front rest, bytes = front ++ rest ∧ front.length = 19 :=
    ⟨bytes.take 19, bytes.drop 19, (List.take_append_drop ..).symm,
      by rw [List.length_take]; omega⟩
  have hrest : rest ≠ [] := by
    rintro rfl
    rw [List.append_nil] at hlen
    omega
  obtain ⟨middle, z, rfl⟩ : ∃ middle z, rest = middle ++ [z] :=
    ⟨rest.dropLast, rest.getLast hrest, (List.dropLast_append_getLast hrest).symm⟩
  obtain ⟨a0, a1, a2, a3, a4, a5, a6, a7, a8, a9, a10, a11, a12, a13, a14, a15, a16, a17, a18,
      rfl⟩ : ∃ a0 a1 a2 a3 a4 a5 a6 a7 a8 a9 a10 a11 a12 a13 a14 a15 a16 a17 a18,
      front = [a0, a1, a2, a3, a4, a5, a6, a7, a8, a9, a10, a11, a12, a13, a14, a15, a16, a17,
        a18] := by
    refine ⟨front[0], front[1], front[2], front[3], front[4], front[5], front[6], front[7],
      front[8], front[9], front[10], front[11], front[12], front[13], front[14], front[15],
      front[16], front[17], front[18], ?_⟩
    apply List.ext_getElem hfront
    intro i h1 h2
    rw [hfront] at h1
    interval_cases i <;> rfl
  refine (or_congr_right (Eq.congr_left (parse_cons ..))).mpr ?_
  by_cases hsep : a4 = 45 ∧ a7 = 45 ∧ a10 = 84 ∧ a13 = 58 ∧ a16 = 58 ∧ z = 90
  swap
  · exact .inr (if_neg hsep)
  rw [if_pos hsep]
  obtain ⟨rfl, rfl, rfl, rfl, rfl, rfl⟩ := hsep
  rcases field_cases [a0, a1, a2, a3] with h | ⟨year, hy, hyw, h⟩
  · exact .inr (by rw [h, error_bind])
  rw [h, ok_bind]
  rcases field_cases [a5, a6] with h | ⟨month, hmo, hmow, h⟩
  · exact .inr (by rw [h, error_bind])
  rw [h, ok_bind]
  rcases field_cases [a8, a9] with h | ⟨day, hd, hdw, h⟩
  · exact .inr (by rw [h, error_bind])
  rw [h, ok_bind]
  rcases field_cases [a11, a12] with h | ⟨hour, hh, hhw, h⟩
  · exact .inr (by rw [h, error_bind])
  rw [h, ok_bind]
  rcases field_cases [a14, a15] with h | ⟨minute, hmi, hmiw, h⟩
  · exact .inr (by rw [h, error_bind])
  rw [h, ok_bind]
  rcases field_cases [a17, a18] with h | ⟨second, hs, hsw, h⟩
  · exact .inr (by rw [h, error_bind])
  rw [h, ok_bind]
  rcases fractionMillis_cases middle with ⟨fraction, hf⟩ | h
  swap
  · exact .inr (by rw [h, error_bind])
  left
  refine ⟨⟨year, month, day, hour, minute, second, fraction, hy, hmo, hd, hh, hmi, hs⟩, ?_⟩
  unfold Stamp.spell
  dsimp only
  rw [show write 4 year = _ from hyw, show write 2 month = _ from hmow,
    show write 2 day = _ from hdw, show write 2 hour = _ from hhw,
    show write 2 minute = _ from hmiw, show write 2 second = _ from hsw, hf]
  rfl

/-! ## What a text names -/

/-- A text names an instant: its fields are those of a real date and time, with a leap second at
most. -/
def Names (bytes : List UInt8) (millis : ℕ) : Prop :=
  ∃ stamp : Stamp, ∃ days, stamp.spell = bytes ∧ stamp.On days ∧ stamp.second ≤ 60 ∧
    millis = stamp.millis days

def Faithful (bytes : List UInt8) : Prop :=
  ∀ millis, parseServerTime bytes = .ok millis ↔ Names bytes millis

/-- A text of a real date and time but for seconds beyond a leap second. -/
def Overlong (bytes : List UInt8) : Prop :=
  ∃ stamp : Stamp, ∃ days, stamp.spell = bytes ∧ stamp.On days ∧ 60 < stamp.second

def Canonical (bytes : List UInt8) : Prop :=
  ∃ stamp : Stamp, ∃ days, stamp.spell = bytes ∧ stamp.On days ∧ stamp.second < 60 ∧
    stamp.fraction.length = 3

def formatServerTime (millis : ℕ) : List UInt8 :=
  let date := after (millis / 86400000)
  write 4 date.year ++ 45 :: (write 2 date.month ++ 45 :: (write 2 date.day ++
    84 :: (write 2 (millis / 3600000 % 24) ++ 58 :: (write 2 (millis / 60000 % 60) ++
      58 :: (write 2 (millis / 1000 % 60) ++ 46 :: (write 3 (millis % 1000) ++ [90]))))))

variable {stamp : Stamp} {days : ℕ}

theorem parse_on (h : stamp.On days) : parseServerTime stamp.spell = .ok (stamp.millis days) := by
  obtain ⟨hdate, hhour, hminute⟩ := h
  have hv : stamp.date.Valid := hdate ▸ after_valid days
  have hn := dayNumber_after days
  rw [hdate] at hn
  rw [parse_spell]
  refine (instant_ok hv stamp.year_lt hhour hminute (by omega) (thousandths_lt _)).trans ?_
  rw [hn, Nat.add_sub_cancel]
  rfl

theorem parse_off (h : ∀ days, ¬ stamp.On days) :
    parseServerTime stamp.spell = .error .rejected := by
  rw [parse_spell]
  refine @instant_rejected stamp.date _ _ _ _ ?_
  rintro ⟨hv, hhour, hminute⟩
  obtain ⟨days, hdays⟩ := exists_after hv
  exact h days ⟨hdays, hhour, hminute⟩

theorem parse_iff : parseServerTime bytes = .ok n ↔
    ∃ stamp : Stamp, ∃ days, stamp.spell = bytes ∧ stamp.On days ∧ n = stamp.millis days := by
  constructor
  · intro h
    rcases spelled_or_rejected bytes with ⟨stamp, rfl⟩ | hr
    · by_cases hon : ∃ days, stamp.On days
      · obtain ⟨days, hon⟩ := hon
        rw [parse_on hon] at h
        exact ⟨stamp, days, rfl, hon, (Except.ok.inj h).symm⟩
      · rw [parse_off (not_exists.mp hon)] at h
        cases h
    · rw [hr] at h
      cases h
  · rintro ⟨stamp, days, rfl, hon, rfl⟩
    exact parse_on hon

theorem parse_ne_panicked (bytes : List UInt8) : parseServerTime bytes ≠ .error .panicked := by
  rcases spelled_or_rejected bytes with ⟨stamp, rfl⟩ | hr
  · by_cases hon : ∃ days, stamp.On days
    · obtain ⟨days, hon⟩ := hon
      rw [parse_on hon]
      simp
    · rw [parse_off (not_exists.mp hon)]
      simp
  · rw [hr]
    simp

theorem spell_second (stamp : Stamp) : value ((stamp.spell.drop 17).take 2) = stamp.second := by
  obtain ⟨a0, a1, a2, a3, hy⟩ := write_four stamp.year
  obtain ⟨a5, a6, hmo⟩ := write_two stamp.month
  obtain ⟨a8, a9, hd⟩ := write_two stamp.day
  obtain ⟨a11, a12, hh⟩ := write_two stamp.hour
  obtain ⟨a14, a15, hmi⟩ := write_two stamp.minute
  obtain ⟨a17, a18, hs⟩ := write_two stamp.second
  have hlt := value_write stamp.second_lt
  rw [hs] at hlt
  unfold Stamp.spell
  rw [hy, hmo, hd, hh, hmi, hs]
  exact hlt

theorem faithful_iff : Faithful bytes ↔ ¬ Overlong bytes := by
  constructor
  · rintro h ⟨stamp, days, rfl, hon, hlt⟩
    obtain ⟨other, -, he, -, hle, -⟩ := (h _).mp (parse_on hon)
    have hs := spell_second other
    rw [he, spell_second] at hs
    omega
  · intro h millis
    rw [parse_iff]
    constructor
    · rintro ⟨stamp, days, hb, hon, hm⟩
      refine ⟨stamp, days, hb, hon, ?_, hm⟩
      by_contra hlt
      exact h ⟨stamp, days, hb, hon, Nat.lt_of_not_le hlt⟩
    · rintro ⟨stamp, days, hb, hon, -, hm⟩
      exact ⟨stamp, days, hb, hon, hm⟩

theorem fractionText_three {fraction : List (Fin 10)} (h : fraction.length = 3) :
    fractionText fraction = 46 :: write 3 (thousandths fraction) := by
  have hlen : (digitBytes fraction).length = 3 := (List.length_map _).trans h
  have hv : value (digitBytes fraction) = thousandths fraction := by
    rw [← value_padded, ← hlen, List.take_left]
  have hw := write_value (digitBytes_digits fraction)
  rw [hlen, hv] at hw
  rw [hw]
  cases fraction with
  | nil => cases h
  | cons d ds => rfl

theorem spell_lt {s t : Stamp} (hs : s.fraction.length = 3) (ht : t.fraction.length = 3) :
    s.spell < t.spell ↔ s.year < t.year ∨ s.year = t.year ∧
      (s.month < t.month ∨ s.month = t.month ∧ (s.day < t.day ∨ s.day = t.day ∧
        (s.hour < t.hour ∨ s.hour = t.hour ∧ (s.minute < t.minute ∨ s.minute = t.minute ∧
          (s.second < t.second ∨ s.second = t.second ∧
            thousandths s.fraction < thousandths t.fraction))))) := by
  have hsep : ∀ (c : UInt8) (xs ys : List UInt8), c :: xs < c :: ys ↔ xs < ys := by
    intro c xs ys
    simp
  unfold Stamp.spell
  rw [fractionText_three hs, fractionText_three ht, List.cons_append, List.cons_append,
    write_append_lt s.year_lt t.year_lt, hsep, write_append_lt s.month_lt t.month_lt, hsep,
    write_append_lt s.day_lt t.day_lt, hsep, write_append_lt s.hour_lt t.hour_lt, hsep,
    write_append_lt s.minute_lt t.minute_lt, hsep, write_append_lt s.second_lt t.second_lt, hsep,
    write_append_lt (thousandths_lt _) (thousandths_lt _)]
  simp

theorem millis_lt {s t : Stamp} {m n : ℕ} (hs : s.On m) (ht : t.On n) (hs60 : s.second < 60)
    (ht60 : t.second < 60) (hsf : s.fraction.length = 3) (htf : t.fraction.length = 3)
    (hlt : s.spell < t.spell) : s.millis m < t.millis n := by
  rw [spell_lt hsf htf] at hlt
  have hday : s.date.rank < t.date.rank → m < n := by
    intro h
    rw [← hs.date, ← ht.date] at h
    exact rank_after.lt_iff_lt.mp h
  have hsame : s.date.rank = t.date.rank → m = n := by
    intro h
    rw [← hs.date, ← ht.date] at h
    exact rank_after.injective h
  have hsv : s.date.Valid := hs.date ▸ after_valid m
  have htv : t.date.Valid := ht.date ▸ after_valid n
  have hsd : s.day ≤ 31 := hsv.day_le.trans (monthLength_le ..)
  have htd : t.day ≤ 31 := htv.day_le.trans (monthLength_le ..)
  have hsm : s.month ≤ 12 := hsv.month_le
  have htm : t.month ≤ 12 := htv.month_le
  have hth := thousandths_lt s.fraction
  have hh := hs.hour
  have hm := hs.minute
  have htm' := ht.minute
  unfold Stamp.millis
  rw [min_eq_left (Nat.le_of_lt_succ hs60), min_eq_left (Nat.le_of_lt_succ ht60)]
  -- An earlier date outweighs the time of the day, and on the same date the times decide.
  by_cases hr : s.date.rank < t.date.rank
  · have := hday hr
    omega
  · unfold Stamp.date Date.rank at hr hsame
    dsimp only at hr hsame
    have hdate : s.year = t.year ∧ s.month = t.month ∧ s.day = t.day := by
      clear hsame hday
      omega
    obtain ⟨hy, hmo, hd⟩ := hdate
    have hmn := hsame (by rw [hy, hmo, hd])
    subst hmn
    clear hsame hday hr
    omega

/-- The fields of an instant. -/
def stampOf (millis : ℕ) (h : (after (millis / 86400000)).year ≤ 9999) : Stamp where
  year := (after (millis / 86400000)).year
  month := (after (millis / 86400000)).month
  day := (after (millis / 86400000)).day
  hour := millis / 3600000 % 24
  minute := millis / 60000 % 60
  second := millis / 1000 % 60
  fraction := [Fin.ofNat 10 (millis / 100), Fin.ofNat 10 (millis / 10), Fin.ofNat 10 millis]
  year_lt := Nat.lt_succ_of_le h
  month_lt := (after_valid _).month_le.trans_lt (by decide)
  day_lt := ((after_valid _).day_le.trans (monthLength_le ..)).trans_lt (by decide)
  hour_lt := (Nat.mod_lt _ (by decide)).trans (by decide)
  minute_lt := (Nat.mod_lt _ (by decide)).trans (by decide)
  second_lt := (Nat.mod_lt _ (by decide)).trans (by decide)

theorem thousandths_stampOf {millis : ℕ} (h : (after (millis / 86400000)).year ≤ 9999) :
    thousandths (stampOf millis h).fraction = millis % 1000 := by
  have he : thousandths (stampOf millis h).fraction =
      ((millis / 100 % 10) * 10 + millis / 10 % 10) * 10 + millis % 10 := by
    simp [thousandths, stampOf]
  omega

theorem format_eq {millis : ℕ} (h : (after (millis / 86400000)).year ≤ 9999) :
    formatServerTime millis = (stampOf millis h).spell := by
  have hf : fractionText (stampOf millis h).fraction = 46 :: write 3 (millis % 1000) := by
    rw [fractionText_three rfl, thousandths_stampOf]
  unfold Stamp.spell
  rw [hf]
  rfl

theorem parse_format {millis : ℕ} (h : (after (millis / 86400000)).year ≤ 9999) :
    parseServerTime (formatServerTime millis) = .ok millis := by
  have hon : (stampOf millis h).On (millis / 86400000) :=
    ⟨rfl, Nat.mod_lt _ (by decide), Nat.mod_lt _ (by decide)⟩
  have hm : (stampOf millis h).millis (millis / 86400000) =
      (millis / 86400000 * 86400 + millis / 3600000 % 24 * 3600 + millis / 60000 % 60 * 60 +
        millis / 1000 % 60) * 1000 + millis % 1000 := by
    have hsecond : min (stampOf millis h).second 59 = millis / 1000 % 60 :=
      min_eq_left (Nat.le_of_lt_succ (Nat.mod_lt _ (by decide)))
    unfold Stamp.millis
    rw [thousandths_stampOf, hsecond]
    rfl
  rw [format_eq h, parse_on hon, hm]
  refine congrArg Except.ok ?_
  omega

/-- A text is never read out of range, and as the instant it names unless its seconds lie beyond a
leap second; canonical texts are read in their order, and the text of every instant to the end of
9999 as that instant. -/
theorem server_time_read (bytes : List UInt8) :
    parseServerTime bytes ≠ .error .panicked ∧ (Faithful bytes ↔ ¬ Overlong bytes) ∧
    (∀ a b m n, Canonical a → Canonical b → parseServerTime a = .ok m → parseServerTime b = .ok n →
      a < b → m < n) ∧
    (∀ millis, (after (millis / 86400000)).year ≤ 9999 →
      parseServerTime (formatServerTime millis) = .ok millis) := by
  refine ⟨parse_ne_panicked bytes, faithful_iff, ?_, fun millis => parse_format⟩
  rintro a b m n ⟨s, days, rfl, hs, hs60, hsf⟩ ⟨t, days', rfl, ht, ht60, htf⟩ hm hn hlt
  rw [parse_on hs] at hm
  rw [parse_on ht] at hn
  cases hm
  cases hn
  exact millis_lt hs ht hs60 ht60 hsf htf hlt

def longMinute : List UInt8 := "1970-01-01T00:00:61Z".toUTF8.toList

theorem long_minute_read :
    parseServerTime longMinute = .ok 59000 ∧ ¬ Faithful longMinute := by
  have hb : longMinute = (Stamp.mk 1970 1 1 0 0 61 [] (by decide) (by decide) (by decide)
      (by decide) (by decide) (by decide)).spell := by decide +kernel
  refine ⟨by decide +kernel, fun h => faithful_iff.mp h ?_⟩
  exact ⟨_, 0, hb.symm, ⟨rfl, by decide, by decide⟩, by decide⟩

/-- The text of an instant after a leap second, read as the second before. -/
example : parseServerTime "2016-12-31T23:59:60.5Z".toUTF8.toList = .ok 1483228799500 := by
  decide +kernel

end CayenChat.ServerTime
