import Mathlib

/-! # The proleptic Gregorian calendar

Dates follow each other day by day from 1970-01-01. The number of a date in
that count is the closed form over eras of 400 years that begin in March.
-/

namespace Calendar

structure Date where
  year : ℕ
  month : ℕ
  day : ℕ
  deriving DecidableEq

def IsLeap (year : ℕ) : Prop := year % 4 = 0 ∧ year % 100 ≠ 0 ∨ year % 400 = 0

instance (year : ℕ) : Decidable (IsLeap year) := inferInstanceAs (Decidable (_ ∨ _))

def monthLength (year month : ℕ) : ℕ :=
  match month with
  | 2 => if IsLeap year then 29 else 28
  | 4 | 6 | 9 | 11 => 30
  | _ => 31

namespace Date

/-- The dates of the calendar from its first year on. -/
structure Valid (date : Date) : Prop where
  year : 1970 ≤ date.year
  month_pos : 1 ≤ date.month
  month_le : date.month ≤ 12
  day_pos : 1 ≤ date.day
  day_le : date.day ≤ monthLength date.year date.month

def next (date : Date) : Date :=
  if date.day < monthLength date.year date.month then { date with day := date.day + 1 }
  else if date.month < 12 then ⟨date.year, date.month + 1, 1⟩
  else ⟨date.year + 1, 1, 1⟩

def previous (date : Date) : Date :=
  if 1 < date.day then { date with day := date.day - 1 }
  else if 1 < date.month then ⟨date.year, date.month - 1, monthLength date.year (date.month - 1)⟩
  else ⟨date.year - 1, 12, 31⟩

def rank (date : Date) : ℕ := (date.year * 13 + date.month) * 32 + date.day

def dayNumber (date : Date) : ℕ :=
  let year := if date.month ≤ 2 then date.year - 1 else date.year
  let era := year / 400
  let yearOfEra := year - era * 400
  let dayOfYear := (153 * ((date.month + 9) % 12) + 2) / 5 + date.day - 1
  era * 146097 + (yearOfEra * 365 + yearOfEra / 4 - yearOfEra / 100 + dayOfYear)

end Date

def after : ℕ → Date
  | 0 => ⟨1970, 1, 1⟩
  | n + 1 => (after n).next

variable {date : Date} {m n : ℕ}

theorem monthLength_pos (year month : ℕ) : 1 ≤ monthLength year month := by
  unfold monthLength
  split
  · split_ifs <;> omega
  all_goals omega

theorem monthLength_le (year month : ℕ) : monthLength year month ≤ 31 := by
  unfold monthLength
  split
  · split_ifs <;> omega
  all_goals omega

namespace Date

theorem Valid.next_valid (h : date.Valid) : date.next.Valid := by
  obtain ⟨hy, hm, hm', hd, hd'⟩ := h
  unfold next
  split_ifs with hlt hmonth
  · exact ⟨hy, hm, hm', Nat.le_add_left .., hlt⟩
  · exact ⟨hy, Nat.le_add_left .., hmonth, Nat.le_refl _, monthLength_pos ..⟩
  · exact ⟨Nat.le_succ_of_le hy, Nat.le_refl _, Nat.le_add_left .., Nat.le_refl _,
      monthLength_pos ..⟩

theorem Valid.rank_next (h : date.Valid) : date.rank < date.next.rank := by
  have hd := h.day_le.trans (monthLength_le ..)
  have hm := h.month_le
  unfold next rank
  split_ifs <;> dsimp only <;> omega

theorem Valid.previous_valid (h : date.Valid) (hne : date ≠ ⟨1970, 1, 1⟩) : date.previous.Valid := by
  obtain ⟨hy, hm, hm', hd, hd'⟩ := h
  obtain ⟨year, month, day⟩ := date
  dsimp only at hy hm hm' hd hd'
  unfold previous
  dsimp only
  split_ifs with hday hmonth
  · exact ⟨hy, hm, hm', by dsimp only; omega, by dsimp only; omega⟩
  · exact ⟨hy, by dsimp only; omega, by dsimp only; omega, monthLength_pos .., Nat.le_refl _⟩
  · have hyear : year ≠ 1970 := by
      rintro rfl
      exact hne (by rw [show month = 1 by omega, show day = 1 by omega])
    exact ⟨by dsimp only; omega, Nat.le_add_left .., Nat.le_refl _, Nat.le_add_left ..,
      Nat.le_refl _⟩

theorem Valid.next_previous (h : date.Valid) : date.previous.next = date := by
  obtain ⟨hy, hm, hm', hd, hd'⟩ := h
  obtain ⟨year, month, day⟩ := date
  dsimp only at hy hm hm' hd hd'
  unfold previous
  dsimp only
  split_ifs with hday hmonth
  · have hlt : day - 1 < monthLength year month := by omega
    unfold next
    rw [if_pos hlt]
    dsimp only
    rw [Nat.sub_add_cancel hd]
  · unfold next
    rw [if_neg (Nat.lt_irrefl _), if_pos (show month - 1 < 12 by omega)]
    dsimp only
    rw [Nat.sub_add_cancel hm, show day = 1 by omega]
  · unfold next
    rw [if_neg (show ¬ 31 < monthLength (year - 1) 12 from Nat.lt_irrefl _),
      if_neg (show ¬ 12 < 12 from Nat.lt_irrefl _)]
    dsimp only
    rw [Nat.sub_add_cancel (by omega), show month = 1 by omega, show day = 1 by omega]

theorem era_days (year : ℕ) :
    year / 400 * 146097 + ((year - year / 400 * 400) * 365 + (year - year / 400 * 400) / 4 -
      (year - year / 400 * 400) / 100) = year * 365 + year / 4 - year / 100 + year / 400 := by
  omega

theorem dayNumber_eq : date.dayNumber =
    (if date.month ≤ 2 then date.year - 1 else date.year) * 365 +
      (if date.month ≤ 2 then date.year - 1 else date.year) / 4 -
      (if date.month ≤ 2 then date.year - 1 else date.year) / 100 +
      (if date.month ≤ 2 then date.year - 1 else date.year) / 400 +
      ((153 * ((date.month + 9) % 12) + 2) / 5 + date.day - 1) := by
  unfold dayNumber
  dsimp only
  rw [← era_days]
  omega

theorem february {year : ℕ} (h : 1 ≤ year) : monthLength year 2 + (year - 1) * 365 + (year - 1) / 4 -
    (year - 1) / 100 + (year - 1) / 400 + 337 = year * 365 + year / 4 - year / 100 + year / 400 := by
  obtain ⟨year, rfl⟩ := Nat.exists_eq_add_of_le' h
  have hm : monthLength (year + 1) 2 =
      if 4 ∣ year + 1 ∧ ¬ 100 ∣ year + 1 ∨ 400 ∣ year + 1 then 29 else 28 := by
    simp only [Nat.dvd_iff_mod_eq_zero]
    rfl
  have h100 : 100 ∣ year + 1 → 4 ∣ year + 1 := Dvd.dvd.trans (by decide)
  have h400 : 400 ∣ year + 1 → 100 ∣ year + 1 := Dvd.dvd.trans (by decide)
  have hle : year / 100 ≤ year := Nat.div_le_self ..
  rw [hm, Nat.add_sub_cancel, Nat.succ_div, Nat.succ_div, Nat.succ_div]
  clear hm h
  generalize year / 4 = q at *
  generalize year / 100 = c at *
  generalize year / 400 = e at *
  by_cases hq : 4 ∣ year + 1 <;> by_cases hc : 100 ∣ year + 1 <;> by_cases he : 400 ∣ year + 1 <;>
    simp only [hq, hc, he, not_true, not_false_eq_true, and_true, and_false, or_true, or_false,
      if_true, if_false, or_self, true_implies] at * <;> omega

theorem Valid.dayNumber_next (h : date.Valid) : date.next.dayNumber = date.dayNumber + 1 := by
  obtain ⟨year, month, day⟩ := date
  obtain ⟨hy, hm, hm', hd, hd'⟩ := h
  dsimp only at hy hm hm' hd hd'
  rw [dayNumber_eq, dayNumber_eq]
  unfold next
  dsimp only
  by_cases hlt : day < monthLength year month
  · rw [if_pos hlt]
    dsimp only
    omega
  · have hlast : day = monthLength year month := by omega
    rw [if_neg hlt]
    by_cases hmonth : month < 12
    · rw [if_pos hmonth]
      dsimp only
      subst hlast
      have hfeb := february (Nat.one_le_of_lt hy)
      clear hlt
      interval_cases month
      case «2» =>
        norm_num at hfeb ⊢
        omega
      all_goals
        norm_num [monthLength]
        try omega
    · rw [if_neg hmonth]
      obtain rfl : month = 12 := by omega
      subst hlast
      norm_num [monthLength]

end Date

/-! ## The day-by-day count -/

theorem after_valid (n : ℕ) : (after n).Valid := by
  induction n with
  | zero => exact ⟨Nat.le_refl _, Nat.le_refl _, Nat.le_add_left .., Nat.le_refl _,
      monthLength_pos ..⟩
  | succ n ih => exact ih.next_valid

theorem dayNumber_after (n : ℕ) : (after n).dayNumber = n + 719468 := by
  induction n with
  | zero => norm_num [after, Date.dayNumber]
  | succ n ih =>
    have hn := (after_valid n).dayNumber_next
    rw [after]
    omega

theorem rank_after : StrictMono fun n => (after n).rank :=
  strictMono_nat_of_lt_succ fun n => (after_valid n).rank_next

theorem exists_after (h : date.Valid) : ∃ n, after n = date := by
  induction hr : date.rank using Nat.strong_induction_on generalizing date with
  | _ r ih =>
    subst hr
    by_cases hne : date = ⟨1970, 1, 1⟩
    · exact ⟨0, hne.symm⟩
    · have hp := h.previous_valid hne
      have hlt := hp.rank_next
      rw [h.next_previous] at hlt
      obtain ⟨n, hn⟩ := ih _ hlt hp rfl
      exact ⟨n + 1, by rw [after, hn, h.next_previous]⟩

end Calendar
