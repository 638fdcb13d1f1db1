import DocumentAccess.Calendar.Date
import Mathlib.Tactic.Common
import Mathlib.Tactic.IntervalCases

/-!
# Dates and day numbers

The date of a day number is a day of the calendar, and has that number.  A day number is taken apart
into an era of 400 years, a year of it that begins in March, and a day of this year; the arithmetic is
done once for each of these parts.

* `Date.yearOfEra_spec` — the year that a day of an era is in.
* `Date.ofMarch` — the date of a day of a year that begins in March.
* `Date.exists_ofMarch` — `Date.ofDays` takes a day number apart, with bounds for the parts.
* **`Date.days_ofDays`** — the date of a day number has this number.
* **`Date.ofDays_day_le`** — the calendar has this date.
-/

namespace DocumentAccess.Date

/-! ## Years of an era -/

/-- The year that a day of an era is in, with the leap days before it counted.  Only a year whose last
day is a leap day has a day 365. -/
lemma yearOfEra_spec {dayOfEra year : Int} (hnonneg : 0 ≤ dayOfEra) (hle : dayOfEra ≤ 146096)
    (hyear : year = (dayOfEra - dayOfEra / 1460 + dayOfEra / 36524 - dayOfEra / 146096) / 365) :
    0 ≤ year ∧ year ≤ 399 ∧ 365 * year + year / 4 - year / 100 ≤ dayOfEra ∧
      dayOfEra ≤ 365 * year + year / 4 - year / 100 + 365 ∧
      (dayOfEra = 365 * year + year / 4 - year / 100 + 365 →
        year % 4 = 3 ∧ (year % 100 = 99 → year = 399)) := by
  by_cases hlast : dayOfEra = 146096
  · subst hlast
    subst hyear
    decide
  have hend : dayOfEra / 146096 = 0 := by omega
  rw [hend] at hyear
  -- the century of the day is that of the year, so in each century the arithmetic is linear
  have hcentury : dayOfEra / 36524 = 0 ∨ dayOfEra / 36524 = 1 ∨ dayOfEra / 36524 = 2 ∨
      dayOfEra / 36524 = 3 := by omega
  have hyears : year / 100 = dayOfEra / 36524 := by omega
  rw [hyears]
  rcases hcentury with h | h | h | h <;> rw [h] at hyear hyears ⊢ <;>
    refine ⟨by omega, by omega, by omega, by omega, fun hday => ⟨?_, fun hturn => ?_⟩⟩ <;> omega

/-! ## Days of a year -/

/-- The date of a day of a year that begins in March. -/
def ofMarch (year dayOfYear : Int) : Date :=
  let monthFromMarch := (5 * dayOfYear + 2) / 153
  let day := dayOfYear - (153 * monthFromMarch + 2) / 5 + 1
  let month := if monthFromMarch < 10 then monthFromMarch + 3 else monthFromMarch - 9
  ⟨if month ≤ 2 then year + 1 else year, month.toNat, day.toNat⟩

section OfMarch

variable {dayOfYear : Int}

/-- March to December of the year, then January and February of the next one. -/
lemma exists_month (year : Int) (hnonneg : 0 ≤ dayOfYear) (hle : dayOfYear ≤ 365) :
    ∃ month day : Nat, month < 12 ∧ 1 ≤ day ∧
      dayOfYear = ((153 * month + 2) / 5 : Nat) + day - 1 ∧
      (month < 11 → dayOfYear < ((153 * (month + 1) + 2) / 5 : Nat)) ∧
      ofMarch year dayOfYear
        = if month < 10 then ⟨year, month + 3, day⟩ else ⟨year + 1, month - 9, day⟩ := by
  refine ⟨((5 * dayOfYear + 2) / 153).toNat,
    (dayOfYear - (153 * ((5 * dayOfYear + 2) / 153) + 2) / 5 + 1).toNat, by omega, by omega, by omega,
    fun hmonth => by omega, ?_⟩
  dsimp only [ofMarch]
  by_cases hmonth : (5 * dayOfYear + 2) / 153 < 10
  · rw [if_pos hmonth, if_neg (by omega), if_pos (by omega), Date.mk.injEq]
    exact ⟨rfl, by omega, rfl⟩
  · rw [if_neg hmonth, if_pos (by omega), if_neg (by omega), Date.mk.injEq]
    exact ⟨rfl, by omega, rfl⟩

/-- The number of a day of a year in an era. -/
lemma days_ofMarch {era yearOfEra : Int} (hyear : 0 ≤ yearOfEra) (hyearLe : yearOfEra ≤ 399)
    (hnonneg : 0 ≤ dayOfYear) (hle : dayOfYear ≤ 365) :
    (ofMarch (yearOfEra + era * 400) dayOfYear).days
      = era * 146097 + (yearOfEra * 365 + yearOfEra / 4 - yearOfEra / 100 + dayOfYear) - 719468 := by
  obtain ⟨month, day, hmonth, hday, hsum, -, heq⟩ :=
    exists_month (yearOfEra + era * 400) hnonneg hle
  have hera : (yearOfEra + era * 400) / 400 = era := by omega
  have hrest : yearOfEra + era * 400 - era * 400 = yearOfEra := by omega
  rw [heq]
  by_cases hearly : month < 10
  · have hlate : ¬ month + 3 ≤ 2 := by omega
    have hmarch : ((month + 3 : Nat) : Int) - 3 = month := by omega
    rw [if_pos hearly]
    simp only [days, if_neg hlate, hera, hrest, hmarch]
    omega
  · have hlate : month - 9 ≤ 2 := by omega
    have hmarch : ((month - 9 : Nat) : Int) + 9 = month := by omega
    have hback : yearOfEra + era * 400 + 1 - 1 = yearOfEra + era * 400 := by omega
    rw [if_neg hearly]
    simp only [days, if_pos hlate, hera, hrest, hmarch, hback]
    omega

/-- Its month has the day, if only leap years have a day 365. -/
lemma ofMarch_day_le {year : Int} (hnonneg : 0 ≤ dayOfYear) (hle : dayOfYear ≤ 365)
    (hleap : dayOfYear = 365 → isLeapYear (year + 1) = true) :
    1 ≤ (ofMarch year dayOfYear).day ∧
      (ofMarch year dayOfYear).day
        ≤ daysInMonth (ofMarch year dayOfYear).year (ofMarch year dayOfYear).month := by
  obtain ⟨month, day, hmonth, hday, hsum, hnext, heq⟩ := exists_month year hnonneg hle
  rw [heq]
  by_cases hfebruary : month = 11
  · subst hfebruary
    refine ⟨hday, ?_⟩
    show day ≤ if isLeapYear (year + 1) then 29 else 28
    by_cases hlast : dayOfYear = 365
    · rw [if_pos (hleap hlast)]
      omega
    · split <;> omega
  · have hbefore := hnext (by omega)
    by_cases hearly : month < 10
    · rw [if_pos hearly]
      refine ⟨hday, ?_⟩
      interval_cases month <;> simp only [daysInMonth, Nat.reduceAdd] <;> omega
    · obtain rfl : month = 10 := by omega
      refine ⟨hday, ?_⟩
      show day ≤ 31
      omega

end OfMarch

/-- A day number taken apart. -/
lemma exists_ofMarch (number : Int) :
    ∃ era yearOfEra dayOfYear : Int, 0 ≤ yearOfEra ∧ yearOfEra ≤ 399 ∧ 0 ≤ dayOfYear ∧
      dayOfYear ≤ 365 ∧
      (dayOfYear = 365 → yearOfEra % 4 = 3 ∧ (yearOfEra % 100 = 99 → yearOfEra = 399)) ∧
      number + 719468
        = era * 146097 + (yearOfEra * 365 + yearOfEra / 4 - yearOfEra / 100 + dayOfYear) ∧
      ofDays number = ofMarch (yearOfEra + era * 400) dayOfYear := by
  obtain ⟨era, dayOfEra, hera, hday⟩ : ∃ era dayOfEra : Int, era = (number + 719468) / 146097 ∧
    dayOfEra = number + 719468 - era * 146097 := ⟨_, _, rfl, rfl⟩
  obtain ⟨year, hyear⟩ : ∃ year : Int,
    year = (dayOfEra - dayOfEra / 1460 + dayOfEra / 36524 - dayOfEra / 146096) / 365 := ⟨_, rfl⟩
  obtain ⟨hnonneg, hle, hleast, hmost, hleap⟩ :=
    yearOfEra_spec (by omega : 0 ≤ dayOfEra) (by omega) hyear
  refine ⟨era, year, dayOfEra - (365 * year + year / 4 - year / 100), hnonneg, hle, by omega, by omega,
    fun hlast => hleap (by omega), by omega, ?_⟩
  rw [hyear, hday, hera]
  rfl

/-- **The date of a day number has this number.** -/
theorem days_ofDays (number : Int) : (ofDays number).days = number := by
  obtain ⟨era, year, day, hyear, hyearLe, hday, hdayLe, -, hsum, hdate⟩ := exists_ofMarch number
  rw [hdate, days_ofMarch hyear hyearLe hday hdayLe, ← hsum]
  omega

/-- **The calendar has the date of a day number.** -/
theorem ofDays_day_le (number : Int) :
    1 ≤ (ofDays number).day ∧
      (ofDays number).day ≤ daysInMonth (ofDays number).year (ofDays number).month := by
  obtain ⟨era, year, day, -, -, hday, hdayLe, hleap, -, hdate⟩ := exists_ofMarch number
  rw [hdate]
  refine ofMarch_day_le hday hdayLe fun hlast => ?_
  obtain ⟨hfour, hturn⟩ := hleap hlast
  simp only [isLeapYear, Bool.and_eq_true, Bool.or_eq_true, decide_eq_true_eq]
  constructor
  · omega
  · by_cases hcentury : year % 100 = 99
    · have := hturn hcentury
      omega
    · omega

/-- No month has more than 31 days, and there are no more than twelve. -/
lemma le_of_le_daysInMonth {year : Int} {month day : Nat} (hday : 1 ≤ day)
    (h : day ≤ daysInMonth year month) : month ≤ 12 ∧ day ≤ 31 := by
  unfold daysInMonth at h
  split at h
  case h_12 => split at h <;> omega
  all_goals omega

end DocumentAccess.Date
