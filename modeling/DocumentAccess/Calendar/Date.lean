/-!
# Days of the Gregorian calendar

Dates of the proleptic Gregorian calendar, counted in days from 1970-01-01.  The count runs over
years that begin in March, so that a leap day is the last day of its year: 400 such years have 146097
days, and the days before a month follow one linear formula.

* `Date`, `Date.isValid` — year, month and day, and whether the calendar has that day.
* `Date.days`, `Date.ofDays` — the day number of a date, and the date of a day number.
-/

namespace DocumentAccess

/-- A year, a month and a day of the month. -/
structure Date where
  year : Int
  month : Nat
  day : Nat
  deriving DecidableEq, Inhabited

namespace Date

/-- Every fourth year is a leap year, of full centuries every fourth. -/
def isLeapYear (year : Int) : Bool :=
  year % 4 = 0 && (year % 100 ≠ 0 || year % 400 = 0)

/-- The number of days of a month; none outside January to December. -/
def daysInMonth (year : Int) (month : Nat) : Nat :=
  match month with
  | 1 | 3 | 5 | 7 | 8 | 10 | 12 => 31
  | 4 | 6 | 9 | 11 => 30
  | 2 => if isLeapYear year then 29 else 28
  | _ => 0

/-- The first and the last year that dates are kept for. -/
def firstYear : Int := -262143
def lastYear : Int := 262142

/-- The calendar has this day, in a year that dates are kept for. -/
def isValid (date : Date) : Bool :=
  firstYear ≤ date.year && date.year ≤ lastYear
    && 1 ≤ date.day && date.day ≤ daysInMonth date.year date.month

/-- The day number of a date: 0 for 1970-01-01, negative before it. -/
def days (date : Date) : Int :=
  let year := if date.month ≤ 2 then date.year - 1 else date.year
  let monthFromMarch : Int := if date.month ≤ 2 then date.month + 9 else date.month - 3
  let era := year / 400
  let yearOfEra := year - era * 400
  let dayOfYear := (153 * monthFromMarch + 2) / 5 + date.day - 1
  let dayOfEra := yearOfEra * 365 + yearOfEra / 4 - yearOfEra / 100 + dayOfYear
  era * 146097 + dayOfEra - 719468

/-- The date of a day number. -/
def ofDays (days : Int) : Date :=
  let shifted := days + 719468
  let era := shifted / 146097
  let dayOfEra := shifted - era * 146097
  let yearOfEra := (dayOfEra - dayOfEra / 1460 + dayOfEra / 36524 - dayOfEra / 146096) / 365
  let dayOfYear := dayOfEra - (365 * yearOfEra + yearOfEra / 4 - yearOfEra / 100)
  let monthFromMarch := (5 * dayOfYear + 2) / 153
  let day := dayOfYear - (153 * monthFromMarch + 2) / 5 + 1
  let month := if monthFromMarch < 10 then monthFromMarch + 3 else monthFromMarch - 9
  let year := yearOfEra + era * 400
  ⟨if month ≤ 2 then year + 1 else year, month.toNat, day.toNat⟩

end Date

end DocumentAccess
