import DocumentAccess.Calendar.Date
import DocumentAccess.Number.Shortest

/-!
# Instants

A point in time: whole seconds since 1970-01-01T00:00:00Z and nanoseconds.  A leap second is the
second before it with a thousand million nanoseconds more.

* `Instant` — the type.
* `Instant.ofDate`, `Instant.ofMillis?` — midnight of a date, and a count of milliseconds.
* `Instant.text` — the RFC 3339 text in UTC with milliseconds and `Z`.
-/

namespace DocumentAccess

/-- Seconds since 1970-01-01T00:00:00Z; nanoseconds from a thousand million on mark a leap second. -/
structure Instant where
  seconds : Int
  nanos : Nat
  deriving DecidableEq, Inhabited

namespace Instant

def secondsPerDay : Int := 86400

/-- The nanoseconds of one second. -/
def nanosPerSecond : Nat := 1000000000

/-- The instant of a date and a time of day in UTC. -/
def ofDate (date : Date) (secondOfDay : Int) (nanos : Nat) : Instant :=
  ⟨date.days * secondsPerDay + secondOfDay, nanos⟩

/-- The date of an instant in UTC. -/
def date (instant : Instant) : Date :=
  Date.ofDays (instant.seconds / secondsPerDay)

/-- The seconds since midnight in UTC. -/
def secondOfDay (instant : Instant) : Nat :=
  (instant.seconds % secondsPerDay).toNat

/-- The instant so many milliseconds after 1970-01-01T00:00:00Z, if its date is one that is kept. -/
def ofMillis? (millis : Int) : Option Instant :=
  let instant : Instant := ⟨millis / 1000, (millis % 1000).toNat * 1000000⟩
  if instant.date.isValid then some instant else none

/-- The digits of a number, zeros in front of them up to a width. -/
def padded (width n : Nat) : List Char :=
  let digits := Decimal.digits n
  List.replicate (width - digits.length) '0' ++ digits

/-- Four digits from year 0 to 9999, a sign and at least four digits outside. -/
def yearText (year : Int) : List Char :=
  if 0 ≤ year ∧ year ≤ 9999 then padded 4 year.toNat
  else (if year < 0 then '-' else '+') :: padded 4 year.natAbs

/-- The instant in UTC as `YYYY-MM-DDTHH:MM:SS.mmmZ`, milliseconds truncated; a leap second counts as
second 60. -/
def chars (instant : Instant) : List Char :=
  let date := instant.date
  let second := instant.secondOfDay
  yearText date.year ++ '-' :: padded 2 date.month ++ '-' :: padded 2 date.day
    ++ 'T' :: padded 2 (second / 3600) ++ ':' :: padded 2 (second / 60 % 60)
    ++ ':' :: padded 2 (second % 60 + instant.nanos / nanosPerSecond)
    ++ '.' :: padded 3 (instant.nanos % nanosPerSecond / 1000000) ++ ['Z']

/-- The RFC 3339 text in UTC with milliseconds. -/
def text (instant : Instant) : String :=
  String.ofList instant.chars

end Instant

end DocumentAccess
