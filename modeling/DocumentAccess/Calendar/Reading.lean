import DocumentAccess.Calendar.Instant
import DocumentAccess.Text.Blank
import DocumentAccess.Value

/-!
# Reading instants

The value of a date operator may be a text in one of four forms, a count of milliseconds, or an
object with the one member `$date` that holds such a value.

* `Instant.ofTimestamp?` — RFC 3339, fixed widths, with an offset.
* `Instant.ofLoose?` — `YYYY-MM-DDTHH:MM:SS`, `YYYY-MM-DD` and `MM-DD-YYYY` in UTC, where numbers may be
  short and blanks may stand in front of them.
* `Instant.ofText?`, `Instant.ofValue?` — all forms of a text, and of a value.
-/

namespace DocumentAccess.Instant

/-! ## Numbers inside a text -/

/-- The number that at most `most` leading digits stand for, how many digits those are, and the rest. -/
def takeDigits (most : Nat) (text : List Char) : Nat × Nat × List Char :=
  let digits := (text.take most).takeWhile Char.isDigit
  (digits.foldl (fun n c => n * 10 + (c.toNat - 48)) 0, digits.length, text.drop digits.length)

/-- Reads exactly `width` digits. -/
def fixed? (width : Nat) (text : List Char) : Option (Nat × List Char) :=
  let (n, count, rest) := takeDigits width text
  if count = width then some (n, rest) else none

/-- Reads one to `width` digits behind blanks. -/
def loose? (width : Nat) (text : List Char) : Option (Nat × List Char) :=
  let (n, count, rest) := takeDigits width (Text.dropBlanks text)
  if count = 0 then none else some (n, rest)

/-- Reads at least one digit, with no blank in front. -/
def unbounded? (text : List Char) : Option (Nat × List Char) :=
  let (n, count, rest) := takeDigits text.length text
  if count = 0 then none else some (n, rest)

/-- Reads a year behind blanks: one to four digits, or a sign and any number of digits. -/
def looseYear? (text : List Char) : Option (Int × List Char) :=
  match Text.dropBlanks text with
  | '-' :: rest => (unbounded? rest).map fun (n, rest) => (-(n : Int), rest)
  | '+' :: rest => (unbounded? rest).map fun (n, rest) => ((n : Int), rest)
  | rest => (loose? 4 rest).map fun (n, rest) => ((n : Int), rest)

/-- Reads one given character. -/
def mark? (c : Char) : List Char → Option (List Char)
  | d :: rest => if d = c then some rest else none
  | [] => none

/-! ## Times -/

/-- The second of the day and the nanoseconds of a time of day; second 60 is the leap second of
second 59. -/
def timeOfDay? (hour minute second nanos : Nat) : Option (Int × Nat) :=
  if hour < 24 ∧ minute < 60 ∧ second ≤ 60 then
    let start : Int := (hour * 3600 + minute * 60 : Nat)
    if second = 60 then some (start + 59, nanos + nanosPerSecond)
    else some (start + second, nanos)
  else none

/-- The instant of a date and a time of day, if the calendar has that date. -/
def at? (date : Date) (time : Int × Nat) : Option Instant :=
  if date.isValid then some (ofDate date time.1 time.2) else none

/-! ## RFC 3339 -/

/-- Reads the fraction of a second, if a point announces one: nine digits count, more are skipped. -/
def fraction? : List Char → Option (Nat × List Char)
  | '.' :: rest =>
    let (n, count, rest) := takeDigits 9 rest
    if count = 0 then none
    else some (n * Nat.pow 10 (9 - count), rest.dropWhile Char.isDigit)
  | rest => some (0, rest)

/-- The offset behind its sign, in seconds: hours and minutes, below one day. -/
def offset? (text : List Char) : Option Int := do
  let (hours, text) ← fixed? 2 text
  let text ← mark? ':' text
  let (minutes, text) ← fixed? 2 text
  if text.isEmpty ∧ minutes < 60 ∧ hours < 24 then
    some ((hours * 3600 + minutes * 60 : Nat) : Int)
  else none

/-- The zone that ends a timestamp: `Z`, or a sign and an offset; U+2212 is a minus sign too. -/
def zone? : List Char → Option Int
  | ['Z'] | ['z'] => some 0
  | '+' :: rest => offset? rest
  | '-' :: rest | '\u2212' :: rest => (offset? rest).map fun seconds => -seconds
  | _ => none

/-- Reads an RFC 3339 timestamp. -/
def ofTimestamp? (text : List Char) : Option Instant := do
  let (year, text) ← fixed? 4 text
  let text ← mark? '-' text
  let (month, text) ← fixed? 2 text
  let text ← mark? '-' text
  let (day, text) ← fixed? 2 text
  let text ← match text with
    | 'T' :: rest | 't' :: rest | ' ' :: rest => some rest
    | _ => none
  let (hour, text) ← fixed? 2 text
  let text ← mark? ':' text
  let (minute, text) ← fixed? 2 text
  let text ← mark? ':' text
  let (second, text) ← fixed? 2 text
  let (nanos, text) ← fraction? text
  let offset ← zone? text
  let time ← timeOfDay? hour minute second nanos
  let instant ← at? ⟨year, month, day⟩ time
  some ⟨instant.seconds - offset, instant.nanos⟩

/-! ## Loose forms -/

/-- Reads `YYYY-MM-DD`. -/
def looseDate? (text : List Char) : Option (Date × List Char) := do
  let (year, text) ← looseYear? text
  let text ← mark? '-' text
  let (month, text) ← loose? 2 text
  let text ← mark? '-' text
  let (day, text) ← loose? 2 text
  some (⟨year, month, day⟩, text)

/-- Reads `MM-DD-YYYY`. -/
def looseMonthFirst? (text : List Char) : Option (Date × List Char) := do
  let (month, text) ← loose? 2 text
  let text ← mark? '-' text
  let (day, text) ← loose? 2 text
  let text ← mark? '-' text
  let (year, text) ← looseYear? text
  some (⟨year, month, day⟩, text)

/-- Midnight of a date that a whole text was read as. -/
def midnight? : Option (Date × List Char) → Option Instant
  | some (date, []) => at? date (0, 0)
  | _ => none

/-- Reads `YYYY-MM-DDTHH:MM:SS`. -/
def looseTimestamp? (text : List Char) : Option Instant := do
  let (date, text) ← looseDate? text
  let text ← mark? 'T' text
  let (hour, text) ← loose? 2 text
  let text ← mark? ':' text
  let (minute, text) ← loose? 2 text
  let text ← mark? ':' text
  let (second, text) ← loose? 2 text
  if text.isEmpty then
    let time ← timeOfDay? hour minute second 0
    at? date time
  else none

/-- The forms without an offset, in this order. -/
def ofLoose? (text : List Char) : Option Instant :=
  (looseTimestamp? text).or
    ((midnight? (looseDate? text)).or (midnight? (looseMonthFirst? text)))

/-! ## All forms -/

/-- The instant that a text names, blanks around it ignored. -/
def ofText? (text : String) : Option Instant :=
  let text := Text.trimChars text.toList
  (ofTimestamp? text).or (ofLoose? text)

/-- The key that wraps a date value. -/
def wrapper : String := "$date"

mutual

/-- The instant that a value names: a text, a count of milliseconds, or either inside `$date`
wrappers. -/
def ofValue? : Value → Option Instant
  | .string text => ofText? text
  | .number n => n.word?.bind ofMillis?
  | .object members => ofWrapper? members
  | _ => none

/-- The instant inside a wrapper, whose only member is `$date`. -/
def ofWrapper? : List (String × Value) → Option Instant
  | [(key, value)] => if key = wrapper then ofValue? value else none
  | _ => none

end

/-- The value that an instant is written as in a filter. -/
def toValue (instant : Instant) : Value :=
  .object [(wrapper, .string instant.text)]

end DocumentAccess.Instant
