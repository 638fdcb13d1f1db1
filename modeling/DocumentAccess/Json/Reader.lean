import DocumentAccess.Json.Written

/-!
# Reading JSON

Strict JSON (RFC 8259) by recursive descent.  A reader of a part takes the characters from there on and
returns the part with the characters after it; nothing is returned for a text outside the grammar.
Each recursive call has consumed a character, so the length of the text bounds the descent.

* `readTree?` — the tree of a text that is one JSON value, with blanks around it.
* `read?` — the value of such a text.
-/

namespace DocumentAccess.Json

/-- Space, tab, line feed and carriage return may stand between the parts of a text. -/
def isSpace (c : Char) : Bool :=
  c = ' ' || c = '\t' || c = '\n' || c = '\r'

def skipSpace (text : List Char) : List Char :=
  text.dropWhile isSpace

/-! ## Strings -/

/-- The value of a hexadecimal digit of either case. -/
def hexValue? (c : Char) : Option Nat :=
  if '0' ≤ c ∧ c ≤ '9' then some (c.toNat - 48)
  else if 'a' ≤ c ∧ c ≤ 'f' then some (c.toNat - 87)
  else if 'A' ≤ c ∧ c ≤ 'F' then some (c.toNat - 55)
  else none

/-- The code unit of four hexadecimal digits. -/
def hexUnit? (a b c d : Char) : Option Nat :=
  match hexValue? a, hexValue? b, hexValue? c, hexValue? d with
  | some a, some b, some c, some d => some (((a * 16 + b) * 16 + c) * 16 + d)
  | _, _, _, _ => none

/-- The character that a backslash and one character stand for. -/
def escaped? (c : Char) : Option Char :=
  match c with
  | '"' => some '"'
  | '\\' => some '\\'
  | '/' => some '/'
  | 'b' => some '\x08'
  | 'f' => some '\x0c'
  | 'n' => some '\n'
  | 'r' => some '\r'
  | 't' => some '\t'
  | _ => none

/-- Reads a string literal from behind its opening quote: its code units, and the text behind its
closing quote. -/
def readUnits? : List Char → Option (List Nat × List Char)
  | [] => none
  | '"' :: rest => some ([], rest)
  | '\\' :: 'u' :: a :: b :: c :: d :: rest =>
    match hexUnit? a b c d, readUnits? rest with
    | some unit, some (units, rest) => some (unit :: units, rest)
    | _, _ => none
  | '\\' :: c :: rest =>
    match escaped? c, readUnits? rest with
    | some c, some (units, rest) => some (c.toNat :: units, rest)
    | _, _ => none
  | c :: rest =>
    if c < ' ' || c = '\\' then none
    else match readUnits? rest with
      | some (units, rest) => some (c.toNat :: units, rest)
      | none => none

/-- The text of a string literal's code units, if it has one. -/
def textOf (units : List Nat) : Option String :=
  (textOfUnits? units).map String.ofList

/-! ## Numbers -/

def digitValue (c : Char) : Nat :=
  c.toNat - 48

/-- The digits that a text starts with, and what follows them. -/
def readDigits : List Char → List Nat × List Char
  | [] => ([], [])
  | c :: rest =>
    if c.isDigit then
      let (digits, rest) := readDigits rest
      (digitValue c :: digits, rest)
    else ([], c :: rest)

/-- Reads at least one digit. -/
def readDigits? (text : List Char) : Option (List Nat × List Char) :=
  match readDigits text with
  | ([], _) => none
  | found => some found

/-- Reads the fraction, if a point announces one. -/
def readFraction? : List Char → Option (Option (List Nat) × List Char)
  | '.' :: rest => (readDigits? rest).map fun (digits, rest) => (some digits, rest)
  | rest => some (none, rest)

/-- Reads the digits of an exponent behind its mark and sign. -/
def readExponentDigits? (negative : Bool) (text : List Char) : Option (Option Int × List Char) :=
  (readDigits? text).map fun (digits, rest) =>
    (some (if negative then -(natOfDigits digits : Int) else natOfDigits digits), rest)

/-- Reads the exponent, if its mark announces one. -/
def readExponent? : List Char → Option (Option Int × List Char)
  | 'e' :: rest | 'E' :: rest =>
    match rest with
    | '-' :: rest => readExponentDigits? true rest
    | '+' :: rest => readExponentDigits? false rest
    | rest => readExponentDigits? false rest
  | rest => some (none, rest)

/-- Reads a number behind its sign; a leading zero stands alone. -/
def readMagnitude? (negative : Bool) (text : List Char) : Option (NumberLiteral × List Char) :=
  let whole? := match text with
    | '0' :: rest => some ([0], rest)
    | _ => readDigits? text
  match whole? with
  | none => none
  | some (whole, rest) =>
    match readFraction? rest with
    | none => none
    | some (fraction, rest) =>
      (readExponent? rest).map fun (exponent, rest) => (⟨negative, whole, fraction, exponent⟩, rest)

/-- Reads a number. -/
def readNumber? : List Char → Option (NumberLiteral × List Char)
  | '-' :: rest => readMagnitude? true rest
  | text => readMagnitude? false text

/-! ## Values -/

mutual

/-- Reads one value, blanks in front of it skipped. -/
def readValue? (fuel : Nat) (text : List Char) : Option (Written × List Char) :=
  match fuel with
  | 0 => none
  | fuel + 1 =>
    match skipSpace text with
    | 'n' :: 'u' :: 'l' :: 'l' :: rest => some (.null, rest)
    | 't' :: 'r' :: 'u' :: 'e' :: rest => some (.bool true, rest)
    | 'f' :: 'a' :: 'l' :: 's' :: 'e' :: rest => some (.bool false, rest)
    | '"' :: rest => (readUnits? rest).map fun (units, rest) => (.string (textOf units), rest)
    | '[' :: rest =>
      match skipSpace rest with
      | ']' :: rest => some (.array [], rest)
      | rest => (readItems? fuel rest).map fun (items, rest) => (.array items, rest)
    | '\x7b' :: rest =>
      match skipSpace rest with
      | '\x7d' :: rest => some (.object [], rest)
      | rest => (readMembers? fuel rest).map fun (members, rest) => (.object members, rest)
    | text => (readNumber? text).map fun (literal, rest) => (.number literal, rest)

/-- Reads the items of a list up to and with its closing bracket. -/
def readItems? (fuel : Nat) (text : List Char) : Option (List Written × List Char) :=
  match fuel with
  | 0 => none
  | fuel + 1 =>
    match readValue? fuel text with
    | none => none
    | some (item, rest) =>
      match skipSpace rest with
      | ']' :: rest => some ([item], rest)
      | ',' :: rest => (readItems? fuel rest).map fun (items, rest) => (item :: items, rest)
      | _ => none

/-- Reads the members of an object up to and with its closing brace. -/
def readMembers? (fuel : Nat) (text : List Char) :
    Option (List (Option String × Written) × List Char) :=
  match fuel with
  | 0 => none
  | fuel + 1 =>
    match skipSpace text with
    | '"' :: rest =>
      match readUnits? rest with
      | none => none
      | some (units, rest) =>
        match skipSpace rest with
        | ':' :: rest =>
          match readValue? fuel rest with
          | none => none
          | some (value, rest) =>
            match skipSpace rest with
            | '\x7d' :: rest => some ([(textOf units, value)], rest)
            | ',' :: rest =>
              (readMembers? fuel rest).map fun (members, rest) =>
                ((textOf units, value) :: members, rest)
            | _ => none
        | _ => none
    | _ => none

end

/-- `readTree?` on characters. -/
def readTreeChars? (text : List Char) : Option Written :=
  match readValue? (text.length + 1) text with
  | some (tree, rest) => if (skipSpace rest).isEmpty then some tree else none
  | none => none

/-- The tree of a text that is one JSON value. -/
def readTree? (text : String) : Option Written :=
  readTreeChars? text.toList

/-- The value of a text that is one JSON value. -/
def read? (text : String) : Option Value :=
  (readTree? text).bind Written.value?

end DocumentAccess.Json
