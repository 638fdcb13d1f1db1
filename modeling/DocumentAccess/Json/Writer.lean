import DocumentAccess.Number.Shortest
import DocumentAccess.Value

/-!
# Writing JSON

Values are written compactly: no blanks, members in the order of the object, so ascending by key.

* `quote` — a string literal: quotes, backslashes and control characters below U+0020 are escaped,
  everything else stands for itself.
* `numberText` — integers in decimal; doubles with the fewest digits that read back, positional for
  decimal exponents from -5 to 15 and always with a fraction there.
* `Value.chars`, `Value.text` — a value's JSON text.
-/

namespace DocumentAccess

namespace Json

/-- The hexadecimal digit of a number below sixteen, lower-case. -/
def hexDigit (n : Nat) : Char :=
  if n < 10 then Char.ofNat (48 + n) else Char.ofNat (87 + n)

/-- The escape of one character inside a string literal. -/
def escape (c : Char) : List Char :=
  match c with
  | '"' => ['\\', '"']
  | '\\' => ['\\', '\\']
  | '\x08' => ['\\', 'b']
  | '\x0c' => ['\\', 'f']
  | '\n' => ['\\', 'n']
  | '\r' => ['\\', 'r']
  | '\t' => ['\\', 't']
  | c =>
    if c < ' ' then ['\\', 'u', '0', '0', hexDigit (c.toNat / 16), hexDigit (c.toNat % 16)]
    else [c]

/-- The string literal of a text. -/
def quoteChars (text : List Char) : List Char :=
  '"' :: text.flatMap escape ++ ['"']

/-- The string literal of a text. -/
def quote (text : String) : List Char :=
  quoteChars text.toList

/-- Doubles are positional for decimal exponents from -5 to 15. -/
def floatLayout : Decimal.Layout := ⟨-5, 15⟩

/-- An integer in decimal. -/
def intText (n : Int) : List Char :=
  if n < 0 then '-' :: Decimal.digits n.natAbs else Decimal.digits n.natAbs

/-- The text of a number. -/
def numberText : Number → List Char
  | .int n => intText n
  | .float x => x.write floatLayout

end Json

namespace Value

mutual

/-- The JSON text of a value, as characters. -/
def chars : Value → List Char
  | .null => "null".toList
  | .bool true => "true".toList
  | .bool false => "false".toList
  | .number n => Json.numberText n
  | .string s => Json.quote s
  | .array [] => ['[', ']']
  | .array (item :: rest) => '[' :: chars item ++ itemsChars rest
  | .object [] => ['\x7b', '\x7d']
  | .object ((key, value) :: rest) =>
    '\x7b' :: Json.quote key ++ ':' :: chars value ++ membersChars rest

/-- The items after the first, each behind a comma, and the closing bracket. -/
def itemsChars : List Value → List Char
  | [] => [']']
  | item :: rest => ',' :: chars item ++ itemsChars rest

/-- The members after the first, each behind a comma, and the closing brace. -/
def membersChars : List (String × Value) → List Char
  | [] => ['\x7d']
  | (key, value) :: rest => ',' :: Json.quote key ++ ':' :: chars value ++ membersChars rest

end

/-- The JSON text of a value. -/
def text (value : Value) : String :=
  String.ofList (chars value)

end Value

end DocumentAccess
