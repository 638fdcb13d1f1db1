import DocumentAccess.Value

/-!
# JSON as written

A JSON text is read in two steps.  The grammar alone gives a tree of what stands in the text: numbers
as literals, members in the order written, repeated keys included.  Taking it as a value then decides
what numbers are, joins surrogate pairs, lets the last of several members with one key win, and bounds
the nesting.

Readers that know which members they want work on the tree, so that members they do not know are held
to the grammar only.

* `NumberLiteral`, `NumberLiteral.number?` — the parts of a number, and the number they denote.
* `textOfUnits?` — the text of a string literal, unless it holds half a surrogate pair.
* `Written`, `Written.value?` — the tree, and the value it denotes.
-/

namespace DocumentAccess.Json

/-! ## Numbers -/

/-- A number as written: `fraction` and `exponent` are present when their mark is. -/
structure NumberLiteral where
  negative : Bool
  whole : List Nat
  fraction : Option (List Nat)
  exponent : Option Int

/-- Takes digits into a 64-bit significand as long as they fit, and returns those that are left. -/
def absorb : Nat → List Nat → Nat × List Nat
  | significand, [] => (significand, [])
  | significand, d :: rest =>
    if significand * 10 + d < Number.wordCount then absorb (significand * 10 + d) rest
    else (significand, d :: rest)

/-- A power of ten up to `10³⁰⁸`, as a double. -/
def powerOfTen? (exponent : Nat) : Option Binary64 :=
  Binary64.ofNat? (Nat.pow 10 exponent)

/-- Divides by `10³⁰⁸` so many times, or until nothing is left. -/
def shrink : Nat → Binary64 → Option Binary64
  | 0, x => some x
  | times + 1, x =>
    if x.isZero then some x else ((powerOfTen? 308).bind x.div).bind (shrink times)

/-- Divides by `10 ^ places`, at most 308 places at a time. -/
def scaleDown (x : Binary64) (places : Nat) : Option Binary64 :=
  let times := (places - 1) / 308
  (shrink times x).bind fun x => (powerOfTen? (places - times * 308)).bind x.div

/-- `significand · 10 ^ exponent`, each factor and the result rounded to a double; nothing if it
overflows. -/
def scale (significand : Nat) (exponent : Int) : Option Binary64 :=
  (Binary64.ofNat? significand).bind fun x =>
    if exponent < 0 then scaleDown x exponent.natAbs
    else if exponent ≤ 308 then (powerOfTen? exponent.natAbs).bind x.mul
    else if x.isZero then some x
    else none

/-- The significand that the digits of a literal fill, and the power of ten it is scaled by: digits of
the whole part that did not fit count up, digits of the fraction that did count down. -/
def NumberLiteral.parts (literal : NumberLiteral) : Nat × Int :=
  let (whole, excess) := absorb 0 literal.whole
  let fraction := literal.fraction.getD []
  let (significand, left) := absorb whole fraction
  (significand, (excess.length : Int) - ((fraction.length - left.length : Nat) : Int)
    + literal.exponent.getD 0)

/-- The double that a literal denotes. -/
def NumberLiteral.float? (literal : NumberLiteral) : Option Binary64 :=
  let (significand, exponent) := literal.parts
  (scale significand exponent).map fun x => if literal.negative then x.neg else x

/-- The value of a list of digits. -/
def natOfDigits (digits : List Nat) : Nat :=
  digits.foldl (fun n d => n * 10 + d) 0

/-- The integer that a literal denotes: no fraction, no exponent, and within an unsigned 64-bit word,
or within a signed one when it is negative.  Negative zero is not an integer. -/
def NumberLiteral.int? (literal : NumberLiteral) : Option Int :=
  match literal.fraction, literal.exponent with
  | none, none =>
    let n := natOfDigits literal.whole
    if literal.negative then
      if 0 < n ∧ n ≤ 9223372036854775808 then some (-(n : Int)) else none
    else if n < Number.wordCount then some n
    else none
  | _, _ => none

/-- The number that a literal denotes: an integer if it is one, otherwise a double, if it is finite. -/
def NumberLiteral.number? (literal : NumberLiteral) : Option Number :=
  match literal.int? with
  | some n => some (.int n)
  | none => literal.float?.map .float

/-! ## Texts -/

def isHighSurrogate (unit : Nat) : Bool := 0xD800 ≤ unit && unit ≤ 0xDBFF

def isLowSurrogate (unit : Nat) : Bool := 0xDC00 ≤ unit && unit ≤ 0xDFFF

/-- The character that two surrogates stand for together. -/
def joinSurrogates (high low : Nat) : Char :=
  Char.ofNat (0x10000 + (high - 0xD800) * 0x400 + (low - 0xDC00))

/-- The text of a string literal's code units; surrogates count in pairs only. -/
def textOfUnits? : List Nat → Option (List Char)
  | [] => some []
  | [unit] => if isHighSurrogate unit || isLowSurrogate unit then none else some [Char.ofNat unit]
  | unit :: next :: rest =>
    if isHighSurrogate unit then
      if isLowSurrogate next then (textOfUnits? rest).map (joinSurrogates unit next :: ·) else none
    else if isLowSurrogate unit then none
    else (textOfUnits? (next :: rest)).map (Char.ofNat unit :: ·)

/-! ## Trees -/

/-- What a JSON text says.  A string literal without a text (half a surrogate pair) is `none`. -/
inductive Written where
  | null
  | bool (value : Bool)
  | number (literal : NumberLiteral)
  | string (text : Option String)
  | array (items : List Written)
  | object (members : List (Option String × Written))
  deriving Inhabited

/-- Lists and objects inside each other may be this many. -/
def maxDepth : Nat := 127

namespace Written

mutual

/-- The value that a tree denotes when lists and objects may be nested `room` deep. -/
def valueWithin? (room : Nat) : Written → Option Value
  | .null => some .null
  | .bool b => some (.bool b)
  | .number literal => literal.number?.map .number
  | .string text => text.map .string
  | .array items =>
    match room with
    | 0 => none
    | room + 1 => (itemsWithin? room items).map .array
  | .object members =>
    match room with
    | 0 => none
    | room + 1 => (membersWithin? room members).map Value.ofMembers

def itemsWithin? (room : Nat) : List Written → Option (List Value)
  | [] => some []
  | item :: rest =>
    match valueWithin? room item, itemsWithin? room rest with
    | some value, some values => some (value :: values)
    | _, _ => none

def membersWithin? (room : Nat) : List (Option String × Written) → Option (List (String × Value))
  | [] => some []
  | (key?, member) :: rest =>
    match key?, valueWithin? room member, membersWithin? room rest with
    | some key, some value, some values => some ((key, value) :: values)
    | _, _, _ => none

end

/-- The value that a tree denotes. -/
def value? (tree : Written) : Option Value :=
  valueWithin? maxDepth tree

end Written

end DocumentAccess.Json
