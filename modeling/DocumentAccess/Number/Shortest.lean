import DocumentAccess.Number.Binary64

/-!
# The shortest decimal of a double

A double is written with the fewest significant digits that read back as the same double.  The
decimals that read back fill an interval around the value that ends half way to the neighbouring
doubles; the ends belong to it when the significand is even.  For one digit, two digits and so on,
the two decimals of that length next to the value are tried, and the first length with a hit wins.

* `Decimal` — a whole coefficient and a power of ten.
* `Decimal.shortest` — the shortest decimal of a positive double, the nearer one of two hits.
* `Decimal.Layout`, `Decimal.write` — positional notation between two decimal exponents, and a mantissa
  with an exponent outside them.
-/

namespace DocumentAccess

/-- The number `coefficient · 10 ^ exponent`. -/
structure Decimal where
  coefficient : Nat
  exponent : Int
  deriving DecidableEq

namespace Decimal

/-- The digits of a natural number, the most significant first. -/
def digits (n : Nat) : List Char :=
  Nat.toDigits 10 n

/-- A natural number in decimal. -/
def natural (n : Nat) : String :=
  String.ofList (digits n)

/-- `5 ^ 1074`: one unit of `2⁻¹⁰⁷⁴` is this many times `10⁻¹⁰⁷⁴`. -/
def fives : Nat := Nat.pow 5 1074

/-- The decimals that read back as the double of `units` units, as an interval in quarters of
`10⁻¹⁰⁷⁴`, with a flag that says whether its ends belong to it. -/
structure Readback where
  low : Nat
  high : Nat
  closed : Bool

/-- Half way to the neighbours above and below; below a power of two the spacing is halved. -/
def readback (units : Nat) : Readback :=
  let step := Binary64.spacing units
  let below := if units = Nat.pow 2 (Nat.log2 units) ∧ 1 < step then step else 2 * step
  { low := (4 * units - below) * fives
    high := (4 * units + 2 * step) * fives
    closed := (units / step) % 2 = 0 }

/-- Whether a number of quarters of `10⁻¹⁰⁷⁴` reads back. -/
def Readback.holds (interval : Readback) (quarters : Nat) : Bool :=
  if interval.closed then interval.low ≤ quarters && quarters ≤ interval.high
  else interval.low < quarters && quarters < interval.high

/-- The coefficient of a decimal with last place `10 ^ place` (counted from `10⁻¹⁰⁷⁴`) that reads
back, if one of the two next to `scaled` does; the nearer one of two, and of two equally near ones the
even one. -/
def atPlace? (interval : Readback) (scaled place : Nat) : Option Nat :=
  let unit := Nat.pow 10 place
  let under := scaled / unit
  let next := under + 1
  match interval.holds (4 * under * unit), interval.holds (4 * next * unit) with
  | true, false => some under
  | false, true => some next
  | false, false => none
  | true, true =>
    let rest := 2 * (scaled - under * unit)
    if rest < unit then some under
    else if unit < rest then some next
    else some (under + under % 2)

/-- A decimal without trailing zeros in its coefficient; `fuel` bounds their number. -/
def strip : Nat → Decimal → Decimal
  | 0, d => d
  | fuel + 1, d =>
    if d.coefficient % 10 = 0 ∧ d.coefficient ≠ 0 then
      strip fuel ⟨d.coefficient / 10, d.exponent + 1⟩
    else d

/-- The shortest decimal that reads back as the double of `units` units. -/
def shortest (units : Nat) : Decimal :=
  let scaled := units * fives
  let count := (digits scaled).length
  let interval := readback units
  let found := (List.range 17).findSome? fun i =>
    let place := count - (i + 1)
    (atPlace? interval scaled place).map fun c => (⟨c, (place : Int) - 1074⟩ : Decimal)
  strip 20 (found.getD ⟨scaled, -1074⟩)

/-- The decimal exponents of the leading digit that are written positionally. -/
structure Layout where
  lowest : Int
  highest : Int

/-- The exponent of the leading digit. -/
def leading (d : Decimal) : Int :=
  d.exponent + (digits d.coefficient).length - 1

/-- Digits with a point after the first `whole` of them; zeros fill up, and at least one digit stands
on each side of the point. -/
def positional (d : Decimal) : List Char :=
  let ds := digits d.coefficient
  if d.leading < 0 then
    "0.".toList ++ List.replicate (-d.leading - 1).toNat '0' ++ ds
  else
    let whole := d.leading.toNat + 1
    let padded := ds ++ List.replicate (whole - ds.length) '0'
    let fraction := padded.drop whole
    padded.take whole ++ '.' :: (if fraction.isEmpty then ['0'] else fraction)

/-- The first digit, a point and the other digits if there are any, and the signed exponent. -/
def scientific (d : Decimal) : List Char :=
  let mantissa := match digits d.coefficient with
    | first :: [] => [first]
    | first :: rest => first :: '.' :: rest
    | [] => []
  let sign := if d.leading < 0 then '-' else '+'
  mantissa ++ 'e' :: sign :: digits d.leading.natAbs

/-- Positional inside the layout's range, scientific outside it. -/
def write (layout : Layout) (d : Decimal) : List Char :=
  if layout.lowest ≤ d.leading ∧ d.leading ≤ layout.highest then d.positional else d.scientific

end Decimal

/-- The text of a double; both zeros keep their sign. -/
def Binary64.write (layout : Decimal.Layout) (x : Binary64) : List Char :=
  let magnitude := if x.isZero then "0.0".toList else (Decimal.shortest x.units).write layout
  if x.negative then '-' :: magnitude else magnitude

end DocumentAccess
