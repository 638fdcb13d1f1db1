/-!
# Finite binary64 numbers

A finite IEEE 754 double is an integer multiple of `2⁻¹⁰⁷⁴`, the smallest positive double.  It is kept
as that multiple and a sign, so that arithmetic is exact arithmetic on natural numbers followed by
one rounding.

* `Binary64` — the sign (zero has one too) and the number of units of `2⁻¹⁰⁷⁴`.
* `Binary64.nearest` — the representable number of units nearest to a quotient, ties to even, or
  nothing when that overflows.
* `Binary64.add`, `mul`, `div` — the correctly rounded operations; an overflow gives nothing.
* `==` compares by value: the two zeros are equal.
-/

namespace DocumentAccess

/-- A finite double: the value is `units · 2⁻¹⁰⁷⁴`, negated if `negative`. -/
structure Binary64 where
  negative : Bool
  units : Nat
  deriving DecidableEq, Inhabited

namespace Binary64

/-- The number of units in 1. -/
def one : Nat := Nat.pow 2 1074

/-- The value in units, signed; the two zeros have the same. -/
def signed (x : Binary64) : Int :=
  if x.negative then -(x.units : Int) else x.units

/-- Equality of values: zero equals negative zero. -/
instance : BEq Binary64 where
  beq x y := decide (x.signed = y.signed)

/-- The quotient rounded to the nearest natural number, a half to the even neighbour. -/
def roundHalfEven (num den : Nat) : Nat :=
  let quotient := num / den
  let twice := 2 * (num % den)
  if twice < den then quotient
  else if den < twice then quotient + 1
  else quotient + quotient % 2

/-- The distance between neighbouring doubles at a magnitude of `units`: 53 significant bits, and
never less than one unit. -/
def spacing (units : Nat) : Nat :=
  Nat.pow 2 (Nat.log2 units - 52)

/-- The first number of units that is too large for a double, `2¹⁰²⁴`. -/
def overflow : Nat := Nat.pow 2 2098

/-- The representable number of units nearest to `num / den`, ties to even, unless it overflows. -/
def nearest (num den : Nat) : Option Nat :=
  let step := spacing (num / den)
  let units := roundHalfEven num (den * step) * step
  if units < overflow then some units else none

/-- The double nearest to a natural number. -/
def ofNat? (n : Nat) : Option Binary64 :=
  (nearest (n * one) 1).map fun units => ⟨false, units⟩

/-- The double nearest to an integer. -/
def ofInt? (n : Int) : Option Binary64 :=
  (nearest (n.natAbs * one) 1).map fun units => ⟨decide (n < 0), units⟩

def neg (x : Binary64) : Binary64 :=
  ⟨!x.negative, x.units⟩

def isZero (x : Binary64) : Bool :=
  x.units == 0

/-- The sum, rounded once.  A sum of zero is negative only when both operands are. -/
def add (x y : Binary64) : Option Binary64 :=
  let sum := x.signed + y.signed
  (nearest sum.natAbs 1).map fun units =>
    ⟨if sum = 0 then x.negative && y.negative else decide (sum < 0), units⟩

/-- The product, rounded once. -/
def mul (x y : Binary64) : Option Binary64 :=
  (nearest (x.units * y.units) one).map fun units => ⟨x.negative != y.negative, units⟩

/-- The quotient, rounded once; nothing for a zero divisor. -/
def div (x y : Binary64) : Option Binary64 :=
  if y.isZero then none
  else (nearest (x.units * one) y.units).map fun units => ⟨x.negative != y.negative, units⟩

/-- Values are equal when they are the same number of signed units. -/
theorem beq_iff {x y : Binary64} : (x == y) = true ↔ x.signed = y.signed :=
  decide_eq_true_iff

instance : EquivBEq Binary64 where
  rfl := beq_iff.2 rfl
  symm hxy := beq_iff.2 (beq_iff.1 hxy).symm
  trans hxy hyz := beq_iff.2 ((beq_iff.1 hxy).trans (beq_iff.1 hyz))

end Binary64

end DocumentAccess
