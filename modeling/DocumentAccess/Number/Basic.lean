import DocumentAccess.Number.Binary64

/-!
# Numbers of a document

A number is an integer or a double.  Integers stay integers as long as their sums fit in 64 bits; the
two kinds are never equal, however close their values are.

* `Number` — the two kinds.
* `Number.add` — exact on integers that fit, rounded otherwise.
-/

namespace DocumentAccess

inductive Number where
  | int (value : Int)
  | float (value : Binary64)
  deriving DecidableEq, Inhabited

namespace Number

/-- Integers equal integers, and doubles equal doubles of the same value. -/
def beq : Number → Number → Bool
  | .int a, .int b => a == b
  | .float a, .float b => a == b
  | _, _ => false

instance : BEq Number := ⟨beq⟩

instance : EquivBEq Number where
  rfl {a} := by
    show beq a a = true
    cases a <;> simp [beq]
  symm {a b} := by
    show beq a b = true → beq b a = true
    cases a <;> cases b <;> simp only [beq, BEq.comm, imp_self]
  trans {a b c} := by
    show beq a b = true → beq b c = true → beq a c = true
    rcases a with x | x <;> rcases b with y | y <;> rcases c with z | z <;> simp [beq]
    · exact Eq.trans
    · exact BEq.trans

/-- The least and the greatest integer of a signed 64-bit word. -/
def minWord : Int := -9223372036854775808
def maxWord : Int := 9223372036854775807

/-- One more than the greatest unsigned 64-bit word. -/
def wordCount : Nat := 18446744073709551616

/-- The number as a signed 64-bit integer, if it is one. -/
def word? : Number → Option Int
  | .int n => if minWord ≤ n ∧ n ≤ maxWord then some n else none
  | .float _ => none

/-- The number as an unsigned 64-bit integer, if it is one. -/
def natural? : Number → Option Nat
  | .int n => if 0 ≤ n ∧ n.toNat < wordCount then some n.toNat else none
  | .float _ => none

/-- The nearest double. -/
def toBinary64? : Number → Option Binary64
  | .int n => Binary64.ofInt? n
  | .float x => some x

/-- The sum of two 64-bit integers, if it is one again. -/
def addWords? (a b : Number) : Option Int :=
  match a.word?, b.word? with
  | some x, some y => if minWord ≤ x + y ∧ x + y ≤ maxWord then some (x + y) else none
  | _, _ => none

/-- The sum: of two 64-bit integers whose sum is one again, that integer; otherwise the sum of the two
nearest doubles, unless it overflows. -/
def add (a b : Number) : Option Number :=
  match addWords? a b with
  | some n => some (.int n)
  | none =>
    match a.toBinary64?, b.toBinary64? with
    | some x, some y => (x.add y).map .float
    | _, _ => none

end Number

end DocumentAccess
