import DocumentAccess.Keyed
import DocumentAccess.Number.Basic

/-!
# Document values

Documents, filters, update commands and requests are all values of one kind: null, truth values,
numbers, texts, lists and objects.  The members of an object are a map sorted by key
(`DocumentAccess.Keyed`), and every walk over an object goes in that order.

* `Value` — the type; definitions on it recurse over a value, a list of values and a list of members
  together.
* `Value.beq` — equality of values, with numbers compared by `Number.beq`.
* `Value.WellOrdered` — every object inside has its members in strictly ascending key order.
-/

namespace DocumentAccess

inductive Value where
  | null
  | bool (value : Bool)
  | number (value : Number)
  | string (value : String)
  | array (items : List Value)
  | object (members : List (String × Value))
  deriving Inhabited

/-- The members of an object. -/
abbrev Members := List (String × Value)

namespace Value

mutual

/-- Equality of values: numbers by `Number.beq`, everything else by structure. -/
def beq : Value → Value → Bool
  | .null, .null => true
  | .bool a, .bool b => a == b
  | .number a, .number b => a == b
  | .string a, .string b => a == b
  | .array as, .array bs => beqItems as bs
  | .object as, .object bs => beqMembers as bs
  | _, _ => false

def beqItems : List Value → List Value → Bool
  | [], [] => true
  | a :: as, b :: bs => beq a b && beqItems as bs
  | _, _ => false

def beqMembers : List (String × Value) → List (String × Value) → Bool
  | [], [] => true
  | (k, a) :: as, (l, b) :: bs => k == l && beq a b && beqMembers as bs
  | _, _ => false

end

instance : BEq Value := ⟨beq⟩

mutual

/-- Every object inside has its members in strictly ascending key order. -/
def WellOrdered : Value → Prop
  | .array items => WellOrderedItems items
  | .object members => Keyed.Sorted members ∧ WellOrderedMembers members
  | _ => True

def WellOrderedItems : List Value → Prop
  | [] => True
  | item :: rest => WellOrdered item ∧ WellOrderedItems rest

def WellOrderedMembers : List (String × Value) → Prop
  | [] => True
  | (_, value) :: rest => WellOrdered value ∧ WellOrderedMembers rest

end

/-! ## Views -/

def isObject : Value → Bool
  | .object _ => true
  | _ => false

def members? : Value → Option Members
  | .object members => some members
  | _ => none

def string? : Value → Option String
  | .string s => some s
  | _ => none

/-- The value as an unsigned 64-bit integer, if it is one. -/
def natural? : Value → Option Nat
  | .number n => n.natural?
  | _ => none

/-- The member of an object at a key; values of other kinds have none. -/
def get? (key : String) : Value → Option Value
  | .object members => Keyed.find? key members
  | _ => none

/-! ## Construction -/

/-- An object from its members in any order; of several with one key the last stays. -/
def ofMembers (members : List (String × Value)) : Value :=
  .object (Keyed.ofList members)

def ofNat (n : Nat) : Value :=
  .number (.int n)

def ofInt (n : Int) : Value :=
  .number (.int n)

/-- A list of texts. -/
def ofStrings (texts : List String) : Value :=
  .array (texts.map .string)

/-- A value that may be absent, with null for its absence. -/
def ofOption {α : Type} (encode : α → Value) : Option α → Value
  | some a => encode a
  | none => .null

end Value

end DocumentAccess
