import DocumentAccess.Update.Attempt
import DocumentAccess.Value

/-!
# Addressed arguments

An update argument under a field may select one element of the array in that field:
`_$where_` gives values that fields of the element have, `_$index_` a position, and `_$do_` what is to be
done to the element.

* `Address`, `Address.ofMembers` — whether an argument object selects by a predicate.
* `holds` — whether an element has the values that a predicate asks for.
-/

namespace DocumentAccess.Update

/-- How an argument object says what it is about. -/
inductive Address where
  /-- The field itself. -/
  | direct
  /-- The first element with the predicate's values, and what is to be done to it. -/
  | matching (predicate : Members) (payload : Option Value)
  /-- A predicate that is not an object. -/
  | refused

/-- How an argument object says what it is about. -/
def Address.ofMembers (argument : Members) : Address :=
  match Keyed.find? whereKey argument with
  | none => .direct
  | some (.object predicate) => .matching predicate (Keyed.find? doKey argument)
  | some _ => .refused

/-- The value that keys lead to, from object to object. -/
def lookup : List String → Value → Option Value
  | [], value => some value
  | key :: keys, value => (value.get? key).bind (lookup keys)

/-- The value at a dotted path equals the expected one. -/
def hasValue (element : Value) (path : String) (expected : Value) : Bool :=
  match lookup (Path.segments path) element with
  | some value => value == expected
  | none => false

/-- The element has the value that the predicate asks for at each of its dotted paths. -/
def holds (predicate : Members) (element : Value) : Bool :=
  predicate.all fun entry => hasValue element entry.1 entry.2

/-- Changes the members of an object; no other value can be descended into. -/
def onObject (path : String) (change : Members → Attempt Members) : Value → Attempt Value
  | .object members => (change members).map .object
  | value => .failed value (.notTraversable path)

end DocumentAccess.Update
