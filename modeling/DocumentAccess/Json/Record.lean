import DocumentAccess.Json.Written

/-!
# Records in JSON

A record with known fields is given as an object with these members, others being ignored, or as a
list of the fields' values in their declared order, from which fields at the end may be missing.
Reading a record gives, for each field in order, the value given for it.

* `Record.ofValue?` — the fields of a record given as a value.
* `Record.ofWritten?` — the same for a record as written, where a known member may stand only once and
  unknown members are not looked into.
* `Record.field?`, `Record.optional?` — a field with a fallback, and a field that may be null.
-/

namespace DocumentAccess.Record

/-- The items of a list as the first of `count` fields, if there are not too many. -/
def positional? {α : Type} (count : Nat) (items : List α) : Option (List (Option α)) :=
  if items.length ≤ count then
    some (items.map some ++ List.replicate (count - items.length) none)
  else none

/-- What a value gives for each named field. -/
def ofValue? (names : List String) : Value → Option (List (Option Value))
  | .object members => some (names.map fun name => Keyed.find? name members)
  | .array items => positional? names.length items
  | _ => none

/-- The only member with a key; `none` if there are several. -/
def single? (members : List (Option String × Json.Written)) (name : String) :
    Option (Option Json.Written) :=
  match members.filter fun member => member.1 == some name with
  | [] => some none
  | [member] => some (some member.2)
  | _ => none

/-- What a tree gives for each named field. -/
def ofWritten? (names : List String) : Json.Written → Option (List (Option Json.Written))
  | .object members =>
    if members.all fun member => member.1.isSome then names.mapM (single? members) else none
  | .array items => positional? names.length items
  | _ => none

/-- A field that has a fallback for when it is not given. -/
def field? {α : Type} (decode : Value → Option α) (fallback : Option α) : Option Value → Option α
  | none => fallback
  | some value => decode value

/-- A field that may be missing or null. -/
def optional? {α : Type} (decode : Value → Option α) : Option Value → Option (Option α)
  | none | some .null => some none
  | some value => (decode value).map some

end DocumentAccess.Record
