import DocumentAccess.Access.Levels

/-!
# Read requests

What a caller asks to read: a filter, a selection, references to populate, a sort order and a page.
Everything is optional.  The filter may be called `find` or `filter`, not both.

* `ReadRequest` — the request.
* `ReadRequest.ofValue?`, `ofMembers?` — a request given as a record, and one among other members.
-/

namespace DocumentAccess

structure ReadRequest where
  find : Value
  select : Option String
  populate : Option Value
  sort : Option String
  skip : Option Nat
  limit : Option Nat

namespace ReadRequest

/-- A request with only a filter. -/
def ofFilter (find : Value) : ReadRequest :=
  ⟨find, none, none, none, none, none⟩

/-- A request from what is given for each field in order; a filter that is not given is null. -/
def ofFields? : List (Option Value) → Option ReadRequest
  | [find, select, populate, sort, skip, limit] => do
    let select ← Record.optional? Value.string? select
    let populate ← Record.optional? some populate
    let sort ← Record.optional? Value.string? sort
    let skip ← Record.optional? Value.natural? skip
    let limit ← Record.optional? Value.natural? limit
    some ⟨find.getD .null, select, populate, sort, skip, limit⟩
  | _ => none

/-- The fields behind the filter, in order. -/
def otherNames : List String :=
  ["select", "populate", "sort", "skip", "limit"]

/-- A request among the members of an object. -/
def ofMembers? (members : Members) : Option ReadRequest :=
  let others := otherNames.map fun name => Keyed.find? name members
  match Keyed.find? "find" members, Keyed.find? "filter" members with
  | some _, some _ => none
  | find, filter => ofFields? (find.or filter :: others)

/-- A request given as a record. -/
def ofValue? : Value → Option ReadRequest
  | .object members => ofMembers? members
  | value => (Record.ofValue? ("find" :: otherNames) value).bind ofFields?

def toValue (request : ReadRequest) : Value :=
  Value.ofMembers
    [("find", request.find), ("select", .ofOption .string request.select),
      ("populate", request.populate.getD .null), ("sort", .ofOption .string request.sort),
      ("skip", .ofOption .ofNat request.skip), ("limit", .ofOption .ofNat request.limit)]

end ReadRequest

end DocumentAccess
