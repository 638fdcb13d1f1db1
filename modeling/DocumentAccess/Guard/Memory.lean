import DocumentAccess.Number.Shortest
import DocumentAccess.Plan.Store

/-!
# A store in memory

Documents held in lists by model.  A document matches a filter object when it has each of its members
as a top-level member; operators are not interpreted.  Operations can be made to fail.

* `MemoryStore` — the documents, the failures and the number of saves so far.
* `MemoryStore.store` — its operations.
-/

namespace DocumentAccess

/-- Failures to be met: a text for an operation that always fails, and the number of a save that does. -/
structure Failures where
  find : Option String
  count : Option String
  remove : Option String
  save : Option String
  saveNumber : Option Nat

/-- Documents by model, failures, and how many saves were tried. -/
structure MemoryStore where
  collections : List (String × List Value)
  failures : Failures
  saves : Nat

namespace MemoryStore

/-- The documents of a model. -/
def documents (state : MemoryStore) (model : String) : List Value :=
  (Keyed.find? model state.collections).getD []

/-- A document has each member of a filter object; any other filter is met by all. -/
def meets (filter document : Value) : Bool :=
  match filter with
  | .object members => members.all fun member =>
    match document.get? member.1 with
    | some value => value == member.2
    | none => false
  | _ => true

/-- Two documents have equal identifiers, or both have none. -/
def sameIdentifier (a b : Value) : Bool :=
  match a.get? "_id", b.get? "_id" with
  | some a, some b => a == b
  | none, none => true
  | _, _ => false

/-- Replaces the first document with the same identifier, or appends. -/
def put (document : Value) : List Value → List Value
  | [] => [document]
  | other :: rest =>
    if sameIdentifier other document then document :: rest else other :: put document rest

/-- The state with other documents for a model. -/
def replace (state : MemoryStore) (model : String) (documents : List Value) : MemoryStore :=
  { state with collections := Keyed.insert model documents state.collections }

/-- Fails with a text, if one is set. -/
def orFail {α : Type} (failure : Option String) (answer : α) : Except String α :=
  match failure with
  | some message => .error message
  | none => .ok answer

/-- The failure of the save with a number. -/
def saveFailure (failures : Failures) (number : Nat) : Option String :=
  match failures.save with
  | some message => some message
  | none =>
    if failures.saveNumber = some number then
      some ("save " ++ Decimal.natural number ++ " refused")
    else none

/-- Saves a document, unless this save is to fail. -/
def save (state : MemoryStore) (model : String) (document : Value) :
    Except String Value × MemoryStore :=
  let counted := { state with saves := state.saves + 1 }
  match saveFailure state.failures counted.saves with
  | some message => (.error message, counted)
  | none => (.ok document, counted.replace model (put document (counted.documents model)))

/-- Removes the documents that match a filter. -/
def remove (state : MemoryStore) (model : String) (filter : Value) :
    Except String Nat × MemoryStore :=
  match state.failures.remove with
  | some message => (.error message, state)
  | none =>
    let documents := state.documents model
    let kept := documents.filter fun document => !meets filter document
    (.ok (documents.length - kept.length), state.replace model kept)

/-- The operations of a store in memory. -/
def store : Store MemoryStore where
  find state model query :=
    orFail state.failures.find ((state.documents model).filter (meets query.filter))
  count state model filter :=
    orFail state.failures.count ((state.documents model).filter (meets filter)).length
  save := save
  remove := remove

end MemoryStore

end DocumentAccess
