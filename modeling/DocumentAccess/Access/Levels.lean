import DocumentAccess.Json.Record

/-!
# Actions and levels

Four actions are told apart, and for each a caller holds a level, a natural number in 32 bits.  A
higher level permits whatever a lower one does.

* `Action` — create, read, update, delete.
* `Levels` — a level for each action: those of a caller, or those that fields without a rule
  ask for.
* `Levels.ofCaller?`, `Levels.ofDefaults?` — levels read from a value; what is missing is 0, or, for
  defaults, 1 for create and delete.
-/

namespace DocumentAccess

inductive Action where
  | create | read | update | delete
  deriving DecidableEq

namespace Action

def name : Action → String
  | .create => "create"
  | .read => "read"
  | .update => "update"
  | .delete => "delete"

/-- All actions in their customary order. -/
def all : List Action :=
  [.create, .read, .update, .delete]

/-- The action that a name spells. -/
def ofName? (name : String) : Option Action :=
  all.find? fun action => action.name == name

/-- An action given by its name, or as an object whose only member has that name and is null. -/
def ofValue? : Value → Option Action
  | .string name => ofName? name
  | .object [(name, .null)] => ofName? name
  | _ => none

end Action

/-- A level for each action. -/
structure Levels where
  create : Nat
  read : Nat
  update : Nat
  delete : Nat
  deriving DecidableEq

namespace Levels

/-- The same level for every action. -/
def uniform (level : Nat) : Levels :=
  ⟨level, level, level, level⟩

/-- Creating and deleting need level 1, reading and updating are free. -/
def restrictive : Levels :=
  ⟨1, 0, 0, 1⟩

def of (levels : Levels) : Action → Nat
  | .create => levels.create
  | .read => levels.read
  | .update => levels.update
  | .delete => levels.delete

/-- The number of levels: one more than the greatest. -/
def count : Nat := 4294967296

/-- A value as a level. -/
def level? (value : Value) : Option Nat :=
  value.natural?.bind fun n => if n < count then some n else none

/-- The fields of a record of levels, in order. -/
def fieldNames : List String :=
  Action.all.map Action.name

/-- Levels from the fields of a record; a field that is not given takes its fallback. -/
def ofFields? (fallback : Levels) : List (Option Value) → Option Levels
  | [create, read, update, delete] => do
    let create ← Record.field? level? (some fallback.create) create
    let read ← Record.field? level? (some fallback.read) read
    let update ← Record.field? level? (some fallback.update) update
    let delete ← Record.field? level? (some fallback.delete) delete
    some ⟨create, read, update, delete⟩
  | _ => none

/-- The levels of a caller; a missing level is 0. -/
def ofCaller? (value : Value) : Option Levels :=
  (Record.ofValue? fieldNames value).bind (ofFields? (uniform 0))

/-- Default levels; missing ones are restrictive. -/
def ofDefaults? (value : Value) : Option Levels :=
  (Record.ofValue? fieldNames value).bind (ofFields? restrictive)

def toValue (levels : Levels) : Value :=
  Value.ofMembers (Action.all.map fun action => (action.name, .ofNat (levels.of action)))

end Levels

end DocumentAccess
