import DocumentAccess.Access.Levels

/-!
# Access rules

A field of a schema may say which levels its actions ask for.  A rule is read leniently: a
member that is not a level for a known action is dropped, and a rule without members is none.

* `AccessRule` — declared levels; `write` stands for create, update and delete.
* `AccessRule.ofValue?` — the rule that a value gives.
* `AccessRule.grants` — the level of each action that has one.
-/

namespace DocumentAccess

/-- Declared levels; `write` stands for whichever of create, update and delete is not declared. -/
structure AccessRule where
  create : Option Nat
  read : Option Nat
  update : Option Nat
  delete : Option Nat
  write : Option Nat
  deriving DecidableEq

namespace AccessRule

def empty : AccessRule :=
  ⟨none, none, none, none, none⟩

/-- No level is declared. -/
def isEmpty (acl : AccessRule) : Bool :=
  acl == empty

/-- The rule, unless it is empty. -/
def nonEmpty? (acl : AccessRule) : Option AccessRule :=
  if acl.isEmpty then none else some acl

/-- The level that a member of a rule declares, if it is a level. -/
def declared (members : Members) (name : String) : Option Nat :=
  (Keyed.find? name members).bind Levels.level?

/-- The rule that a value gives; members that declare no level are dropped. -/
def ofValue? : Value → Option AccessRule
  | .object members =>
    nonEmpty?
      { create := declared members "create"
        read := declared members "read"
        update := declared members "update"
        delete := declared members "delete"
        write := declared members "write" }
  | _ => none

/-- The level that an action asks for.  An undeclared read asks for the default read level; the other
actions have no level unless they or `write` are declared. -/
def level? (acl : AccessRule) (defaultRead : Nat) : Action → Option Nat
  | .create => acl.create.or acl.write
  | .read => some (acl.read.getD defaultRead)
  | .update => acl.update.or acl.write
  | .delete => acl.delete.or acl.write

/-- The actions that have a level, with their levels. -/
def grants (acl : AccessRule) (defaultRead : Nat) : List (Action × Nat) :=
  Action.all.filterMap fun action =>
    (acl.level? defaultRead action).map fun level => (action, level)

/-- The declared levels by name. -/
def toValue (acl : AccessRule) : Value :=
  Value.ofMembers
    ([("create", acl.create), ("read", acl.read), ("update", acl.update),
      ("delete", acl.delete), ("write", acl.write)].filterMap fun (name, level) =>
        level.map fun level => (name, .ofNat level))

end AccessRule

end DocumentAccess
