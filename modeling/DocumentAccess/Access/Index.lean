import DocumentAccess.Access.Levels
import DocumentAccess.Ascending
import DocumentAccess.Number.Shortest

/-!
# The access index of a schema

An index lists the dotted paths of a schema and what is granted on them: at a level, an action on a
path.  Holding a level implies what is granted at lower ones.

* `Grant`, `AccessIndex` — the parts.
* `AccessIndex.grant`, `addPath`, `addReserved` — building an index; what is there already is not added
  again.
* `AccessIndex.grantedLevel?` — the highest level up to the caller's that grants an action on a path.
* `AccessIndex.grantedPaths` — all paths granted up to a level, lowest level first.
-/

namespace DocumentAccess

/-- An action is permitted on a path from a level on. -/
structure Grant where
  level : Nat
  action : Action
  path : String
  deriving DecidableEq

/-- The grants in the order in which they were made, the addressable paths in the order of the walk,
the reserved paths, and the levels from which documents may be created and deleted. -/
structure AccessIndex where
  grants : List Grant
  all : List String
  reserved : List String
  create : Nat
  delete : Nat
  deriving DecidableEq

/-- A list without repetitions: of equal members the first stays. -/
def distinct : List String → List String
  | [] => []
  | member :: rest => member :: (distinct rest).filter (· ≠ member)

/-- The greatest of a list. -/
def greatest? : List Nat → Option Nat
  | [] => none
  | n :: rest =>
    match greatest? rest with
    | some m => if n < m then some m else some n
    | none => some n

namespace AccessIndex

/-! ## Building -/

/-- An index without paths. -/
def empty (create delete : Nat) : AccessIndex :=
  ⟨[], [], [], create, delete⟩

/-- A list with a member at its end that it does not have yet. -/
def adjoin {α : Type} [DecidableEq α] (members : List α) (member : α) : List α :=
  if member ∈ members then members else members ++ [member]

/-- Grants an action on a path from a level on. -/
def grant (index : AccessIndex) (level : Nat) (action : Action) (path : String) : AccessIndex :=
  { index with grants := adjoin index.grants ⟨level, action, path⟩ }

/-- Makes a path addressable. -/
def addPath (index : AccessIndex) (path : String) : AccessIndex :=
  { index with all := adjoin index.all path }

/-- Adds a path that every document has: anyone may read it. -/
def addReserved (index : AccessIndex) (path : String) : AccessIndex :=
  let index := (index.grant 0 .read path).addPath path
  { index with reserved := adjoin index.reserved path }

/-! ## Looking up -/

/-- The paths granted at exactly this level, in the order of their grants. -/
def pathsAt (index : AccessIndex) (level : Nat) (action : Action) : List String :=
  (index.grants.filter fun grant => grant.level = level ∧ grant.action = action).map Grant.path

/-- The levels with a grant, ascending. -/
def levels (index : AccessIndex) : List Nat :=
  Ascending.ofList (index.grants.map Grant.level)

/-- The path can be addressed. -/
def hasPath (index : AccessIndex) (path : String) : Bool :=
  path ∈ index.all

/-- The path is one that every document has. -/
def isReserved (index : AccessIndex) (path : String) : Bool :=
  path ∈ index.reserved

/-- The highest level up to `ceiling` that grants the action on the path. -/
def grantedLevel? (index : AccessIndex) (path : String) (action : Action) (ceiling : Nat) :
    Option Nat :=
  greatest? ((index.grants.filter fun grant =>
    grant.path = path ∧ grant.action = action ∧ grant.level ≤ ceiling).map Grant.level)

/-- The highest level that grants the action on a path below another. -/
def highestBelow? (index : AccessIndex) (path : String) (action : Action) : Option Nat :=
  greatest? ((index.grants.filter fun grant =>
    grant.action = action ∧ ((path ++ ".").toList.isPrefixOf grant.path.toList) = true).map
      Grant.level)

/-- The paths granted up to a level: those of the lowest level first, each once. -/
def grantedPaths (index : AccessIndex) (action : Action) (ceiling : Nat) : List String :=
  distinct ((index.levels.filter (· ≤ ceiling)).flatMap fun level => index.pathsAt level action)

/-! ## Writing -/

/-- The grants at a level by action; actions without a grant are left out. -/
def levelToValue (index : AccessIndex) (level : Nat) : Value :=
  Value.ofMembers (Action.all.filterMap fun action =>
    match index.pathsAt level action with
    | [] => none
    | paths => some (action.name, .ofStrings paths))

def toValue (index : AccessIndex) : Value :=
  Value.ofMembers
    [("all", .ofStrings index.all), ("create", .ofNat index.create),
      ("delete", .ofNat index.delete),
      ("paths", Value.ofMembers (index.levels.map fun level =>
        (Decimal.natural level, index.levelToValue level)))]

end AccessIndex

end DocumentAccess
