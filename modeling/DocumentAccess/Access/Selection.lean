import DocumentAccess.Access.Index
import DocumentAccess.Access.Populate

/-!
# Access checks against an index

All checks are questions to the index of one schema at a caller's level.  A path that the index does
not know is denied unless it is reserved.

A selection is a text of dotted paths between blanks: `-path` excludes a path and is not checked, `+path`
means `path`.  A selection that includes no path asks for the whole document.

* `AccessIndex.allows`, `denied` — the check of one path, and the paths that fail it.
* `includedPaths`, `AccessIndex.canSelect` — the paths that a selection includes, and whether all may be
  read.
* `AccessIndex.projection`, `projectionText` — everything that may be read.
* `AccessIndex.narrow` — the part of a selection that may be read.
* `AccessIndex.resolve`, `canPopulate`, `narrowPopulate` — the same for a populate entry, asked of the
  index of the schema that its reference points to.
-/

namespace DocumentAccess

/-- A path without the plus sign in front of it. -/
def withoutPlus (entry : String) : String :=
  match entry.toList with
  | '+' :: path => String.ofList path
  | _ => entry

/-- The entry of a selection excludes a path. -/
def isExclusion (entry : String) : Bool :=
  entry.toList.head? == some '-'

/-- The paths that a selection includes, without their signs. -/
def includedPaths (select : String) : List String :=
  (((Text.words select).filter fun entry => !isExclusion entry).map withoutPlus).filter fun path =>
    !path.isEmpty

namespace AccessIndex

/-- Documents may be created at this level. -/
def canCreate (index : AccessIndex) (level : Nat) : Bool :=
  index.create ≤ level

/-- Documents may be deleted at this level. -/
def canDelete (index : AccessIndex) (level : Nat) : Bool :=
  index.delete ≤ level

/-- The action on the path is granted at or below the level, or the path is reserved. -/
def allows (index : AccessIndex) (path : String) (action : Action) (level : Nat) : Bool :=
  index.isReserved path || (index.grantedLevel? path action level).isSome

/-- The paths that are not allowed, in order. -/
def denied (index : AccessIndex) (paths : List String) (action : Action) (level : Nat) :
    List String :=
  paths.filter fun path => !index.allows path action level

/-- All the paths are allowed. -/
def allowsAll (index : AccessIndex) (paths : List String) (action : Action) (level : Nat) : Bool :=
  paths.all fun path => index.allows path action level

/-- Every path that a selection includes may be read; one that includes none asks for all. -/
def canSelect (index : AccessIndex) (select : String) (level : Nat) : Bool :=
  match includedPaths select with
  | [] => index.allowsAll index.all .read level
  | paths => index.allowsAll paths .read level

/-- Every path that may be read, lowest level first. -/
def projection (index : AccessIndex) (level : Nat) : List String :=
  index.grantedPaths .read level

/-- The projection as a selection. -/
def projectionText (index : AccessIndex) (level : Nat) : String :=
  Text.unwords (index.projection level)

/-- The entries of a selection that exclude a path or may be read, signs kept. -/
def narrow (index : AccessIndex) (select : String) (level : Nat) : String :=
  Text.unwords ((Text.words select).filter fun entry =>
    isExclusion entry || index.allows (withoutPlus entry) .read level)

/-! ## Populating

The index is that of the schema whose documents are populated. -/

/-- An entry that leaves the choice open selects everything that may be read. -/
def resolve (index : AccessIndex) (entry : Populate) (level : Nat) : Populate :=
  if entry.isBlank then { entry with select := index.projectionText level } else entry

/-- The selection of an entry may be read. -/
def canPopulate (index : AccessIndex) (entry : Populate) (level : Nat) : Bool :=
  index.canSelect (index.resolve entry level).select level

/-- The entry with the part of its selection that may be read. -/
def narrowPopulate (index : AccessIndex) (entry : Populate) (level : Nat) : Populate :=
  let entry := index.resolve entry level
  { entry with select := index.narrow entry.select level }

end AccessIndex

end DocumentAccess
