import DocumentAccess.Access.Index
import DocumentAccess.Journal
import DocumentAccess.Schema.Field

/-!
# Compiling a schema into an index

The tree of a schema is walked depth first, fields in order.

* A single value, and an array of single values, is granted at the levels that its rule (that of
  the element, for an array) declares, or at the default levels.
* An array of subdocuments may be read, or updated, from the highest level on that something below it
  asks for; without anything below, the default level counts.
* A virtual path that is not a field is granted at the default levels.
* Identifiers and the version counter may be read by anyone; a field of that name is not walked.

`Schema.compile` gives the index, and `Schema.compiledNotice` reports it.
-/

namespace DocumentAccess

namespace AccessIndex

/-- Adds a path at the levels of a rule, or at the default levels. -/
def addLeaf (defaults : Levels) (path : String) (acl : Option AccessRule) (index : AccessIndex) :
    AccessIndex :=
  let grants := match acl with
    | some acl => acl.grants defaults.read
    | none => Action.all.map fun action => (action, defaults.of action)
  (grants.foldl (fun index (action, level) => index.grant level action path) index).addPath path

/-- Adds the virtual paths of a tree that are not there yet. -/
def addVirtuals (defaults : Levels) (context : String) (virtuals : List String)
    (index : AccessIndex) : AccessIndex :=
  virtuals.foldl
    (fun index virtual =>
      let path := Path.join context virtual
      if index.hasPath path then index else index.addLeaf defaults path none)
    index

/-- Adds the identifier of the subdocuments at a path. -/
def addIdentifier (path : String) (index : AccessIndex) : AccessIndex :=
  let path := Path.join path Path.identifier
  (index.grant 0 .read path).addPath path

/-- Adds an array of subdocuments after all that is below it: an action is granted from the highest
level on that it has below, or from the default level on. -/
def addArray (defaults : Levels) (path : String) (index : AccessIndex) : AccessIndex :=
  ([Action.read, Action.update].foldl
    (fun index action =>
      index.grant ((index.highestBelow? path action).getD (defaults.of action)) action path)
    index).addPath path

/-- The names among the fields of a tree that are not walked: the identifier, and in the root tree the
version counter. -/
def hidden (versionKey context : String) : List String :=
  if context.isEmpty then [Path.identifier, versionKey] else [Path.identifier]

mutual

/-- Adds the fields under a context, those with a hidden name left out. -/
def addFields (defaults : Levels) (versionKey : String) (hide : List String) (context : String)
    (fields : List (String × Field)) (index : AccessIndex) : AccessIndex :=
  match fields with
  | [] => index
  | (name, field) :: rest =>
    addFields defaults versionKey hide context rest
      (if hide.contains name then index
        else addField defaults versionKey (Path.join context name) field index)
termination_by structural fields

/-- Adds the field at a path. -/
def addField (defaults : Levels) (versionKey path : String) (field : Field) (index : AccessIndex) :
    AccessIndex :=
  match field with
  | .leaf _ acl => index.addLeaf defaults path acl
  | .array element _ => index.addLeaf defaults path element.acl
  | .object fields _ => addFields defaults versionKey [Path.identifier] path fields index
  | .documents fields virtuals hasId _ =>
    let index := addFields defaults versionKey (hidden versionKey path) path fields index
    let index := index.addVirtuals defaults path virtuals
    let index := if hasId then index.addIdentifier path else index
    index.addArray defaults path
termination_by structural field

end

end AccessIndex

namespace Schema

/-- The index of a schema under default levels. -/
def compile (schema : Schema) (defaults : Levels) : AccessIndex :=
  let index := schema.reserved.foldl AccessIndex.addReserved
    (AccessIndex.empty defaults.create defaults.delete)
  let index := AccessIndex.addFields defaults schema.versionKey
    (AccessIndex.hidden schema.versionKey "") "" schema.tree.fields index
  index.addVirtuals defaults "" schema.tree.virtuals

/-- A compiled index is reported with its numbers of paths and levels. -/
def compiledNotice (schema : Schema) (index : AccessIndex) : Notice :=
  ⟨.info, .indexCompiled,
    [("schema", schema.name), ("paths", Decimal.natural index.all.length),
      ("levels", Decimal.natural index.levels.length)]⟩

end Schema

end DocumentAccess
