import DocumentAccess.Access.Compile
import DocumentAccess.Files
import DocumentAccess.Refusal

/-!
# The catalog of schemas

A catalog holds schemas by name, each next to the index compiled from it.  A name is registered once
and never replaced.  Schemas come from memory, from a file, or from all `*.json` files of a directory in
the order of their names.

* `Catalog`, `Registered` — the catalog and its entries.
* `Catalog.register`, `loadFile`, `loadAll` — adding schemas; a schema that is refused changes nothing,
  and loading a directory stops at the first file that is refused.
* `Catalog.index`, `relatedIndex` — the index of a model, and of the model that a reference points to.
-/

namespace DocumentAccess

structure Registered where
  schema : Schema
  index : AccessIndex

/-- Schemas by name; `versionKey` is the version counter of schema texts that name none. -/
structure Catalog where
  directory : Option String
  defaults : Levels
  versionKey : String
  entries : List (String × Registered)

/-- A schema that was registered, and the catalog with it. -/
structure Registration where
  catalog : Catalog
  entry : Registered
  source : String

/-- A registration is reported after the compilation of its index. -/
def Registration.notices (registration : Registration) : List Notice :=
  let schema := registration.entry.schema
  [schema.compiledNotice registration.entry.index,
    ⟨.info, .schemaRegistered, [("schema", schema.name), ("source", registration.source)]⟩]

/-- How far a directory was loaded: the catalog then, the registrations in order, and the error that
ended it, if one did. -/
structure Loading where
  catalog : Catalog
  registrations : List Registration
  failure : Option SchemaError

def Loading.notices (loading : Loading) : List Notice :=
  loading.registrations.flatMap Registration.notices

namespace Catalog

/-- A catalog without schemas. -/
def empty (defaults : Levels) : Catalog :=
  ⟨none, defaults, defaultVersionKey, []⟩

/-! ## Looking up -/

def find? (catalog : Catalog) (name : String) : Option Registered :=
  Keyed.find? name catalog.entries

/-- The schema of a model. -/
def schema? (catalog : Catalog) (name : String) : Option Schema :=
  (catalog.find? name).map Registered.schema

/-- The index of a model; an unknown model is an error. -/
def index (catalog : Catalog) (name : String) : Except SchemaError AccessIndex :=
  match catalog.find? name with
  | some entry => .ok entry.index
  | none => .error (.missingIndex name)

/-- The index of the model that the reference at a path of a model points to. -/
def relatedIndex (catalog : Catalog) (name path : String) : Except SchemaError AccessIndex :=
  match catalog.schema? name with
  | none => .error (.missingIndex name)
  | some schema =>
    match schema.referenceTarget? path with
    | none => .error (.missingIndex (name ++ "." ++ path))
    | some target => catalog.index target

/-- The names of the models, ascending. -/
def names (catalog : Catalog) : List String :=
  catalog.entries.map Prod.fst

/-! ## Adding -/

/-- The source that is named for a schema which does not come from a file. -/
def inMemory : String := "<in-memory>"

/-- Adds a schema, if its structure is sound and its name is new. -/
def register (catalog : Catalog) (schema : Schema) (source : String) :
    Except SchemaError Registration :=
  match schema.fault? with
  | some fault => .error (.malformed source (.structure fault))
  | none =>
    match catalog.find? schema.name with
    | some _ => .error (.immutable schema.name)
    | none =>
      let entry : Registered := ⟨schema, schema.compile catalog.defaults⟩
      .ok
        { catalog := { catalog with entries := Keyed.insert schema.name entry catalog.entries }
          entry := entry
          source := source }

/-- Adds the schema in a file. -/
def loadFile (catalog : Catalog) (files : Files) (path : String) :
    Except SchemaError Registration :=
  match files.text path with
  | none => .error (.malformed path .unreadableFile)
  | some text =>
    match Schema.read catalog.versionKey text with
    | .error error => .error (.malformed path (.text error))
    | .ok schema => catalog.register schema path

/-- Adds the schemas in files, in order, up to the first that is refused. -/
def loadFiles (files : Files) : List String → Catalog → Loading
  | [], catalog => ⟨catalog, [], none⟩
  | path :: rest, catalog =>
    match catalog.loadFile files path with
    | .error error => ⟨catalog, [], some error⟩
    | .ok registration =>
      let loading := loadFiles files rest registration.catalog
      { loading with registrations := registration :: loading.registrations }

/-- A name of at least one character before a final `.json`. -/
def isSchemaName (name : String) : Bool :=
  ".json".toList.isSuffixOf name.toList && ".json".toList.length < name.toList.length

/-- The paths of the schema files in a directory, ascending by name. -/
def schemaPaths (directory : String) (names : List String) : List String :=
  ((names.filter isSchemaName).mergeSort fun a b => !Ordered.before b a).map (Files.pathIn directory)

/-- Adds the schemas in all schema files of the catalog's directory; without a directory there are
none. -/
def loadAll (catalog : Catalog) (files : Files) : Loading :=
  match catalog.directory with
  | none => ⟨catalog, [], none⟩
  | some directory =>
    match files.names directory with
    | none => ⟨catalog, [], some (.malformed directory .unreadableDirectory)⟩
    | some names => loadFiles files (schemaPaths directory names) catalog

end Catalog

end DocumentAccess
