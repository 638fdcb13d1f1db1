import DocumentAccess.Access.Rule
import DocumentAccess.Path

/-!
# Schemas

A schema describes the documents of one model as a tree of fields: single values, nested objects,
arrays of single values, and arrays of subdocuments with a tree of their own.

* `LeafType`, `Field` — the nodes of the tree, each with a rule if it has one.
* `Tree` — the fields, the virtual paths and the identifier of a document or subdocument.
* `Schema` — a named tree with a version counter.
* `Tree.fieldAt?`, `Schema.referenceTarget?` — the field at a dotted path, and the model that a
  reference there points to.
-/

namespace DocumentAccess

/-- The kinds of single values. -/
inductive LeafType where
  | string | number | boolean | date | objectId | mixed
  /-- The identifier of a document of another model. -/
  | reference (target : String)
  deriving DecidableEq

def LeafType.name : LeafType → String
  | .string => "string"
  | .number => "number"
  | .boolean => "boolean"
  | .date => "date"
  | .objectId => "object_id"
  | .mixed => "mixed"
  | .reference _ => "reference"

/-- A field of a schema.  Fields are kept ascending by name. -/
inductive Field where
  | leaf (type : LeafType) (acl : Option AccessRule)
  | object (fields : List (String × Field)) (acl : Option AccessRule)
  | array (element : Field) (acl : Option AccessRule)
  | documents (fields : List (String × Field)) (virtuals : List String) (hasId : Bool)
      (acl : Option AccessRule)

abbrev Fields := List (String × Field)

namespace Field

def acl : Field → Option AccessRule
  | .leaf _ acl => acl
  | .object _ acl => acl
  | .array _ acl => acl
  | .documents _ _ _ acl => acl

def typeName : Field → String
  | .leaf type _ => type.name
  | .object _ _ => "object"
  | .array _ _ => "array"
  | .documents _ _ _ _ => "document_array"

/-- The structural kind of a field. -/
def kindName : Field → String
  | .leaf _ _ => "leaf"
  | .object _ _ => "object"
  | .array _ _ => "leaf_array"
  | .documents _ _ _ _ => "document_array"

/-- The fields inside an object or inside the documents of an array. -/
def nested? : Field → Option Fields
  | .object fields _ => some fields
  | .documents fields _ _ _ => some fields
  | _ => none

/-- The field with another rule of its own; an empty rule is none. -/
def withAcl (acl : AccessRule) : Field → Field
  | .leaf type _ => .leaf type acl.nonEmpty?
  | .object fields _ => .object fields acl.nonEmpty?
  | .array element _ => .array element acl.nonEmpty?
  | .documents fields virtuals hasId _ => .documents fields virtuals hasId acl.nonEmpty?

/-- The model that a reference points to. -/
def target? : Field → Option String
  | .leaf (.reference target) _ => some target
  | _ => none

end Field

/-- The fields of a document or subdocument, its computed paths, and whether a subdocument has an
identifier of its own. -/
structure Tree where
  fields : Fields
  virtuals : List String
  hasId : Bool

namespace Tree

/-- The field that keys lead to, through objects and arrays of subdocuments. -/
def fieldAtKeys? : List String → Fields → Option Field
  | [], _ => none
  | [key], fields => Keyed.find? key fields
  | key :: keys, fields =>
    ((Keyed.find? key fields).bind Field.nested?).bind (fieldAtKeys? keys)

/-- The field at a dotted path. -/
def fieldAt? (tree : Tree) (path : String) : Option Field :=
  fieldAtKeys? (Path.segments path) tree.fields

end Tree

/-- The version counter of a schema that names none. -/
def defaultVersionKey : String := "__v"

structure Schema where
  name : String
  versionKey : String
  tree : Tree

namespace Schema

/-- The fields that every document has: identifier and version counter. -/
def reserved (schema : Schema) : List String :=
  [Path.identifier, schema.versionKey]

/-- The model that the reference, or the array of references, at a path points to. -/
def referenceTarget? (schema : Schema) (path : String) : Option String :=
  match schema.tree.fieldAt? path with
  | some (.array element _) => element.target?
  | some field => field.target?
  | none => none

end Schema

end DocumentAccess
