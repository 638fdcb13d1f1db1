import DocumentAccess.Json.Reader
import DocumentAccess.Schema.Field

/-!
# Schemas in JSON

A schema is written as an object with its name, its version counter and the parts of its tree.  A
field is an object with its `type`, what that type needs (`target`, `fields`, `element` or `schema`), and its
rule as `acl`.

* `Field.toValue`, `Tree.toValue`, `Schema.toValue` — writing.
* `Field.ofValue?`, `Tree.ofValue?`, `Schema.ofValue?` — reading.  A type may also be given by its number,
  a nested tree also as a list, and a rule is read leniently.
* `Schema.read`, `SchemaTextError` — reading a text, with a version counter for schemas that name none.
-/

namespace DocumentAccess

/-! ## Writing -/

namespace Tree

/-- The members of a tree, given its fields; no virtual paths are left out. -/
def members (fields : Members) (virtuals : List String) (hasId : Bool) : List (String × Value) :=
  [("fields", .object fields), ("id", .bool hasId)]
    ++ if virtuals.isEmpty then [] else [("virtuals", .ofStrings virtuals)]

end Tree

namespace Field

/-- A field's members: its type, one member that the type needs, and its rule. -/
def members (type : String) (part : List (String × Value)) (acl : Option AccessRule) : Value :=
  Value.ofMembers (("type", .string type) :: part
    ++ match acl with
      | some acl => [("acl", acl.toValue)]
      | none => [])

mutual

def toValue : Field → Value
  | .leaf (.reference target) acl => members "reference" [("target", .string target)] acl
  | .leaf type acl => members type.name [] acl
  | .object fields acl => members "object" [("fields", .object (fieldsToMembers fields))] acl
  | .array element acl => members "array" [("element", toValue element)] acl
  | .documents fields virtuals hasId acl =>
    members "document_array"
      [("schema", Value.ofMembers (Tree.members (fieldsToMembers fields) virtuals hasId))] acl

def fieldsToMembers : List (String × Field) → List (String × Value)
  | [] => []
  | (name, field) :: rest => (name, toValue field) :: fieldsToMembers rest

end

end Field

/-- The members of a tree. -/
def Tree.toMembers (tree : Tree) : List (String × Value) :=
  Tree.members (Field.fieldsToMembers tree.fields) tree.virtuals tree.hasId

def Tree.toValue (tree : Tree) : Value :=
  Value.ofMembers tree.toMembers

def Schema.toValue (schema : Schema) : Value :=
  Value.ofMembers
    (("name", .string schema.name) :: ("version_key", .string schema.versionKey)
      :: schema.tree.toMembers)

/-! ## Reading -/

/-- What the type of a field announces. -/
inductive FieldTag where
  | leaf (type : LeafType)
  | reference
  | object
  | array
  | documents

namespace FieldTag

/-- The types by name, in the order of their numbers. -/
def table : List (String × FieldTag) :=
  [("string", .leaf .string), ("number", .leaf .number), ("boolean", .leaf .boolean),
    ("date", .leaf .date), ("object_id", .leaf .objectId), ("mixed", .leaf .mixed),
    ("reference", .reference), ("object", .object), ("array", .array),
    ("document_array", .documents)]

/-- A type given by its name or by its number. -/
def ofValue? : Value → Option FieldTag
  | .string name => Keyed.find? name table
  | .number n => n.natural?.bind fun i => table[i]?.map Prod.snd
  | _ => none

end FieldTag

/-- A list of texts. -/
def strings? : Value → Option (List String)
  | .array items => items.mapM Value.string?
  | _ => none

/-- A truth value. -/
def bool? : Value → Option Bool
  | .bool b => some b
  | _ => none

/-- A tree from its fields and what is given for the rest: no virtual paths and an identifier unless
said otherwise. -/
def Tree.ofParts? (fields : Fields) (virtuals hasId : Option Value) : Option Tree := do
  let virtuals ← Record.field? strings? (some []) virtuals
  let hasId ← Record.field? bool? (some true) hasId
  some ⟨fields, virtuals, hasId⟩

namespace Field

mutual

/-- A field from an object with its type. -/
def ofValue? : Value → Option Field
  | .object members =>
    let acl := (Keyed.find? "acl" members).bind AccessRule.ofValue?
    match (Keyed.find? "type" members).bind FieldTag.ofValue? with
    | some (.leaf type) => some (.leaf type acl)
    | some .reference =>
      ((Keyed.find? "target" members).bind Value.string?).map fun target =>
        .leaf (.reference target) acl
    | some .object => (fieldsMember? members).map fun fields => .object fields acl
    | some .array => (elementMember? members).map fun element => .array element acl
    | some .documents =>
      (treeMember? members).map fun tree => .documents tree.fields tree.virtuals tree.hasId acl
    | none => none
  | _ => none

/-- Fields by name. -/
def entries? : List (String × Value) → Option (List (String × Field))
  | [] => some []
  | (name, value) :: rest =>
    match ofValue? value, entries? rest with
    | some field, some fields => some ((name, field) :: fields)
    | _, _ => none

/-- The fields in an object of fields. -/
def fields? : Value → Option (List (String × Field))
  | .object entries => entries? entries
  | _ => none

/-- The member `fields` of an object. -/
def fieldsMember? : List (String × Value) → Option (List (String × Field))
  | [] => none
  | (key, value) :: rest => if key = "fields" then fields? value else fieldsMember? rest

/-- The member `element` of an object. -/
def elementMember? : List (String × Value) → Option Field
  | [] => none
  | (key, value) :: rest => if key = "element" then ofValue? value else elementMember? rest

/-- The member `schema` of an object. -/
def treeMember? : List (String × Value) → Option Tree
  | [] => none
  | (key, value) :: rest => if key = "schema" then tree? value else treeMember? rest

/-- A tree from an object, or from a list of its fields, virtual paths and identifier. -/
def tree? : Value → Option Tree
  | .object members =>
    (fieldsMember? members).bind fun fields =>
      Tree.ofParts? fields (Keyed.find? "virtuals" members) (Keyed.find? "id" members)
  | .array [fields] => (fields? fields).bind fun fields => Tree.ofParts? fields none none
  | .array [fields, virtuals] =>
    (fields? fields).bind fun fields => Tree.ofParts? fields (some virtuals) none
  | .array [fields, virtuals, hasId] =>
    (fields? fields).bind fun fields => Tree.ofParts? fields (some virtuals) (some hasId)
  | _ => none

end

end Field

def Tree.ofValue? (value : Value) : Option Tree :=
  Field.tree? value

/-- A schema from an object; without a version counter it takes the default one. -/
def Schema.ofValue? : Value → Option Schema
  | .object members => do
    let name ← (Keyed.find? "name" members).bind Value.string?
    let versionKey ←
      Record.field? Value.string? (some defaultVersionKey) (Keyed.find? "version_key" members)
    let tree ← Tree.ofValue? (.object members)
    some ⟨name, versionKey, tree⟩
  | _ => none

/-- What can be wrong with the text of a schema. -/
inductive SchemaTextError where
  | invalidJson
  | invalidSchema
  deriving DecidableEq

def SchemaTextError.message : SchemaTextError → String
  | .invalidJson => "Invalid JSON:"
  | .invalidSchema => "Invalid schema:"

/-- Gives an object a version counter, unless it names one. -/
def Schema.withVersionKey (versionKey : String) : Value → Value
  | .object members =>
    if Keyed.contains "version_key" members then .object members
    else .object (Keyed.insert "version_key" (.string versionKey) members)
  | value => value

/-- The schema that a text gives. -/
def Schema.read (versionKey text : String) : Except SchemaTextError Schema :=
  match Json.read? text with
  | none => .error .invalidJson
  | some value =>
    match Schema.ofValue? (Schema.withVersionKey versionKey value) with
    | some schema => .ok schema
    | none => .error .invalidSchema

end DocumentAccess
