import DocumentAccess.Schema.Field
import DocumentAccess.Text.Blank

/-!
# The structure of a schema

Not every schema that can be written can be used: names lead into dotted paths, and references need a
target.  Fields are checked in order, each before the fields inside it, and the first fault is
reported.

* `StructureFault`, `StructureFault.message` — the faults and their texts.
* `Schema.fault?` — the first fault of a schema.
-/

namespace DocumentAccess

inductive StructureFault where
  | noName
  | invalidVersionKey (key : String)
  | invalidFieldName (path : String)
  | noTarget (path : String)
  deriving DecidableEq

def StructureFault.message : StructureFault → String
  | .noName => "Schema must have a name"
  | .invalidVersionKey key => "invalid version key '" ++ key ++ "'"
  | .invalidFieldName path => "invalid field name '" ++ path ++ "'"
  | .noTarget path => "reference '" ++ path ++ "' has no target"

namespace Schema

/-- A field name is one segment of a path, and no native operator. -/
def isFieldName (name : String) : Bool :=
  !name.isEmpty && !name.toList.contains '.' && (name.toList.head? != some '$')

mutual

/-- The first fault among fields whose paths begin with `stem`. -/
def fieldsFault? (stem : String) : List (String × Field) → Option StructureFault
  | [] => none
  | (name, field) :: rest =>
    if isFieldName name then
      match fieldFault? (stem ++ name) field with
      | some fault => some fault
      | none => fieldsFault? stem rest
    else some (.invalidFieldName (stem ++ name))

/-- The first fault of the field at a path. -/
def fieldFault? (path : String) : Field → Option StructureFault
  | .object fields _ => fieldsFault? (path ++ ".") fields
  | .documents fields _ _ _ => fieldsFault? (path ++ ".") fields
  | .leaf (.reference target) _ => if target.isEmpty then some (.noTarget path) else none
  | _ => none

end

/-- A version counter has a name, other than that of the identifier. -/
def isVersionKey (key : String) : Bool :=
  !key.isEmpty && key != Path.identifier

/-- The first fault of a schema. -/
def fault? (schema : Schema) : Option StructureFault :=
  if Text.isBlankText schema.name then some .noName
  else if isVersionKey schema.versionKey then fieldsFault? "" schema.tree.fields
  else some (.invalidVersionKey schema.versionKey)

end Schema

end DocumentAccess
