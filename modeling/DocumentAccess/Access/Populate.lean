import DocumentAccess.Json.Record
import DocumentAccess.Text.Blank

/-!
# Populating references

A read may ask for documents that references point to, each with a selection of its own.

* `Populate` — a reference path and the selection for its target; a blank selection leaves the choice
  open.
* `Populate.parse` — the entries that a value asks for: a text is a path, an object has `path` and
  `select`, a list holds such entries, and anything else asks for nothing.
-/

namespace DocumentAccess

structure Populate where
  path : String
  select : String
  deriving DecidableEq

namespace Populate

/-- No selection was asked for. -/
def isBlank (entry : Populate) : Bool :=
  Text.isBlankText entry.select

/-- The entry of a path, unless it is blank. -/
def ofPath? (path select : String) : Option Populate :=
  if Text.isBlankText path then none else some ⟨Text.trim path, select⟩

/-- The entry that a value stands for, if it stands for one. -/
def ofItem? : Value → Option Populate
  | .string path => ofPath? path ""
  | .object members =>
    match Keyed.find? "path" members with
    | some (.string path) =>
      ofPath? path (((Keyed.find? "select" members).bind Value.string?).getD "")
    | _ => none
  | _ => none

/-- The entries that a value asks for, in order. -/
def parse : Value → List Populate
  | .array items => items.filterMap ofItem?
  | value => (ofItem? value).toList

def toValue (entry : Populate) : Value :=
  Value.ofMembers [("path", .string entry.path), ("select", .string entry.select)]

/-- An entry given as a record of its path and selection. -/
def ofValue? (value : Value) : Option Populate :=
  match Record.ofValue? ["path", "select"] value with
  | some [path, select] => do
    let path ← Record.field? Value.string? none path
    let select ← Record.field? Value.string? (some "") select
    some ⟨path, select⟩
  | _ => none

end Populate

end DocumentAccess
