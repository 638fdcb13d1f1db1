import DocumentAccess.Ascending
import DocumentAccess.Operator
import DocumentAccess.Value

/-!
# Paths that a filter or an update touches

Before a filter is run or a command is applied, the dotted paths it speaks about are checked.  They
are the paths of the innermost field keys, with these rules for the value under a key:

* a list stands for its objects, each under the same path; the path itself is touched too unless the
  list holds objects only, at least one;
* an object with an element match or a `_$do_` inside speaks about the elements of the path;
* any other object with an operator key touches the path as a whole;
* an object without operator keys extends the path;
* any other value touches the path.

The identifier field is never touched.

* `Filter.touched` — the paths as met, operators still in them.
* `Filter.paths` — the paths that a filter touches: sanitized, ascending, each once.
* `Update.paths` — the paths that an update command writes to, likewise.
-/

namespace DocumentAccess

namespace Filter

mutual

/-- The paths touched by an object's members under a context. -/
def touched (context : String) : List (String × Value) → List String
  | [] => []
  | (key, value) :: rest =>
    (if key = Path.identifier then [] else touchedAt (Path.join context key) value)
      ++ touched context rest

/-- The paths touched by the value at a path. -/
def touchedAt (path : String) : Value → List String
  | .array items =>
    (if items.isEmpty || items.any (fun item => !item.isObject) then [path] else [])
      ++ touchedItems path items
  | .object members =>
    if members.isEmpty then [path]
    else match drilled path members with
      | some paths => paths
      | none =>
        if members.any (fun member => isOperatorKey member.1) then [path]
        else touched path members
  | _ => [path]

/-- The paths touched by the objects in the list at a path. -/
def touchedItems (path : String) : List Value → List String
  | [] => []
  | .object members :: rest => touched path members ++ touchedItems path rest
  | _ :: rest => touchedItems path rest

/-- The paths touched through the first drill wrapper among the members at a path, if there is one. -/
def drilled (path : String) : List (String × Value) → Option (List String)
  | [] => none
  | (key, value) :: rest =>
    if isDrillWrapper key then
      some (match value with
        | .object members => touched path members
        | _ => [path])
    else drilled path rest

end

/-- Touched paths as a set: without operators, ascending, each once, none empty. -/
def collect (paths : List String) : List String :=
  Ascending.ofList ((paths.map Path.sanitize).filter fun path => !path.isEmpty)

/-- The paths touched by a filter, or by the filters in a list. -/
def paths : Value → List String
  | .object members => collect (touched "" members)
  | .array items => collect (touchedItems "" items)
  | _ => []

end Filter

namespace Update

/-- The paths touched by the argument of a verb. -/
def argumentTouched (context : String) : Value → List String
  | .object argument => Filter.touched context argument
  | _ => [context]

mutual

/-- The paths touched by the members of an update command under a context: the argument of a verb is
read like a filter, a field extends the context, and a stray addressing key touches it. -/
def touched (context : String) : List (String × Value) → List String
  | [] => []
  | (key, value) :: rest =>
    (match UpdateKey.ofKey key with
      | .verb _ | .unknownVerb => argumentTouched context value
      | .whereAddress | .doAddress | .indexAddress => [context]
      | .field => if key = Path.identifier then [] else touchedAt (Path.join context key) value)
      ++ touched context rest

/-- The paths touched by the command for one field. -/
def touchedAt (path : String) : Value → List String
  | .object members => touched path members
  | _ => [path]

end

/-- The paths that an update command writes to. -/
def paths : Value → List String
  | .object members => Filter.collect (touched "" members)
  | _ => []

end Update

end DocumentAccess
