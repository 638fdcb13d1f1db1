import DocumentAccess.Journal
import DocumentAccess.Update.Verbs

/-!
# Applying an update command

A command is an object.  Its verb keys apply their argument to the document; every other key names a
field, and the command under it is applied to that field's value, which becomes an object if it was
missing.  Keys are taken in order, and changes made before a failure stay.

* `Update.verbCount` — the verbs of a command, those of fields included.
* `Update.walk` — applies the members of a command to a value.
* `Update.apply` — applies a whole command; one that is no object or has no verb is refused at once.
* `Update.notices` — what an application reports.
-/

namespace DocumentAccess.Update

/-- Applies a verb to a value. -/
def applyVerb (versionKey : String) (verb : Verb) (path : String) (argument doc : Value) :
    Attempt Value :=
  match argument with
  | .object argument =>
    onObject path
      (match verb with
        | .set => set versionKey path argument
        | .inc => inc path argument
        | .push => append false path argument
        | .pull => pull path argument
        | .addToSet => append true path argument)
      doc
  | _ => .failed doc (.invalidArgument (some verb) path .notObject)

mutual

/-- Applies the members of a command to a value, in order. -/
def walk (versionKey path : String) (command : List (String × Value)) (doc : Value) :
    Attempt Value :=
  match command with
  | [] => .done doc
  | (key, argument) :: rest =>
    (match UpdateKey.ofKey key with
      | .verb verb => applyVerb versionKey verb path argument doc
      | .unknownVerb => .done doc
      | .whereAddress | .doAddress | .indexAddress => .failed doc (.misplacedAddress path)
      | .field => walkField versionKey path key argument doc).andThen (walk versionKey path rest)

/-- Applies the command under a field key to that field. -/
def walkField (versionKey path key : String) (command doc : Value) : Attempt Value :=
  match command with
  | .object command =>
    onObject path
      (fun members =>
        (walk versionKey (Path.join path key) command
          ((Keyed.find? key members).getD (.object []))).map fun child =>
            Keyed.insert key child members)
      doc
  | _ => .failed doc (.notTraversable (Path.join path key))

end

mutual

/-- The number of verbs among the members of a command and of its fields, unknown verbs included. -/
def verbCount : List (String × Value) → Nat
  | [] => 0
  | (key, argument) :: rest =>
    (match UpdateKey.ofKey key with
      | .verb _ | .unknownVerb => 1
      | .whereAddress | .doAddress | .indexAddress => 0
      | .field => verbCountAt argument) + verbCount rest

/-- The number of verbs in the command for one field. -/
def verbCountAt : Value → Nat
  | .object command => verbCount command
  | _ => 0

end

/-- Applies a command to a document. -/
def apply (versionKey : String) (command doc : Value) : Attempt Value :=
  match command with
  | .object members =>
    if verbCount members = 0 then .failed doc .noVerb
    else walk versionKey "" members doc
  | _ => .failed doc .notAnObject

/-- A command that was applied in full is reported with its number of verbs. -/
def notices (command : Value) (outcome : Attempt Value) : List Notice :=
  match outcome.failure with
  | some _ => []
  | none => [⟨.trace, .updateApplied, [("verbs", Decimal.natural (verbCountAt command))]⟩]

end DocumentAccess.Update
