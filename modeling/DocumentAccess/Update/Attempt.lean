import DocumentAccess.Operator

/-!
# Attempts at a change

An update command changes a document step by step.  When a step fails, the changes made before it
stay and the steps after it are not tried.

* `UpdateError`, `UpdateError.message` — the ways in which a command can be malformed, and their texts.
* `Attempt` — what a value has become, and the failure that ended the change, if one did.
* `Attempt.andThen` — the next step, unless the first one failed.
* `Attempt.onFirst`, `Attempt.onIndex` — a change to one item of a list.
-/

namespace DocumentAccess

/-- What is wrong with the argument of a verb. -/
inductive ArgumentFault where
  | notObject
  | whereNotObject
  | doNotObject
  | deltaKind
  | indexKind
  | indexWithoutDo
  | payloadKind
  | targetNotArray
  deriving DecidableEq

def ArgumentFault.reason : ArgumentFault → String
  | .notObject => "expected an object"
  | .whereNotObject => "_$where_ must be an object"
  | .doNotObject => "_$do_ must be an object"
  | .deltaKind => "delta must be a number or an object"
  | .indexKind => "_$index_ must be a non-negative integer"
  | .indexWithoutDo => "_$index_ requires _$do_"
  | .payloadKind => "_$do_ must be a number or an object"
  | .targetNotArray => "target is not an array"

/-- The ways in which an update command can be malformed, with the path where that shows. -/
inductive UpdateError where
  | notAnObject
  | noVerb
  | mixedAddressing (path : String)
  | missingAddress (path : String)
  | misplacedAddress (path : String)
  /-- An argument of the wrong shape; without a verb it is the addressing itself. -/
  | invalidArgument (verb : Option Verb) (path : String) (fault : ArgumentFault)
  | notTraversable (path : String)
  | notNumeric (path : String)
  deriving DecidableEq

namespace UpdateError

def code : String := "FG_MALFORMED_COMMAND"

/-- A text in single quotes. -/
def quoted (text : String) : String :=
  "'" ++ text ++ "'"

def message : UpdateError → String
  | .notAnObject => "Update command must be an object"
  | .noVerb => "Update command contains no update verb"
  | .mixedAddressing path => "Cannot combine _$where_ and _$index_ addressing at " ++ quoted path
  | .missingAddress path =>
    "Addressed argument at " ++ quoted path ++ " has no _$where_ or _$index_"
  | .misplacedAddress path => "Addressing key outside of an update verb at " ++ quoted path
  | .invalidArgument verb path fault =>
    let subject := match verb with
      | some v => v.native
      | none => "addressed"
    "Invalid " ++ subject ++ " argument at " ++ quoted path ++ ": " ++ fault.reason
  | .notTraversable path => "Cannot descend into non-object value at " ++ quoted path
  | .notNumeric path => "Cannot increment non-numeric value at " ++ quoted path

end UpdateError

/-- What a value has become, and the failure that ended the change, if one did. -/
structure Attempt (α : Type) where
  value : α
  failure : Option UpdateError

namespace Attempt

variable {α β : Type}

def done (value : α) : Attempt α :=
  ⟨value, none⟩

def failed (value : α) (error : UpdateError) : Attempt α :=
  ⟨value, some error⟩

/-- The next step on what the value has become, unless the first step failed. -/
def andThen (first : Attempt α) (next : α → Attempt α) : Attempt α :=
  match first.failure with
  | none => next first.value
  | some _ => first

/-- The same attempt seen from around its value. -/
def map (f : α → β) (attempt : Attempt α) : Attempt β :=
  ⟨f attempt.value, attempt.failure⟩

/-- Changes the first item that passes the test; without one, nothing is changed. -/
def onFirst (test : α → Bool) (change : α → Attempt α) : List α → Attempt (List α)
  | [] => done []
  | item :: rest =>
    if test item then (change item).map (· :: rest)
    else (onFirst test change rest).map (item :: ·)

/-- Changes the item at a position; beyond the end, nothing is changed. -/
def onIndex (change : α → Attempt α) : Nat → List α → Attempt (List α)
  | _, [] => done []
  | 0, item :: rest => (change item).map (· :: rest)
  | position + 1, item :: rest => (onIndex change position rest).map (item :: ·)

@[simp] theorem done_andThen (value : α) (next : α → Attempt α) :
    (done value).andThen next = next value := rfl

@[simp] theorem failed_andThen (value : α) (error : UpdateError) (next : α → Attempt α) :
    (failed value error).andThen next = failed value error := rfl

@[simp] theorem map_done (f : α → β) (value : α) : (done value).map f = done (f value) := rfl

@[simp] theorem map_failed (f : α → β) (value : α) (error : UpdateError) :
    (failed value error).map f = failed (f value) error := rfl

end Attempt

end DocumentAccess
