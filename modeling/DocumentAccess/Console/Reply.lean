import DocumentAccess.Refusal

/-!
# Replies of the command line

A command answers with a value or a complaint, and is written as one JSON object with a `status`.

* `Complaint` — why a command fails; `code` and `message` give its texts.
* `Reply` — the answer and the journal of a command.
* `Reply.value` — the object that is written.
-/

namespace DocumentAccess.Console

/-- What is wrong with a request before any of its parts is looked at. -/
inductive BadRequest where
  | nothingAsked
  | invalidCheck
  | invalidApply
  deriving DecidableEq

def BadRequest.message : BadRequest → String
  | .nothingAsked => "request needs a \"filter\" or an \"update\" member"
  | .invalidCheck => "Invalid check request:"
  | .invalidApply => "Invalid apply request:"

/-- Why a command fails. -/
inductive Complaint where
  | settings (error : SettingsError)
  | emptyInput
  | inputNotText
  | inputNotJson
  | badRequest (cause : BadRequest)
  | refused (refusal : Refusal)
  | schema (error : SchemaError)
  | update (error : UpdateError)
  deriving DecidableEq

namespace Complaint

def code : Complaint → String
  | .settings _ => "FG_CLI_CONFIG_ERROR"
  | .emptyInput | .inputNotText | .inputNotJson => "FG_CLI_IO_ERROR"
  | .badRequest _ => "FG_CLI_BAD_REQUEST"
  | .refused refusal => refusal.code
  | .schema error => error.code
  | .update _ => UpdateError.code

def message : Complaint → String
  | .settings error => (Refusal.settings error).message
  | .emptyInput => "Empty input"
  | .inputNotText => "stream did not contain valid UTF-8"
  | .inputNotJson => "JSON error:"
  | .badRequest cause => cause.message
  | .refused refusal => refusal.message
  | .schema error => error.message
  | .update error => error.message

/-- The line that a failing command ends with. -/
def line (complaint : Complaint) : String :=
  complaint.code ++ ": " ++ complaint.message

end Complaint

/-- The answer of a command, and what was reported on the way. -/
structure Reply where
  answer : Except Complaint Value
  journal : Journal

namespace Reply

/-- A command that fails after what is in the journal. -/
def failed (complaint : Complaint) (journal : Journal) : Reply :=
  ⟨.error complaint, journal⟩

/-- The object that is written for a reply. -/
def value (reply : Reply) : Value :=
  match reply.answer with
  | .ok data => Value.ofMembers [("status", .string "ok"), ("data", data)]
  | .error complaint =>
    Value.ofMembers
      [("status", .string "error"), ("code", .string complaint.code),
        ("message", .string complaint.message)]

end Reply

end DocumentAccess.Console
