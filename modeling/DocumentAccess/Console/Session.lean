import DocumentAccess.Console.Arguments
import DocumentAccess.Console.Requests

/-!
# A session of the command line

A session takes the arguments, the files and the standard input, and gives what is written and the exit
status.  Commands write one line to standard output; reports, and the complaint of a command that
fails, go to standard error.

* `Command.reply` — the reply of a command.
* `Session`, `Session.run` — a whole session.
-/

namespace DocumentAccess.Console

/-- The request on standard input, which is none when the input is not UTF-8. -/
def requestOn (input : Option String) : Except Complaint Value :=
  match input with
  | some text => readRequest text
  | none => .error .inputNotText

/-- Goes on with the request on standard input, if it can be read. -/
def withRequest (input : Option String) (journal : Journal) (handle : Value → Reply) : Reply :=
  match requestOn input with
  | .error complaint => .failed complaint journal
  | .ok request =>
    let reply := handle request
    { reply with journal := journal ++ reply.journal }

/-- The reply of a command. -/
def Command.reply (files : Files) (input : Option String) : Command → Reply
  | .compile schema config => compileFile files schema config
  | .translate => withRequest input [] translateRequest
  | .paths => withRequest input [] pathsRequest
  | .check config model =>
    match loadSettings files config with
    | (.error complaint, journal) => .failed complaint journal
    | (.ok settings, journal) => withRequest input journal (checkRequest files settings model)
  | .apply versionKey => withRequest input [] (applyRequest versionKey)

/-- What a session writes, and its exit status. -/
structure Session where
  exit : Nat
  output : String
  errors : List String

namespace Session

/-- The name and the version of the program. -/
def versionText : String := "fieldgate 0.1.0\n"

def helpLines : List String :=
  ["Usage: fieldgate <COMMAND>", "", "Commands:",
    "  compile --schema <SCHEMA> [--config <CONFIG>]",
    "  translate",
    "  paths",
    "  check [--config <CONFIG>] --model <MODEL>",
    "  apply [--version-key <VERSION_KEY>]"]

/-- The severity from which on lines are written at first. -/
def firstMinimum : Severity := .warn

/-- The session of a command: one line of output, the journal's lines, and a complaint at their end. -/
def ofReply (reply : Reply) : Session :=
  let lines := reply.journal.lines firstMinimum
  let output := reply.value.text ++ "\n"
  match reply.answer with
  | .ok _ => ⟨0, output, lines⟩
  | .error complaint => ⟨1, output, lines ++ [complaint.line]⟩

/-- A whole session. -/
def run (files : Files) (input : Option String) (arguments : List String) : Session :=
  match Invocation.ofArguments arguments with
  | .version => ⟨0, versionText, []⟩
  | .help => ⟨0, Text.joinWith "\n" helpLines ++ "\n", []⟩
  | .misuse => ⟨2, "", helpLines⟩
  | .command command => ofReply (command.reply files input)

end Session

end DocumentAccess.Console
