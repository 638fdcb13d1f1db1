import DocumentAccess.Json.Writer

/-!
# The journal

Operations report what happened as notices.  A notice becomes one line: a JSON object with the event,
the severity and then the fields, ascending by name.  Lines below the minimum severity are dropped;
the minimum may change between notices.

* `Severity`, `Event`, `Notice` — the parts of a report.
* `Notice.line` — its line, without line end; `terminated` — a line as it is written.
* `Journal`, `Journal.lines` — notices and changes of the minimum, in order, and the lines written.
-/

namespace DocumentAccess

inductive Severity where
  | trace | info | warn | error
  deriving DecidableEq

namespace Severity

def name : Severity → String
  | .trace => "TRACE"
  | .info => "INFO"
  | .warn => "WARN"
  | .error => "ERROR"

/-- Severities ascend from trace to error. -/
def rank : Severity → Nat
  | .trace => 0
  | .info => 1
  | .warn => 2
  | .error => 3

/-- A line of this severity is written when the minimum is `minimum`. -/
def reaches (severity minimum : Severity) : Bool :=
  minimum.rank ≤ severity.rank

/-- The capital letters A to Z made small; other characters stay. -/
def lowerCase (name : String) : String :=
  String.ofList (name.toList.map Char.toLower)

/-- The severity that a name spells, in letters of either case. -/
def ofName? (name : String) : Option Severity :=
  match lowerCase name with
  | "trace" => some .trace
  | "info" => some .info
  | "warn" | "warning" => some .warn
  | "error" => some .error
  | _ => none

/-- What is said of a name that spells no severity. -/
def unknownMessage (name : String) : String :=
  "unknown log level '" ++ lowerCase name ++ "'"

end Severity

inductive Event where
  | configLoaded
  | schemaRegistered
  | indexCompiled
  | accessDenied
  | selectionNarrowed
  | dateCoercionFailed
  | scriptTokenDropped
  | updateApplied
  deriving DecidableEq

def Event.name : Event → String
  | .configLoaded => "CONFIG_LOADED"
  | .schemaRegistered => "SCHEMA_REGISTERED"
  | .indexCompiled => "INDEX_COMPILED"
  | .accessDenied => "ACCESS_DENIED"
  | .selectionNarrowed => "SELECTION_NARROWED"
  | .dateCoercionFailed => "DATE_COERCION_FAILED"
  | .scriptTokenDropped => "SCRIPT_TOKEN_DROPPED"
  | .updateApplied => "UPDATE_APPLIED"

/-- A report: what happened, how severe it is, and named particulars. -/
structure Notice where
  severity : Severity
  event : Event
  fields : List (String × String)

namespace Notice

/-- Fields ascending by name; fields of one name keep their order. -/
def sortFields (fields : List (String × String)) : List (String × String) :=
  fields.mergeSort fun a b => !Ordered.before b.1 a.1

/-- A field as a member of an object, as characters. -/
def memberChars (field : String × String) : List Char :=
  Json.quote field.1 ++ ':' :: Json.quote field.2

/-- The line of a report, as characters. -/
def lineChars (severity : Severity) (event : String) (fields : List (String × String)) : List Char :=
  '\x7b' :: memberChars ("event", event)
    ++ (("severity", severity.name) :: sortFields fields).flatMap (fun field => ',' :: memberChars field)
    ++ ['\x7d']

/-- The line of a report of some event. -/
def lineOf (severity : Severity) (event : String) (fields : List (String × String)) : String :=
  String.ofList (lineChars severity event fields)

/-- The line of a notice. -/
def line (notice : Notice) : String :=
  lineOf notice.severity notice.event.name notice.fields

end Notice

/-- A line as it is written, with a line feed behind it. -/
def terminated (line : String) : String :=
  line ++ "\n"

/-- An entry of the journal: a notice, or a new minimum severity for the notices after it. -/
inductive JournalEntry where
  | notice (notice : Notice)
  | minimum (severity : Severity)

/-- Notices and changes of the minimum severity, in order. -/
abbrev Journal := List JournalEntry

namespace Journal

def ofNotices (notices : List Notice) : Journal :=
  notices.map .notice

/-- The lines that a journal writes from a minimum severity on. -/
def lines (minimum : Severity) : Journal → List String
  | [] => []
  | .notice notice :: rest =>
    if notice.severity.reaches minimum then notice.line :: lines minimum rest
    else lines minimum rest
  | .minimum severity :: rest => lines severity rest

/-- The minimum severity after a journal. -/
def minimumAfter (minimum : Severity) : Journal → Severity
  | [] => minimum
  | .notice _ :: rest => minimumAfter minimum rest
  | .minimum severity :: rest => minimumAfter severity rest

end Journal

end DocumentAccess
