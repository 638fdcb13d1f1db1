import DocumentAccess.Console.Reply
import DocumentAccess.Guard.Basic

/-!
# Requests of the command line

Each command but `compile` reads one request as JSON.

* `readRequest` — the request in a text.
* `translateRequest`, `pathsRequest` — work on filters and update commands alone.
* `checkRequest` — plans a read, and an update if there is one, against the schemas of the settings.
* `applyRequest` — applies an update command to a document.
* `compileFile` — the index of one schema file.
-/

namespace DocumentAccess.Console

/-- The request in a text. -/
def readRequest (text : String) : Except Complaint Value :=
  if Text.isBlankText text then .error .emptyInput
  else match Json.read? text with
    | some request => .ok request
    | none => .error .inputNotJson

/-- The native filter of a portable one, and its operators. -/
def translateRequest (filter : Value) : Reply :=
  { answer := .ok (Value.ofMembers
      [("filter", Filter.toNative filter), ("complexity", (Filter.complexity filter).toValue)])
    journal := Journal.ofNotices (Filter.notices filter) }

/-- The paths that the members `filter` and `update` of a request touch. -/
def pathsRequest (request : Value) : Reply :=
  let filter := request.get? "filter"
  let update := request.get? "update"
  if filter.isNone && update.isNone then .failed (.badRequest .nothingAsked) []
  else
    let filterPaths := filter.map fun f => ("filter", .ofStrings (Filter.paths (Filter.toNative f)))
    let updatePaths := update.map fun u => ("update", .ofStrings (Update.paths u))
    { answer := .ok (Value.ofMembers (filterPaths.toList ++ updatePaths.toList))
      journal := Journal.ofNotices ((filter.map Filter.notices).getD []) }

/-! ## Checking -/

/-- A read request with the caller's levels and maybe an update command. -/
structure CheckRequest where
  read : ReadRequest
  update : Option Value
  levels : Levels

/-- A check request from an object; its parts stand side by side. -/
def CheckRequest.ofValue? : Value → Option CheckRequest
  | .object members => do
    let read ← ReadRequest.ofMembers? members
    let update ← Record.optional? some (Keyed.find? "update" members)
    let levels ←
      Record.field? Levels.ofCaller? (some (.uniform 0)) (Keyed.find? "levels" members)
    some ⟨read, update, levels⟩
  | _ => none

/-- What a check finds out, from the plans of the read and of the update. -/
def checkAnswer (plan : ReadPlan) (update : Option UpdatePlan) : Value :=
  let valid := { plan.valid with update := update.map UpdatePlan.updateAllowed }
  Value.ofMembers
    [("valid", valid.toValue), ("filter", plan.filter), ("read_paths", .ofStrings plan.readPaths),
      ("update_paths", .ofStrings ((update.map UpdatePlan.updatePaths).getD [])),
      ("select", .string plan.select),
      ("populate", .array (plan.populate.map Populate.toValue)), ("sort", .string plan.sort),
      ("skip", .ofNat plan.skip), ("limit", .ofNat plan.limit),
      ("complexity", plan.complexity.toValue)]

/-- Plans the read and the update of a check request. -/
def checkPlans (catalog : Catalog) (settings : Settings) (model : String) (request : CheckRequest) :
    Except Refusal (ReadPlan × Option UpdatePlan) :=
  match ReadPlan.build catalog settings model request.read request.levels with
  | .error refusal => .error refusal
  | .ok plan =>
    match request.update with
    | none => .ok (plan, none)
    | some command =>
      match UpdatePlan.build catalog model request.read.find command request.levels with
      | .error refusal => .error refusal
      | .ok update => .ok (plan, some update)

/-- What planning a check request reports. -/
def checkNotices (catalog : Catalog) (settings : Settings) (model : String)
    (request : CheckRequest) : List Notice :=
  ReadPlan.notices catalog settings model request.read request.levels ++
    match ReadPlan.build catalog settings model request.read request.levels, request.update with
    | .ok _, some _ => UpdatePlan.notices catalog model request.read.find
    | _, _ => []

/-- Checks a request for a model against the schemas of the settings, without a store. -/
def checkRequest (files : Files) (settings : Settings) (model : String) (request : Value) : Reply :=
  match CheckRequest.ofValue? request with
  | none => .failed (.badRequest .invalidCheck) []
  | some request =>
    let loading := settings.catalog.loadAll files
    let loaded := Journal.ofNotices loading.notices
    match loading.failure with
    | some error => .failed (.schema error) loaded
    | none =>
      let journal := loaded ++
        Journal.ofNotices (checkNotices loading.catalog settings model request)
      match checkPlans loading.catalog settings model request with
      | .error refusal => .failed (.refused refusal) journal
      | .ok (plan, update) => ⟨.ok (checkAnswer plan update), journal⟩

/-! ## Applying -/

/-- An update command for a document. -/
structure ApplyRequest where
  document : Value
  command : Value
  versionKey : Option String

def ApplyRequest.ofValue? (value : Value) : Option ApplyRequest :=
  match Record.ofValue? ["document", "command", "version_key"] value with
  | some [document, command, versionKey] => do
    let document ← document
    let command ← command
    let versionKey ← Record.optional? Value.string? versionKey
    some ⟨document, command, versionKey⟩
  | _ => none

/-- The version counter of a request: the first of its own and the caller's that is not empty, or the
default. -/
def ApplyRequest.effectiveKey (request : ApplyRequest) (versionKey : String) : String :=
  ((request.versionKey.toList ++ [versionKey]).find? fun key => !key.isEmpty).getD defaultVersionKey

/-- Applies the command of a request to its document. -/
def applyRequest (versionKey : String) (request : Value) : Reply :=
  match ApplyRequest.ofValue? request with
  | none => .failed (.badRequest .invalidApply) []
  | some request =>
    let attempt := Update.apply (request.effectiveKey versionKey) request.command request.document
    let journal := Journal.ofNotices (Update.notices request.command attempt)
    match attempt.failure with
    | some error => .failed (.update error) journal
    | none => ⟨.ok attempt.value, journal⟩

/-! ## Files -/

/-- The settings in a file, which also say from which severity on lines are written. -/
def loadSettings (files : Files) (path : String) : Except Complaint Settings × Journal :=
  match Settings.load files path with
  | .error error => (.error (.settings error), [])
  | .ok settings =>
    let loaded : Journal := [.notice (settings.loadedNotice path)]
    match settings.severity with
    | .error error => (.error (.settings error), loaded)
    | .ok severity => (.ok settings, loaded ++ [.minimum severity])

/-- The index of the schema in a file, under the settings in another or the standard ones. -/
def compileFile (files : Files) (schema : String) (config : Option String) : Reply :=
  let (settings, journal) := match config with
    | some path => loadSettings files path
    | none => (.ok (Settings.standard "."), [])
  match settings with
  | .error complaint => .failed complaint journal
  | .ok settings =>
    let catalog := { Catalog.empty settings.defaults with versionKey := settings.versionKey }
    match catalog.loadFile files schema with
    | .error error => .failed (.schema error) journal
    | .ok registration =>
      { answer := .ok (Value.ofMembers
          [("schema", .string registration.entry.schema.name),
            ("index", registration.entry.index.toValue)])
        journal := journal ++ Journal.ofNotices registration.notices }

end DocumentAccess.Console
