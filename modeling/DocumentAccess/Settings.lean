import DocumentAccess.Catalog
import DocumentAccess.Json.Record

/-!
# Settings

The settings of a guard: where its schemas are, the default levels, the page sizes, the version counter
of schemas that name none, and what is worth a line in the journal.

* `Settings`, `Settings.standard` — the settings, and those with every default.
* `Settings.fault?` — the first thing that is wrong with settings.
* `Settings.ofValue?`, `ofWritten?` — settings given as a record.
* `Settings.load` — the settings in a file.
-/

namespace DocumentAccess

structure Settings where
  schemaDirectory : String
  defaults : Levels
  limit : Nat
  readLimit : Nat
  versionKey : String
  logLevel : String
  deriving DecidableEq

namespace Settings

/-- The settings for a schema directory, everything else at its default. -/
def standard (schemaDirectory : String) : Settings :=
  { schemaDirectory := schemaDirectory
    defaults := .restrictive
    limit := 25
    readLimit := 500
    versionKey := defaultVersionKey
    logLevel := "warn" }

/-- The severity that the log level names. -/
def severity (settings : Settings) : Except SettingsError Severity :=
  match Severity.ofName? settings.logLevel with
  | some severity => .ok severity
  | none => .error (.unknownLogLevel settings.logLevel)

/-- The first thing that is wrong with settings. -/
def fault? (settings : Settings) : Option SettingsError :=
  if settings.readLimit = 0 then some .zeroReadLimit
  else if settings.readLimit < settings.limit then
    some (.limitTooHigh settings.limit settings.readLimit)
  else if !Schema.isVersionKey settings.versionKey then
    some (.invalidVersionKey settings.versionKey)
  else match settings.severity with
    | .error error => some error
    | .ok _ => none

/-! ## Reading and writing -/

/-- The fields of settings, in order. -/
def fieldNames : List String :=
  ["schema_dir", "defaults", "limit", "read_limit", "version_key", "log_level"]

/-- Settings from what is given for each field; only the schema directory has no default. -/
def ofParts? (defaults : Option Levels)
    (schemaDirectory limit readLimit versionKey logLevel : Option Value) : Option Settings := do
  let schemaDirectory ← Record.field? Value.string? none schemaDirectory
  let base := standard schemaDirectory
  let limit ← Record.field? Value.natural? (some base.limit) limit
  let readLimit ← Record.field? Value.natural? (some base.readLimit) readLimit
  let versionKey ← Record.field? Value.string? (some base.versionKey) versionKey
  let logLevel ← Record.field? Value.string? (some base.logLevel) logLevel
  some ⟨schemaDirectory, defaults.getD base.defaults, limit, readLimit, versionKey, logLevel⟩

/-- A field that may be missing, but not be null. -/
def given? {α β : Type} (decode : α → Option β) : Option α → Option (Option β)
  | none => some none
  | some a => (decode a).map some

/-- Settings given as a value. -/
def ofValue? (value : Value) : Option Settings :=
  match Record.ofValue? fieldNames value with
  | some [directory, defaults, limit, readLimit, versionKey, logLevel] => do
    let defaults ← given? Levels.ofDefaults? defaults
    ofParts? defaults directory limit readLimit versionKey logLevel
  | _ => none

/-- Default levels as written. -/
def defaultsOfWritten? (tree : Json.Written) : Option Levels := do
  let fields ← Record.ofWritten? Levels.fieldNames tree
  let fields ← fields.mapM (given? Json.Written.value?)
  Levels.ofFields? .restrictive fields

/-- Settings as written: a member that is not known is not looked into. -/
def ofWritten? (tree : Json.Written) : Option Settings :=
  match Record.ofWritten? fieldNames tree with
  | some [directory, defaults, limit, readLimit, versionKey, logLevel] => do
    let defaults ← given? defaultsOfWritten? defaults
    let directory ← given? Json.Written.value? directory
    let limit ← given? Json.Written.value? limit
    let readLimit ← given? Json.Written.value? readLimit
    let versionKey ← given? Json.Written.value? versionKey
    let logLevel ← given? Json.Written.value? logLevel
    ofParts? defaults directory limit readLimit versionKey logLevel
  | _ => none

def toValue (settings : Settings) : Value :=
  Value.ofMembers
    [("schema_dir", .string settings.schemaDirectory), ("defaults", settings.defaults.toValue),
      ("limit", .ofNat settings.limit), ("read_limit", .ofNat settings.readLimit),
      ("version_key", .string settings.versionKey), ("log_level", .string settings.logLevel)]

/-! ## Files -/

/-- The settings in a file, if nothing is wrong with them. -/
def load (files : Files) (path : String) : Except SettingsError Settings :=
  match files.text path with
  | none => .error .unreadable
  | some text =>
    match (Json.readTree? text).bind ofWritten? with
    | none => .error .invalidJson
    | some settings =>
      match settings.fault? with
      | some error => .error error
      | none => .ok settings

/-- Settings that were loaded are reported with their file. -/
def loadedNotice (settings : Settings) (path : String) : Notice :=
  ⟨.info, .configLoaded, [("path", path), ("schema_dir", settings.schemaDirectory)]⟩

/-- The empty catalog for these settings. -/
def catalog (settings : Settings) : Catalog :=
  { Catalog.empty settings.defaults with
    directory := some settings.schemaDirectory
    versionKey := settings.versionKey }

end Settings

end DocumentAccess
