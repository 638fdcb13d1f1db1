import DocumentAccess.Access.Levels
import DocumentAccess.Journal
import DocumentAccess.Schema.Codec
import DocumentAccess.Schema.Structure
import DocumentAccess.Update.Attempt

/-!
# Refusals

A request is refused for a cause, and each kind of cause has a code and a gravity: the request alone is
rejected, or something is wrong with the configuration and retrying is pointless.

* `Gravity` — the two gravities.
* `SchemaError` — causes around schemas: malformed, registered already, unknown.
* `SettingsError` — causes around the settings file.
* `Refusal` — every cause for which a guarded operation fails.

`code`, `gravity` and `message` give the texts of each.
-/

namespace DocumentAccess

inductive Gravity where
  | reject | fatal
  deriving DecidableEq

def Gravity.name : Gravity → String
  | .reject => "REJECT"
  | .fatal => "FATAL"

/-! ## Schemas -/

/-- What makes a source of schemas malformed. -/
inductive SchemaFault where
  | unreadableDirectory
  | unreadableFile
  | text (error : SchemaTextError)
  | structure (fault : StructureFault)
  deriving DecidableEq

def SchemaFault.message : SchemaFault → String
  | .unreadableDirectory => "Failed to read schema directory:"
  | .unreadableFile => "Failed to read file:"
  | .text error => error.message
  | .structure fault => fault.message

inductive SchemaError where
  | malformed (source : String) (fault : SchemaFault)
  | immutable (name : String)
  | missingIndex (name : String)
  deriving DecidableEq

namespace SchemaError

def code : SchemaError → String
  | .malformed _ _ => "FG_SCHEMA_MALFORMED"
  | .immutable _ => "FG_SCHEMA_IMMUTABLE"
  | .missingIndex _ => "FG_MISSING_INDEX"

def gravity : SchemaError → Gravity
  | .immutable _ => .reject
  | .malformed _ _ | .missingIndex _ => .fatal

def message : SchemaError → String
  | .malformed source fault => "Malformed schema '" ++ source ++ "': " ++ fault.message
  | .immutable name => "Schema '" ++ name ++ "' is already registered and cannot be replaced"
  | .missingIndex name => "No access index compiled for schema '" ++ name ++ "'"

/-- The name of the schema that the error is about, if it has one. -/
def schema? : SchemaError → Option String
  | .malformed _ _ => none
  | .immutable name => some name
  | .missingIndex name => some name

/-- The message with gravity and code in front. -/
def fullMessage (error : SchemaError) : String :=
  "[" ++ error.gravity.name ++ "] " ++ error.code ++ ": " ++ error.message

end SchemaError

/-! ## Settings -/

inductive SettingsError where
  | unreadable
  | invalidJson
  | zeroReadLimit
  | limitTooHigh (limit readLimit : Nat)
  | invalidVersionKey (key : String)
  | unknownLogLevel (name : String)
  deriving DecidableEq

def SettingsError.message : SettingsError → String
  | .unreadable => "Failed to read config:"
  | .invalidJson => "Invalid config JSON:"
  | .zeroReadLimit => "read_limit must be > 0"
  | .limitTooHigh limit readLimit =>
    "limit (" ++ Decimal.natural limit ++ ") must not exceed read_limit ("
      ++ Decimal.natural readLimit ++ ")"
  | .invalidVersionKey key => "Invalid version_key: '" ++ key ++ "'"
  | .unknownLogLevel name => Severity.unknownMessage name

/-! ## Requests -/

inductive Refusal where
  /-- The caller's level does not suffice; without paths, it is about whole documents. -/
  | accessDenied (action : Action) (model : String) (paths : List String)
  | limitExceeded (requested greatest : Nat)
  | schema (error : SchemaError)
  | malformedCommand (error : UpdateError)
  | settings (error : SettingsError)
  | store (message : String)
  deriving DecidableEq

namespace Refusal

def code : Refusal → String
  | .accessDenied _ _ _ => "FG_ACCESS_DENIED"
  | .limitExceeded _ _ => "FG_LIMIT_EXCEEDED"
  | .schema error => error.code
  | .malformedCommand _ => UpdateError.code
  | .settings _ => "FG_CONFIG_INVALID"
  | .store _ => "FG_STORE_FAILED"

def gravity : Refusal → Gravity
  | .accessDenied _ _ _ | .limitExceeded _ _ | .store _ => .reject
  | .schema error => error.gravity
  | .malformedCommand _ | .settings _ => .fatal

def message : Refusal → String
  | .accessDenied action model paths =>
    "Access denied: " ++ action.name ++ " on '" ++ model ++ "' (" ++ Text.joinWith ", " paths ++ ")"
  | .limitExceeded requested greatest =>
    "Limit " ++ Decimal.natural requested ++ " exceeds maximum " ++ Decimal.natural greatest
  | .schema error => error.fullMessage
  | .malformedCommand error => "Malformed command: " ++ error.message
  | .settings error => "Invalid configuration: " ++ error.message
  | .store message => "Store failed: " ++ message

/-- A denial is reported; other refusals are left to the caller. -/
def notices : Refusal → List Notice
  | .accessDenied action model paths =>
    [⟨.warn, .accessDenied,
      [("action", action.name), ("model", model), ("paths", Text.unwords paths)]⟩]
  | _ => []

end Refusal

end DocumentAccess
