import DocumentAccess.Schema.Field

/-!
# Arguments of the command line

The first argument names a command, and the others are its options.  An option has a long name and takes
one value, given after an equals sign or as the next argument; it may be given once.  A value that is
given as the next argument does not begin with a dash, except for a single dash.

Arguments are read from the left, and the first one that settles the matter does: a request for help
behind a fault is not reached, and a fault behind a request for help is not looked at.

* `Command`, `Invocation` — what was asked for.
* `readOptions` — the options that a command's arguments give.
* `Invocation.ofArguments` — the invocation that arguments stand for.
-/

namespace DocumentAccess.Console

inductive Command where
  | compile (schema : String) (config : Option String)
  | translate
  | paths
  | check (config model : String)
  | apply (versionKey : String)
  deriving DecidableEq

inductive Invocation where
  | command (command : Command)
  | version
  | help
  /-- The arguments stand for nothing. -/
  | misuse
  deriving DecidableEq

/-! ## Options -/

/-- An option of a command. -/
structure OptionForm where
  name : String
  /-- The value is a path, and so it is not empty. -/
  isPath : Bool

/-- Options by name with their values, a request for help, or neither. -/
inductive Options where
  | given (values : List (String × String))
  | help
  | misuse

/-- Splits `--name=value` and `--name`. -/
def longOption? (argument : String) : Option (String × Option String) :=
  match argument.toList with
  | '-' :: '-' :: body =>
    let name := String.ofList (body.takeWhile (· ≠ '='))
    match body.dropWhile (· ≠ '=') with
    | '=' :: value => some (name, some (String.ofList value))
    | _ => some (name, none)
  | _ => none

/-- The argument asks for help: by its long name alone, or by a cluster of letters that begins so. -/
def asksForHelp (argument : String) : Bool :=
  argument = "--help" || ['-', 'h'].isPrefixOf argument.toList

/-- The argument can be the value of the option before it. -/
def isOptionValue (argument : String) : Bool :=
  argument = "-" || argument.toList.head? != some '-'

/-- The value of an option. -/
def optionValue? (name : String) (values : List (String × String)) : Option String :=
  (values.find? fun entry => entry.1 == name).map Prod.snd

/-- The option takes the value. -/
def OptionForm.accepts (form : OptionForm) (value : String) : Bool :=
  !(form.isPath && value.isEmpty)

/-- The options given so far and one more, if it is known, takes the value, and is not given yet. -/
def giveOption? (known : List OptionForm) (values : List (String × String)) (name value : String) :
    Option (List (String × String)) :=
  match known.find? (·.name == name), optionValue? name values with
  | some form, none => if form.accepts value then some (values ++ [(name, value)]) else none
  | _, _ => none

/-- Reads the options of a command, some of which are given already. -/
def readOptions (known : List OptionForm) (values : List (String × String)) : List String → Options
  | [] => .given values
  | ["--"] => .given values
  | argument :: rest =>
    if asksForHelp argument then .help
    else match longOption? argument, rest with
      | some (name, some value), rest =>
        match giveOption? known values name value with
        | some values => readOptions known values rest
        | none => .misuse
      | some (name, none), value :: rest =>
        if isOptionValue value then
          match giveOption? known values name value with
          | some values => readOptions known values rest
          | none => .misuse
        else .misuse
      | _, _ => .misuse

/-! ## Commands -/

/-- A command by its name, with its options and the command that they make, unless one is missing. -/
structure CommandForm where
  name : String
  options : List OptionForm
  make : List (String × String) → Option Command

/-- The settings file that is read when no other is named. -/
def defaultConfig : String := "./fieldgate.json"

def commandForms : List CommandForm :=
  [ { name := "compile"
      options := [⟨"schema", true⟩, ⟨"config", true⟩]
      make := fun values =>
        (optionValue? "schema" values).map fun schema =>
          .compile schema (optionValue? "config" values) },
    { name := "translate", options := [], make := fun _ => some .translate },
    { name := "paths", options := [], make := fun _ => some .paths },
    { name := "check"
      options := [⟨"config", true⟩, ⟨"model", false⟩]
      make := fun values =>
        (optionValue? "model" values).map fun model =>
          .check ((optionValue? "config" values).getD defaultConfig) model },
    { name := "apply"
      options := [⟨"version-key", false⟩]
      make := fun values =>
        some (.apply ((optionValue? "version-key" values).getD defaultVersionKey)) } ]

/-- The command of a form whose arguments are given. -/
def CommandForm.invocation (form : CommandForm) (arguments : List String) : Invocation :=
  match readOptions form.options [] arguments with
  | .help => .help
  | .misuse => .misuse
  | .given values =>
    match form.make values with
    | some command => .command command
    | none => .misuse

/-- The arguments behind `help`: none, or the name of one command. -/
def helpInvocation : List String → Invocation
  | [] => .help
  | [name] => if name = "help" || commandForms.any (·.name == name) then .help else .misuse
  | _ => .misuse

/-- The invocation that arguments stand for. -/
def Invocation.ofArguments : List String → Invocation
  | [] => .misuse
  | "help" :: arguments => helpInvocation arguments
  | first :: arguments =>
    if first = "--version" || ['-', 'V'].isPrefixOf first.toList then .version
    else if asksForHelp first then .help
    else match commandForms.find? (·.name == first) with
      | some form => form.invocation arguments
      | none => .misuse

end DocumentAccess.Console
