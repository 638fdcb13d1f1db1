import DocumentAccess.Console.Session

/-!
# The program

Gathers the files that a command reads, runs the session on them, and writes what it gives.
-/

namespace DocumentAccess.Console

/-- The content of a file as text, if it can be read as such. -/
def readText (path : String) : IO (Option String) := do
  try
    return String.fromUTF8? (← IO.FS.readBinFile path)
  catch _ =>
    return none

/-- The names in a directory, if it can be listed. -/
def readNames (path : String) : IO (Option (List String)) := do
  try
    let entries ← (← IO.FS.realPath path).readDir
    return some (entries.toList.map fun entry => entry.fileName)
  catch _ =>
    return none

/-- Answers from what was read before. -/
def gathered (texts : List (String × Option String)) (names : List (String × Option (List String))) :
    Files where
  text path := (Keyed.find? path texts).join
  names path := (Keyed.find? path names).join

/-- Reads the texts of some files. -/
def readTexts (paths : List String) : IO (List (String × Option String)) :=
  paths.mapM fun path => do return (path, ← readText path)

/-- Reads the schema directory that a settings file points to. -/
def gatherSchemas (config : String) : IO Files := do
  let settingsText ← readTexts [config]
  match Settings.load (gathered settingsText []) config with
  | .error _ => return gathered settingsText []
  | .ok settings =>
    let directory := settings.schemaDirectory
    let names ← readNames directory
    let schemas ← readTexts (Catalog.schemaPaths directory (names.getD []))
    return gathered (settingsText ++ schemas) [(directory, names)]

/-- Reads the files of a command. -/
def gather : Command → IO Files
  | .compile schema config => do return gathered (← readTexts (schema :: config.toList)) []
  | .check config _ => gatherSchemas config
  | .translate | .paths | .apply _ => return gathered [] []

/-- Reads the files and the input that arguments ask for. -/
def sessionOf (arguments : List String) : IO Session := do
  match Invocation.ofArguments arguments with
  | .command (.compile schema config) =>
    return Session.run (← gather (.compile schema config)) none arguments
  | .command command =>
    let files ← gather command
    let input ← (← IO.getStdin).readBinToEnd
    return Session.run files (String.fromUTF8? input) arguments
  | _ => return Session.run (gathered [] []) none arguments

end DocumentAccess.Console

open DocumentAccess DocumentAccess.Console in
/-- Runs the session that the arguments ask for. -/
def main (arguments : List String) : IO UInt32 := do
  let session ← sessionOf arguments
  (← IO.getStdout).putStr session.output
  session.errors.forM fun line => do (← IO.getStderr).putStr (terminated line)
  return UInt32.ofNat session.exit
