import DocumentAccess.Keyed

/-!
# Files

Schemas and settings are read from files.  What a file system answers is a value, so that everything
which reads files is a function of it.

* `Files` — the text of a file, and the names in a directory, each for a path.
* `FileTree` — directories and files held in memory, and the answers they give (`FileTree.files`).
-/

namespace DocumentAccess

/-- What a file system answers: nothing for a file that cannot be read as text, or for a directory that
cannot be listed. -/
structure Files where
  text : String → Option String
  names : String → Option (List String)

/-- The path of a name in a directory. -/
def Files.pathIn (directory name : String) : String :=
  if directory.toList.getLast? = some '/' then directory ++ name else directory ++ "/" ++ name

/-- A file, whose content may not be text, or a directory. -/
inductive FileTree where
  | file (text : Option String)
  | directory (entries : List (String × FileTree))

namespace FileTree

/-- The runs between the slashes of a path. -/
def splitSlashes : List Char → List (List Char)
  | [] => [[]]
  | c :: rest =>
    if c = '/' then [] :: splitSlashes rest
    else match splitSlashes rest with
      | run :: runs => (c :: run) :: runs
      | [] => [[c]]

/-- The names on a path; empty ones and single dots lead nowhere and are left out. -/
def steps (path : String) : List String :=
  ((splitSlashes path.toList).map String.ofList).filter fun step => step ≠ "" ∧ step ≠ "."

/-- The entries of a directory; a file has none. -/
def entries : FileTree → List (String × FileTree)
  | .file _ => []
  | .directory entries => entries

/-- Puts a tree at the end of a path; directories on the way are made. -/
def insert (node : FileTree) : List String → FileTree → FileTree
  | [], _ => node
  | step :: rest, tree =>
    let child := (Keyed.find? step tree.entries).getD (.directory [])
    .directory (Keyed.insert step (insert node rest child) tree.entries)

/-- Walks a path; two dots lead back to the directory before. -/
def walk (before : List FileTree) : List String → FileTree → Option FileTree
  | [], tree => some tree
  | step :: rest, .directory entries =>
    if step = ".." then
      match before with
      | tree :: before => walk before rest tree
      | [] => none
    else (Keyed.find? step entries).bind (walk (.directory entries :: before) rest)
  | _ :: _, .file _ => none

/-- What a relative path leads to.  A path that ends with a slash or with a single dot leads to a
directory only. -/
def at? (tree : FileTree) (path : String) : Option FileTree :=
  if path.isEmpty ∨ path.toList.head? = some '/' then none
  else match walk [] (steps path) tree, (splitSlashes path.toList).getLast? with
    | some (.file _), some [] => none
    | some (.file _), some ['.'] => none
    | found, _ => found

/-- The answers of a tree. -/
def files (tree : FileTree) : Files where
  text path :=
    match tree.at? path with
    | some (.file text) => text
    | _ => none
  names path :=
    match tree.at? path with
    | some (.directory entries) => some (entries.map Prod.fst)
    | _ => none

end FileTree

end DocumentAccess
