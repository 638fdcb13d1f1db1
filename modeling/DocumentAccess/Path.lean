/-!
# Dotted paths

A path names a field by the keys that lead to it, joined by dots.  Keys that begin with `$` or `_$`
are operators, not fields; where such a key ended up inside a path it is swept out before the path
is checked.

* `Path.join` — a context extended by one key.
* `Path.segments` — the texts between the dots; a path without dots is its own only segment.
* `Path.sanitize` — the path without its operator segments and without leading dots.
-/

namespace DocumentAccess

/-- A key that begins with `$` or `_$` stands for an operator. -/
def startsOperator : List Char → Bool
  | '$' :: _ => true
  | '_' :: '$' :: _ => true
  | _ => false

/-- A key is operator-looking when it begins with `$` (native) or `_$` (portable). -/
def isOperatorKey (key : String) : Bool :=
  startsOperator key.toList

namespace Path

/-- The identifier field, present on every document. -/
def identifier : String := "_id"

/-- Extends a context by a key; the empty context adds no dot. -/
def join (context key : String) : String :=
  if context.isEmpty then key else context ++ "." ++ key

/-- The runs between the dots of a text, in order; there is one more of them than there are dots. -/
def splitDots : List Char → List (List Char)
  | [] => [[]]
  | c :: rest =>
    if c = '.' then [] :: splitDots rest
    else match splitDots rest with
      | run :: runs => (c :: run) :: runs
      | [] => [[c]]

/-- The segments of a path. -/
def segments (path : String) : List String :=
  (splitDots path.toList).map String.ofList

/-- Removes each operator segment together with the dot in front of it.  `skipping` says that the
scan stands inside a segment to be removed. -/
def sweep (skipping : Bool) : List Char → List Char
  | [] => []
  | c :: rest =>
    if c = '.' then
      if startsOperator rest then sweep true rest else '.' :: sweep false rest
    else if skipping then sweep true rest
    else c :: sweep false rest

/-- `sanitize` on characters. -/
def sanitizeChars (path : List Char) : List Char :=
  (sweep (startsOperator path) path).dropWhile (· = '.')

/-- The path that is left when operator segments are removed and leading dots are trimmed. -/
def sanitize (path : String) : String :=
  String.ofList (sanitizeChars path.toList)

end Path

end DocumentAccess
