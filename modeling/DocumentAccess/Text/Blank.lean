/-!
# Blank characters

Selections, populate paths, schema names and date texts are trimmed and split at *blank*
characters.  Blank means the Unicode property `White_Space`: twenty-five characters, of which core's
`Char.isWhitespace` knows four.

* `isBlank` — the property, as a test on one character.
* `trim` — a text without the blanks at its two ends.
* `words` — the maximal runs of characters that are not blank, in order.
* `unwords` — texts with one space between them.
-/

namespace DocumentAccess.Text

/-- The code points with the Unicode property `White_Space`, as inclusive ranges. -/
def blankRanges : List (Nat × Nat) :=
  [(0x09, 0x0D), (0x20, 0x20), (0x85, 0x85), (0xA0, 0xA0), (0x1680, 0x1680), (0x2000, 0x200A),
    (0x2028, 0x2029), (0x202F, 0x202F), (0x205F, 0x205F), (0x3000, 0x3000)]

/-- A character is blank when it has the Unicode property `White_Space`. -/
def isBlank (c : Char) : Bool :=
  blankRanges.any fun range => range.1 ≤ c.toNat && c.toNat ≤ range.2

/-- The characters from the first one that is not blank. -/
def dropBlanks (text : List Char) : List Char :=
  text.dropWhile isBlank

/-- `trim` on characters: no blank at either end. -/
def trimChars (text : List Char) : List Char :=
  (dropBlanks (dropBlanks text).reverse).reverse

/-- A text without the blanks at its two ends. -/
def trim (text : String) : String :=
  String.ofList (trimChars text.toList)

/-- A text of blanks only, the empty text included. -/
def isBlankText (text : String) : Bool :=
  text.toList.all isBlank

/-- Splits off the run of non-blank characters that `text` starts with (empty when it starts with a
blank or ends), next to the words after it. -/
def wordsFrom : List Char → List Char × List (List Char)
  | [] => ([], [])
  | c :: rest =>
    let (run, later) := wordsFrom rest
    if isBlank c then ([], if run.isEmpty then later else run :: later) else (c :: run, later)

/-- `words` on characters. -/
def wordsOf (text : List Char) : List (List Char) :=
  let (run, later) := wordsFrom text
  if run.isEmpty then later else run :: later

/-- The maximal runs of characters that are not blank, in order; none of them is empty. -/
def words (text : String) : List String :=
  (wordsOf text.toList).map String.ofList

/-- The texts in order with a separator between them. -/
def joinWith (separator : String) (texts : List String) : String :=
  String.ofList (separator.toList.intercalate (texts.map String.toList))

/-- The texts in order with one space between them. -/
def unwords (texts : List String) : String :=
  joinWith " " texts

end DocumentAccess.Text
