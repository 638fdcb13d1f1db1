import DocumentAccess.Json.Reader
import DocumentAccess.Json.Writer
import Mathlib.Data.List.Basic
import Mathlib.Tactic.Common

/-!
# String literals and objects of texts

A text is written as a literal in which quotes, backslashes and control characters are escaped.  Reading the
literal gives the text back, whatever its characters, and behind the literal the reader goes on with what
follows.  So an object of texts that is written member by member is read member by member.

* `printable_quote` — a literal has no control characters.
* `readUnits?_quoted`, `textOf_toNat` — the reader takes a literal for the text it was written for.
* `readValue?_quote`, `readMembers?_member`, `readValue?_object` — texts, members and objects are read as
  they were written.
-/

namespace DocumentAccess.Json

/-! ## Escapes -/

/-- No character comes before the space, as control characters do. -/
def Printable (text : List Char) : Prop :=
  ∀ c ∈ text, ' ' ≤ c

/-- The escapes: a backslash with a letter or sign, a backslash with the number of a control character, and
other characters as they are. -/
lemma escape_cases (c : Char) :
    (∃ sign, escape c = ['\\', sign] ∧ sign ≠ 'u' ∧ ' ' ≤ sign ∧ escaped? sign = some c) ∨
    (c < ' ' ∧
      escape c = ['\\', 'u', '0', '0', hexDigit (c.toNat / 16), hexDigit (c.toNat % 16)]) ∨
    (' ' ≤ c ∧ c ≠ '"' ∧ c ≠ '\\' ∧ escape c = [c]) := by
  unfold escape
  split
  case h_8 hquote hbackslash _ _ _ _ _ =>
    by_cases hc : c < ' '
    · exact Or.inr (Or.inl ⟨hc, if_pos hc⟩)
    · exact Or.inr (Or.inr ⟨Char.not_lt.1 hc, hquote, hbackslash, if_neg hc⟩)
  all_goals exact Or.inl ⟨_, rfl, by decide, by decide, rfl⟩

lemma hexValue?_hexDigit : ∀ n < 16, hexValue? (hexDigit n) = some n := by
  decide

lemma printable_hexDigit : ∀ n < 16, ' ' ≤ hexDigit n := by
  decide

lemma printable_escape (c : Char) : Printable (escape c) := by
  rcases escape_cases c with ⟨sign, h, -, hsign, -⟩ | ⟨hc, h⟩ | ⟨hc, -, -, h⟩
  · rw [h]
    exact List.forall_mem_cons.2 ⟨by decide, List.forall_mem_singleton.2 hsign⟩
  · have hlt : c.toNat < 32 := hc
    have hhigh := printable_hexDigit (c.toNat / 16) (by omega)
    have hlow := printable_hexDigit (c.toNat % 16) (by omega)
    simp only [h, Printable, List.forall_mem_cons, hhigh, hlow, true_and]
    exact ⟨by decide, by decide, by decide, by decide, List.forall_mem_nil _⟩
  · simpa [h, Printable] using hc

/-- The reader takes an escape for the character that it was written for. -/
lemma readUnits?_escape (c : Char) (rest : List Char) :
    readUnits? (escape c ++ rest)
      = (readUnits? rest).map fun (units, after) => (c.toNat :: units, after) := by
  rcases escape_cases c with ⟨sign, h, hu, -, hsign⟩ | ⟨hc, h⟩ | ⟨hc, hquote, hbackslash, h⟩
  · rw [h, List.cons_append, List.cons_append, List.nil_append, readUnits?, hsign]
    · cases readUnits? rest <;> rfl
    · simp [hu]
  · have hlt : c.toNat < 32 := hc
    have hhigh := hexValue?_hexDigit (c.toNat / 16) (by omega)
    have hlow := hexValue?_hexDigit (c.toNat % 16) (by omega)
    have hunit : hexUnit? '0' '0' (hexDigit (c.toNat / 16)) (hexDigit (c.toNat % 16))
        = some c.toNat := by
      have hzero : hexValue? '0' = some 0 := by decide
      simp only [hexUnit?, hzero, hhigh, hlow, Option.some.injEq]
      omega
    rw [h]
    show readUnits? ('\\' :: 'u' :: '0' :: '0' :: _ :: _ :: rest) = _
    rw [readUnits?, hunit]
    cases readUnits? rest <;> rfl
  · rw [h, List.singleton_append, readUnits?]
    · rw [if_neg (by simpa [hbackslash] using hc)]
      cases readUnits? rest <;> rfl
    · exact hquote
    · simp [hbackslash]
    · simp [hbackslash]

/-! ## Literals -/

lemma printable_quote (text : String) : Printable (quote text) := by
  intro c hc
  simp only [quote, quoteChars, List.cons_append, List.mem_cons, List.mem_append, List.mem_flatMap,
    List.not_mem_nil, or_false] at hc
  rcases hc with rfl | ⟨d, -, hd⟩ | rfl
  · decide
  · exact printable_escape d c hd
  · decide

/-- **A literal is read as the units of the text that it was written for**, up to its closing quote. -/
theorem readUnits?_quoted (text rest : List Char) :
    readUnits? (text.flatMap escape ++ '"' :: rest) = some (text.map Char.toNat, rest) := by
  induction text with
  | nil => rfl
  | cons c text ih =>
      rw [List.flatMap_cons, List.append_assoc, readUnits?_escape, ih]
      rfl

/-- No character is half of a surrogate pair. -/
lemma not_isSurrogate (c : Char) :
    isHighSurrogate c.toNat = false ∧ isLowSurrogate c.toNat = false := by
  have hvalid : c.toNat < 0xD800 ∨ 0xDFFF < c.toNat ∧ c.toNat < 0x110000 := c.valid
  simp only [isHighSurrogate, isLowSurrogate, Bool.and_eq_false_iff, decide_eq_false_iff_not]
  omega

lemma textOfUnits?_toNat (text : List Char) : textOfUnits? (text.map Char.toNat) = some text := by
  induction text with
  | nil => rfl
  | cons c text ih =>
      obtain ⟨hhigh, hlow⟩ := not_isSurrogate c
      cases text with
      | nil => simp [textOfUnits?, hhigh, hlow]
      | cons d text =>
          rw [List.map_cons] at ih
          simp [textOfUnits?, hhigh, hlow, ih]

/-- The units of a text denote the text. -/
lemma textOf_toNat (text : String) : textOf (text.toList.map Char.toNat) = some text := by
  rw [textOf, textOfUnits?_toNat, Option.map_some, String.ofList_toList]

/-! ## Objects of texts -/

/-- What stands behind a literal is behind its closing quote. -/
lemma quote_append (text : String) (rest : List Char) :
    quote text ++ rest = '"' :: (text.toList.flatMap escape ++ '"' :: rest) := by
  simp [quote, quoteChars]

lemma skipSpace_of_not_isSpace {c : Char} (h : isSpace c = false) (rest : List Char) :
    skipSpace (c :: rest) = c :: rest := by
  rw [skipSpace, List.dropWhile_cons_of_neg (by simp [h])]

/-- A literal is read as a text. -/
lemma readValue?_quote (fuel : Nat) (text : String) (rest : List Char) :
    readValue? (fuel + 1) (quote text ++ rest) = some (.string (some text), rest) := by
  rw [quote_append, readValue?, skipSpace_of_not_isSpace (by decide)]
  simp only [readUnits?_quoted, Option.map_some, textOf_toNat]

/-- A member with a text, in front of the closing brace or a comma. -/
lemma readMembers?_member (fuel : Nat) (key text : String) (rest : List Char) :
    readMembers? (fuel + 2) (quote key ++ ':' :: (quote text ++ '\x7d' :: rest))
        = some ([(some key, .string (some text))], rest) ∧
      readMembers? (fuel + 2) (quote key ++ ':' :: (quote text ++ ',' :: rest))
        = (readMembers? (fuel + 1) rest).map fun (members, after) =>
            ((some key, .string (some text)) :: members, after) := by
  constructor
  all_goals
    rw [quote_append, readMembers?, skipSpace_of_not_isSpace (by decide)]
    simp only [readUnits?_quoted, textOf_toNat]
    rw [skipSpace_of_not_isSpace (by decide)]
    simp only [readValue?_quote]
    rw [skipSpace_of_not_isSpace (by decide)]
    rfl

/-- An object with members is what its opening brace announces. -/
lemma readValue?_object {fuel : Nat} {text after : List Char} {members : List (Option String × Written)}
    (h : readMembers? fuel ('"' :: text) = some (members, after)) :
    readValue? (fuel + 1) ('\x7b' :: '"' :: text) = some (.object members, after) := by
  rw [readValue?, skipSpace_of_not_isSpace (by decide)]
  simp only [skipSpace_of_not_isSpace (show isSpace '"' = false by decide)]
  show (readMembers? fuel ('"' :: text)).map _ = _
  rw [h]
  rfl

end DocumentAccess.Json
