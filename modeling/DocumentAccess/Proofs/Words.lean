import DocumentAccess.Text.Blank
import Mathlib.Data.List.Basic
import Mathlib.Tactic.Lemma

/-!
# Words of joined texts

Words end at blanks, so the words of texts that are joined with spaces are those of each text in turn.  A
text without blanks is one word, and the empty text is none.

* `Text.NoBlank` — no character is blank.
* `Text.wordsOf_append` — a blank parts the words before it from those behind it.
* **`Text.words_unwords`** — the words of joined texts.
* `Text.mem_words`, `Text.isBlankText_iff` — what is a word, and when there is none.
-/

namespace DocumentAccess.Text

/-- No character is blank. -/
def NoBlank (text : List Char) : Prop :=
  ∀ c ∈ text, isBlank c = false

/-! ## Runs of characters -/

/-- The words are the run that the text starts with, unless it is empty, and those after it. -/
lemma wordsOf_eq (text : List Char) :
    wordsOf text = [(wordsFrom text).1].filter (!·.isEmpty) ++ (wordsFrom text).2 := by
  rw [wordsOf]
  rcases wordsFrom text with ⟨_ | ⟨c, run⟩, later⟩ <;> rfl

/-- Behind a blank, words start afresh. -/
lemma wordsFrom_blank {c : Char} (hc : isBlank c = true) (rest : List Char) :
    wordsFrom (c :: rest) = ([], wordsOf rest) := by
  rw [wordsFrom, hc]
  rfl

/-- A character that is not blank belongs to the run that it stands in front of. -/
lemma wordsFrom_cons {c : Char} (hc : isBlank c = false) (rest : List Char) :
    wordsFrom (c :: rest) = (c :: (wordsFrom rest).1, (wordsFrom rest).2) := by
  rw [wordsFrom, hc]
  rfl

/-- What stands behind a blank adds its words, and leaves the run before it as it is. -/
lemma wordsFrom_append (text : List Char) {c : Char} (hc : isBlank c = true) (rest : List Char) :
    wordsFrom (text ++ c :: rest) = ((wordsFrom text).1, (wordsFrom text).2 ++ wordsOf rest) := by
  induction text with
  | nil => exact wordsFrom_blank hc rest
  | cons d text ih =>
      rw [List.cons_append]
      cases hd : isBlank d with
      | true => rw [wordsFrom_blank hd, wordsFrom_blank hd, wordsOf_eq, wordsOf_eq, ih,
          List.append_assoc]
      | false => rw [wordsFrom_cons hd, wordsFrom_cons hd, ih]

/-- **A blank parts the words before it from those behind it.** -/
theorem wordsOf_append (text : List Char) {c : Char} (hc : isBlank c = true) (rest : List Char) :
    wordsOf (text ++ c :: rest) = wordsOf text ++ wordsOf rest := by
  rw [wordsOf_eq, wordsFrom_append text hc, ← List.append_assoc, ← wordsOf_eq]

/-- The words of texts with spaces between them. -/
lemma wordsOf_intercalate (texts : List (List Char)) :
    wordsOf ([' '].intercalate texts) = texts.flatMap wordsOf := by
  induction texts with
  | nil => rfl
  | cons text rest ih =>
      cases rest with
      | nil => simp
      | cons next rest =>
          rw [List.intercalate_cons_cons, List.append_assoc, List.singleton_append,
            wordsOf_append text (by decide), ih]
          rfl

/-- Characters that are not blank are one run. -/
lemma wordsFrom_of_noBlank {run : List Char} (hrun : NoBlank run) : wordsFrom run = (run, []) := by
  induction run with
  | nil => rfl
  | cons c run ih =>
      obtain ⟨hc, hrun⟩ := List.forall_mem_cons.1 hrun
      rw [wordsFrom_cons hc, ih hrun]

/-- The words are runs: the first one unless it is empty, and the later ones. -/
lemma forall_mem_wordsOf {text : List Char} (hfirst : NoBlank (wordsFrom text).1)
    (hlater : ∀ run ∈ (wordsFrom text).2, NoBlank run ∧ run ≠ []) :
    ∀ run ∈ wordsOf text, NoBlank run ∧ run ≠ [] := by
  intro run hrun
  rw [wordsOf_eq] at hrun
  rcases List.mem_append.1 hrun with hrun | hrun
  · obtain ⟨hmem, hne⟩ := List.mem_filter.1 hrun
    rw [List.mem_singleton.1 hmem] at hne ⊢
    exact ⟨hfirst, by simpa using hne⟩
  · exact hlater run hrun

/-- Runs have no blanks, and only the first may be empty. -/
lemma wordsFrom_spec (text : List Char) :
    NoBlank (wordsFrom text).1 ∧ ∀ run ∈ (wordsFrom text).2, NoBlank run ∧ run ≠ [] := by
  induction text with
  | nil => exact ⟨fun c hc => absurd hc List.not_mem_nil, fun run hrun => absurd hrun List.not_mem_nil⟩
  | cons c text ih =>
      obtain ⟨hfirst, hlater⟩ := ih
      cases hc : isBlank c with
      | true =>
          rw [wordsFrom_blank hc]
          exact ⟨fun c hc => absurd hc List.not_mem_nil, forall_mem_wordsOf hfirst hlater⟩
      | false =>
          rw [wordsFrom_cons hc]
          exact ⟨List.forall_mem_cons.2 ⟨hc, hfirst⟩, hlater⟩

/-! ## Texts -/

/-- **The words of joined texts are those of each text in turn.** -/
theorem words_unwords (texts : List String) : words (unwords texts) = texts.flatMap words := by
  rw [words, unwords, joinWith, String.toList_ofList]
  show (wordsOf ([' '].intercalate _)).map String.ofList = _
  rw [wordsOf_intercalate, List.flatMap_map, List.map_flatMap]
  rfl

/-- A text without blanks is its only word, unless it is empty. -/
lemma words_of_noBlank {text : String} (h : NoBlank text.toList) :
    words text = [text].filter (!·.isEmpty) := by
  rw [words, wordsOf_eq, wordsFrom_of_noBlank h, List.append_nil]
  by_cases hempty : text = ""
  · subst hempty
    rfl
  · have hchars : text.toList.isEmpty = false := by simpa using hempty
    have htext : text.isEmpty = false := by simpa [String.isEmpty_iff] using hempty
    simp [hchars, htext]

/-- Words are not empty, and have no blanks. -/
lemma mem_words {word text : String} (h : word ∈ words text) : NoBlank word.toList ∧ word ≠ "" := by
  obtain ⟨run, hrun, rfl⟩ := List.mem_map.1 h
  rw [String.toList_ofList, Ne, String.ofList_eq_empty_iff]
  exact forall_mem_wordsOf (wordsFrom_spec text.toList).1 (wordsFrom_spec text.toList).2 run hrun

/-- **Texts are found again as the words of the joined text exactly when each of them is a word.** -/
theorem words_unwords_eq_iff {texts : List String} :
    words (unwords texts) = texts ↔ ∀ text ∈ texts, NoBlank text.toList ∧ text ≠ "" := by
  constructor
  · intro h text htext
    exact mem_words (h.symm ▸ htext)
  · intro h
    have hwords : ∀ text ∈ texts, words text = [text] := by
      intro text htext
      obtain ⟨hblank, hne⟩ := h text htext
      rw [words_of_noBlank hblank]
      simpa [String.isEmpty_iff] using hne
    rw [words_unwords, List.flatMap_congr hwords, List.flatMap_singleton']

/-- A blank text is one without words. -/
lemma isBlankText_iff {text : String} : isBlankText text = true ↔ words text = [] := by
  rw [isBlankText, List.all_eq_true, words, List.map_eq_nil_iff]
  generalize text.toList = chars
  induction chars with
  | nil => simp [wordsOf, wordsFrom]
  | cons c chars ih =>
      cases hc : isBlank c with
      | true =>
          rw [wordsOf_eq, wordsFrom_blank hc]
          simpa [hc] using ih
      | false =>
          rw [wordsOf_eq, wordsFrom_cons hc]
          simp [hc]

end DocumentAccess.Text
