import DocumentAccess.Calendar.Reading
import Mathlib.Algebra.Group.Nat.Defs
import Mathlib.Tactic.Common

/-!
# Texts of instants

An instant is written with digits of fixed widths and marks between them, so its text is read from left
to right, number after number, and none of the looser forms is ever tried on it.

* `Instant.takeDigits_append` — digits in front of a text are taken off it.
* `Instant.fixed?_padded`, `Instant.fraction?_padded` — written numbers are read again.
* `Instant.ofTimestamp?_fields` — so are the fields of a timestamp.
* `Instant.trimChars_eq_self` — a text with no blank at its ends is not trimmed.
-/

namespace DocumentAccess.Instant

/-! ## Digits -/

lemma toNat_of_isDigit {c : Char} (h : c.isDigit = true) : 48 ≤ c.toNat ∧ c.toNat ≤ 57 := by
  simp only [Char.isDigit, Bool.and_eq_true, decide_eq_true_eq] at h
  exact ⟨UInt32.le_iff_toNat_le.1 h.1, UInt32.le_iff_toNat_le.1 h.2⟩

section Digits

variable {width most n : Nat} {digits rest : List Char}

/-- Digits in front of a text are taken off it, if they are as many as may be taken or no digit
follows. -/
lemma takeDigits_append (hdigits : ∀ c ∈ digits, c.isDigit = true) (hle : digits.length ≤ most)
    (hrest : digits.length = most ∨ ∀ c ∈ rest.head?, c.isDigit = false) :
    takeDigits most (digits ++ rest) = (Nat.ofDigitChars 10 digits 0, digits.length, rest) := by
  have hnone : (rest.take (most - digits.length)).takeWhile Char.isDigit = [] := by
    rcases hrest with hwidth | hhead
    · rw [hwidth, Nat.sub_self, List.take_zero, List.takeWhile_nil]
    · cases rest with
      | nil => simp
      | cons c rest =>
          cases most - digits.length with
          | zero => rfl
          | succ more => simp [hhead c rfl]
  have htake : ((digits ++ rest).take most).takeWhile Char.isDigit = digits := by
    rw [List.take_append, List.take_of_length_le hle, List.takeWhile_append_of_pos hdigits, hnone,
      List.append_nil]
  have hfold : digits.foldl (fun n c => n * 10 + (c.toNat - 48)) 0 = Nat.ofDigitChars 10 digits 0 := by
    rw [Nat.ofDigitChars_eq_foldl]
    simp only [Nat.mul_comm]
    rfl
  simp only [takeDigits, htake, hfold, List.drop_left]

lemma isDigit_of_mem_padded {c : Char} (h : c ∈ padded width n) : c.isDigit = true := by
  rcases List.mem_append.1 h with hzero | hdigit
  · rw [List.eq_of_mem_replicate hzero]
    rfl
  · exact Nat.isDigit_of_mem_toDigits (by decide) (by decide) hdigit

lemma length_padded (hwidth : 0 < width) (h : n < 10 ^ width) : (padded width n).length = width := by
  have hle : (Decimal.digits n).length ≤ width :=
    (Nat.length_toDigits_le_iff (by decide) hwidth).2 h
  rw [padded, List.length_append, List.length_replicate]
  omega

lemma ofDigitChars_padded (width n : Nat) : Nat.ofDigitChars 10 (padded width n) 0 = n := by
  rw [padded, Nat.ofDigitChars_append, Nat.ofDigitChars_replicate_zero, Nat.mul_zero]
  exact Nat.ofDigitChars_ten_toDigits

/-- A number that was written with as many digits as are read is read again. -/
lemma fixed?_padded (hwidth : 0 < width) (h : n < 10 ^ width) (rest : List Char) :
    fixed? width (padded width n ++ rest) = some (n, rest) := by
  have hlength := length_padded hwidth h
  rw [fixed?, takeDigits_append (fun c => isDigit_of_mem_padded) (Nat.le_of_eq hlength) (Or.inl hlength)]
  simp only [hlength, if_true, ofDigitChars_padded]

/-- Milliseconds are read again, as nanoseconds. -/
lemma fraction?_padded (h : n < 1000) :
    fraction? ('.' :: (padded 3 n ++ ['Z'])) = some (n * 1000000, ['Z']) := by
  have hlength : (padded 3 n).length = 3 := length_padded (by decide) h
  have hdigits : takeDigits 9 (padded 3 n ++ ['Z']) = (n, 3, ['Z']) := by
    rw [takeDigits_append (fun c => isDigit_of_mem_padded) (by omega) (Or.inr (by simp)), hlength,
      ofDigitChars_padded]
  simp [fraction?, hdigits]

lemma foldl_digits_lt (h : ∀ c ∈ digits, c.isDigit = true) (start : Nat) :
    digits.foldl (fun n c => n * 10 + (c.toNat - 48)) start < (start + 1) * 10 ^ digits.length := by
  induction digits generalizing start with
  | nil => simp
  | cons c digits ih =>
      obtain ⟨hc, hdigits⟩ := List.forall_mem_cons.1 h
      obtain ⟨-, hgreatest⟩ := toNat_of_isDigit hc
      calc digits.foldl (fun n c => n * 10 + (c.toNat - 48)) (start * 10 + (c.toNat - 48))
          < (start * 10 + (c.toNat - 48) + 1) * 10 ^ digits.length := ih hdigits _
        _ ≤ ((start + 1) * 10) * 10 ^ digits.length := Nat.mul_le_mul_right _ (by omega)
        _ = (start + 1) * 10 ^ (digits.length + 1) := by rw [Nat.mul_assoc, Nat.pow_succ']

/-- A number has no more digits than are taken off, and is bounded by how many these are. -/
lemma takeDigits_lt (most : Nat) (text : List Char) :
    (takeDigits most text).1 < 10 ^ (takeDigits most text).2.1 ∧ (takeDigits most text).2.1 ≤ most := by
  have hdigits : ∀ c ∈ (text.take most).takeWhile Char.isDigit, c.isDigit = true :=
    fun c hc => List.all_eq_true.1 List.all_takeWhile c hc
  constructor
  · simpa [takeDigits] using foldl_digits_lt hdigits 0
  · calc ((text.take most).takeWhile Char.isDigit).length
        ≤ (text.take most).length := (List.takeWhile_prefix _).length_le
      _ ≤ most := List.length_take_le _ _

/-- A fraction is less than a second. -/
lemma fraction?_lt {text : List Char} {nanos : Nat} (h : fraction? text = some (nanos, rest)) :
    nanos < nanosPerSecond := by
  unfold fraction? at h
  split at h
  · next after =>
      obtain ⟨hlt, hle⟩ := takeDigits_lt 9 after
      dsimp only at h
      split at h
      · simp at h
      · obtain ⟨rfl, -⟩ := Prod.mk.inj (Option.some.inj h)
        calc (takeDigits 9 after).1 * 10 ^ (9 - (takeDigits 9 after).2.1)
            < 10 ^ (takeDigits 9 after).2.1 * 10 ^ (9 - (takeDigits 9 after).2.1) :=
              Nat.mul_lt_mul_of_pos_right hlt (Nat.pow_pos (by decide))
          _ = nanosPerSecond := by rw [← Nat.pow_add, Nat.add_sub_cancel' hle]; rfl
  · obtain ⟨rfl, -⟩ := Prod.mk.inj (Option.some.inj h)
    decide

end Digits

/-! ## Timestamps -/

section Steps

variable {α β : Type} {first : Option α} {next : α → Option β}

/-- A step that has read something hands it to the next one. -/
lemma bind_of_eq_some {a : α} (h : first = some a) : (first >>= next) = next a := by
  rw [h]
  rfl

/-- What is read in two steps is read by both of them. -/
lemma bind_eq_some {b : β} (h : (first >>= next) = some b) :
    ∃ a, first = some a ∧ next a = some b :=
  Option.bind_eq_some_iff.1 h

end Steps

/-- The fields of a written timestamp are read again. -/
lemma ofTimestamp?_fields {year month day hour minute second millis : Nat} (hyear : year < 10000)
    (hmonth : month < 100) (hday : day < 100) (hhour : hour < 100) (hminute : minute < 100)
    (hsecond : second < 100) (hmillis : millis < 1000) :
    ofTimestamp? (padded 4 year ++ '-' :: padded 2 month ++ '-' :: padded 2 day
        ++ 'T' :: padded 2 hour ++ ':' :: padded 2 minute ++ ':' :: padded 2 second
        ++ '.' :: padded 3 millis ++ ['Z'])
      = (timeOfDay? hour minute second (millis * 1000000)).bind fun time =>
          at? ⟨year, month, day⟩ time := by
  have htwo : ∀ n rest, n < 100 → fixed? 2 (padded 2 n ++ rest) = some (n, rest) :=
    fun n rest h => fixed?_padded (by decide) h rest
  have hmark : ∀ c rest, mark? c (c :: rest) = some rest := fun c rest => if_pos rfl
  simp only [List.append_assoc, List.cons_append]
  -- date
  refine (bind_of_eq_some (fixed?_padded (by decide) hyear _)).trans ?_
  refine (bind_of_eq_some (hmark '-' _)).trans ?_
  refine (bind_of_eq_some (htwo month _ hmonth)).trans ?_
  refine (bind_of_eq_some (hmark '-' _)).trans ?_
  refine (bind_of_eq_some (htwo day _ hday)).trans ?_
  refine (bind_of_eq_some rfl).trans ?_
  -- time
  refine (bind_of_eq_some (htwo hour _ hhour)).trans ?_
  refine (bind_of_eq_some (hmark ':' _)).trans ?_
  refine (bind_of_eq_some (htwo minute _ hminute)).trans ?_
  refine (bind_of_eq_some (hmark ':' _)).trans ?_
  refine (bind_of_eq_some (htwo second _ hsecond)).trans ?_
  refine (bind_of_eq_some (fraction?_padded hmillis)).trans ?_
  -- zone
  refine (bind_of_eq_some (a := (0 : Int)) rfl).trans ?_
  refine congrArg _ (funext fun time => ?_)
  simp only [Int.sub_zero]
  exact Option.bind_fun_some _

/-! ## Blanks -/

lemma isBlank_of_isDigit {c : Char} (h : c.isDigit = true) : Text.isBlank c = false := by
  obtain ⟨hleast, hgreatest⟩ := toNat_of_isDigit h
  simp only [Text.isBlank, Text.blankRanges, List.any_cons, List.any_nil, Bool.or_false,
    Bool.or_eq_false_iff, Bool.and_eq_false_iff, decide_eq_false_iff_not]
  omega

/-- A text with no blank at its ends is not trimmed. -/
lemma trimChars_eq_self {text : List Char} (hhead : ∀ c ∈ text.head?, Text.isBlank c = false)
    (hlast : ∀ c ∈ text.getLast?, Text.isBlank c = false) : Text.trimChars text = text := by
  have hdrop : ∀ text : List Char, (∀ c ∈ text.head?, Text.isBlank c = false) →
      Text.dropBlanks text = text := by
    intro text h
    cases text with
    | nil => rfl
    | cons c rest => rw [Text.dropBlanks, List.dropWhile_cons_of_neg (by simp [h c rfl])]
  rw [Text.trimChars, hdrop text hhead, hdrop text.reverse (by simpa using hlast), List.reverse_reverse]

end DocumentAccess.Instant
