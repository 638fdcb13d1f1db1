import DocumentAccess.Filter.Native
import DocumentAccess.Proofs.Calendar.Days
import DocumentAccess.Proofs.Calendar.Texts
import DocumentAccess.Proofs.Values

/-!
# Dates of a filter, read again

The operand of a date comparison becomes a wrapped text with milliseconds.  Read again, this text is the
instant without what is finer than a millisecond, a leap second included, and it is written as the same
text once more.

* `Instant.IsProper` — the instants that are read: a leap second ends a minute.
* `Instant.ofValue?_proper` — whatever is read is such an instant.
* **`Instant.ofText?_text`** — the text of an instant is read as the instant, truncated.
* **`Filter.dateOperand_roundTrip`** — the native operand of a date comparison, read and written again.
-/

namespace DocumentAccess

namespace Instant

/-- Nanoseconds of a second, or of a leap second behind second 59 of a minute. -/
structure IsProper (instant : Instant) : Prop where
  nanos_lt : instant.nanos < 2 * nanosPerSecond
  leap : nanosPerSecond ≤ instant.nanos → instant.seconds % 60 = 59

/-- The instant without what is finer than a millisecond. -/
def truncated (instant : Instant) : Instant :=
  ⟨instant.seconds, instant.nanos / 1000000 * 1000000⟩

/-! ## The text of an instant -/

section Text

variable {instant : Instant}

/-- The fields of a time of day are those of its second. -/
lemma timeOfDay?_fields (h : instant.IsProper) :
    timeOfDay? (instant.secondOfDay / 3600) (instant.secondOfDay / 60 % 60)
        (instant.secondOfDay % 60 + instant.nanos / nanosPerSecond)
        (instant.nanos % nanosPerSecond / 1000000 * 1000000)
      = some ((instant.secondOfDay : Int), instant.truncated.nanos) := by
  obtain ⟨hnanos, hleap⟩ := h
  have hday : instant.secondOfDay < 86400 := by
    simp only [secondOfDay, secondsPerDay]
    omega
  have hminute : instant.seconds % 60 = 59 → instant.secondOfDay % 60 = 59 := by
    simp only [secondOfDay, secondsPerDay]
    omega
  simp only [nanosPerSecond] at *
  dsimp only [timeOfDay?]
  rw [if_pos (by omega)]
  by_cases hsecond : 1000000000 ≤ instant.nanos
  · have hlast := hminute (hleap hsecond)
    rw [if_pos (by omega), Option.some.injEq, Prod.mk.injEq]
    exact ⟨by omega, by simp only [truncated, nanosPerSecond]; omega⟩
  · rw [if_neg (by omega), Option.some.injEq, Prod.mk.injEq]
    exact ⟨by omega, by simp only [truncated]; omega⟩

/-- The digits of a written instant, from a year of four digits. -/
lemma chars_eq (hyear : 0 ≤ instant.date.year ∧ instant.date.year ≤ 9999) :
    instant.chars = padded 4 instant.date.year.toNat ++ '-' :: padded 2 instant.date.month
      ++ '-' :: padded 2 instant.date.day ++ 'T' :: padded 2 (instant.secondOfDay / 3600)
      ++ ':' :: padded 2 (instant.secondOfDay / 60 % 60)
      ++ ':' :: padded 2 (instant.secondOfDay % 60 + instant.nanos / nanosPerSecond)
      ++ '.' :: padded 3 (instant.nanos % nanosPerSecond / 1000000) ++ ['Z'] := by
  rw [chars, yearText, if_pos hyear]

lemma trimChars_chars (hyear : 0 ≤ instant.date.year ∧ instant.date.year ≤ 9999) :
    Text.trimChars instant.chars = instant.chars := by
  rw [chars_eq hyear]
  refine trimChars_eq_self (fun c hc => ?_) (fun c hc => ?_)
  · cases hdigits : padded 4 instant.date.year.toNat with
    | nil =>
        have hlength : (padded 4 instant.date.year.toNat).length = 4 :=
          length_padded (by decide) (by omega)
        simp [hdigits] at hlength
    | cons first rest =>
        obtain rfl : first = c := by simpa [hdigits] using hc
        have hmem : first ∈ padded 4 instant.date.year.toNat := by rw [hdigits]; exact List.mem_cons_self
        exact isBlank_of_isDigit (isDigit_of_mem_padded hmem)
  · rw [List.getLast?_concat] at hc
    obtain rfl := Option.some.inj hc
    decide

/-- **The text of an instant is read as the instant**, without what is finer than a millisecond. -/
theorem ofText?_text (h : instant.IsProper)
    (hyear : 0 ≤ instant.date.year ∧ instant.date.year ≤ 9999) :
    ofText? instant.text = some instant.truncated := by
  obtain ⟨hday, hdayLe⟩ : 1 ≤ instant.date.day ∧
      instant.date.day ≤ Date.daysInMonth instant.date.year instant.date.month :=
    Date.ofDays_day_le _
  obtain ⟨hmonth, hdayMost⟩ := Date.le_of_le_daysInMonth hday hdayLe
  have hdate : (⟨(instant.date.year.toNat : Int), instant.date.month, instant.date.day⟩ : Date)
      = instant.date := by
    rw [Int.toNat_of_nonneg hyear.1]
  have hvalid : instant.date.isValid = true := by
    simp only [Date.isValid, Bool.and_eq_true, decide_eq_true_eq]
    refine ⟨⟨⟨?_, ?_⟩, hday⟩, hdayLe⟩
    · exact Int.le_trans (by decide) hyear.1
    · exact Int.le_trans hyear.2 (by decide)
  have hdays : ofDate instant.date instant.secondOfDay instant.truncated.nanos = instant.truncated := by
    rw [ofDate, date, Date.days_ofDays, truncated, Instant.mk.injEq]
    refine ⟨?_, rfl⟩
    simp only [secondOfDay, secondsPerDay]
    omega
  have hsecond : instant.secondOfDay < 86400 := by
    simp only [secondOfDay, secondsPerDay]
    omega
  have hnanos := h.nanos_lt
  have hread : ofTimestamp? instant.chars = some instant.truncated := by
    rw [chars_eq hyear, ofTimestamp?_fields (by omega) (by omega) (by omega) (by omega) (by omega)
      (by simp only [nanosPerSecond] at *; omega) (by simp only [nanosPerSecond]; omega),
      timeOfDay?_fields h, Option.bind_some, hdate, at?, if_pos hvalid, hdays]
  rw [ofText?, text, String.toList_ofList, trimChars_chars hyear, hread, Option.some_or]

end Text

/-! ## What is read -/

section Read

variable {instant : Instant} {text rest : List Char} {nanos : Nat}

lemma offset?_mod {offset : Int} (h : offset? text = some offset) : offset % 60 = 0 := by
  simp only [offset?, Option.bind_eq_bind, Option.bind_eq_some_iff] at h
  obtain ⟨⟨hours, _⟩, -, _, -, ⟨minutes, _⟩, -, h⟩ := h
  dsimp only at h
  split at h
  · obtain rfl := Option.some.inj h
    omega
  · simp at h

lemma zone?_mod {offset : Int} (h : zone? text = some offset) : offset % 60 = 0 := by
  unfold zone? at h
  split at h
  · obtain rfl := Option.some.inj h
    rfl
  · obtain rfl := Option.some.inj h
    rfl
  · exact offset?_mod h
  · obtain ⟨seconds, hseconds, rfl⟩ := Option.map_eq_some_iff.1 h
    have := offset?_mod hseconds
    omega
  · obtain ⟨seconds, hseconds, rfl⟩ := Option.map_eq_some_iff.1 h
    have := offset?_mod hseconds
    omega
  · simp at h

/-- A second 60 is the leap second of second 59. -/
lemma timeOfDay?_proper {hour minute second : Nat} {time : Int × Nat} (hnanos : nanos < nanosPerSecond)
    (h : timeOfDay? hour minute second nanos = some time) :
    time.2 < 2 * nanosPerSecond ∧ (nanosPerSecond ≤ time.2 → time.1 % 60 = 59) := by
  dsimp only [timeOfDay?] at h
  split at h
  · split at h
    · obtain rfl := Option.some.inj h
      exact ⟨by omega, fun _ => by omega⟩
    · obtain rfl := Option.some.inj h
      exact ⟨by omega, fun hleap => by omega⟩
  · simp at h

lemma at?_proper {date : Date} {time : Int × Nat} (htime : time.2 < 2 * nanosPerSecond ∧
    (nanosPerSecond ≤ time.2 → time.1 % 60 = 59)) (h : at? date time = some instant) :
    instant.IsProper := by
  rw [at?] at h
  split at h
  · obtain rfl := Option.some.inj h
    refine ⟨htime.1, fun hleap => ?_⟩
    have hlast := htime.2 hleap
    simp only [ofDate, secondsPerDay]
    omega
  · simp at h

lemma ofTimestamp?_proper (h : ofTimestamp? text = some instant) : instant.IsProper := by
  obtain ⟨year, -, h⟩ := bind_eq_some h
  obtain ⟨_, -, h⟩ := bind_eq_some h
  obtain ⟨month, -, h⟩ := bind_eq_some h
  obtain ⟨_, -, h⟩ := bind_eq_some h
  obtain ⟨day, -, h⟩ := bind_eq_some h
  dsimp only at h
  -- behind any of the marks between date and time, the time is read in the same way
  split at h
  case h_4 => simp at h
  all_goals
    obtain ⟨_, -, h⟩ := bind_eq_some h
    obtain ⟨hour, -, h⟩ := bind_eq_some h
    obtain ⟨_, -, h⟩ := bind_eq_some h
    obtain ⟨minute, -, h⟩ := bind_eq_some h
    obtain ⟨_, -, h⟩ := bind_eq_some h
    obtain ⟨second, -, h⟩ := bind_eq_some h
    obtain ⟨⟨nanos, _⟩, hfraction, h⟩ := bind_eq_some h
    obtain ⟨offset, hoffset, h⟩ := bind_eq_some h
    obtain ⟨time, htime, h⟩ := bind_eq_some h
    obtain ⟨read, hread, h⟩ := bind_eq_some h
    obtain rfl := Option.some.inj h
    obtain ⟨hnanos, hleap⟩ := at?_proper (timeOfDay?_proper (fraction?_lt hfraction) htime) hread
    have hzone := zone?_mod hoffset
    exact ⟨hnanos, fun hsecond => by have := hleap hsecond; dsimp only; omega⟩

lemma midnight?_proper {read : Option (Date × List Char)} (h : midnight? read = some instant) :
    instant.IsProper := by
  unfold midnight? at h
  split at h
  · exact at?_proper ⟨by decide, fun hleap => absurd hleap (by decide)⟩ h
  · simp at h

lemma looseTimestamp?_proper (h : looseTimestamp? text = some instant) : instant.IsProper := by
  obtain ⟨date, -, h⟩ := bind_eq_some h
  obtain ⟨_, -, h⟩ := bind_eq_some h
  obtain ⟨hour, -, h⟩ := bind_eq_some h
  obtain ⟨_, -, h⟩ := bind_eq_some h
  obtain ⟨minute, -, h⟩ := bind_eq_some h
  obtain ⟨_, -, h⟩ := bind_eq_some h
  obtain ⟨second, -, h⟩ := bind_eq_some h
  dsimp only at h
  split at h
  · obtain ⟨time, htime, h⟩ := bind_eq_some h
    exact at?_proper (timeOfDay?_proper (by decide) htime) h
  · simp at h

lemma ofText?_proper {text : String} (h : ofText? text = some instant) : instant.IsProper := by
  rcases Option.or_eq_some_iff.1 h with h | ⟨-, h⟩
  · exact ofTimestamp?_proper h
  rcases Option.or_eq_some_iff.1 h with h | ⟨-, h⟩
  · exact looseTimestamp?_proper h
  rcases Option.or_eq_some_iff.1 h with h | ⟨-, h⟩
  · exact midnight?_proper h
  · exact midnight?_proper h

lemma ofMillis?_proper {millis : Int} (h : ofMillis? millis = some instant) : instant.IsProper := by
  simp only [ofMillis?] at h
  split at h
  · obtain rfl := Option.some.inj h
    have hlt : (millis % 1000).toNat * 1000000 < nanosPerSecond := by
      simp only [nanosPerSecond]
      omega
    exact ⟨by dsimp only; omega, fun hleap => absurd hlt (Nat.not_lt.2 hleap)⟩
  · simp at h

/-- **Whatever a value is read as, a leap second ends a minute.** -/
theorem ofValue?_proper {value : Value} (h : ofValue? value = some instant) : instant.IsProper := by
  induction value using Value.inductionOn with
  | string text =>
      rw [ofValue?] at h
      exact ofText?_proper h
  | number n =>
      rw [ofValue?] at h
      obtain ⟨millis, -, h⟩ := bind_eq_some h
      exact ofMillis?_proper h
  | object members ih =>
      rw [ofValue?, ofWrapper?.eq_def] at h
      split at h
      · next key value =>
          split at h
          · exact ih (key, value) List.mem_cons_self h
          · simp at h
      · simp at h
  | _ => simp [ofValue?] at h

end Read

/-- What is finer than a millisecond is not written. -/
lemma text_truncated (instant : Instant) : instant.truncated.text = instant.text := by
  have hsecond : instant.truncated.nanos / nanosPerSecond = instant.nanos / nanosPerSecond := by
    simp only [truncated, nanosPerSecond]
    omega
  have hmillis : instant.truncated.nanos % nanosPerSecond / 1000000
      = instant.nanos % nanosPerSecond / 1000000 := by
    simp only [truncated, nanosPerSecond]
    omega
  rw [text, text, chars, chars, hsecond, hmillis]
  rfl

/-- A wrapped text is read as the text is. -/
lemma ofValue?_toValue (instant : Instant) : ofValue? instant.toValue = ofText? instant.text := by
  rw [toValue, ofValue?, ofWrapper?, if_pos rfl, ofValue?]

end Instant

/-! ## The operand of a date comparison -/

namespace Filter

open Instant

lemma dateOperand_of_ofValue? {operand : Value} {instant : Instant}
    (h : ofValue? operand = some instant) : dateOperand operand = instant.toValue := by
  rw [dateOperand, h]

lemma toNative_dateComparison {key : String} {c : Comparison}
    (hkey : FilterKey.ofKey key = .dateComparison c) (operand : Value) :
    toNative (.object [(key, operand)]) = .object [(c.native, dateOperand operand)] := by
  simp only [toNative, nativeMembers, hkey, List.append_nil]
  rfl

/-- **Dates of a filter are read again.**  The operand that a date comparison gets for a value with a year
of four digits is read as the instant of this value, truncated to milliseconds, and is its own operand
when it is made native once more. -/
theorem dateOperand_roundTrip {operand : Value} {instant : Instant}
    (h : ofValue? operand = some instant)
    (hyear : 0 ≤ instant.date.year ∧ instant.date.year ≤ 9999) :
    dateOperand operand = .object [("$date", .string instant.text)] ∧
    ofValue? (dateOperand operand) = some instant.truncated ∧
    dateOperand (dateOperand operand) = dateOperand operand ∧
    ∀ key c, FilterKey.ofKey key = .dateComparison c →
      toNative (.object [(key, operand)]) = .object [(c.native, dateOperand operand)] ∧
      toNative (.object [(key, dateOperand operand)]) = .object [(c.native, dateOperand operand)] := by
  have hread : ofValue? (dateOperand operand) = some instant.truncated := by
    rw [dateOperand_of_ofValue? h, ofValue?_toValue, ofText?_text (ofValue?_proper h) hyear]
  have hagain : dateOperand (dateOperand operand) = dateOperand operand := by
    rw [dateOperand_of_ofValue? hread, dateOperand_of_ofValue? h, toValue, toValue, text_truncated]
  refine ⟨dateOperand_of_ofValue? h, hread, hagain, fun key c hkey => ⟨?_, ?_⟩⟩
  · exact toNative_dateComparison hkey operand
  · rw [toNative_dateComparison hkey, hagain]

/-- The last second of 2016, one hour east and with a fraction, in a wrapper. -/
def leapSecond : Value :=
  .object [("$date", .string "2017-01-01T00:59:60.1239+01:00")]

theorem dateOperand_roundTrip_leapSecond :
    ofValue? leapSecond = some ⟨1483228799, 1123900000⟩ ∧
    dateOperand leapSecond = .object [("$date", .string "2016-12-31T23:59:60.123Z")] ∧
    ofValue? (dateOperand leapSecond) = some ⟨1483228799, 1123000000⟩ ∧
    toNative (.object [("_$dlt", dateOperand leapSecond)]) = .object [("$lt", dateOperand leapSecond)] := by
  have hread : ofValue? leapSecond = some ⟨1483228799, 1123900000⟩ := by decide +kernel
  have htext : (Instant.mk 1483228799 1123900000).text = "2016-12-31T23:59:60.123Z" := by decide +kernel
  obtain ⟨hoperand, hagain, -, hnative⟩ := dateOperand_roundTrip hread (by decide +kernel)
  exact ⟨hread, htext ▸ hoperand, hagain, (hnative "_$dlt" .lt (by decide)).2⟩

end Filter

end DocumentAccess
