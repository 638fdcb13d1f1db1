import DocumentAccess.Filter.Touched
import DocumentAccess.Proofs.Paths
import DocumentAccess.Proofs.Values

/-!
# Touched paths

The walks that collect touched paths, in the forms that the proofs use.

* `Filter.TouchedOn` — a touched path leads to some fields, or to fields around them.
* `Filter.touched_eq_flatMap` — the paths touched by an object are those touched by its members.
* `Filter.drilled_eq_find?` — only the first drill wrapper of an object is walked through.
-/

namespace DocumentAccess

lemma isOperatorKey_of_isDrillWrapper {key : String} (h : isDrillWrapper key = true) :
    isOperatorKey key = true := by
  simp only [isDrillWrapper, Bool.or_eq_true, decide_eq_true_eq] at h
  rcases h with (rfl | rfl) | rfl
  all_goals decide

lemma ne_identifier_of_isOperatorKey {key : String} (h : isOperatorKey key = true) :
    key ≠ Path.identifier := by
  rintro rfl
  exact absurd h (by decide)

namespace Filter

/-- A touched path leads to these fields, or to the first of them. -/
def TouchedOn (touched fields : List String) : Prop :=
  ∃ path ∈ touched, Path.fields path ≠ [] ∧ Path.fields path <+: fields

lemma TouchedOn.mono {touched more fields : List String} (h : TouchedOn touched fields)
    (hsub : touched ⊆ more) : TouchedOn more fields := by
  obtain ⟨path, hpath, hfields⟩ := h
  exact ⟨path, hsub hpath, hfields⟩

lemma mem_collect {touched : List String} {path : String} :
    path ∈ collect touched ↔ (∃ raw ∈ touched, Path.sanitize raw = path) ∧ path ≠ "" := by
  simp [collect]

/-- What was touched is collected under its fields, if it has any. -/
lemma exists_collect {touched : List String} {path : String} (hpath : path ∈ touched)
    (hne : Path.fields path ≠ []) : ∃ swept ∈ collect touched, Path.segments swept = Path.fields path :=
  ⟨Path.sanitize path,
    mem_collect.2 ⟨⟨path, hpath, rfl⟩, fun hempty => hne (Path.sanitize_eq_empty_iff.1 hempty)⟩,
    Path.segments_sanitize hne⟩

/-- Touched paths still lead to the same fields when they are collected. -/
lemma TouchedOn.collect {touched fields : List String} (h : TouchedOn touched fields) :
    ∃ path ∈ collect touched, Path.segments path <+: fields := by
  obtain ⟨path, hpath, hne, hfields⟩ := h
  obtain ⟨swept, hswept, hsegments⟩ := exists_collect hpath hne
  exact ⟨swept, hswept, hsegments ▸ hfields⟩

/-! ## Members and items -/

lemma touched_eq_flatMap (context : String) (members : Members) :
    touched context members = members.flatMap fun entry =>
      if entry.1 = Path.identifier then [] else touchedAt (Path.join context entry.1) entry.2 := by
  induction members with
  | nil => rfl
  | cons entry rest ih => rw [touched, ih, List.flatMap_cons]

lemma touchedItems_eq_flatMap (path : String) (items : List Value) :
    touchedItems path items = items.flatMap fun item =>
      (item.members?.map (touched path)).getD [] := by
  induction items with
  | nil => rfl
  | cons item rest ih =>
      rw [List.flatMap_cons, ← ih]
      cases item with
      | object members => rw [touchedItems]; rfl
      | _ =>
          rw [touchedItems]
          · rfl
          · simp

/-! ## Drill wrappers -/

section Drilled

variable {key : String} (value : Value) (path : String) (rest : Members)

lemma drilled_cons (h : ¬ isDrillWrapper key = true) :
    drilled path ((key, value) :: rest) = drilled path rest := by
  cases value <;> simp [drilled, h]

lemma drilled_object (h : isDrillWrapper key = true) (members : Members) :
    drilled path ((key, .object members) :: rest) = some (touched path members) := by
  simp [drilled, h]

variable {value} in
lemma drilled_of_not_object (h : isDrillWrapper key = true) (hvalue : value.isObject = false) :
    drilled path ((key, value) :: rest) = some [path] := by
  cases value with
  | object members => exact absurd hvalue (by simp [Value.isObject])
  | _ => simp [drilled, h]

end Drilled

/-- Only the first drill wrapper is walked through. -/
lemma drilled_eq_find? (path : String) (members : Members) :
    drilled path members
      = (members.find? fun member => isDrillWrapper member.1).map fun wrapper =>
          match wrapper.2 with
          | .object inner => touched path inner
          | _ => [path] := by
  induction members with
  | nil => rfl
  | cons entry rest ih =>
      obtain ⟨key, value⟩ := entry
      by_cases hkey : isDrillWrapper key = true
      · cases value <;> simp [drilled, hkey]
      · rw [drilled_cons value path rest hkey, ih, List.find?_cons_of_neg (by simpa using hkey)]

end Filter

end DocumentAccess
