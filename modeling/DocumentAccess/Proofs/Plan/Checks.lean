import DocumentAccess.Plan.Read
import DocumentAccess.Plan.Update
import Mathlib.Tactic.Lemma

/-!
# The checks of plans

A plan notes what the caller may not do, and is refused if there is any of it.  So a plan that is not
refused has passed all its checks.

* `AccessIndex.MayRead`, `MayUpdate` — what the paths of a filter and of a command ask for.
* `ReadPlan.build_ok` — what a plan of a read was built from.
* `ReadPlan.refusal?_eq_none_iff`, `UpdatePlan.refusal?_eq_none_iff` — what keeps a plan from being
  refused.
* **`ReadPlan.mayRead`**, **`UpdatePlan.mayUpdate`** — the checks that a plan has passed.
-/

namespace DocumentAccess

namespace AccessIndex

variable {index : AccessIndex}

/-- Every path that a filter touches may be read. -/
def MayRead (index : AccessIndex) (filter : Value) (levels : Levels) : Prop :=
  ∀ path ∈ Filter.paths filter, index.allows path .read levels.read = true

/-- Every path that a command touches may be updated. -/
def MayUpdate (index : AccessIndex) (command : Value) (levels : Levels) : Prop :=
  ∀ path ∈ Update.paths command, index.allows path .update levels.update = true

/-- Nothing is denied exactly when all is allowed. -/
lemma denied_eq_nil_iff {paths : List String} {action : Action} {level : Nat} :
    index.denied paths action level = [] ↔
      ∀ path ∈ paths, index.allows path action level = true := by
  simp [denied]

end AccessIndex

namespace ReadPlan

variable {catalog : Catalog} {settings : Settings} {model : String} {request : ReadRequest}
  {levels : Levels} {plan : ReadPlan}

/-- A plan is assembled from the index of its model and its populate entries with theirs. -/
lemma build_ok (h : build catalog settings model request levels = .ok plan) :
    ∃ index entries, catalog.index model = .ok index ∧
      related catalog model (ReadPlan.entries request) = .ok entries ∧
      plan = assemble settings model request levels index entries := by
  rw [build] at h
  cases hindex : catalog.index model with
  | error error => simp [hindex] at h
  | ok index =>
      simp only [hindex] at h
      split at h
      · exact absurd h (by simp)
      · cases hrelated : related catalog model (ReadPlan.entries request) with
        | error error => simp [hrelated] at h
        | ok entries =>
            simp only [hrelated, Except.ok.injEq] at h
            exact ⟨index, entries, rfl, rfl, h.symm⟩

/-- A plan that cannot be built fails for a cause other than the store. -/
lemma build_error {refusal : Refusal}
    (h : build catalog settings model request levels = .error refusal) (message : String) :
    refusal ≠ .store message := by
  rintro rfl
  rw [build] at h
  split at h
  · simp at h
  · split at h
    · simp at h
    · split at h <;> simp at h

/-- A plan is not refused exactly when its paths and its populate entries may be read. -/
lemma refusal?_eq_none_iff :
    plan.refusal? = none ↔ plan.valid.read = true ∧ plan.valid.populate = true := by
  rw [refusal?]
  cases plan.valid.read <;> cases plan.valid.populate <;> simp

lemma refusal?_ne_store {refusal : Refusal} (h : plan.refusal? = some refusal) (message : String) :
    refusal ≠ .store message := by
  rintro rfl
  rw [refusal?] at h
  split at h
  · simp at h
  · split at h <;> simp at h

/-- **A plan that is not refused has a filter that may be read.** -/
theorem mayRead (h : build catalog settings model request levels = .ok plan)
    (hrefusal : plan.refusal? = none) :
    ∃ index, catalog.index model = .ok index ∧ index.MayRead plan.filter levels := by
  obtain ⟨index, entries, hindex, -, rfl⟩ := build_ok h
  have hread := (refusal?_eq_none_iff.1 hrefusal).1
  exact ⟨index, hindex, AccessIndex.denied_eq_nil_iff.1 (List.isEmpty_iff.1 hread)⟩

end ReadPlan

namespace UpdatePlan

variable {catalog : Catalog} {model : String} {find command : Value} {levels : Levels}
  {plan : UpdatePlan}

lemma build_error {refusal : Refusal} (h : build catalog model find command levels = .error refusal)
    (message : String) : refusal ≠ .store message := by
  rintro rfl
  rw [build] at h
  split at h <;> simp at h

/-- A plan is not refused exactly when nothing is denied. -/
lemma refusal?_eq_none_iff : plan.refusal? = none ↔ plan.deniedRead = [] ∧ plan.deniedUpdate = [] := by
  rw [refusal?, readAllowed, updateAllowed]
  cases plan.deniedRead <;> cases plan.deniedUpdate <;> simp

lemma refusal?_ne_store {refusal : Refusal} (h : plan.refusal? = some refusal) (message : String) :
    refusal ≠ .store message := by
  rintro rfl
  rw [refusal?] at h
  split at h
  · simp at h
  · split at h <;> simp at h

/-- **A plan that is not refused has a filter that may be read and a command that may be applied.** -/
theorem mayUpdate (h : build catalog model find command levels = .ok plan)
    (hrefusal : plan.refusal? = none) :
    ∃ index, catalog.index model = .ok index ∧ index.MayRead plan.filter levels ∧
      index.MayUpdate command levels := by
  rw [build] at h
  cases hindex : catalog.index model with
  | error error => simp [hindex] at h
  | ok index =>
      simp only [hindex, Except.ok.injEq] at h
      subst h
      obtain ⟨hread, hupdate⟩ := refusal?_eq_none_iff.1 hrefusal
      exact ⟨index, rfl, AccessIndex.denied_eq_nil_iff.1 hread, AccessIndex.denied_eq_nil_iff.1 hupdate⟩

end UpdatePlan

end DocumentAccess
