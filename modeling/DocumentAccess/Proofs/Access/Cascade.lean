import DocumentAccess.Proofs.Access.Selectable

/-!
# Higher levels

Holding a level implies what is granted at lower ones, so a check that passes at a level passes at every
higher one.  For selections that are left open this takes more than the check of one path: what is
selected then depends on the level itself.

* **`AccessIndex.allows_mono`** — what is allowed stays allowed.
* `AccessIndex.denied_sublist`, `AccessIndex.canSelect_mono` — the same for lists of paths and for
  selections that are given.
* `Schema.includedPaths_projectionText_subset` — more may be read.
* **`Schema.canPopulate_mono`** — populate entries stay allowed, also those that leave the selection open.
-/

namespace DocumentAccess

namespace AccessIndex

variable {index : AccessIndex} {path select : String} {paths : List String} {action : Action}
  {lower upper : Nat}

/-- **What is allowed at a level is allowed at every higher one.** -/
theorem allows_mono (hle : lower ≤ upper) (h : index.allows path action lower = true) :
    index.allows path action upper = true := by
  rw [allows_iff] at h ⊢
  refine h.imp_right ?_
  rintro ⟨granted, hgranted, hgrant⟩
  exact ⟨granted, Nat.le_trans hgranted hle, hgrant⟩

/-- What is denied at a level was denied at every lower one. -/
lemma denied_sublist (hle : lower ≤ upper) :
    (index.denied paths action upper).Sublist (index.denied paths action lower) := by
  refine List.monotone_filter_right paths fun path hdenied => ?_
  cases hallowed : index.allows path action lower with
  | false => rfl
  | true => rw [allows_mono hle hallowed] at hdenied; exact hdenied

/-- If nothing is denied at a level then nothing is at a higher one. -/
lemma denied_eq_nil_mono (hle : lower ≤ upper) (h : index.denied paths action lower = []) :
    index.denied paths action upper = [] :=
  List.sublist_nil.1 (h ▸ denied_sublist hle)

lemma canCreate_mono (hle : lower ≤ upper) (h : index.canCreate lower = true) :
    index.canCreate upper = true :=
  decide_eq_true (Nat.le_trans (of_decide_eq_true h) hle)

lemma canDelete_mono (hle : lower ≤ upper) (h : index.canDelete lower = true) :
    index.canDelete upper = true :=
  decide_eq_true (Nat.le_trans (of_decide_eq_true h) hle)

lemma SelectsReadable.mono (hle : lower ≤ upper) (h : index.SelectsReadable select lower) :
    index.SelectsReadable select upper := by
  obtain ⟨hincluded, hall⟩ := h
  exact ⟨fun path hpath => allows_mono hle (hincluded path hpath),
    fun hnone path hpath => allows_mono hle (hall hnone path hpath)⟩

/-- A selection that may be read at a level may be read at every higher one. -/
lemma canSelect_mono (hle : lower ≤ upper) (h : index.canSelect select lower = true) :
    index.canSelect select upper = true :=
  canSelect_iff.2 ((canSelect_iff.1 h).mono hle)

/-- The paths that may be read at a level may be read at every higher one. -/
lemma projection_subset (hle : lower ≤ upper) : index.projection lower ⊆ index.projection upper := by
  intro path hpath
  obtain ⟨granted, hgranted, hgrant⟩ := mem_grantedPaths_iff.1 hpath
  exact mem_grantedPaths_iff.2 ⟨granted, Nat.le_trans hgranted hle, hgrant⟩

end AccessIndex

namespace Schema

variable {schema : Schema} {defaults : Levels} {lower upper : Nat}

/-- A selection that is left open includes more at a higher level. -/
lemma includedPaths_projectionText_subset (h : schema.Selectable) (hle : lower ≤ upper) :
    includedPaths ((schema.compile defaults).projectionText lower)
      ⊆ includedPaths ((schema.compile defaults).projectionText upper) := by
  have hpaths := (grants_compile h defaults).1
  rw [AccessIndex.includedPaths_projectionText hpaths, AccessIndex.includedPaths_projectionText hpaths]
  exact List.filter_subset _ (AccessIndex.projection_subset hle)

/-- **A populate entry that is allowed at a level is allowed at every higher one**: a selection that is
left open becomes another one there, but that may be read as well. -/
theorem canPopulate_mono (h : schema.Selectable) (hle : lower ≤ upper) {entry : Populate}
    (hallowed : (schema.compile defaults).canPopulate entry lower = true) :
    (schema.compile defaults).canPopulate entry upper = true := by
  rw [AccessIndex.canPopulate, AccessIndex.resolve] at hallowed ⊢
  by_cases hblank : entry.isBlank = true
  · rw [if_pos hblank]
    exact AccessIndex.canSelect_iff.2 (schema.selectsReadable_projection h defaults upper)
  · rw [if_neg hblank] at hallowed ⊢
    exact AccessIndex.canSelect_mono hle hallowed

end Schema

end DocumentAccess
