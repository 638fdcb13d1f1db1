import DocumentAccess.Proofs.Access.Selectable

/-!
# Projections written as selections

The projection of an index is the list of paths that may be read at a level.  It is written as a text when
a selection is missing, and that text is read as a selection again.  Both agree as long as each path in the
projection is one that a selection can name; names with blanks or with a sign in front are not.

* `mem_includedPaths` — the paths that a selection can include.
* **`includedPaths_unwords_eq_iff`** — the lists of paths that are read again as they were written.
* `AccessIndex.canSelect_projectionText_iff` — when the projection may be selected.
* **`Schema.projection_valid_iff`** — the projection of a compiled index is a selection of its paths, and may
  be selected and populated with, exactly when all its paths can be named.
* `projection_invalid` — a name with a blank, and one with a sign.
-/

namespace DocumentAccess

/-! ## Lists of paths as selections -/

/-- Without its plus sign, an entry has no other characters than before. -/
lemma withoutPlus_subset (entry : String) : (withoutPlus entry).toList ⊆ entry.toList := by
  rw [withoutPlus]
  split
  next path hentry =>
    rw [hentry, String.toList_ofList]
    exact List.subset_cons_self _ _
  next => exact List.Subset.refl _

/-- An entry with a plus sign in front is not its own path. -/
lemma head_ne_plus {entry : String} (h : withoutPlus entry = entry) :
    entry.toList.head? ≠ some '+' := by
  intro hplus
  obtain ⟨path, hentry⟩ := List.head?_eq_some_iff.1 hplus
  have hpath : withoutPlus entry = String.ofList path := by
    simp only [withoutPlus, hentry]
  rw [← h, hpath, String.toList_ofList] at hentry
  exact List.cons_ne_self _ _ hentry.symm

/-- A selection includes paths without blanks only, and not the empty one. -/
lemma mem_includedPaths {path select : String} (h : path ∈ includedPaths select) :
    Text.NoBlank path.toList ∧ path ≠ "" := by
  obtain ⟨hentry, hne⟩ := List.mem_filter.1 h
  obtain ⟨entry, hmem, rfl⟩ := List.mem_map.1 hentry
  have hblank := (Text.mem_words (List.mem_of_mem_filter hmem)).1
  refine ⟨fun c hc => hblank c (withoutPlus_subset entry hc), ?_⟩
  simpa [String.isEmpty_iff] using hne

/-- **Paths that are written as a selection are read again exactly when each of them can be named**: no
path may be empty, have a blank in it, or a sign in front. -/
theorem includedPaths_unwords_eq_iff {paths : List String} :
    includedPaths (Text.unwords paths) = paths ↔ ∀ path ∈ paths, IsSelectable path ∧ path ≠ "" := by
  constructor
  · intro h
    have hwords : Text.words (Text.unwords paths) = paths :=
      Text.words_unwords_eq_iff.2 fun path hpath => mem_includedPaths (h.symm ▸ hpath)
    rw [includedPaths, hwords] at h
    -- no entry was lost on the way, so there is neither an exclusion nor a sign that is taken off
    have hincluded : paths.filter (fun entry => !isExclusion entry) = paths := by
      refine List.filter_sublist.eq_of_length_le ?_
      calc paths.length = _ := congrArg List.length h.symm
        _ ≤ _ := List.length_filter_le _ _
        _ = _ := List.length_map _
    rw [hincluded] at h
    have hsigns : paths.map withoutPlus = paths := by
      have hlength : (paths.map withoutPlus).length
          ≤ ((paths.map withoutPlus).filter fun path => !path.isEmpty).length :=
        Nat.le_of_eq (by rw [h, List.length_map])
      exact (List.filter_sublist.eq_of_length_le hlength).symm.trans h
    intro path hpath
    have hmem : path ∈ includedPaths (Text.unwords paths) := by
      rw [includedPaths, hwords, hincluded, h]
      exact hpath
    obtain ⟨hblank, hne⟩ := mem_includedPaths hmem
    refine ⟨⟨hblank, head_ne_plus ?_, ?_⟩, hne⟩
    · exact List.map_inj_left.1 (hsigns.trans (List.map_id _).symm) path hpath
    · have hexclusion := List.filter_eq_self.1 hincluded path hpath
      simpa [isExclusion] using hexclusion
  · intro h
    rw [includedPaths_unwords_of_selectable fun path hpath => (h path hpath).1]
    refine List.filter_eq_self.2 fun path hpath => ?_
    simpa [String.isEmpty_iff] using (h path hpath).2

namespace AccessIndex

variable {index : AccessIndex} {level : Nat}

/-- Every path of a projection may be read. -/
lemma allows_of_mem_projection {path : String} (h : path ∈ index.projection level) :
    index.allows path .read level = true :=
  allows_iff.2 (Or.inr (mem_grantedPaths_iff.1 h))

/-- A projection with the identifier includes something when it is written as a selection. -/
lemma identifier_mem_includedPaths (hid : ⟨0, .read, Path.identifier⟩ ∈ index.grants)
    (level : Nat) : Path.identifier ∈ includedPaths (index.projectionText level) := by
  rw [projectionText, includedPaths_unwords]
  refine List.mem_flatMap.2 ⟨Path.identifier, ?_, by decide⟩
  exact mem_grantedPaths_iff.2 ⟨0, Nat.zero_le _, hid⟩

/-- The projection may be selected when what each of its paths is read as may be read. -/
lemma canSelect_projectionText_iff (hid : ⟨0, .read, Path.identifier⟩ ∈ index.grants)
    (level : Nat) :
    index.canSelect (index.projectionText level) level = true ↔
      ∀ path ∈ index.projection level, ∀ part ∈ includedPaths path,
        index.allows part .read level = true := by
  have hne : includedPaths (index.projectionText level) ≠ [] :=
    List.ne_nil_of_mem (identifier_mem_includedPaths hid level)
  rw [canSelect_iff, SelectsReadable, and_iff_left fun hnone => absurd hnone hne, projectionText,
    includedPaths_unwords]
  exact List.forall_mem_flatMap

/-- A populate entry that leaves the choice open selects the projection. -/
lemma canPopulate_of_isBlank {entry : Populate} (h : entry.isBlank = true) :
    index.canPopulate entry level = index.canSelect (index.projectionText level) level := by
  rw [canPopulate, resolve, if_pos h]

end AccessIndex

/-- **The projection of a compiled index is a valid selection exactly when all its paths can be named**: it
includes just the paths of the projection, may be selected, and may be populated with.  In any case
populate entries without a selection stand and fall with the projection, and the projection with what its
paths are read as. -/
theorem Schema.projection_valid_iff (schema : Schema) (defaults : Levels) (level : Nat) :
    let index := schema.compile defaults
    ((includedPaths (index.projectionText level) = index.projection level ∧
        index.canSelect (index.projectionText level) level = true ∧
        ∀ entry : Populate, entry.isBlank = true → index.canPopulate entry level = true) ↔
      ∀ path ∈ index.projection level, IsSelectable path ∧ path ≠ "") ∧
    (index.canSelect (index.projectionText level) level = true ↔
      ∀ path ∈ index.projection level, ∀ part ∈ includedPaths path,
        index.allows part .read level = true) ∧
    ∀ entry : Populate, entry.isBlank = true →
      index.canPopulate entry level = index.canSelect (index.projectionText level) level := by
  intro index
  have hselect := AccessIndex.canSelect_projectionText_iff (schema.identifier_granted defaults) level
  refine ⟨⟨fun h => includedPaths_unwords_eq_iff.1 h.1, fun h => ?_⟩, hselect,
    fun entry hblank => AccessIndex.canPopulate_of_isBlank hblank⟩
  have hread : index.canSelect (index.projectionText level) level = true := by
    refine hselect.2 fun path hpath part hpart => ?_
    rw [(h path hpath).1.includedPaths_eq] at hpart
    rw [List.mem_singleton.1 (List.mem_of_mem_filter hpart)]
    exact AccessIndex.allows_of_mem_projection hpath
  exact ⟨includedPaths_unwords_eq_iff.2 h, hread,
    fun entry hblank => (AccessIndex.canPopulate_of_isBlank hblank).trans hread⟩

/-- A schema with one field, which anyone may read, and virtual paths. -/
def namedSchema (name : String) (virtuals : List String) : Schema :=
  ⟨"guests", defaultVersionKey, ⟨[(name, .leaf .string none)], virtuals, false⟩⟩

/-- A name with a blank makes the projection two other names, which nobody may read; a virtual path with a
minus sign in front is lost.  Both schemas are accepted. -/
theorem projection_invalid :
    let spaced := (namedSchema "first name" []).compile (.uniform 0)
    let signed := (namedSchema "name" ["-age"]).compile (.uniform 0)
    (namedSchema "first name" []).fault? = none ∧
      includedPaths (spaced.projectionText 0) ≠ spaced.projection 0 ∧
      spaced.canSelect (spaced.projectionText 0) 0 = false ∧
      spaced.canPopulate ⟨"host", ""⟩ 0 = false ∧
      (namedSchema "name" ["-age"]).fault? = none ∧
      includedPaths (signed.projectionText 0) ≠ signed.projection 0 := by
  decide

end DocumentAccess
