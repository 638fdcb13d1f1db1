import DocumentAccess.Proofs.Access.Once
import DocumentAccess.Proofs.Access.Selectable
import DocumentAccess.Proofs.Ascending

/-!
# Projections and the check of a path

A projection goes up through the levels and lists what is granted for reading, each path where it comes
first.  The check of one path goes down from the caller's level, and does not ask for reserved paths at
all.  Both say the same of an index in which what is listed may be read, and what is reserved by anyone;
every walk of the compiler keeps an index so, whatever the schema.

* `AccessIndex.Readable` — what is listed may be read at some level, and what is reserved at every level.
* **`AccessIndex.readable_addField`**, **`Schema.readable_compile`** — the step and the run.
* `AccessIndex.prefix_projection` — a higher level only adds to the end of a projection.
* **`Schema.projection_iff_allowed`** — the projections of a compiled index are what the check allows.
-/

namespace DocumentAccess

/-- Of strictly ascending levels, those up to a lower bound come first. -/
lemma Ascending.Strict.prefix_filter_le {levels : List Nat} (h : Ascending.Strict levels)
    {low high : Nat} (hle : low ≤ high) : levels.filter (· ≤ low) <+: levels.filter (· ≤ high) := by
  induction levels with
  | nil => exact List.prefix_refl _
  | cons n rest ih =>
      obtain ⟨hhead, hrest⟩ := List.pairwise_cons.1 h
      by_cases hn : n ≤ low
      · rw [List.filter_cons_of_pos (by simpa using hn),
          List.filter_cons_of_pos (by simpa using Nat.le_trans hn hle)]
        exact (List.prefix_cons_inj n).2 (ih hrest)
      · -- everything behind `n` is greater still
        have hnone : (n :: rest).filter (· ≤ low) = [] := by
          refine List.filter_eq_nil_iff.2 (List.forall_mem_cons.2 ⟨by simpa using hn, ?_⟩)
          intro m hm
          have hlt : n < m := by simpa [Ordered.before] using hhead m hm
          simp only [decide_eq_true_eq]
          omega
        rw [hnone]
        exact List.nil_prefix

namespace AccessIndex

variable {index : AccessIndex} {path : String} {level : Nat}

/-! ## Walks keep what is listed readable -/

/-- What is listed may be read at some level, and what is reserved at every level. -/
structure Readable (index : AccessIndex) : Prop where
  listed : ∀ path ∈ index.all, ∃ level, ⟨level, .read, path⟩ ∈ index.grants
  reserved : ∀ path ∈ index.reserved, ⟨0, .read, path⟩ ∈ index.grants

lemma readable_empty (create delete : Nat) : (empty create delete).Readable where
  listed := by simp [empty]
  reserved := by simp [empty]

lemma granted_grant (index : AccessIndex) (level : Nat) (action : Action) (path : String) :
    ⟨level, action, path⟩ ∈ (index.grant level action path).grants :=
  mem_adjoin.2 (Or.inr rfl)

/-- More grants take nothing away. -/
lemma Readable.grant (h : index.Readable) (level : Nat) (action : Action) (path : String) :
    (index.grant level action path).Readable where
  listed := by
    intro other hother
    obtain ⟨granted, hgranted⟩ := h.listed other hother
    exact ⟨granted, grants_grant index level action path hgranted⟩
  reserved := fun other hother => grants_grant index level action path (h.reserved other hother)

/-- A path may be listed once it may be read. -/
lemma Readable.addPath (h : index.Readable) (hpath : ⟨level, .read, path⟩ ∈ index.grants) :
    (index.addPath path).Readable where
  listed := by
    intro other hother
    rcases mem_adjoin.1 hother with hother | rfl
    · exact h.listed other hother
    · exact ⟨level, hpath⟩
  reserved := h.reserved

lemma Readable.addReserved (h : index.Readable) (path : String) :
    (index.addReserved path).Readable := by
  have hgranted := granted_grant index 0 .read path
  have hlisted := (h.grant 0 .read path).addPath hgranted
  refine ⟨hlisted.listed, ?_⟩
  intro other hother
  rcases mem_adjoin.1 hother with hother | rfl
  · exact hlisted.reserved other hother
  · exact hgranted

/-- A path is added with a level for reading. -/
lemma Readable.require (h : index.Readable) {r : Requirement} (hread : r.level? .read = some level) :
    (index.require r).Readable where
  listed := by
    intro path hpath
    rcases mem_all_require.1 hpath with hpath | rfl
    · obtain ⟨granted, hgranted⟩ := h.listed path hpath
      exact ⟨granted, mem_grants_require.2 (Or.inl hgranted)⟩
    · exact ⟨level, mem_grants_require.2 (Or.inr ⟨rfl, hread⟩)⟩
  reserved := by
    intro path hpath
    rw [reserved_require] at hpath
    exact mem_grants_require.2 (Or.inl (h.reserved path hpath))

/-- A rule always has a level for reading, if only the default one. -/
lemma exists_read_ofRule (defaults : Levels) (path : String) (acl : Option AccessRule) :
    ∃ level, (Requirement.ofRule defaults path acl).level? .read = some level := by
  cases acl <;> exact ⟨_, rfl⟩

lemma Readable.addLeaf (h : index.Readable) (defaults : Levels) (path : String)
    (acl : Option AccessRule) : (index.addLeaf defaults path acl).Readable := by
  obtain ⟨level, hread⟩ := exists_read_ofRule defaults path acl
  rw [addLeaf_eq]
  exact h.require hread

lemma Readable.addVirtuals (h : index.Readable) (defaults : Levels) (context : String)
    (virtuals : List String) : (index.addVirtuals defaults context virtuals).Readable := by
  induction virtuals generalizing index with
  | nil => exact h
  | cons virtual rest ih =>
      rw [AccessIndex.addVirtuals, List.foldl_cons, ← AccessIndex.addVirtuals]
      refine ih ?_
      dsimp only
      split_ifs
      · exact h
      · exact h.addLeaf defaults _ none

lemma Readable.addIdentifier (h : index.Readable) (path : String) :
    (index.addIdentifier path).Readable :=
  (h.grant 0 .read _).addPath (granted_grant index 0 .read _)

lemma Readable.addArray (h : index.Readable) (defaults : Levels) (path : String) :
    (index.addArray defaults path).Readable := by
  rw [AccessIndex.addArray, List.foldl_cons, List.foldl_cons, List.foldl_nil]
  exact ((h.grant _ .read path).grant _ .update path).addPath
    (grants_grant _ _ .update path (granted_grant index _ .read path))

/-- Fields keep an index readable if each of them does. -/
lemma readable_addFields {defaults : Levels} {versionKey : String} {fields : Fields}
    (h : ∀ entry ∈ fields, ∀ path, ∀ index : AccessIndex, index.Readable →
      (addField defaults versionKey path entry.2 index).Readable)
    (hide : List String) (context : String) (hindex : index.Readable) :
    (addFields defaults versionKey hide context fields index).Readable := by
  induction fields generalizing index with
  | nil => exact hindex
  | cons entry rest ih =>
      obtain ⟨hfield, hrest⟩ := List.forall_mem_cons.1 h
      rw [addFields]
      refine ih hrest ?_
      split_ifs
      · exact hindex
      · exact hfield _ index hindex

/-- **The step**: a field keeps an index readable. -/
theorem readable_addField (defaults : Levels) (versionKey : String) (field : Field) :
    ∀ path, ∀ index : AccessIndex, index.Readable →
      (addField defaults versionKey path field index).Readable := by
  induction field using Field.inductionOn with
  | leaf _ acl => exact fun path index h => h.addLeaf defaults path acl
  | array element _ _ => exact fun path index h => h.addLeaf defaults path element.acl
  | object fields _ ih => exact fun path index h => readable_addFields ih _ path h
  | documents fields virtuals hasId _ ih =>
      intro path index h
      have hvirtuals := (readable_addFields ih (hidden versionKey path) path h).addVirtuals defaults
        path virtuals
      rw [addField]
      cases hasId with
      | false => exact hvirtuals.addArray defaults path
      | true => exact (hvirtuals.addIdentifier path).addArray defaults path

/-! ## Projections -/

/-- In a readable index, the projection at a level is what the check allows there. -/
lemma Readable.mem_projection_iff (h : index.Readable) :
    path ∈ index.projection level ↔ index.allows path .read level = true := by
  rw [projection, mem_grantedPaths_iff, allows_iff]
  refine ⟨Or.inr, ?_⟩
  rintro (hreserved | hgranted)
  · exact ⟨0, Nat.zero_le _, h.reserved path hreserved⟩
  · exact hgranted

lemma nodup_projection (index : AccessIndex) (level : Nat) : (index.projection level).Nodup :=
  nodup_distinct _

/-- What is listed is in the projection of a level that the index has grants at. -/
lemma Readable.exists_mem_projection (h : index.Readable) (hpath : path ∈ index.all) :
    ∃ level ∈ index.levels, path ∈ index.projection level := by
  obtain ⟨level, hgranted⟩ := h.listed path hpath
  refine ⟨level, ?_, mem_grantedPaths_iff.2 ⟨level, Nat.le_refl _, hgranted⟩⟩
  exact Ascending.mem_ofList.2 (List.mem_map_of_mem hgranted)

/-- A higher level only adds to the end of a projection. -/
lemma prefix_projection (index : AccessIndex) {low high : Nat} (h : low ≤ high) :
    index.projection low <+: index.projection high := by
  obtain ⟨later, hlevels⟩ := (Ascending.strict_ofList (index.grants.map Grant.level)).prefix_filter_le h
  refine prefix_distinct ?_
  rw [levels, ← hlevels, List.flatMap_append]
  exact List.prefix_append _ _

end AccessIndex

/-! ## Schemas -/

namespace Schema

/-- **The run**: an index is readable when it is compiled, whatever the schema. -/
theorem readable_compile (schema : Schema) (defaults : Levels) : (schema.compile defaults).Readable := by
  have hreserved := ((AccessIndex.readable_empty defaults.create defaults.delete).addReserved
    Path.identifier).addReserved schema.versionKey
  exact (AccessIndex.readable_addFields
    (fun entry _ => AccessIndex.readable_addField defaults schema.versionKey entry.2) _ ""
      hreserved).addVirtuals defaults "" schema.tree.virtuals

/-- **The projections of a compiled index are what the check allows**: at every level just the paths that
may be read, each once.  Every listed path is in some projection, and projections at higher levels go on
where those at lower levels end. -/
theorem projection_iff_allowed (schema : Schema) (defaults : Levels) :
    let index := schema.compile defaults
    (∀ level path, path ∈ index.projection level ↔ index.allows path .read level = true) ∧
      (∀ level, (index.projection level).Nodup) ∧
      (∀ path ∈ index.all, ∃ level ∈ index.levels, path ∈ index.projection level) ∧
      ∀ low high, low ≤ high → index.projection low <+: index.projection high := by
  intro index
  have hreadable := schema.readable_compile defaults
  exact ⟨fun level path => hreadable.mem_projection_iff, index.nodup_projection,
    fun path hpath => hreadable.exists_mem_projection hpath, fun low high h => index.prefix_projection h⟩

end Schema

/-- The identifier of the items is granted at level 0 and at level 5, and projected once. -/
theorem projection_iff_allowed_labelled :
    let index := labelledSchema.compile ordersDefaults
    index.projection 0 = ["_id", "__v", "items._id"] ∧
      index.projection 5 = ["_id", "__v", "items._id", "items.price", "items"] ∧
      index.projection 0 <+: index.projection 5 ∧
      "items" ∈ index.all ∧ ∃ level ∈ index.levels, "items" ∈ index.projection level := by
  intro index
  have hprojections := labelledSchema.projection_iff_allowed ordersDefaults
  have hitems : "items" ∈ index.all := by decide
  exact ⟨by decide, by decide, hprojections.2.2.2 0 5 (by decide), hitems,
    hprojections.2.2.1 "items" hitems⟩

end DocumentAccess
