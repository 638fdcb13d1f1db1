import DocumentAccess.Proofs.Access.Requirements

/-!
# The walk over a schema

The requirements of a field are all within its path, and those inside an array are below it.  So at the
moment when the walk comes to a field, the index knows nothing within the path of the field except for
reserved paths; that is what lets the walk see only what the field itself has added.

* `Field.within_requirements`, `Requirement.below_ofSubdocuments` — where requirements are.
* `AccessIndex.Agrees` — within a path, an index knows just some requirements.
* `AccessIndex.addField_eq` — the step: a field adds its requirements.
* **`Schema.compile_eq`** — the run: a schema adds its requirements.
* **`Schema.allows_compile_iff`** — what a compiled index allows.
-/

namespace DocumentAccess

/-! ## Where requirements are -/

section Places

variable {defaults : Levels} {reserved : List Requirement} {path : String}

lemma Field.requirementsIn_eq_flatMap (hide : List String) (context : String) (fields : Fields) :
    Field.requirementsIn defaults reserved hide context fields
      = fields.flatMap fun entry =>
          if hide.contains entry.1 then []
          else entry.2.requirements defaults reserved (Path.join context entry.1) := by
  induction fields with
  | nil => rfl
  | cons entry rest ih => rw [Field.requirementsIn, ih, List.flatMap_cons]

lemma Field.mem_requirementsIn {hide : List String} {context : String} {fields : Fields}
    {r : Requirement} :
    r ∈ Field.requirementsIn defaults reserved hide context fields ↔
      ∃ entry ∈ fields, entry.1 ∉ hide ∧
        r ∈ entry.2.requirements defaults reserved (Path.join context entry.1) := by
  rw [Field.requirementsIn_eq_flatMap, List.mem_flatMap]
  refine exists_congr fun entry => and_congr_right fun _ => ?_
  by_cases h : entry.1 ∈ hide <;> simp [h]

/-- What subdocuments require is below their path, if what their fields require is. -/
lemma Requirement.below_ofSubdocuments (hpath : path ≠ "") {virtuals : List String} {hasId : Bool}
    {walked : List Requirement} (hwalked : ∀ r ∈ walked, Path.isBelow path r.path = true) :
    ∀ r ∈ ofSubdocuments defaults reserved path virtuals hasId walked,
      Path.isBelow path r.path = true := by
  intro r hr
  rcases List.mem_append.1 hr with hr | hid
  · rcases List.mem_append.1 hr with hr | hvirtual
    · exact hwalked r hr
    · obtain ⟨virtual, -, -, rfl⟩ := mem_ofVirtuals.1 hvirtual
      exact Path.isBelow_join hpath virtual
  · cases hasId with
    | false => exact absurd hid List.not_mem_nil
    | true =>
        rw [List.mem_singleton.1 hid]
        exact Path.isBelow_join hpath _

/-- What the fields under a context require is below the context. -/
lemma Field.below_requirementsIn (hpath : path ≠ "") {hide : List String} {fields : Fields}
    (h : ∀ entry ∈ fields, ∀ inner, inner ≠ "" →
      ∀ r ∈ entry.2.requirements defaults reserved inner, Path.Within inner r.path) :
    ∀ r ∈ Field.requirementsIn defaults reserved hide path fields,
      Path.isBelow path r.path = true := by
  intro r hr
  obtain ⟨entry, hentry, -, hr⟩ := Field.mem_requirementsIn.1 hr
  have hinner : Path.isBelow path (Path.join path entry.1) = true := Path.isBelow_join hpath _
  exact Path.isBelow_of_isBelow_of_within hinner
    (h entry hentry _ (Path.ne_empty_of_isBelow hinner) r hr)

/-- **The requirements of a field are within its path.** -/
theorem Field.within_requirements (field : Field) : ∀ path, path ≠ "" →
    ∀ r ∈ field.requirements defaults reserved path, Path.Within path r.path := by
  induction field using Field.inductionOn with
  | leaf _ _ | array _ _ _ =>
      intro path _ r hr
      rw [List.mem_singleton.1 hr]
      exact List.prefix_refl _
  | object fields _ ih =>
      intro path hpath r hr
      exact Path.within_of_isBelow (Field.below_requirementsIn hpath ih r hr)
  | documents fields virtuals hasId _ ih =>
      intro path hpath r hr
      rcases List.mem_append.1 hr with hr | hr
      · exact Path.within_of_isBelow (Requirement.below_ofSubdocuments hpath
          (Field.below_requirementsIn hpath ih) r hr)
      · rw [List.mem_singleton.1 hr]
        exact List.prefix_refl _

/-- The requirements of subdocuments are below the path of their array. -/
lemma Field.below_ownRequirements (hpath : path ≠ "") {fields : Fields} {virtuals : List String}
    {hasId : Bool} :
    ∀ r ∈ Field.ownRequirements defaults reserved path fields virtuals hasId,
      Path.isBelow path r.path = true :=
  Requirement.below_ofSubdocuments hpath
    (Field.below_requirementsIn hpath fun entry _ => Field.within_requirements entry.2)

end Places

/-! ## Agreement within a path -/

namespace AccessIndex

variable {defaults : Levels} {reserved rs : List Requirement} {index : AccessIndex} {path : String}

/-- Within a path, the index has these requirements and no others. -/
structure Agrees (index : AccessIndex) (reserved : List Requirement) (path : String) : Prop where
  all : ∀ other, Path.Within path other →
    (other ∈ index.all ↔ ∃ r ∈ reserved, other = r.path)
  grants : ∀ other, Path.Within path other → ∀ action level,
    (⟨level, action, other⟩ ∈ index.grants ↔
      ∃ r ∈ reserved, other = r.path ∧ r.level? action = some level)

lemma Agrees.inside (h : index.Agrees reserved path) {inner : String}
    (hinner : Path.Within path inner) : index.Agrees reserved inner where
  all := fun other hother => h.all other (hinner.trans hother)
  grants := fun other hother => h.grants other (hinner.trans hother)

/-- Requirements elsewhere change nothing within the path. -/
lemma Agrees.requireAll (h : index.Agrees reserved path)
    (helsewhere : ∀ r ∈ rs, ¬ Path.Within path r.path) :
    (index.requireAll rs).Agrees reserved path where
  all := by
    intro other hother
    rw [mem_all_requireAll, h.all other hother, or_iff_left]
    rintro ⟨r, hr, rfl⟩
    exact helsewhere r hr hother
  grants := by
    intro other hother action level
    rw [mem_grants_requireAll, h.grants other hother, or_iff_left]
    rintro ⟨r, hr, rfl, -⟩
    exact helsewhere r hr hother

/-! ## Fields -/

/-- At any path where it knows just what is reserved, an index gets the requirements of the field. -/
def Adds (defaults : Levels) (versionKey : String) (reserved : List Requirement) (field : Field) :
    Prop :=
  ∀ (path : String) (index : AccessIndex), path ≠ "" → index.Agrees reserved path →
    addField defaults versionKey path field index
      = index.requireAll (field.requirements defaults reserved path)

/-- The fields under a context add their requirements one after the other: those of one field are not
within the path of another. -/
lemma addFields_eq {versionKey : String} {hide : List String} {context : String} {fields : Fields}
    (hsound : Fields.Sound fields)
    (hfields : ∀ entry ∈ fields, Adds defaults versionKey reserved entry.2)
    (hagrees : ∀ entry ∈ fields, entry.1 ∉ hide →
      index.Agrees reserved (Path.join context entry.1)) :
    addFields defaults versionKey hide context fields index
      = index.requireAll (Field.requirementsIn defaults reserved hide context fields) := by
  induction fields generalizing index with
  | nil => rfl
  | cons entry rest ih =>
      obtain ⟨name, field⟩ := entry
      obtain ⟨hfield, hrest⟩ := List.forall_mem_cons.1 hfields
      obtain ⟨hhere, hlater⟩ := List.forall_mem_cons.1 hagrees
      rw [addFields, Field.requirementsIn, requireAll_append]
      by_cases hhidden : name ∈ hide
      · simp only [hhidden, List.contains_eq_mem, decide_true, if_true]
        exact ih hsound.tail hrest hlater
      · have hname : name ≠ "" := hsound.ne_empty_of_mem List.mem_cons_self
        simp only [hhidden, List.contains_eq_mem, decide_false, Bool.false_eq_true, if_false]
        rw [hfield _ index (Path.join_ne_empty hname) (hhere hhidden)]
        refine ih hsound.tail hrest fun other hother hshown => ?_
        refine (hlater other hother hshown).requireAll fun r hr hwithin => ?_
        have hsame := Path.within_join_unique (hsound.no_dot_of_mem (List.mem_cons_of_mem _ hother))
          (hsound.no_dot_of_mem List.mem_cons_self) hwithin
          (Field.within_requirements field _ (Path.join_ne_empty hname) r hr)
        exact hsound.head_ne hother hsame

/-- The fields inside a field add their requirements. -/
lemma addFields_inside {versionKey : String} {fields : Fields} (hpath : path ≠ "")
    (hsound : Fields.Sound fields)
    (hfields : ∀ entry ∈ fields, Adds defaults versionKey reserved entry.2)
    (hagrees : index.Agrees reserved path) :
    addFields defaults versionKey [Path.identifier] path fields index
      = index.requireAll
          (Field.requirementsIn defaults reserved [Path.identifier] path fields) :=
  addFields_eq hsound hfields fun entry _ _ =>
    hagrees.inside (Path.within_of_isBelow (Path.isBelow_join hpath entry.1))

/-- Subdocuments add the requirements of their virtual paths and of their identifier. -/
lemma addSubdocuments_eq (hpath : path ≠ "") (hagrees : index.Agrees reserved path)
    (virtuals : List String) (hasId : Bool) (walked : List Requirement) :
    (let walkedIndex := (index.requireAll walked).addVirtuals defaults path virtuals
      if hasId then walkedIndex.addIdentifier path else walkedIndex)
      = index.requireAll
          (Requirement.ofSubdocuments defaults reserved path virtuals hasId walked) := by
  have htaken : ∀ virtual, Path.join path virtual ∈ (index.requireAll walked).all ↔
      Path.join path virtual ∈ (reserved ++ walked).map Requirement.path := by
    intro virtual
    have hwithin := Path.within_of_isBelow (Path.isBelow_join hpath virtual)
    rw [mem_all_requireAll, hagrees.all _ hwithin, List.map_append, List.mem_append, List.mem_map,
      List.mem_map]
    simp only [eq_comm]
  have hvirtuals : (index.requireAll walked).addVirtuals defaults path virtuals
      = (index.requireAll walked).requireAll (Requirement.ofVirtuals defaults path
          ((reserved ++ walked).map Requirement.path) virtuals) := by
    rw [addVirtuals_eq, Requirement.ofVirtuals_congr htaken]
  rw [Requirement.ofSubdocuments, requireAll_append, requireAll_append, hvirtuals]
  cases hasId <;> rfl

/-- Below an array, an index holds what is reserved there and what its subdocuments require. -/
lemma grantedBelow_iff {own : List Requirement} (hagrees : index.Agrees reserved path)
    (hown : ∀ r ∈ own, Path.isBelow path r.path = true) (action : Action) (level : Nat) :
    (∃ other, Path.isBelow path other = true ∧
        ⟨level, action, other⟩ ∈ (index.requireAll own).grants) ↔
      ∃ r ∈ (reserved.filter fun r => Path.isBelow path r.path) ++ own,
        r.level? action = some level := by
  constructor
  · rintro ⟨other, hbelow, hgrant⟩
    rcases mem_grants_requireAll.1 hgrant with hbefore | ⟨r, hr, rfl, hlevel⟩
    · obtain ⟨r, hr, rfl, hlevel⟩ :=
        (hagrees.grants other (Path.within_of_isBelow hbelow) action level).1 hbefore
      exact ⟨r, List.mem_append_left _ (List.mem_filter.2 ⟨hr, hbelow⟩), hlevel⟩
    · exact ⟨r, List.mem_append_right _ hr, hlevel⟩
  · rintro ⟨r, hr, hlevel⟩
    rcases List.mem_append.1 hr with hr | hr
    · obtain ⟨hr, hbelow⟩ := List.mem_filter.1 hr
      refine ⟨r.path, hbelow, mem_grants_requireAll.2 (Or.inl ?_)⟩
      exact (hagrees.grants _ (Path.within_of_isBelow hbelow) action level).2 ⟨r, hr, rfl, hlevel⟩
    · exact ⟨r.path, hown r hr, mem_grants_requireAll.2 (Or.inr ⟨r, hr, rfl, hlevel⟩)⟩

/-- **The step**: a field adds its requirements, where the index knows just what is reserved. -/
theorem addField_eq (versionKey : String) (field : Field) (hsound : field.Sound) :
    Adds defaults versionKey reserved field := by
  induction field using Field.inductionOn with
  | leaf _ acl | array _ acl _ => exact fun path index _ _ => addLeaf_eq ..
  | object fields acl ih =>
      intro path index hpath hagrees
      have hfields := hsound.object
      exact addFields_inside hpath hfields
        (fun entry hentry => ih entry hentry (hfields.inside entry hentry)) hagrees
  | documents fields virtuals hasId acl ih =>
      intro path index hpath hagrees
      have hfields := hsound.documents
      have hadds := fun entry hentry => ih entry hentry (hfields.inside entry hentry)
      have hhidden : hidden versionKey path = [Path.identifier] := by
        rw [hidden, if_neg (by simpa [String.isEmpty_iff] using hpath)]
      rw [addField, Field.requirements_documents, requireAll_append, hhidden,
        addFields_inside hpath hfields hadds hagrees, addSubdocuments_eq hpath hagrees]
      exact addArray_eq defaults (grantedBelow_iff hagrees (Field.below_ownRequirements hpath))

end AccessIndex

/-! ## Schemas -/

namespace Schema

variable {schema : Schema}

/-- The index before the fields are walked: it has the reserved paths. -/
def start (schema : Schema) (defaults : Levels) : AccessIndex :=
  schema.reserved.foldl AccessIndex.addReserved (AccessIndex.empty defaults.create defaults.delete)

/-- At first, an index knows just what is reserved. -/
lemma agrees_start (schema : Schema) (defaults : Levels) (path : String) :
    (schema.start defaults).Agrees schema.reservedRequirements path where
  all := by
    intro other _
    have hall : (schema.start defaults).all
        = ((AccessIndex.empty defaults.create defaults.delete).requireAll
            schema.reservedRequirements).all := rfl
    rw [hall, AccessIndex.mem_all_requireAll, or_iff_right]
    exact List.not_mem_nil
  grants := by
    intro other _ action level
    have hgrants : (schema.start defaults).grants
        = ((AccessIndex.empty defaults.create defaults.delete).requireAll
            schema.reservedRequirements).grants := rfl
    rw [hgrants, AccessIndex.mem_grants_requireAll, or_iff_right]
    exact List.not_mem_nil

lemma mem_reserved_start {defaults : Levels} {path : String} :
    path ∈ (schema.start defaults).reserved ↔ path ∈ schema.reserved := by
  show path ∈ AccessIndex.adjoin (AccessIndex.adjoin [] _) _ ↔ _
  simp [mem_adjoin, reserved]

/-- **The run**: compiling a schema adds its requirements, in order. -/
theorem compile_eq (h : schema.fault? = none) (hordered : schema.WellOrdered)
    (defaults : Levels) :
    schema.compile defaults = (schema.start defaults).requireAll (schema.requirements defaults) := by
  have hsound := sound_fields h hordered
  have hwalked : AccessIndex.addFields defaults schema.versionKey
      (AccessIndex.hidden schema.versionKey "") "" schema.tree.fields (schema.start defaults)
        = (schema.start defaults).requireAll (schema.walkedRequirements defaults) :=
    AccessIndex.addFields_eq hsound
      (fun entry hentry => AccessIndex.addField_eq _ _ (hsound.inside entry hentry))
      fun entry _ _ => schema.agrees_start defaults _
  have htaken : ∀ virtual, Path.join "" virtual
        ∈ ((schema.start defaults).requireAll (schema.walkedRequirements defaults)).all ↔
      Path.join "" virtual
        ∈ (schema.reservedRequirements ++ schema.walkedRequirements defaults).map
            Requirement.path := by
    intro virtual
    rw [AccessIndex.mem_all_requireAll,
      (schema.agrees_start defaults (Path.join "" virtual)).all _ (List.prefix_refl _),
      List.map_append, List.mem_append, List.mem_map, List.mem_map]
    simp only [eq_comm]
  show (AccessIndex.addFields _ _ _ _ _ (schema.start defaults)).addVirtuals _ _ _ = _
  rw [hwalked, AccessIndex.addVirtuals_eq, Requirement.ofVirtuals_congr htaken, requirements,
    AccessIndex.requireAll_append]

/-- **What a compiled index allows**: everything on reserved paths, and on other paths what their
requirements ask for. -/
theorem allows_compile_iff (h : schema.fault? = none) (hordered : schema.WellOrdered)
    {defaults : Levels} {path : String} {action : Action} {level : Nat} :
    (schema.compile defaults).allows path action level = true ↔
      path ∈ schema.reserved ∨
        ∃ r ∈ schema.requirements defaults, path = r.path ∧
          ∃ granted ≤ level, r.level? action = some granted := by
  rw [compile_eq h hordered, AccessIndex.allows_iff, AccessIndex.reserved_requireAll,
    mem_reserved_start]
  refine or_congr_right' fun hpath => ?_
  have hstart : ∀ granted, ⟨granted, action, path⟩ ∉ (schema.start defaults).grants := by
    intro granted hgrant
    obtain ⟨r, hr, rfl, -⟩ :=
      ((schema.agrees_start defaults path).grants path (List.prefix_refl _) action granted).1 hgrant
    obtain ⟨reserved, hreserved, rfl⟩ := List.mem_map.1 hr
    exact hpath hreserved
  simp only [AccessIndex.mem_grants_requireAll, hstart, false_or]
  constructor
  · rintro ⟨granted, hle, r, hr, hrpath, hlevel⟩
    exact ⟨r, hr, hrpath, granted, hle, hlevel⟩
  · rintro ⟨r, hr, hrpath, granted, hle, hlevel⟩
    exact ⟨granted, hle, r, hr, hrpath, hlevel⟩

end Schema

end DocumentAccess
