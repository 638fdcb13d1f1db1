import DocumentAccess.Proofs.Fields

/-!
# Every definition in a schema

The structure of a schema is checked by a walk over its fields.  The walk goes into objects and into arrays
of subdocuments, but not into the element of an array of single values, although an element is a
definition as well, and a reference that is followed when documents are populated.

* `Field.definitions`, `Schema.definitions` — the definitions at every depth, elements included.
* `Definition.Proper` — a field name, and a target for a reference.
* **`Schema.fault?_eq_none_iff`** — an accepted schema has proper definitions wherever the walk goes.
* **`Schema.definitions_proper_iff`** — of an accepted schema, all definitions are proper if those inside
  elements are; and a path leads to a reference without a target just at an array of such references.
* `elements_unchecked` — accepted schemas with an element that has no target, or a field without a name.
-/

namespace DocumentAccess

/-! ## Definitions -/

/-- A definition in a schema.  The element of an array has no name; `inElement` says whether the definition
is an element, or stands inside one. -/
structure Definition where
  name : Option String
  field : Field
  inElement : Bool

/-- A name is one segment of a path and no native operator, and a reference has a target. -/
structure Definition.Proper (definition : Definition) : Prop where
  name : ∀ name, definition.name = some name →
    name ≠ "" ∧ '.' ∉ name.toList ∧ name.toList.head? ≠ some '$'
  target : definition.field.target? ≠ some ""

namespace Field

mutual

/-- The definitions inside a field, at every depth. -/
def definitions (inElement : Bool) : Field → List Definition
  | .leaf _ _ => []
  | .array element _ => ⟨none, element, true⟩ :: definitions true element
  | .object fields _ => definitionsOf inElement fields
  | .documents fields _ _ _ => definitionsOf inElement fields

/-- Fields are definitions, and so are those inside them. -/
def definitionsOf (inElement : Bool) : List (String × Field) → List Definition
  | [] => []
  | (name, field) :: rest =>
    ⟨some name, field, inElement⟩ :: definitions inElement field ++ definitionsOf inElement rest

end

variable {fields : Fields} {field : Field}

lemma definitionsOf_eq_flatMap (inElement : Bool) (fields : Fields) :
    definitionsOf inElement fields = fields.flatMap fun entry =>
      ⟨some entry.1, entry.2, inElement⟩ :: entry.2.definitions inElement := by
  induction fields with
  | nil => rfl
  | cons entry rest ih => rw [definitionsOf, ih, List.flatMap_cons]

/-- A statement holds of all definitions among fields when it holds of the fields and inside them. -/
lemma forall_definitionsOf_iff {inElement : Bool} {P : Definition → Prop} :
    (∀ definition ∈ definitionsOf inElement fields, P definition) ↔
      ∀ entry ∈ fields, P ⟨some entry.1, entry.2, inElement⟩ ∧
        ∀ definition ∈ entry.2.definitions inElement, P definition := by
  rw [definitionsOf_eq_flatMap, List.forall_mem_flatMap]
  exact forall₂_congr fun entry _ => List.forall_mem_cons

/-- What is inside an element stays inside it. -/
lemma inElement_of_mem_definitions (field : Field) :
    ∀ definition ∈ field.definitions true, definition.inElement = true := by
  induction field using Field.inductionOn with
  | leaf _ _ => simp [definitions]
  | array element _ ih => exact List.forall_mem_cons.2 ⟨rfl, ih⟩
  | object fields _ ih | documents fields _ _ _ ih =>
      exact forall_definitionsOf_iff.2 fun entry hentry => ⟨rfl, ih entry hentry⟩

end Field

/-- The definitions in a schema, at every depth. -/
def Schema.definitions (schema : Schema) : List Definition :=
  Field.definitionsOf false schema.tree.fields

/-! ## What the walk checks -/

namespace Schema

lemma isFieldName_iff {name : String} :
    isFieldName name = true ↔ name ≠ "" ∧ '.' ∉ name.toList ∧ name.toList.head? ≠ some '$' := by
  simp [isFieldName, and_assoc]

end Schema

lemma Definition.proper_iff {definition : Definition} :
    definition.Proper ↔
      definition.name.all Schema.isFieldName = true ∧ definition.field.target? ≠ some "" := by
  rw [Option.all_eq_true]
  simp only [Schema.isFieldName_iff]
  exact ⟨fun h => ⟨h.name, h.target⟩, fun h => ⟨h.1, h.2⟩⟩

instance (definition : Definition) : Decidable definition.Proper :=
  decidable_of_iff _ Definition.proper_iff.symm

namespace Schema

variable {fields : Fields} {field : Field} {stem path : String}

/-- The definitions outside of elements are proper. -/
def ProperOutside (definitions : List Definition) : Prop :=
  ∀ definition ∈ definitions, definition.inElement = false → definition.Proper

/-- Fields have no fault when each of them has a field name and no fault. -/
lemma fieldsFault?_eq_none_iff :
    fieldsFault? stem fields = none ↔
      ∀ entry ∈ fields, isFieldName entry.1 = true ∧ fieldFault? (stem ++ entry.1) entry.2 = none := by
  refine ⟨fieldsFault?_eq_none, fun h => ?_⟩
  induction fields with
  | nil => rfl
  | cons entry rest ih =>
      obtain ⟨⟨hname, hfault⟩, hrest⟩ := List.forall_mem_cons.1 h
      simp only [fieldsFault?, hname, hfault, if_true]
      exact ih hrest

/-- The walk finds no fault among fields exactly when the definitions outside of elements are proper, if
this is so for each of them. -/
lemma fieldsFault?_eq_none_iff_of (stem : String)
    (h : ∀ entry ∈ fields, ∀ path, fieldFault? path entry.2 = none ↔
      entry.2.target? ≠ some "" ∧ ProperOutside (entry.2.definitions false)) :
    fieldsFault? stem fields = none ↔ ProperOutside (Field.definitionsOf false fields) := by
  rw [fieldsFault?_eq_none_iff, ProperOutside, Field.forall_definitionsOf_iff]
  refine forall₂_congr fun entry hentry => ?_
  rw [h entry hentry, isFieldName_iff]
  constructor
  · rintro ⟨hname, htarget, hinside⟩
    refine ⟨fun _ => ⟨?_, htarget⟩, hinside⟩
    rintro name ⟨⟩
    exact hname
  · rintro ⟨hproper, hinside⟩
    exact ⟨(hproper rfl).name _ rfl, (hproper rfl).target, hinside⟩

/-- **The step**: the walk finds no fault at a field exactly when it is no reference without a target, and
the definitions inside are proper, those in elements left out. -/
theorem fieldFault?_eq_none_iff (field : Field) : ∀ path,
    fieldFault? path field = none ↔
      field.target? ≠ some "" ∧ ProperOutside (field.definitions false) := by
  induction field using Field.inductionOn with
  | leaf type acl =>
      intro path
      cases type with
      | reference target =>
          by_cases htarget : target = "" <;>
            simp [fieldFault?, Field.target?, Field.definitions, ProperOutside, htarget]
      | _ => simp [fieldFault?, Field.target?, Field.definitions, ProperOutside]
  | array element acl _ =>
      intro path
      have helement : ProperOutside ((Field.array element acl).definitions false) := by
        refine List.forall_mem_cons.2 ⟨fun h => absurd h (by simp), fun definition hmem h => ?_⟩
        rw [Field.inElement_of_mem_definitions element definition hmem] at h
        exact absurd h (by simp)
      simp [fieldFault?, Field.target?, helement]
  | object fields acl ih | documents fields virtuals hasId acl ih =>
      intro path
      have hnone : (none : Option String) ≠ some "" := by simp
      exact (fieldsFault?_eq_none_iff_of _ ih).trans (and_iff_right hnone).symm

/-- **The run**: an accepted schema has a name, a version counter, and proper definitions outside of
elements; and every such schema is accepted. -/
theorem fault?_eq_none_iff {schema : Schema} :
    schema.fault? = none ↔
      Text.isBlankText schema.name = false ∧ isVersionKey schema.versionKey = true ∧
        ProperOutside schema.definitions := by
  rw [fault?, definitions, ← fieldsFault?_eq_none_iff_of ""
    fun entry _ => fieldFault?_eq_none_iff entry.2]
  cases Text.isBlankText schema.name <;> cases isVersionKey schema.versionKey <;> simp

/-! ## What references lead to -/

/-- A field that is found is a definition, and so is what is inside. -/
lemma mem_definitionsOf_of_find? {name : String} (h : Keyed.find? name fields = some field) :
    ∀ definition ∈ ⟨some name, field, false⟩ :: field.definitions false,
      definition ∈ Field.definitionsOf false fields := by
  intro definition hmem
  rw [Field.definitionsOf_eq_flatMap]
  exact List.mem_flatMap.2 ⟨_, Keyed.mem_of_find? h, hmem⟩

/-- A field that keys lead to is a definition outside of elements. -/
lemma mem_definitionsOf_of_fieldAtKeys? {keys : List String}
    (h : Tree.fieldAtKeys? keys fields = some field) :
    ∃ name, ∀ definition ∈ ⟨some name, field, false⟩ :: field.definitions false,
      definition ∈ Field.definitionsOf false fields := by
  induction keys generalizing fields with
  | nil => exact absurd h (by simp [Tree.fieldAtKeys?])
  | cons key rest ih =>
      cases rest with
      | nil => exact ⟨key, mem_definitionsOf_of_find? h⟩
      | cons next rest =>
          rw [Tree.fieldAtKeys?, Option.bind_eq_some_iff] at h
          · obtain ⟨inner, hnested, hinner⟩ := h
            obtain ⟨outer, hfind, houter⟩ := Option.bind_eq_some_iff.1 hnested
            have hsame : outer.definitions false = Field.definitionsOf false inner := by
              cases outer <;> cases houter <;> rfl
            obtain ⟨name, hmem⟩ := ih hinner
            refine ⟨name, fun definition hdefinition => ?_⟩
            refine mem_definitionsOf_of_find? hfind definition (List.mem_cons_of_mem _ ?_)
            rw [hsame]
            exact hmem definition hdefinition
          · simp

variable {schema : Schema}

/-- In an accepted schema, only an array may lead to a reference without a target. -/
lemma referenceTarget?_eq_empty_iff (h : ProperOutside schema.definitions) :
    schema.referenceTarget? path = some "" ↔
      ∃ element acl, schema.tree.fieldAt? path = some (.array element acl) ∧
        element.target? = some "" := by
  rw [referenceTarget?]
  cases hfield : schema.tree.fieldAt? path with
  | none => simp
  | some field =>
      obtain ⟨name, hmem⟩ := mem_definitionsOf_of_fieldAtKeys? hfield
      have htarget : field.target? ≠ some "" :=
        (h _ (hmem _ List.mem_cons_self) rfl).target
      cases field with
      | array element acl => simp
      | _ => simpa using htarget

/-- **Of an accepted schema all definitions are proper exactly when those in elements are**, for the others
always are.  A path leads to a reference without a target exactly when there is an array of such references
at the path, which never happens in a schema whose definitions are all proper. -/
theorem definitions_proper_iff (h : schema.fault? = none) :
    ProperOutside schema.definitions ∧
      ((∀ definition ∈ schema.definitions, definition.Proper) ↔
        ∀ definition ∈ schema.definitions, definition.inElement = true → definition.Proper) ∧
      (∀ path, schema.referenceTarget? path = some "" ↔
        ∃ element acl, schema.tree.fieldAt? path = some (.array element acl) ∧
          element.target? = some "") ∧
      ((∀ definition ∈ schema.definitions, definition.Proper) →
        ∀ path, schema.referenceTarget? path ≠ some "") := by
  have houtside : ProperOutside schema.definitions := (fault?_eq_none_iff.1 h).2.2
  refine ⟨houtside, ⟨fun hproper definition hmem _ => hproper definition hmem, fun hinside => ?_⟩,
    fun path => referenceTarget?_eq_empty_iff houtside, ?_⟩
  · intro definition hmem
    cases helement : definition.inElement with
    | false => exact houtside definition hmem helement
    | true => exact hinside definition hmem helement
  · intro hproper path hempty
    obtain ⟨element, acl, hfield, htarget⟩ := (referenceTarget?_eq_empty_iff houtside).1 hempty
    obtain ⟨name, hmem⟩ := mem_definitionsOf_of_fieldAtKeys? hfield
    have helement : ⟨none, element, true⟩ ∈ schema.definitions := by
      refine hmem _ (List.mem_cons_of_mem _ ?_)
      rw [Field.definitions]
      exact List.mem_cons_self
    exact (hproper _ helement).target htarget

end Schema

/-! ## Posts with a list of authors -/

/-- Posts with a list of their authors, who are documents of another model, and a list of notes. -/
def authoredSchema (authors noteName : String) : Schema :=
  ⟨"posts", defaultVersionKey,
    ⟨[("authors", .array (.leaf (.reference authors) none) none),
      ("notes", .array (.object [(noteName, .leaf .string none)] none) none)], [], false⟩⟩

theorem definitions_proper_posts :
    (authoredSchema "users" "text").fault? = none ∧
      (∀ definition ∈ (authoredSchema "users" "text").definitions, definition.Proper) ∧
      (authoredSchema "users" "text").referenceTarget? "authors" = some "users" ∧
      ∀ path, (authoredSchema "users" "text").referenceTarget? path ≠ some "" := by
  have haccepted : (authoredSchema "users" "text").fault? = none := by decide
  have hproper := Schema.definitions_proper_iff haccepted
  have hall : ∀ definition ∈ (authoredSchema "users" "text").definitions, definition.Proper :=
    hproper.2.1.2 (by decide)
  exact ⟨haccepted, hall, by decide, hproper.2.2.2 hall⟩

/-- **Elements are not checked**: a schema is accepted whose authors are references without a target, and
one whose notes have a field without a name. -/
theorem elements_unchecked :
    (authoredSchema "" "text").fault? = none ∧
      (authoredSchema "" "text").referenceTarget? "authors" = some "" ∧
      (authoredSchema "users" "").fault? = none ∧
      ¬ ∀ schema : Schema, schema.fault? = none →
        ∀ definition ∈ schema.definitions, definition.Proper :=
  ⟨by decide, by decide, by decide, fun h => absurd (h (authoredSchema "" "text") (by decide)) (by decide)⟩

end DocumentAccess
