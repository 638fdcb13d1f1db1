import DocumentAccess.Proofs.Keyed
import DocumentAccess.Schema.Structure
import Mathlib.Data.List.Nodup

/-!
# Induction on fields

A field of a schema is built from lists of named fields.  `Field.inductionOn` lets an object or an array
of subdocuments assume the statement of every field directly inside it.

* `Field.WellOrdered`, `Schema.WellOrdered` — all fields are kept ascending by name.
* `Fields.Sound`, `Field.Sound` — names are field names, each is used once, and the same inside.
* **`Schema.sound_fields`** — the fields of an accepted schema are sound.
-/

namespace DocumentAccess

namespace Field

/-- Induction on fields: an object or an array of subdocuments has the statement for its fields. -/
@[elab_as_elim]
theorem inductionOn {motive : Field → Prop} (leaf : ∀ type acl, motive (.leaf type acl))
    (array : ∀ element acl, motive element → motive (.array element acl))
    (object : ∀ fields acl, (∀ entry ∈ fields, motive entry.2) → motive (.object fields acl))
    (documents : ∀ fields virtuals hasId acl, (∀ entry ∈ fields, motive entry.2) →
      motive (.documents fields virtuals hasId acl))
    (field : Field) : motive field :=
  @Field.rec motive (fun fields => ∀ entry ∈ fields, motive entry.2) (fun entry => motive entry.2)
    leaf object array documents
    (fun _ h => absurd h List.not_mem_nil)
    (fun _ _ hhead hrest entry h => (List.mem_cons.1 h).elim (fun e => e ▸ hhead) (hrest entry))
    (fun _ _ h => h) field

mutual

/-- Fields inside are kept ascending by name. -/
def WellOrdered : Field → Prop
  | .leaf _ _ => True
  | .array element _ => WellOrdered element
  | .object fields _ => Keyed.Sorted fields ∧ WellOrderedFields fields
  | .documents fields _ _ _ => Keyed.Sorted fields ∧ WellOrderedFields fields

def WellOrderedFields : List (String × Field) → Prop
  | [] => True
  | (_, field) :: rest => WellOrdered field ∧ WellOrderedFields rest

end

lemma wellOrderedFields_iff {fields : Fields} :
    WellOrderedFields fields ↔ ∀ entry ∈ fields, entry.2.WellOrdered := by
  induction fields with
  | nil => simp [WellOrderedFields]
  | cons entry rest ih => simp [WellOrderedFields, ih]

end Field

/-- All fields of a schema are kept ascending by name. -/
def Schema.WellOrdered (schema : Schema) : Prop :=
  Keyed.Sorted schema.tree.fields ∧ Field.WellOrderedFields schema.tree.fields

/-! ## Sound fields -/

lemma Schema.ne_empty_of_isFieldName {name : String} (h : Schema.isFieldName name = true) :
    name ≠ "" := by
  rintro rfl
  exact absurd h (by decide)

lemma Schema.no_dot_of_isFieldName {name : String} (h : Schema.isFieldName name = true) :
    '.' ∉ name.toList := by
  simp only [Schema.isFieldName, Bool.and_eq_true] at h
  simpa using h.1.2

/-- A field without fault, with the fields inside ascending. -/
def Field.Sound (field : Field) : Prop :=
  field.WellOrdered ∧ ∃ path, Schema.fieldFault? path field = none

/-- Fields whose names are field names, each used once, and that are sound inside. -/
structure Fields.Sound (fields : Fields) : Prop where
  distinct : (fields.map Prod.fst).Nodup
  names : ∀ entry ∈ fields, Schema.isFieldName entry.1 = true
  inside : ∀ entry ∈ fields, entry.2.Sound

section Sound

variable {fields : Fields}

lemma Schema.fieldsFault?_eq_none {stem : String} (h : Schema.fieldsFault? stem fields = none) :
    ∀ entry ∈ fields, Schema.isFieldName entry.1 = true ∧
      Schema.fieldFault? (stem ++ entry.1) entry.2 = none := by
  induction fields with
  | nil => exact fun entry hentry => absurd hentry List.not_mem_nil
  | cons head rest ih =>
      obtain ⟨name, field⟩ := head
      rw [Schema.fieldsFault?] at h
      by_cases hname : Schema.isFieldName name = true
      · rw [if_pos hname] at h
        cases hfault : Schema.fieldFault? (stem ++ name) field with
        | some fault => simp [hfault] at h
        | none =>
            rw [hfault] at h
            exact List.forall_mem_cons.2 ⟨⟨hname, hfault⟩, ih h⟩
      · rw [if_neg hname] at h
        exact absurd h (by simp)

/-- Fields without fault that are ascending, at every depth, are sound. -/
lemma Fields.sound_of_fault {stem : String} (h : Schema.fieldsFault? stem fields = none)
    (hsorted : Keyed.Sorted fields) (hordered : Field.WellOrderedFields fields) :
    Fields.Sound fields where
  distinct := hsorted.nodup_keys
  names := fun entry hentry => (Schema.fieldsFault?_eq_none h entry hentry).1
  inside := fun entry hentry =>
    ⟨Field.wellOrderedFields_iff.1 hordered entry hentry, _,
      (Schema.fieldsFault?_eq_none h entry hentry).2⟩

lemma Field.Sound.object {acl : Option AccessRule} (h : (Field.object fields acl).Sound) :
    Fields.Sound fields := by
  obtain ⟨⟨hsorted, hordered⟩, path, hfault⟩ := h
  exact Fields.sound_of_fault hfault hsorted hordered

lemma Field.Sound.documents {virtuals : List String} {hasId : Bool} {acl : Option AccessRule}
    (h : (Field.documents fields virtuals hasId acl).Sound) : Fields.Sound fields := by
  obtain ⟨⟨hsorted, hordered⟩, path, hfault⟩ := h
  exact Fields.sound_of_fault hfault hsorted hordered

lemma Fields.Sound.no_dot_of_mem (h : Fields.Sound fields) {entry : String × Field}
    (hentry : entry ∈ fields) : '.' ∉ entry.1.toList :=
  Schema.no_dot_of_isFieldName (h.names entry hentry)

lemma Fields.Sound.ne_empty_of_mem (h : Fields.Sound fields) {entry : String × Field}
    (hentry : entry ∈ fields) : entry.1 ≠ "" :=
  Schema.ne_empty_of_isFieldName (h.names entry hentry)

lemma Fields.Sound.tail {entry : String × Field} (h : Fields.Sound (entry :: fields)) :
    Fields.Sound fields where
  distinct := (List.nodup_cons.1 h.distinct).2
  names := fun other hother => h.names other (List.mem_cons_of_mem _ hother)
  inside := fun other hother => h.inside other (List.mem_cons_of_mem _ hother)

/-- The first of the fields has a name that no other has. -/
lemma Fields.Sound.head_ne {entry other : String × Field} (h : Fields.Sound (entry :: fields))
    (hother : other ∈ fields) : other.1 ≠ entry.1 := by
  intro hsame
  exact (List.nodup_cons.1 h.distinct).1 (hsame ▸ List.mem_map_of_mem hother)

/-- A field is found under its name. -/
lemma Fields.Sound.find?_of_mem (h : Fields.Sound fields) {entry : String × Field}
    (hentry : entry ∈ fields) : Keyed.find? entry.1 fields = some entry.2 :=
  (Keyed.find?_eq_some_iff h.distinct).2 hentry

/-- The field that is found under a name is the only one of that name. -/
lemma Fields.Sound.eq_of_find? (h : Fields.Sound fields) {entry : String × Field} {field : Field}
    (hentry : entry ∈ fields) (hfind : Keyed.find? entry.1 fields = some field) :
    entry.2 = field :=
  Option.some.inj ((h.find?_of_mem hentry).symm.trans hfind)

end Sound

/-- An accepted schema has a version counter with a name of its own. -/
lemma Schema.isVersionKey_of_accepted {schema : Schema} (h : schema.fault? = none) :
    Schema.isVersionKey schema.versionKey = true := by
  rw [Schema.fault?] at h
  split at h
  · exact absurd h (by simp)
  · split at h
    · assumption
    · exact absurd h (by simp)

/-- **The fields of an accepted schema are sound.** -/
theorem Schema.sound_fields {schema : Schema} (h : schema.fault? = none)
    (hordered : schema.WellOrdered) : Fields.Sound schema.tree.fields := by
  have hfault : Schema.fieldsFault? "" schema.tree.fields = none := by
    have hkey := Schema.isVersionKey_of_accepted h
    rw [Schema.fault?, if_pos hkey] at h
    split at h
    · exact absurd h (by simp)
    · exact h
  exact Fields.sound_of_fault hfault hordered.1 hordered.2

end DocumentAccess
