import DocumentAccess.Proofs.Fields
import DocumentAccess.Proofs.Values
import DocumentAccess.Schema.Codec

/-!
# The order of schemas that are read

Fields are kept ascending by name.  They come from the members of an object, which ascend by key, so
reading keeps the order.

* `Fields.WellOrdered` — fields ascend by name, and so do all fields inside.
* `Field.ReadsWell` — whatever a value is read as is well ordered.
* **`Schema.wellOrdered_of_ofValue?`** — a schema that is read from a well ordered value is well ordered.
-/

namespace DocumentAccess

/-- Fields ascend by name, and so do the fields inside them. -/
def Fields.WellOrdered (fields : Fields) : Prop :=
  Keyed.Sorted fields ∧ ∀ entry ∈ fields, entry.2.WellOrdered

lemma Schema.wellOrdered_iff {schema : Schema} :
    schema.WellOrdered ↔ Fields.WellOrdered schema.tree.fields := by
  rw [Schema.WellOrdered, Field.wellOrderedFields_iff, Fields.WellOrdered]

namespace Field

variable {fields : Fields} {acl : Option AccessRule} {members : Members} {value : Value}

lemma wellOrdered_object : (object fields acl).WellOrdered ↔ Fields.WellOrdered fields := by
  rw [WellOrdered, wellOrderedFields_iff, Fields.WellOrdered]

lemma wellOrdered_array {element : Field} :
    (array element acl).WellOrdered ↔ element.WellOrdered := by
  rw [WellOrdered]

lemma wellOrdered_documents {virtuals : List String} {hasId : Bool} :
    (documents fields virtuals hasId acl).WellOrdered ↔ Fields.WellOrdered fields := by
  rw [WellOrdered, wellOrderedFields_iff, Fields.WellOrdered]

/-! ## Members that are read -/

lemma fieldsMember?_eq (members : Members) :
    fieldsMember? members = (Keyed.find? "fields" members).elim none fields? := by
  refine Keyed.eq_elim_find? fieldsMember? rfl (fun value rest => ?_) (fun k value rest hk => ?_) members
  · rw [fieldsMember?, if_pos rfl]
  · rw [fieldsMember?, if_neg hk]

lemma elementMember?_eq (members : Members) :
    elementMember? members = (Keyed.find? "element" members).elim none ofValue? := by
  refine Keyed.eq_elim_find? elementMember? rfl (fun value rest => ?_) (fun k value rest hk => ?_) members
  · rw [elementMember?, if_pos rfl]
  · rw [elementMember?, if_neg hk]

lemma treeMember?_eq (members : Members) :
    treeMember? members = (Keyed.find? "schema" members).elim none tree? := by
  refine Keyed.eq_elim_find? treeMember? rfl (fun value rest => ?_) (fun k value rest hk => ?_) members
  · rw [treeMember?, if_pos rfl]
  · rw [treeMember?, if_neg hk]

/-- What is read from a member was read from its value. -/
lemma find?_of_elim {α : Type} {key : String} {read : Value → Option α} {result : α}
    (h : (Keyed.find? key members).elim none read = some result) :
    ∃ value, Keyed.find? key members = some value ∧ read value = some result := by
  cases hfind : Keyed.find? key members with
  | none => simp [hfind] at h
  | some value => exact ⟨value, rfl, by simpa [hfind] using h⟩

/-! ## Values that are read -/

/-- Whatever a value is read as is well ordered. -/
structure ReadsWell (value : Value) : Prop where
  asField {field : Field} : ofValue? value = some field → field.WellOrdered
  asFields {fields : Fields} : fields? value = some fields → Fields.WellOrdered fields
  asTree {tree : Tree} : tree? value = some tree → Fields.WellOrdered tree.fields

/-- Fields have the names of the entries that they are read from. -/
lemma of_entries? (h : entries? members = some fields) :
    fields.map Prod.fst = members.map Prod.fst ∧
      ∀ entry ∈ fields, ∃ member ∈ members, ofValue? member.2 = some entry.2 := by
  induction members generalizing fields with
  | nil =>
      cases h
      exact ⟨rfl, fun entry hentry => absurd hentry List.not_mem_nil⟩
  | cons member rest ih =>
      obtain ⟨name, value⟩ := member
      rw [entries?] at h
      cases hfield : ofValue? value with
      | none => simp [hfield] at h
      | some field =>
          cases hothers : entries? rest with
          | none => simp [hfield, hothers] at h
          | some others =>
              simp only [hfield, hothers, Option.some.injEq] at h
              subst h
              obtain ⟨hkeys, hread⟩ := ih hothers
              refine ⟨congrArg (name :: ·) hkeys, List.forall_mem_cons.2
                ⟨⟨(name, value), List.mem_cons_self, hfield⟩, fun entry hentry => ?_⟩⟩
              obtain ⟨member, hmember, hvalue⟩ := hread entry hentry
              exact ⟨member, List.mem_cons_of_mem _ hmember, hvalue⟩

/-- The fields of an object whose members ascend do so too. -/
lemma wellOrdered_of_entries? (hsorted : Keyed.Sorted members)
    (hvalues : ∀ entry ∈ members, ReadsWell entry.2) (h : entries? members = some fields) :
    Fields.WellOrdered fields := by
  obtain ⟨hkeys, hread⟩ := of_entries? h
  refine ⟨?_, fun entry hentry => ?_⟩
  · have hascend : (members.map Prod.fst).Pairwise (Ordered.before · · = true) :=
      List.pairwise_map.2 hsorted
    exact List.pairwise_map.1 (hkeys ▸ hascend)
  · obtain ⟨member, hmember, hvalue⟩ := hread entry hentry
    exact (hvalues member hmember).asField hvalue

/-- A tree has the fields that it is read from. -/
lemma fields_of_ofParts? {virtuals hasId : Option Value} {tree : Tree}
    (h : Tree.ofParts? fields virtuals hasId = some tree) : tree.fields = fields := by
  simp only [Tree.ofParts?, Option.bind_eq_bind, Option.bind_eq_some_iff, Option.some.injEq] at h
  obtain ⟨_, _, _, _, rfl⟩ := h
  rfl

/-- A list gives neither a field nor fields; as a tree it is read from its first item. -/
lemma readsWell_array {items : List Value} (hitems : ∀ item ∈ items, ReadsWell item) :
    ReadsWell (.array items) where
  asField h := by simp [ofValue?] at h
  asFields h := by simp [fields?] at h
  asTree := by
    intro tree h
    have hparts : ∃ item virtuals hasId fields, item ∈ items ∧ fields? item = some fields ∧
        Tree.ofParts? fields virtuals hasId = some tree := by
      match items, h with
      | [item], h | [item, _], h | [item, _, _], h =>
          rw [tree?] at h
          obtain ⟨fields, hfields, hparts⟩ := Option.bind_eq_some_iff.1 h
          exact ⟨item, _, _, fields, List.mem_cons_self, hfields, hparts⟩
    obtain ⟨item, virtuals, hasId, fields, hitem, hfields, hparts⟩ := hparts
    rw [fields_of_ofParts? hparts]
    exact (hitems item hitem).asFields hfields

/-- An object gives a field, fields or a tree from the values of its members. -/
lemma readsWell_object (hsorted : Keyed.Sorted members)
    (hvalues : ∀ entry ∈ members, ReadsWell entry.2) : ReadsWell (.object members) := by
  have hmember : ∀ {key value}, Keyed.find? key members = some value → ReadsWell value :=
    fun hfind => hvalues _ (Keyed.mem_of_find? hfind)
  have hfields : ∀ {fields}, fieldsMember? members = some fields → Fields.WellOrdered fields := by
    intro fields h
    obtain ⟨value, hfind, hread⟩ := find?_of_elim (fieldsMember?_eq members ▸ h)
    exact (hmember hfind).asFields hread
  constructor
  · intro field h
    simp only [ofValue?] at h
    split at h
    · cases h
      trivial
    · obtain ⟨target, -, rfl⟩ := Option.map_eq_some_iff.1 h
      trivial
    · obtain ⟨fields, hread, rfl⟩ := Option.map_eq_some_iff.1 h
      exact wellOrdered_object.2 (hfields hread)
    · obtain ⟨element, hread, rfl⟩ := Option.map_eq_some_iff.1 h
      obtain ⟨value, hfind, hvalue⟩ := find?_of_elim (elementMember?_eq members ▸ hread)
      exact wellOrdered_array.2 ((hmember hfind).asField hvalue)
    · obtain ⟨tree, hread, rfl⟩ := Option.map_eq_some_iff.1 h
      obtain ⟨value, hfind, hvalue⟩ := find?_of_elim (treeMember?_eq members ▸ hread)
      exact wellOrdered_documents.2 ((hmember hfind).asTree hvalue)
    · exact absurd h (by simp)
  · intro fields h
    exact wellOrdered_of_entries? hsorted hvalues h
  · intro tree h
    rw [tree?] at h
    obtain ⟨fields, hread, hparts⟩ := Option.bind_eq_some_iff.1 h
    rw [fields_of_ofParts? hparts]
    exact hfields hread

/-- **Reading keeps the order**, whatever a value is read as. -/
theorem readsWell (value : Value) : value.WellOrdered → ReadsWell value := by
  induction value using Value.inductionOn with
  | null | bool _ | number _ | string _ =>
      intro _
      constructor <;> intro _ h <;> simp [ofValue?, fields?, tree?] at h
  | array items ih =>
      intro h
      exact readsWell_array fun item hitem => ih item hitem (Value.wellOrdered_array.1 h item hitem)
  | object members ih =>
      intro h
      obtain ⟨hsorted, hvalues⟩ := Value.wellOrdered_object.1 h
      exact readsWell_object hsorted fun entry hentry => ih entry hentry (hvalues entry hentry)

end Field

/-- **A schema that is read is well ordered.** -/
theorem Schema.wellOrdered_of_ofValue? {value : Value} {schema : Schema} (h : value.WellOrdered)
    (hread : ofValue? value = some schema) : schema.WellOrdered := by
  rw [Schema.wellOrdered_iff]
  cases value with
  | object members =>
      simp only [ofValue?, Option.bind_eq_bind, Option.bind_eq_some_iff, Option.some.injEq] at hread
      obtain ⟨_, _, _, _, tree, htree, rfl⟩ := hread
      exact (Field.readsWell _ h).asTree htree
  | _ => simp [ofValue?] at hread

end DocumentAccess
