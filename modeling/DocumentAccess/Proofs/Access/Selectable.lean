import DocumentAccess.Access.Compile
import DocumentAccess.Proofs.Access.Lookup
import DocumentAccess.Proofs.Fields
import DocumentAccess.Proofs.Words

/-!
# Selections and compiled indexes

A selection is a text, and the projection of an index is written as one and read again.  That works for
paths without blanks and without a sign in front.  A compiled index has only such paths if the names in
its schema are such.

* `IsSelectable` — a path that a selection can name as it is.
* `includedPaths_unwords` — what joined texts include.
* `AccessIndex.SelectsReadable` — what a selection gives may be read.
* `AccessIndex.grants_addField` — a walk keeps the grants of an index.
* `AccessIndex.Grows` — new grants are on selectable paths.
* `Schema.Selectable` — all names in a schema are selectable.
* **`Schema.selectsReadable_projection`** — the projection of a compiled index may be read.
-/

namespace DocumentAccess

/-! ## Selectable paths -/

/-- A path without blanks and without a sign in front. -/
structure IsSelectable (path : String) : Prop where
  noBlank : Text.NoBlank path.toList
  noPlus : path.toList.head? ≠ some '+'
  noMinus : path.toList.head? ≠ some '-'

instance IsSelectable.decidable (path : String) : Decidable (IsSelectable path) :=
  decidable_of_iff
    (path.toList.all (fun c => !Text.isBlank c) = true ∧ path.toList.head? ≠ some '+' ∧
      path.toList.head? ≠ some '-')
    ⟨fun h => ⟨fun c hc => by simpa using List.all_eq_true.1 h.1 c hc, h.2.1, h.2.2⟩,
      fun h => ⟨List.all_eq_true.2 fun c hc => by simpa using h.noBlank c hc, h.noPlus, h.noMinus⟩⟩

lemma isSelectable_identifier : IsSelectable Path.identifier := by decide

lemma isSelectable_join {context key : String} (hcontext : IsSelectable context)
    (hkey : IsSelectable key) : IsSelectable (Path.join context key) := by
  rw [Path.join]
  by_cases hempty : context.isEmpty = true
  · rwa [if_pos hempty]
  · rw [if_neg hempty]
    have hne : context.toList ≠ [] := by simpa [String.isEmpty_iff] using hempty
    have hhead : (context ++ "." ++ key).toList.head? = context.toList.head? := by
      rw [String.toList_append, String.toList_append, List.append_assoc,
        List.head?_append_of_ne_nil _ hne]
    refine ⟨?_, hhead ▸ hcontext.noPlus, hhead ▸ hcontext.noMinus⟩
    intro c hc
    rw [String.toList_append, String.toList_append, List.mem_append, List.mem_append] at hc
    rcases hc with (hc | hc) | hc
    · exact hcontext.noBlank c hc
    · rw [List.mem_singleton.1 hc]
      decide
    · exact hkey.noBlank c hc

lemma IsSelectable.withoutPlus_eq {path : String} (h : IsSelectable path) :
    withoutPlus path = path := by
  rw [withoutPlus]
  split
  next rest hrest => exact absurd (by rw [hrest]; rfl) h.noPlus
  next => rfl

lemma IsSelectable.not_isExclusion {path : String} (h : IsSelectable path) :
    isExclusion path = false := by
  rw [isExclusion, beq_eq_false_iff_ne]
  exact h.noMinus

/-- Texts that are joined to a selection include what each of them includes. -/
lemma includedPaths_unwords (texts : List String) :
    includedPaths (Text.unwords texts) = texts.flatMap includedPaths := by
  rw [includedPaths, Text.words_unwords, List.filter_flatMap, List.map_flatMap, List.filter_flatMap]
  rfl

/-- A selectable path that is written as a selection is included in it, unless it is empty. -/
lemma IsSelectable.includedPaths_eq {path : String} (h : IsSelectable path) :
    includedPaths path = [path].filter (!·.isEmpty) := by
  rw [includedPaths, Text.words_of_noBlank h.noBlank]
  cases hempty : path.isEmpty with
  | true => simp [hempty]
  | false => simp [hempty, h.not_isExclusion, h.withoutPlus_eq]

/-- **Selectable paths that are written as a selection are included in it**, but for the empty path. -/
theorem includedPaths_unwords_of_selectable {paths : List String}
    (h : ∀ path ∈ paths, IsSelectable path) :
    includedPaths (Text.unwords paths) = paths.filter (!·.isEmpty) := by
  rw [includedPaths_unwords, List.flatMap_congr fun path hpath => (h path hpath).includedPaths_eq,
    ← List.filter_flatMap, List.flatMap_singleton']

namespace AccessIndex

variable {index before middle after : AccessIndex} {path : String} {action : Action} {level : Nat}

/-! ## Selections that may be read -/

/-- What a selection includes may be read; if it includes nothing, everything may be read. -/
def SelectsReadable (index : AccessIndex) (select : String) (level : Nat) : Prop :=
  (∀ path ∈ includedPaths select, index.allows path .read level = true) ∧
    (includedPaths select = [] → ∀ path ∈ index.all, index.allows path .read level = true)

lemma canSelect_iff {select : String} :
    index.canSelect select level = true ↔ index.SelectsReadable select level := by
  rw [canSelect, SelectsReadable]
  cases hincluded : includedPaths select with
  | nil => simp [allowsAll]
  | cons path rest => simp [allowsAll]

/-- Filling in the selection of a populate entry keeps its path. -/
lemma resolve_path (index : AccessIndex) (entry : Populate) (level : Nat) :
    (index.resolve entry level).path = entry.path := by
  rw [resolve]
  split <;> rfl

/-- The projection that is written as a selection includes its paths, if they are selectable. -/
lemma includedPaths_projectionText (hpaths : ∀ grant ∈ index.grants, IsSelectable grant.path)
    (level : Nat) :
    includedPaths (index.projectionText level) = (index.projection level).filter (!·.isEmpty) := by
  refine includedPaths_unwords_of_selectable fun path hpath => ?_
  obtain ⟨granted, -, hgrant⟩ := mem_grantedPaths_iff.1 hpath
  exact hpaths _ hgrant

/-- **The projection of an index may be read**, if its paths are selectable and the identifier is among
them. -/
theorem selectsReadable_projectionText (hpaths : ∀ grant ∈ index.grants, IsSelectable grant.path)
    (hid : ⟨0, .read, Path.identifier⟩ ∈ index.grants) :
    index.SelectsReadable (index.projectionText level) level := by
  rw [SelectsReadable, includedPaths_projectionText hpaths]
  constructor
  · intro path hpath
    exact allows_iff.2 (Or.inr (mem_grantedPaths_iff.1 (List.mem_of_mem_filter hpath)))
  · intro hnone
    have hmem : Path.identifier ∈ (index.projection level).filter (!·.isEmpty) :=
      List.mem_filter.2 ⟨mem_grantedPaths_iff.2 ⟨0, Nat.zero_le _, hid⟩, by decide⟩
    rw [hnone] at hmem
    exact absurd hmem List.not_mem_nil

/-! ## Walks keep what is granted -/

lemma grants_grant (index : AccessIndex) (level : Nat) (action : Action) (path : String) :
    index.grants ⊆ (index.grant level action path).grants :=
  fun _ h => mem_adjoin.2 (Or.inl h)

/-- Steps that keep grants do so one after the other. -/
lemma grants_foldl {α : Type} {step : AccessIndex → α → AccessIndex}
    (h : ∀ a, ∀ index : AccessIndex, index.grants ⊆ (step index a).grants) (steps : List α)
    (index : AccessIndex) : index.grants ⊆ (steps.foldl step index).grants := by
  induction steps generalizing index with
  | nil => exact List.Subset.refl _
  | cons a rest ih => exact List.Subset.trans (h a index) (ih _)

lemma grants_addLeaf (defaults : Levels) (path : String) (acl : Option AccessRule)
    (index : AccessIndex) : index.grants ⊆ (index.addLeaf defaults path acl).grants :=
  grants_foldl (fun (pair : Action × Nat) index => grants_grant index pair.2 pair.1 path) _ index

lemma grants_addVirtuals (defaults : Levels) (context : String) (virtuals : List String)
    (index : AccessIndex) : index.grants ⊆ (index.addVirtuals defaults context virtuals).grants := by
  refine grants_foldl (fun virtual index => ?_) virtuals index
  show index.grants ⊆ (if _ then index else _ : AccessIndex).grants
  split
  · exact List.Subset.refl _
  · exact grants_addLeaf defaults _ none index

lemma grants_addArray (defaults : Levels) (path : String) (index : AccessIndex) :
    index.grants ⊆ (index.addArray defaults path).grants :=
  grants_foldl (fun action index => grants_grant index _ action path) _ index

/-- Fields keep grants if each of them does. -/
lemma grants_addFields {defaults : Levels} {versionKey : String} {fields : Fields}
    (h : ∀ entry ∈ fields, ∀ path, ∀ index : AccessIndex,
      index.grants ⊆ (addField defaults versionKey path entry.2 index).grants)
    (hide : List String) (context : String) (index : AccessIndex) :
    index.grants ⊆ (addFields defaults versionKey hide context fields index).grants := by
  induction fields generalizing index with
  | nil => exact List.Subset.refl _
  | cons entry rest ih =>
      obtain ⟨name, field⟩ := entry
      obtain ⟨hfield, hrest⟩ := List.forall_mem_cons.1 h
      rw [addFields]
      refine List.Subset.trans ?_ (ih hrest _)
      split
      · exact List.Subset.refl _
      · exact hfield _ index

/-- **A walk over a field keeps what is granted**, whatever the names in it. -/
theorem grants_addField (defaults : Levels) (versionKey : String) (field : Field) (path : String)
    (index : AccessIndex) :
    index.grants ⊆ (addField defaults versionKey path field index).grants := by
  induction field using Field.inductionOn generalizing path index with
  | leaf _ acl => exact grants_addLeaf defaults path acl index
  | array element _ _ => exact grants_addLeaf defaults path element.acl index
  | object fields _ ih => exact grants_addFields ih _ path index
  | documents fields virtuals hasId _ ih =>
      have hwalked := grants_addFields ih (hidden versionKey path) path index
      rw [addField]
      refine List.Subset.trans hwalked (List.Subset.trans ?_ (grants_addArray defaults path _))
      refine List.Subset.trans (grants_addVirtuals defaults path virtuals _) ?_
      split
      · exact grants_grant _ 0 .read _
      · exact List.Subset.refl _

/-! ## Walks that make an index grow -/

/-- What is added is on selectable paths. -/
def Grows (before after : AccessIndex) : Prop :=
  ∀ grant ∈ after.grants, grant ∈ before.grants ∨ IsSelectable grant.path

lemma Grows.refl (index : AccessIndex) : index.Grows index :=
  fun _ h => Or.inl h

lemma Grows.trans (h : before.Grows middle) (h' : middle.Grows after) : before.Grows after := by
  intro grant hgrant
  rcases h' grant hgrant with hmiddle | hpath
  · exact h grant hmiddle
  · exact Or.inr hpath

lemma grows_grant (hpath : IsSelectable path) (index : AccessIndex) (level : Nat) (action : Action) :
    index.Grows (index.grant level action path) := by
  intro grant hgrant
  rcases mem_adjoin.1 hgrant with h | rfl
  · exact Or.inl h
  · exact Or.inr hpath

/-- Making a path addressable grants nothing. -/
lemma Grows.addPath (h : before.Grows after) (path : String) : before.Grows (after.addPath path) :=
  h

lemma grows_addReserved (hpath : IsSelectable path) (index : AccessIndex) :
    index.Grows (index.addReserved path) :=
  grows_grant hpath index 0 .read

/-- Steps that make an index grow do so one after the other. -/
lemma grows_foldl {α : Type} {step : AccessIndex → α → AccessIndex} {steps : List α}
    (h : ∀ a ∈ steps, ∀ index : AccessIndex, index.Grows (step index a)) (index : AccessIndex) :
    index.Grows (steps.foldl step index) := by
  induction steps generalizing index with
  | nil => exact .refl index
  | cons a rest ih =>
      obtain ⟨ha, hrest⟩ := List.forall_mem_cons.1 h
      exact (ha index).trans (ih hrest _)

lemma grows_addLeaf (hpath : IsSelectable path) (defaults : Levels) (acl : Option AccessRule)
    (index : AccessIndex) : index.Grows (index.addLeaf defaults path acl) :=
  (grows_foldl (fun pair _ index => grows_grant hpath index pair.2 pair.1) index).addPath path

lemma grows_addVirtuals {context : String} {virtuals : List String} (hcontext : IsSelectable context)
    (hvirtuals : ∀ virtual ∈ virtuals, IsSelectable virtual) (defaults : Levels)
    (index : AccessIndex) : index.Grows (index.addVirtuals defaults context virtuals) := by
  refine grows_foldl (fun virtual hvirtual index => ?_) index
  have hpath := isSelectable_join hcontext (hvirtuals virtual hvirtual)
  show index.Grows (if _ then index else _)
  split
  · exact .refl index
  · exact grows_addLeaf hpath defaults none index

lemma grows_addIdentifier (hpath : IsSelectable path) (index : AccessIndex) :
    index.Grows (index.addIdentifier path) :=
  (grows_grant (isSelectable_join hpath isSelectable_identifier) index 0 .read).addPath _

lemma grows_addArray (hpath : IsSelectable path) (defaults : Levels) (index : AccessIndex) :
    index.Grows (index.addArray defaults path) :=
  (grows_foldl (fun action _ index => grows_grant hpath index _ action) index).addPath path

end AccessIndex

/-! ## Names in a schema -/

namespace Field

mutual

/-- The names and virtual paths inside a field are selectable.  Those inside the element of an array are
never walked. -/
def Selectable : Field → Prop
  | .object fields _ => SelectableFields fields
  | .documents fields virtuals _ _ =>
      (∀ virtual ∈ virtuals, IsSelectable virtual) ∧ SelectableFields fields
  | _ => True

def SelectableFields : List (String × Field) → Prop
  | [] => True
  | (name, field) :: rest => IsSelectable name ∧ Selectable field ∧ SelectableFields rest

end

lemma selectableFields_iff {fields : Fields} :
    SelectableFields fields ↔
      ∀ entry ∈ fields, IsSelectable entry.1 ∧ entry.2.Selectable := by
  induction fields with
  | nil => simp [SelectableFields]
  | cons entry rest ih => simp [SelectableFields, ih, and_assoc]

end Field

/-- All names in a schema, its virtual paths and its version counter are selectable. -/
structure Schema.Selectable (schema : Schema) : Prop where
  versionKey : IsSelectable schema.versionKey
  virtuals : ∀ virtual ∈ schema.tree.virtuals, IsSelectable virtual
  fields : Field.SelectableFields schema.tree.fields

namespace AccessIndex

/-- Fields make an index grow if each of them does. -/
lemma grows_addFields {defaults : Levels} {versionKey context : String} {hide : List String}
    {fields : Fields} (hcontext : IsSelectable context)
    (hnames : ∀ entry ∈ fields, IsSelectable entry.1)
    (h : ∀ entry ∈ fields, ∀ path, IsSelectable path → ∀ index : AccessIndex,
      index.Grows (addField defaults versionKey path entry.2 index)) (index : AccessIndex) :
    index.Grows (addFields defaults versionKey hide context fields index) := by
  induction fields generalizing index with
  | nil => exact .refl index
  | cons entry rest ih =>
      obtain ⟨name, field⟩ := entry
      obtain ⟨hname, hnames⟩ := List.forall_mem_cons.1 hnames
      obtain ⟨hfield, hrest⟩ := List.forall_mem_cons.1 h
      rw [addFields]
      refine Grows.trans ?_ (ih hnames hrest _)
      split
      · exact .refl index
      · exact hfield _ (isSelectable_join hcontext hname) index

/-- **A field with selectable names makes an index grow** at a selectable path. -/
theorem grows_addField (defaults : Levels) (versionKey : String) (field : Field)
    (hfield : field.Selectable) : ∀ path, IsSelectable path → ∀ index : AccessIndex,
      index.Grows (addField defaults versionKey path field index) := by
  induction field using Field.inductionOn with
  | leaf _ acl =>
      intro path hpath index
      exact grows_addLeaf hpath defaults acl index
  | array element _ _ =>
      intro path hpath index
      exact grows_addLeaf hpath defaults element.acl index
  | object fields _ ih =>
      intro path hpath index
      have hfields := Field.selectableFields_iff.1 hfield
      exact grows_addFields hpath (fun entry hentry => (hfields entry hentry).1)
        (fun entry hentry => ih entry hentry (hfields entry hentry).2) index
  | documents fields virtuals hasId _ ih =>
      intro path hpath index
      obtain ⟨hvirtuals, hfields⟩ := hfield
      have hfields := Field.selectableFields_iff.1 hfields
      have hwalked : index.Grows
          (addFields defaults versionKey (hidden versionKey path) path fields index) :=
        grows_addFields hpath (fun entry hentry => (hfields entry hentry).1)
          (fun entry hentry => ih entry hentry (hfields entry hentry).2) index
      rw [addField]
      refine (hwalked.trans (grows_addVirtuals hpath hvirtuals defaults _)).trans ?_
      refine Grows.trans ?_ (grows_addArray hpath defaults _)
      split
      · exact grows_addIdentifier hpath _
      · exact .refl _

end AccessIndex

namespace Schema

variable {schema : Schema}

/-- The identifier may be read by anyone. -/
lemma identifier_granted (schema : Schema) (defaults : Levels) :
    ⟨0, .read, Path.identifier⟩ ∈ (schema.compile defaults).grants := by
  let withId := (AccessIndex.empty defaults.create defaults.delete).addReserved Path.identifier
  have hid : ⟨0, .read, Path.identifier⟩ ∈ withId.grants :=
    show _ ∈ AccessIndex.adjoin [] _ from mem_adjoin.2 (Or.inr rfl)
  have hreserved : withId.grants ⊆ (withId.addReserved schema.versionKey).grants :=
    AccessIndex.grants_grant withId 0 .read schema.versionKey
  have hwalked : (withId.addReserved schema.versionKey).grants
      ⊆ (AccessIndex.addFields defaults schema.versionKey (AccessIndex.hidden schema.versionKey "") ""
          schema.tree.fields (withId.addReserved schema.versionKey)).grants :=
    AccessIndex.grants_addFields
      (fun entry _ => AccessIndex.grants_addField defaults schema.versionKey entry.2) _ "" _
  exact AccessIndex.grants_addVirtuals defaults "" schema.tree.virtuals _ (hwalked (hreserved hid))

/-- Compiling a schema with selectable names grants selectable paths only, and the identifier. -/
lemma grants_compile (h : schema.Selectable) (defaults : Levels) :
    (∀ grant ∈ (schema.compile defaults).grants, IsSelectable grant.path) ∧
      ⟨0, .read, Path.identifier⟩ ∈ (schema.compile defaults).grants := by
  have hempty : IsSelectable "" := ⟨fun c hc => absurd hc (by simp), by simp, by simp⟩
  have hfields := Field.selectableFields_iff.1 h.fields
  let nothing := AccessIndex.empty defaults.create defaults.delete
  let withId := nothing.addReserved Path.identifier
  have hwalk : (withId.addReserved schema.versionKey).Grows (schema.compile defaults) :=
    (AccessIndex.grows_addFields hempty (fun entry hentry => (hfields entry hentry).1)
      (fun entry hentry => AccessIndex.grows_addField defaults schema.versionKey entry.2
        (hfields entry hentry).2) _).trans (AccessIndex.grows_addVirtuals hempty h.virtuals defaults _)
  have hrest := (AccessIndex.grows_addReserved h.versionKey withId).trans hwalk
  have hall := (AccessIndex.grows_addReserved isSelectable_identifier nothing).trans hrest
  exact ⟨fun grant hgrant => (hall grant hgrant).resolve_left List.not_mem_nil,
    schema.identifier_granted defaults⟩

/-- **The projection of a compiled index may be read.** -/
theorem selectsReadable_projection (h : schema.Selectable) (defaults : Levels) (level : Nat) :
    (schema.compile defaults).SelectsReadable ((schema.compile defaults).projectionText level) level :=
  AccessIndex.selectsReadable_projectionText (grants_compile h defaults).1
    (schema.identifier_granted defaults)

end Schema

end DocumentAccess
