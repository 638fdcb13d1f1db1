import DocumentAccess.Proofs.Access.Walk

/-!
# Where requirements come from

Keys lead from the fields under a context to a field inside them.  Unless one of the keys is hidden, the
field at their end is walked, and all its requirements are among those of the fields.  The only
requirements at or below its path that are not its own are virtual paths: a tree that the keys lead
through may list a path that goes on inside the field.

* `Fields.Leads`, `Path.Shown` — keys lead to a field, and none of them is hidden.
* `Fields.virtualsAlong`, `Schema.virtualsAround` — the virtual paths of the trees around a field.
* **`Field.mem_of_leads`**, **`Field.cases_of_leads`** — the requirements of a field that is walked, and
  what else is at or below its path.
* **`Requirement.Origin`** — every requirement is that of a field, an identifier or a virtual path.
-/

namespace DocumentAccess

/-! ## Keys that lead to a field -/

/-- No key is hidden: the first one by the tree that it stands in, the others as identifiers. -/
def Path.Shown (hide : List String) : List String → Prop
  | [] => True
  | key :: keys => key ∉ hide ∧ Shown [Path.identifier] keys

instance Path.Shown.decidable : ∀ (hide keys : List String), Decidable (Path.Shown hide keys)
  | _, [] => isTrue trivial
  | hide, key :: keys =>
    have := Path.Shown.decidable [Path.identifier] keys
    inferInstanceAs (Decidable (key ∉ hide ∧ Path.Shown [Path.identifier] keys))

/-- The virtual paths that the subdocuments of an array list. -/
def Field.virtuals : Field → List String
  | .documents _ virtuals _ _ => virtuals
  | _ => []

namespace Fields

/-- The virtual paths of the trees that keys lead through on their way to a field. -/
def virtualsAlong (context : String) : List String → Fields → List String
  | key :: next :: keys, fields =>
    match Keyed.find? key fields with
    | some outer =>
      outer.virtuals.map (Path.join (Path.join context key))
        ++ virtualsAlong (Path.join context key) (next :: keys) (outer.nested?.getD [])
    | none => []
  | _, _ => []

/-- Keys lead from the fields under a context to the field at a path. -/
inductive Leads : String → Fields → List String → String → Field → Prop
  | here {context : String} {fields : Fields} {name : String} {field : Field} :
      Keyed.find? name fields = some field →
      Leads context fields [name] (Path.join context name) field
  | inside {context : String} {fields inner : Fields} {name : String} {outer field : Field}
      {keys : List String} {path : String} :
      Keyed.find? name fields = some outer → outer.nested? = some inner →
      Leads (Path.join context name) inner keys path field →
      Leads context fields (name :: keys) path field

variable {context path : String} {fields : Fields} {keys : List String} {field : Field}

lemma Leads.exists_cons (h : Leads context fields keys path field) :
    ∃ key rest, keys = key :: rest := by
  cases h with
  | here _ => exact ⟨_, _, rfl⟩
  | inside _ _ _ => exact ⟨_, _, rfl⟩

lemma Sound.nested (h : Fields.Sound fields) {name : String} {outer : Field} {inner : Fields}
    (hfind : Keyed.find? name fields = some outer) (hinner : outer.nested? = some inner) :
    Fields.Sound inner := by
  have houter := h.inside _ (Keyed.mem_of_find? hfind)
  cases outer with
  | leaf _ _ | array _ _ => exact absurd hinner (by simp [Field.nested?])
  | object _ _ => exact Option.some.inj hinner ▸ houter.object
  | documents _ _ _ _ => exact Option.some.inj hinner ▸ houter.documents

/-- The path at the end of the keys has the segments of the context, then the keys. -/
lemma Leads.segments (h : Leads context fields keys path field) (hsound : Fields.Sound fields) :
    Path.segments path = Path.contextSegments context ++ keys := by
  induction h with
  | @here _ _ name _ hfind =>
      have hmem := Keyed.mem_of_find? hfind
      rw [Path.segments_join_eq, Path.segments_of_no_dot (hsound.no_dot_of_mem hmem)]
  | @inside _ _ _ name _ _ _ _ hfind hinner _ ih =>
      have hmem := Keyed.mem_of_find? hfind
      rw [ih (hsound.nested hfind hinner),
        Path.contextSegments_join (hsound.ne_empty_of_mem hmem),
        Path.segments_of_no_dot (hsound.no_dot_of_mem hmem), List.append_assoc, List.singleton_append]

lemma Leads.fieldAtKeys? (h : Leads context fields keys path field) :
    Tree.fieldAtKeys? keys fields = some field := by
  induction h with
  | here hfind => exact hfind
  | inside hfind hinner hleads ih =>
      obtain ⟨key, rest, rfl⟩ := hleads.exists_cons
      rw [Tree.fieldAtKeys?, hfind, Option.bind_some, hinner, Option.bind_some, ih]
      simp

/-- **The keys that lead to a path are its segments.** -/
theorem leads_iff (hsound : Fields.Sound fields) :
    Leads context fields keys path field ↔
      Path.segments path = Path.contextSegments context ++ keys ∧
        Tree.fieldAtKeys? keys fields = some field := by
  refine ⟨fun h => ⟨h.segments hsound, h.fieldAtKeys?⟩, ?_⟩
  rintro ⟨hsegments, hfield⟩
  induction keys generalizing context fields with
  | nil => exact absurd hfield (by simp [Tree.fieldAtKeys?])
  | cons key rest ih =>
      cases rest with
      | nil =>
          have hmem := Keyed.mem_of_find? hfield
          have hpath : path = Path.join context key := by
            refine Path.segments_injective ?_
            rw [hsegments, Path.segments_join_eq,
              Path.segments_of_no_dot (hsound.no_dot_of_mem hmem)]
          exact hpath ▸ .here hfield
      | cons next rest =>
          rw [Tree.fieldAtKeys?, Option.bind_eq_some_iff] at hfield
          · obtain ⟨inner, hnested, hfield⟩ := hfield
            obtain ⟨outer, hfind, hinner⟩ := Option.bind_eq_some_iff.1 hnested
            have hmem := Keyed.mem_of_find? hfind
            refine .inside hfind hinner (ih (hsound.nested hfind hinner) ?_ hfield)
            rw [hsegments, Path.contextSegments_join (hsound.ne_empty_of_mem hmem),
              Path.segments_of_no_dot (hsound.no_dot_of_mem hmem), List.append_assoc,
              List.singleton_append]
          · simp

lemma Leads.sound (h : Leads context fields keys path field) (hsound : Fields.Sound fields) :
    field.Sound := by
  induction h with
  | here hfind => exact hsound.inside _ (Keyed.mem_of_find? hfind)
  | inside hfind hinner _ ih => exact ih (hsound.nested hfind hinner)

lemma Leads.ne_empty (h : Leads context fields keys path field) (hsound : Fields.Sound fields) :
    path ≠ "" := by
  induction h with
  | here hfind => exact Path.join_ne_empty (hsound.ne_empty_of_mem (Keyed.mem_of_find? hfind))
  | inside hfind hinner _ ih => exact ih (hsound.nested hfind hinner)

/-- A field that keys lead to is within the first of the paths on the way. -/
lemma Leads.within (h : Leads context fields keys path field) (hsound : Fields.Sound fields)
    {key : String} {rest : List String} (hkeys : keys = key :: rest) :
    Path.Within (Path.join context key) path := by
  subst hkeys
  have hkey : '.' ∉ key.toList := by
    cases h with
    | here hfind => exact hsound.no_dot_of_mem (Keyed.mem_of_find? hfind)
    | inside hfind _ _ => exact hsound.no_dot_of_mem (Keyed.mem_of_find? hfind)
  refine ⟨rest, ?_⟩
  rw [h.segments hsound, Path.segments_join_eq, Path.segments_of_no_dot hkey, List.append_assoc,
    List.singleton_append]

/-- A field that keys lead to is beyond the context. -/
lemma Leads.not_within_context (h : Leads context fields keys path field)
    (hsound : Fields.Sound fields) (hcontext : context ≠ "") : ¬ Path.Within path context := by
  intro hwithin
  obtain ⟨key, rest, hkeys⟩ := h.exists_cons
  have hlength := List.IsPrefix.length_le hwithin
  rw [h.segments hsound, Path.contextSegments, if_neg hcontext, hkeys, List.length_append,
    List.length_cons] at hlength
  omega

/-- An identifier is at or below a field inside its context only if it is the field. -/
lemma Leads.eq_identifier (h : Leads context fields keys path field) (hsound : Fields.Sound fields)
    (hwithin : Path.Within path (Path.join context Path.identifier)) :
    path = Path.join context Path.identifier ∧ keys = [Path.identifier] := by
  obtain ⟨key, rest, rfl⟩ := h.exists_cons
  have hpath := h.segments hsound
  rw [Path.Within, hpath, Path.segments_join_eq, Path.segments_of_no_dot (by decide)] at hwithin
  obtain ⟨rfl, hrest⟩ := List.cons_prefix_cons.1 ((List.prefix_append_right_inj _).1 hwithin)
  obtain rfl := List.prefix_nil.1 hrest
  refine ⟨Path.segments_injective ?_, rfl⟩
  rw [hpath, Path.segments_join_eq, Path.segments_of_no_dot (by decide)]

/-- The virtual paths on the way to a field inside are those of the first field, then those further in. -/
lemma virtualsAlong_inside {inner : Fields} {name : String} {outer : Field}
    (hfind : Keyed.find? name fields = some outer) (hinner : outer.nested? = some inner)
    (hkeys : ∃ key rest, keys = key :: rest) :
    virtualsAlong context (name :: keys) fields
      = outer.virtuals.map (Path.join (Path.join context name))
        ++ virtualsAlong (Path.join context name) keys inner := by
  obtain ⟨key, rest, rfl⟩ := hkeys
  rw [virtualsAlong, hfind]
  show _ ++ virtualsAlong _ _ (outer.nested?.getD []) = _
  rw [hinner, Option.getD_some]

end Fields

/-! ## The requirements of a field that keys lead to -/

section Places

variable {defaults : Levels} {reserved : List Requirement} {hide keys : List String}
  {context path : String} {fields inner : Fields} {field outer : Field} {name : String}
  {r : Requirement}

lemma Requirement.mem_ofSubdocuments {virtuals : List String} {hasId : Bool}
    {walked : List Requirement} :
    r ∈ ofSubdocuments defaults reserved path virtuals hasId walked ↔
      r ∈ walked ∨
        (∃ virtual ∈ virtuals, Path.join path virtual ∉ (reserved ++ walked).map Requirement.path ∧
          r = ofRule defaults (Path.join path virtual) none) ∨
        hasId = true ∧ r = free (Path.join path Path.identifier) := by
  rw [ofSubdocuments, List.mem_append, List.mem_append, mem_ofVirtuals, or_assoc]
  cases hasId <;> simp

namespace Field

/-- The requirement on the path of a field itself; an object has none. -/
def requirement? (defaults : Levels) (reserved : List Requirement) (path : String) :
    Field → Option Requirement
  | .leaf _ acl => some (.ofRule defaults path acl)
  | .array element _ => some (.ofRule defaults path element.acl)
  | .object _ _ => none
  | .documents fields virtuals hasId _ =>
    some (arrayRequirement defaults reserved path
      (ownRequirements defaults reserved path fields virtuals hasId))

/-- What is required inside a field is required by it. -/
lemma mem_requirements_of_nested (hinner : outer.nested? = some inner)
    (hr : r ∈ requirementsIn defaults reserved [Path.identifier] path inner) :
    r ∈ outer.requirements defaults reserved path := by
  cases outer with
  | leaf _ _ | array _ _ => exact absurd hinner (by simp [nested?])
  | object _ _ =>
      cases hinner
      exact hr
  | documents _ _ _ _ =>
      cases hinner
      exact List.mem_append_left _ (Requirement.mem_ofSubdocuments.2 (Or.inl hr))

/-- A requirement of a field with fields inside is that of a field inside, of one of its virtual paths,
of the identifier, or of the field itself. -/
lemma cases_of_nested (hinner : outer.nested? = some inner)
    (hr : r ∈ outer.requirements defaults reserved path) :
    r ∈ requirementsIn defaults reserved [Path.identifier] path inner ∨
      (r.path ∈ outer.virtuals.map (Path.join path) ∧ r = .ofRule defaults r.path none ∧
        ∀ s ∈ requirementsIn defaults reserved [Path.identifier] path inner, s.path ≠ r.path) ∨
      r.path = Path.join path Path.identifier ∨ r.path = path := by
  cases outer with
  | leaf _ _ | array _ _ => exact absurd hinner (by simp [nested?])
  | object _ _ =>
      cases hinner
      exact Or.inl hr
  | documents _ virtuals _ _ =>
      cases hinner
      rcases List.mem_append.1 hr with hr | hr
      · rcases Requirement.mem_ofSubdocuments.1 hr with hr | ⟨virtual, hvirtual, htaken, rfl⟩ | ⟨-, rfl⟩
        · exact Or.inl hr
        · refine Or.inr (Or.inl ⟨List.mem_map_of_mem hvirtual, rfl, fun s hs hsame => ?_⟩)
          exact htaken (List.mem_map.2 ⟨s, List.mem_append_right _ hs, hsame⟩)
        · exact Or.inr (Or.inr (Or.inl rfl))
      · rw [List.mem_singleton.1 hr]
        exact Or.inr (Or.inr (Or.inr rfl))

/-- What the fields under a context require within the path of one of them is required by that one. -/
lemma mem_requirements_of_within (hsound : Fields.Sound fields)
    (hfind : Keyed.find? name fields = some outer)
    (hr : r ∈ requirementsIn defaults reserved hide context fields)
    (hwithin : Path.Within (Path.join context name) r.path) :
    name ∉ hide ∧ r ∈ outer.requirements defaults reserved (Path.join context name) := by
  obtain ⟨entry, hentry, hshown, hr⟩ := mem_requirementsIn.1 hr
  have hwithin' := within_requirements entry.2 _
    (Path.join_ne_empty (hsound.ne_empty_of_mem hentry)) r hr
  have hname : entry.1 = name := Path.within_join_unique (hsound.no_dot_of_mem hentry)
    (hsound.no_dot_of_mem (Keyed.mem_of_find? hfind)) hwithin' hwithin
  subst hname
  rw [hsound.eq_of_find? hentry hfind] at hr
  exact ⟨hshown, hr⟩

/-- A field with the name of the identifier is not walked, so that nothing is required at its path. -/
lemma path_ne_identifier (hsound : Fields.Sound fields)
    (hr : r ∈ requirementsIn defaults reserved [Path.identifier] context fields) :
    r.path ≠ Path.join context Path.identifier := by
  intro hsame
  obtain ⟨entry, hentry, hshown, hr⟩ := mem_requirementsIn.1 hr
  have hwithin := within_requirements entry.2 _
    (Path.join_ne_empty (hsound.ne_empty_of_mem hentry)) r hr
  have hname : entry.1 = Path.identifier :=
    Path.within_join_unique (hsound.no_dot_of_mem hentry) (by decide) hwithin
      (hsame ▸ List.prefix_refl _)
  exact hshown (List.mem_singleton.2 hname)

/-- **A field that keys lead to has its requirements among those of the fields**, if no key is
hidden. -/
theorem mem_of_leads (h : Fields.Leads context fields keys path field)
    (hshown : Path.Shown hide keys) (hr : r ∈ field.requirements defaults reserved path) :
    r ∈ requirementsIn defaults reserved hide context fields := by
  induction h generalizing hide with
  | here hfind => exact mem_requirementsIn.2 ⟨_, Keyed.mem_of_find? hfind, hshown.1, hr⟩
  | inside hfind hinner _ ih =>
      exact mem_requirementsIn.2 ⟨_, Keyed.mem_of_find? hfind, hshown.1,
        mem_requirements_of_nested hinner (ih hshown.2 hr)⟩

/-- **What is required at or below a field that keys lead to**: the requirements of the field if no key
is hidden, and virtual paths that trees on the way list and the field does not have.  A hidden field
may have an identifier at its path. -/
theorem cases_of_leads (h : Fields.Leads context fields keys path field)
    (hsound : Fields.Sound fields)
    (hr : r ∈ requirementsIn defaults reserved hide context fields)
    (hwithin : Path.Within path r.path) :
    Path.Shown hide keys ∧ r ∈ field.requirements defaults reserved path ∨
      (r.path ∈ Fields.virtualsAlong context keys fields ∧ r = .ofRule defaults r.path none ∧
        (Path.Shown hide keys →
          ∀ s ∈ field.requirements defaults reserved path, s.path ≠ r.path)) ∨
      (r.path = path ∧ ¬ Path.Shown hide keys) := by
  induction h generalizing hide with
  | here hfind =>
      obtain ⟨hname, hr⟩ := mem_requirements_of_within hsound hfind hr hwithin
      exact Or.inl ⟨⟨hname, trivial⟩, hr⟩
  | @inside context fields inner name outer field keys path hfind hinner hleads ih =>
      have hinside := hsound.nested hfind hinner
      have hfirst : Path.Within (Path.join context name) r.path :=
        ((Fields.Leads.inside hfind hinner hleads).within hsound rfl).trans hwithin
      obtain ⟨hname, hr⟩ := mem_requirements_of_within hsound hfind hr hfirst
      rw [Fields.virtualsAlong_inside hfind hinner hleads.exists_cons]
      rcases cases_of_nested hinner hr with hr | ⟨hvirtual, hrule, htaken⟩ | hid | harray
      · rcases ih hinside hr hwithin with
          ⟨hshown, hr⟩ | ⟨hvirtual, hrule, htaken⟩ | ⟨hsame, hhidden⟩
        · exact Or.inl ⟨⟨hname, hshown⟩, hr⟩
        · exact Or.inr (Or.inl ⟨List.mem_append_right _ hvirtual, hrule,
            fun hshown => htaken hshown.2⟩)
        · exact Or.inr (Or.inr ⟨hsame, fun hshown => hhidden hshown.2⟩)
      · refine Or.inr (Or.inl ⟨List.mem_append_left _ hvirtual, hrule, fun hshown s hs => ?_⟩)
        exact htaken s (mem_of_leads hleads hshown.2 hs)
      · obtain ⟨hsame, rfl⟩ := hleads.eq_identifier hinside (hid ▸ hwithin)
        refine Or.inr (Or.inr ⟨hid.trans hsame.symm, ?_⟩)
        rintro ⟨-, hshown, -⟩
        exact hshown (List.mem_singleton_self _)
      · have hne : Path.join context name ≠ "" :=
          Path.join_ne_empty (hsound.ne_empty_of_mem (Keyed.mem_of_find? hfind))
        exact absurd (harray ▸ hwithin) (hleads.not_within_context hinside hne)

end Field

/-! ## Every requirement has an origin -/

/-- A requirement is that of a field, or that of an identifier, or that of a virtual path, which is not
reserved. -/
inductive Requirement.Origin (defaults : Levels) (reserved : List Requirement)
    (hide : List String) (context : String) (fields : Fields) : Requirement → Prop
  | field {keys : List String} {path : String} {field : Field} {r : Requirement} :
      Fields.Leads context fields keys path field → Path.Shown hide keys →
      field.requirement? defaults reserved path = some r → Origin defaults reserved hide context fields r
  | identifier {keys : List String} {path : String} {inner : Fields} {virtuals : List String}
      {acl : Option AccessRule} :
      Fields.Leads context fields keys path (.documents inner virtuals true acl) →
      Path.Shown hide keys →
      Origin defaults reserved hide context fields (.free (Path.join path Path.identifier))
  | virtual {path : String} : path ∉ reserved.map Requirement.path →
      Origin defaults reserved hide context fields (.ofRule defaults path none)

namespace Requirement

lemma Origin.inside (hfind : Keyed.find? name fields = some outer)
    (hinner : outer.nested? = some inner) (hname : name ∉ hide)
    (h : Origin defaults reserved [Path.identifier] (Path.join context name) inner r) :
    Origin defaults reserved hide context fields r := by
  cases h with
  | field hleads hshown hr => exact .field (.inside hfind hinner hleads) ⟨hname, hshown⟩ hr
  | identifier hleads hshown => exact .identifier (.inside hfind hinner hleads) ⟨hname, hshown⟩
  | virtual hfree => exact .virtual hfree

/-- The requirements of fields have origins, if those of each field have one. -/
lemma origin_of_mem (hsound : Fields.Sound fields)
    (h : ∀ entry ∈ fields, ∀ r ∈ entry.2.requirements defaults reserved (Path.join context entry.1),
      Keyed.find? entry.1 fields = some entry.2 → entry.1 ∉ hide →
        Origin defaults reserved hide context fields r)
    (hr : r ∈ Field.requirementsIn defaults reserved hide context fields) :
    Origin defaults reserved hide context fields r := by
  obtain ⟨entry, hentry, hshown, hr⟩ := Field.mem_requirementsIn.1 hr
  exact h entry hentry r hr (hsound.find?_of_mem hentry) hshown

/-- **Every requirement of a field has an origin.** -/
theorem origin_of_field (field : Field) : ∀ {hide : List String} {context : String}
    {fields : Fields} {name : String}, Fields.Sound fields →
    Keyed.find? name fields = some field → name ∉ hide →
    ∀ r ∈ field.requirements defaults reserved (Path.join context name),
      Origin defaults reserved hide context fields r := by
  induction field using Field.inductionOn with
  | leaf _ _ | array _ _ _ =>
      intro hide context fields name _ hfind hname r hr
      rw [List.mem_singleton.1 hr]
      exact .field (.here hfind) ⟨hname, trivial⟩ rfl
  | object inner _ ih =>
      intro hide context fields name hsound hfind hname r hr
      have hinside := hsound.nested hfind rfl
      exact Origin.inside hfind rfl hname (origin_of_mem hinside (fun entry hentry s hs hfind' hname' =>
        ih entry hentry hinside hfind' hname' s hs) hr)
  | documents inner virtuals hasId _ ih =>
      intro hide context fields name hsound hfind hname r hr
      have hinside := hsound.nested hfind rfl
      rcases List.mem_append.1 hr with hr | hr
      · rcases mem_ofSubdocuments.1 hr with hr | ⟨virtual, -, htaken, rfl⟩ | ⟨rfl, rfl⟩
        · exact Origin.inside hfind rfl hname
            (origin_of_mem hinside (fun entry hentry s hs hfind' hname' =>
              ih entry hentry hinside hfind' hname' s hs) hr)
        · rw [List.map_append, List.mem_append, not_or] at htaken
          exact .virtual htaken.1
        · exact .identifier (.here hfind) ⟨hname, trivial⟩
      · rw [List.mem_singleton.1 hr]
        exact .field (.here hfind) ⟨hname, trivial⟩ rfl

end Requirement

/-- A requirement of a field on the path of the field itself is the one that the field has there. -/
lemma Field.requirement?_of_mem (hpath : path ≠ "")
    (hr : r ∈ field.requirements defaults reserved path) (hsame : r.path = path) :
    field.requirement? defaults reserved path = some r := by
  have hbelow : Path.isBelow path r.path ≠ true := by
    rw [hsame, Path.not_isBelow_self]
    decide
  cases field with
  | leaf _ _ | array _ _ =>
      rw [List.mem_singleton.1 hr]
      rfl
  | object fields _ =>
      exact absurd (Field.below_requirementsIn hpath (fun entry _ => Field.within_requirements entry.2)
        r hr) hbelow
  | documents fields _ _ _ =>
      rcases List.mem_append.1 hr with hr | hr
      · exact absurd (Field.below_ownRequirements hpath r hr) hbelow
      · rw [List.mem_singleton.1 hr]
        rfl

lemma Field.requirement?_mem (hr : field.requirement? defaults reserved path = some r) :
    r ∈ field.requirements defaults reserved path ∧ r.path = path := by
  cases field with
  | leaf _ _ | array _ _ =>
      cases hr
      exact ⟨List.mem_singleton_self _, rfl⟩
  | object _ _ => exact absurd hr (by simp [Field.requirement?])
  | documents _ _ _ _ =>
      cases hr
      exact ⟨List.mem_append_right _ (List.mem_singleton_self _), rfl⟩

end Places

/-! ## Schemas -/

namespace Schema

variable {schema : Schema} {defaults : Levels} {path : String} {field : Field} {r s : Requirement}

/-- The walk over a schema comes to the field at a path. -/
def Walks (schema : Schema) (path : String) (field : Field) : Prop :=
  Path.Shown schema.reserved (Path.segments path) ∧ schema.tree.fieldAt? path = some field

/-- The virtual paths that are listed around the field at a path: those of the schema, and those of the
subdocuments on the way. -/
def virtualsAround (schema : Schema) (path : String) : List String :=
  schema.tree.virtuals ++ Fields.virtualsAlong "" (Path.segments path) schema.tree.fields

/-- A path leads to the field that is found there. -/
lemma leads_of_fieldAt? (h : schema.fault? = none) (hordered : schema.WellOrdered)
    (hfield : schema.tree.fieldAt? path = some field) :
    Fields.Leads "" schema.tree.fields (Path.segments path) path field :=
  (Fields.leads_iff (sound_fields h hordered)).2 ⟨rfl, hfield⟩

lemma walks_of_leads (h : schema.fault? = none) (hordered : schema.WellOrdered)
    {keys : List String} (hleads : Fields.Leads "" schema.tree.fields keys path field)
    (hshown : Path.Shown schema.reserved keys) : schema.Walks path field := by
  obtain ⟨hkeys, hfield⟩ := (Fields.leads_iff (sound_fields h hordered)).1 hleads
  have hkeys : Path.segments path = keys := hkeys
  subst hkeys
  exact ⟨hshown, hfield⟩

lemma mem_requirements :
    r ∈ schema.requirements defaults ↔
      r ∈ schema.walkedRequirements defaults ∨
        ∃ virtual ∈ schema.tree.virtuals, virtual ∉ (schema.reservedRequirements
            ++ schema.walkedRequirements defaults).map Requirement.path ∧
          r = .ofRule defaults virtual none := by
  rw [requirements, List.mem_append, Requirement.mem_ofVirtuals]
  rfl

/-- **The requirements of a field that is walked** are those of the schema. -/
theorem mem_requirements_of_walks (h : schema.fault? = none) (hordered : schema.WellOrdered)
    (hwalks : schema.Walks path field)
    (hr : r ∈ field.requirements defaults schema.reservedRequirements path) :
    r ∈ schema.requirements defaults :=
  mem_requirements.2 (Or.inl
    (Field.mem_of_leads (leads_of_fieldAt? h hordered hwalks.2) hwalks.1 hr))

/-- **What a schema requires at or below a field**: the requirements of the field if it is walked, and
virtual paths that are listed around it and that it does not have. -/
theorem cases_of_fieldAt? (h : schema.fault? = none) (hordered : schema.WellOrdered)
    (hfield : schema.tree.fieldAt? path = some field) (hr : r ∈ schema.requirements defaults)
    (hwithin : Path.Within path r.path) :
    schema.Walks path field ∧ r ∈ field.requirements defaults schema.reservedRequirements path ∨
      (r.path ∈ schema.virtualsAround path ∧ r = .ofRule defaults r.path none ∧
        (schema.Walks path field →
          ∀ s ∈ field.requirements defaults schema.reservedRequirements path, s.path ≠ r.path)) ∨
      (r.path = path ∧ ¬ schema.Walks path field) := by
  have hleads := leads_of_fieldAt? h hordered hfield
  rcases mem_requirements.1 hr with hr | ⟨virtual, hvirtual, htaken, rfl⟩
  · rcases Field.cases_of_leads hleads (sound_fields h hordered) hr hwithin with
      ⟨hshown, hr⟩ | ⟨hvirtual, hrule, htaken⟩ | ⟨hsame, hhidden⟩
    · exact Or.inl ⟨⟨hshown, hfield⟩, hr⟩
    · exact Or.inr (Or.inl ⟨List.mem_append_right _ hvirtual, hrule,
        fun hwalks => htaken hwalks.1⟩)
    · exact Or.inr (Or.inr ⟨hsame, fun hwalks => hhidden hwalks.1⟩)
  · refine Or.inr (Or.inl ⟨List.mem_append_left _ hvirtual, rfl, fun hwalks s hs hsame => ?_⟩)
    exact htaken (List.mem_map.2
      ⟨s, List.mem_append_right _ (Field.mem_of_leads hleads hwalks.1 hs), hsame⟩)

/-- The field at a path that is walked is the only one to require anything there. -/
lemma requirement?_of_walks (h : schema.fault? = none) (hordered : schema.WellOrdered)
    (hwalks : schema.Walks path field)
    (hs : field.requirement? defaults schema.reservedRequirements path = some s)
    (hr : r ∈ schema.requirements defaults) (hsame : r.path = path) : r = s := by
  obtain ⟨hs', hspath⟩ := Field.requirement?_mem hs
  rcases cases_of_fieldAt? h hordered hwalks.2 hr (hsame ▸ List.prefix_refl _) with
    ⟨-, hr⟩ | ⟨-, -, htaken⟩ | ⟨-, hhidden⟩
  · have hpath := (leads_of_fieldAt? h hordered hwalks.2).ne_empty (sound_fields h hordered)
    exact Option.some.inj ((Field.requirement?_of_mem hpath hr hsame).symm.trans hs)
  · exact absurd (hspath.trans hsame.symm) (htaken hwalks s hs')
  · exact absurd hwalks hhidden

/-- Every requirement of a schema has an origin. -/
theorem origin (h : schema.fault? = none) (hordered : schema.WellOrdered)
    (hr : r ∈ schema.requirements defaults) :
    Requirement.Origin defaults schema.reservedRequirements schema.reserved "" schema.tree.fields
      r := by
  have hsound := sound_fields h hordered
  rcases mem_requirements.1 hr with hr | ⟨virtual, -, htaken, rfl⟩
  · exact Requirement.origin_of_mem hsound (fun entry _ s hs hfind hname =>
      Requirement.origin_of_field entry.2 hsound hfind hname s hs) hr
  · rw [List.map_append, List.mem_append, not_or] at htaken
    exact .virtual htaken.1

end Schema

end DocumentAccess
