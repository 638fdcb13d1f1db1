import DocumentAccess.Proofs.Access.Policy

/-!
# Required levels

A path has one requirement, so the requirements of a schema give each path its levels.  These levels
follow the policy, and a compiled index allows what they ask for.

* **`Schema.requirement_unique`** — a path has one requirement.
* `Schema.required?` — the level that a path requires for an action.
* `Schema.levelPolicy_required?` — the levels follow the policy.
* **`Schema.allows_iff_required`** — a compiled index allows what the policy asks for, where an array does
  not count the virtual paths that are only listed around it.
* `orders_items_permissive` — an array that counted them would ask for more.
-/

namespace DocumentAccess

/-! ## The paths of fields -/

section Paths

variable {defaults : Levels} {reserved : List Requirement} {hide : List String}
  {context path other : String} {fields : Fields}

lemma Field.mem_pathsIn :
    other ∈ Field.pathsIn hide context fields ↔
      ∃ entry ∈ fields, entry.1 ∉ hide ∧ other ∈ entry.2.paths (Path.join context entry.1) := by
  induction fields with
  | nil => simp [Field.pathsIn]
  | cons entry rest ih =>
      rw [Field.pathsIn, List.mem_append, ih, List.exists_mem_cons_iff]
      refine or_congr_left ?_
      by_cases h : entry.1 ∈ hide <;> simp [h]

/-- The paths of fields are those of their requirements, if that holds for each field. -/
lemma Field.mem_pathsIn_iff_requirements (hide : List String)
    (h : ∀ entry ∈ fields, other ∈ entry.2.paths (Path.join context entry.1) ↔
      ∃ r ∈ entry.2.requirements defaults reserved (Path.join context entry.1), r.path = other) :
    other ∈ Field.pathsIn hide context fields ↔
      ∃ r ∈ Field.requirementsIn defaults reserved hide context fields, r.path = other := by
  rw [Field.mem_pathsIn]
  constructor
  · rintro ⟨entry, hentry, hshown, hother⟩
    obtain ⟨r, hr, hsame⟩ := (h entry hentry).1 hother
    exact ⟨r, Field.mem_requirementsIn.2 ⟨entry, hentry, hshown, hr⟩, hsame⟩
  · rintro ⟨r, hr, hsame⟩
    obtain ⟨entry, hentry, hshown, hr⟩ := Field.mem_requirementsIn.1 hr
    exact ⟨entry, hentry, hshown, (h entry hentry).2 ⟨r, hr, hsame⟩⟩

/-- **The paths of a field are those of its requirements**, if nothing below it is reserved. -/
theorem Field.mem_paths_iff (defaults : Levels)
    (hfree : ∀ r ∈ reserved, r.path = other → '.' ∉ other.toList) (field : Field) :
    ∀ path, path ≠ "" → (other ∈ field.paths path ↔
      ∃ r ∈ field.requirements defaults reserved path, r.path = other) := by
  induction field using Field.inductionOn with
  | leaf _ _ | array _ _ _ =>
      intro path _
      simp [Field.paths, Field.requirements, Requirement.ofRule, eq_comm]
  | object fields _ ih =>
      intro path hpath
      exact Field.mem_pathsIn_iff_requirements [Path.identifier] fun entry hentry =>
        ih entry hentry _ (Path.ne_empty_of_isBelow (Path.isBelow_join hpath _))
  | documents fields virtuals hasId _ ih =>
      intro path hpath
      have hwalked := Field.mem_pathsIn_iff_requirements [Path.identifier] fun entry hentry =>
        ih entry hentry _ (Path.ne_empty_of_isBelow (Path.isBelow_join hpath _))
      simp only [Field.paths, List.mem_append, Field.requirements_documents]
      constructor
      · rintro (((hinside | hvirtual) | hid) | hself)
        · obtain ⟨r, hr, hsame⟩ := hwalked.1 hinside
          exact ⟨r, Or.inl (Requirement.mem_ofSubdocuments.2 (Or.inl hr)), hsame⟩
        · obtain ⟨virtual, hlisted, rfl⟩ := List.mem_map.1 hvirtual
          by_cases htaken : Path.join path virtual ∈ (reserved
              ++ Field.requirementsIn defaults reserved [Path.identifier] path fields).map
                Requirement.path
          · obtain ⟨r, hr, hsame⟩ := List.mem_map.1 htaken
            rcases List.mem_append.1 hr with hr | hr
            · have hbelow := Path.not_isBelow_of_no_dot (hfree r hr hsame) path
              rw [Path.isBelow_join hpath] at hbelow
              exact absurd hbelow (by decide)
            · exact ⟨r, Or.inl (Requirement.mem_ofSubdocuments.2 (Or.inl hr)), hsame⟩
          · exact ⟨_, Or.inl (Requirement.mem_ofSubdocuments.2
              (Or.inr (Or.inl ⟨virtual, hlisted, htaken, rfl⟩))), rfl⟩
        · cases hasId with
          | false => exact absurd hid List.not_mem_nil
          | true =>
              exact ⟨_, Or.inl (Requirement.mem_ofSubdocuments.2 (Or.inr (Or.inr ⟨rfl, rfl⟩))),
                (List.mem_singleton.1 hid).symm⟩
        · exact ⟨_, Or.inr (List.mem_singleton_self _), (List.mem_singleton.1 hself).symm⟩
      · rintro ⟨r, hr | hr, rfl⟩
        · rcases Requirement.mem_ofSubdocuments.1 hr with
            hr | ⟨virtual, hvirtual, -, rfl⟩ | ⟨rfl, rfl⟩
          · exact Or.inl (Or.inl (Or.inl (hwalked.2 ⟨r, hr, rfl⟩)))
          · exact Or.inl (Or.inl (Or.inr (List.mem_map_of_mem hvirtual)))
          · exact Or.inl (Or.inr (List.mem_singleton_self _))
        · rw [List.mem_singleton.1 hr]
          exact Or.inr (List.mem_singleton_self _)

end Paths

namespace Schema

variable {schema : Schema} {defaults : Levels} {path : String} {r s : Requirement}

/-! ## A path has one requirement -/

/-- The identifier of subdocuments has a requirement of its own, and that of a virtual path if they list
one of that name which is not reserved. -/
lemma cases_of_identifier (h : schema.fault? = none) (hordered : schema.WellOrdered)
    {fields : Fields} {virtuals : List String} {acl : Option AccessRule}
    (hwalks : schema.Walks path (.documents fields virtuals true acl))
    (hr : r ∈ schema.requirements defaults) (hsame : r.path = Path.join path Path.identifier) :
    r = .free (Path.join path Path.identifier) ∨
      Path.identifier ∈ virtuals ∧ Path.join path Path.identifier ∉ schema.reserved ∧
        r = .ofRule defaults (Path.join path Path.identifier) none := by
  have hsound := sound_fields h hordered
  have hleads := leads_of_fieldAt? h hordered hwalks.2
  have hpath := hleads.ne_empty hsound
  have hbelow : Path.isBelow path r.path = true := hsame ▸ Path.isBelow_join hpath _
  have hne := Path.ne_of_isBelow hbelow
  have hown : Requirement.free (Path.join path Path.identifier)
      ∈ (Field.documents fields virtuals true acl).requirements defaults
          schema.reservedRequirements path :=
    List.mem_append_left _ (Requirement.mem_ofSubdocuments.2 (Or.inr (Or.inr ⟨rfl, rfl⟩)))
  rcases cases_of_fieldAt? h hordered hwalks.2 hr (Path.within_of_isBelow hbelow) with
    ⟨-, hr⟩ | ⟨-, -, htaken⟩ | ⟨heq, -⟩
  · rcases List.mem_append.1 hr with hr | hr
    · rcases Requirement.mem_ofSubdocuments.1 hr with hr | ⟨virtual, hvirtual, htaken, rfl⟩ | ⟨-, hr⟩
      · exact absurd hsame (Field.path_ne_identifier (hleads.sound hsound).documents hr)
      · obtain rfl := Path.join_injective hsame
        rw [List.map_append, List.mem_append, not_or, map_path_reservedRequirements] at htaken
        exact Or.inr ⟨hvirtual, htaken.1, rfl⟩
      · exact Or.inl hr
    · exact absurd (congrArg Requirement.path (List.mem_singleton.1 hr)) hne
  · exact absurd hsame.symm (htaken hwalks _ hown)
  · exact absurd heq hne

/-- **A path has one requirement.** -/
theorem requirement_unique (h : schema.fault? = none) (hordered : schema.WellOrdered)
    (hid : schema.ListsNoIdentifier) (hr : r ∈ schema.requirements defaults)
    (hs : s ∈ schema.requirements defaults) (hsame : r.path = s.path) : r = s := by
  have hfree : ∀ {keys array inner virtuals acl}, Fields.Leads "" schema.tree.fields keys array
      (.documents inner virtuals true acl) → Path.Shown schema.reserved keys →
      ∀ {r}, r ∈ schema.requirements defaults → r.path = Path.join array Path.identifier →
        r = .free (Path.join array Path.identifier) := by
    intro keys array inner virtuals acl hleads hshown r hr hsame
    have hwalks := walks_of_leads h hordered hleads hshown
    refine (cases_of_identifier h hordered hwalks hr hsame).resolve_right ?_
    exact fun hvirtual => hid _ _ _ _ _ hwalks.2 hvirtual.1
  cases origin h hordered hr with
  | field hleads hshown hfield =>
      have hwalks := walks_of_leads h hordered hleads hshown
      have hpath := (Field.requirement?_mem hfield).2
      exact (requirement?_of_walks h hordered hwalks hfield hs (hsame.symm.trans hpath)).symm
  | identifier hleads hshown => exact (hfree hleads hshown hs hsame.symm).symm
  | @virtual path _ =>
      cases origin h hordered hs with
      | field hleads hshown hfield =>
          have hwalks := walks_of_leads h hordered hleads hshown
          have hpath := (Field.requirement?_mem hfield).2
          exact requirement?_of_walks h hordered hwalks hfield hr (hsame.trans hpath)
      | identifier hleads hshown => exact hfree hleads hshown hr hsame
      | @virtual other _ =>
          have hother : path = other := hsame
          rw [hother]

/-! ## The levels of a schema -/

/-- The level that the requirement on a path asks for. -/
def required? (schema : Schema) (defaults : Levels) (path : String) (action : Action) :
    Option Nat :=
  ((schema.requirements defaults).find? fun r => r.path = path).bind fun r => r.level? action

lemma required?_eq_some {action : Action} {level : Nat}
    (h : schema.required? defaults path action = some level) :
    ∃ r ∈ schema.requirements defaults, r.path = path ∧ r.level? action = some level := by
  obtain ⟨r, hfind, hlevel⟩ := Option.bind_eq_some_iff.1 h
  exact ⟨r, List.mem_of_find?_eq_some hfind, by simpa using List.find?_some hfind, hlevel⟩

/-- The level on a path is that of its requirement. -/
lemma required?_of_mem (h : schema.fault? = none) (hordered : schema.WellOrdered)
    (hid : schema.ListsNoIdentifier) (hr : r ∈ schema.requirements defaults) :
    schema.required? defaults r.path = r.level? := by
  obtain ⟨s, hfind⟩ : ∃ s, (schema.requirements defaults).find? (fun s => s.path = r.path) = some s :=
    Option.isSome_iff_exists.1 (List.find?_isSome.2 ⟨r, hr, by simp⟩)
  have hsame : s.path = r.path := by simpa using List.find?_some hfind
  have hs : s = r :=
    requirement_unique h hordered hid (List.mem_of_find?_eq_some hfind) hr hsame
  funext action
  rw [required?, hfind, hs, Option.bind_some]

/-- A field that is walked has the levels of its requirement. -/
lemma required?_of_walks (h : schema.fault? = none) (hordered : schema.WellOrdered)
    (hid : schema.ListsNoIdentifier) {field : Field} (hwalks : schema.Walks path field)
    (hr : field.requirement? defaults schema.reservedRequirements path = some r) :
    schema.required? defaults path = r.level? := by
  obtain ⟨hmem, rfl⟩ := Field.requirement?_mem hr
  exact required?_of_mem h hordered hid (mem_requirements_of_walks h hordered hwalks hmem)

lemma asked_eq (defaults : Levels) (path : String) (acl : Option AccessRule) :
    (Requirement.ofRule defaults path acl).level? = defaults.asked acl := by
  funext action
  cases acl with
  | none => rfl
  | some acl =>
      cases action with
      | read =>
          show some (acl.read.getD defaults.read) = acl.read.or (some defaults.read)
          cases acl.read <;> rfl
      | create | update | delete => rfl

lemma flat_reservedRequirements (hkey : '.' ∉ schema.versionKey.toList) :
    ∀ r ∈ schema.reservedRequirements, '.' ∉ r.path.toList := by
  intro r hr
  obtain ⟨path, hpath, rfl⟩ := List.mem_map.1 hr
  exact no_dot_of_mem_reserved hkey hpath

/-- The paths of the fields of a schema are those of their requirements. -/
lemma mem_pathsIn_iff (h : schema.fault? = none) (hordered : schema.WellOrdered)
    (hkey : '.' ∉ schema.versionKey.toList) :
    path ∈ Field.pathsIn schema.reserved "" schema.tree.fields ↔
      ∃ r ∈ schema.walkedRequirements defaults, r.path = path :=
  Field.mem_pathsIn_iff_requirements _ fun entry hentry =>
    Field.mem_paths_iff defaults (fun r hr hsame => hsame ▸ flat_reservedRequirements hkey r hr) entry.2 _
      (Path.join_ne_empty ((sound_fields h hordered).ne_empty_of_mem hentry))

/-- Every requirement is on a path of the schema. -/
lemma mem_paths_of_mem (h : schema.fault? = none) (hordered : schema.WellOrdered)
    (hkey : '.' ∉ schema.versionKey.toList) (hr : r ∈ schema.requirements defaults) :
    r.path ∈ schema.paths := by
  rcases mem_requirements.1 hr with hr | ⟨virtual, hvirtual, -, rfl⟩
  · exact List.mem_append_left _ ((mem_pathsIn_iff h hordered hkey).2 ⟨r, hr, rfl⟩)
  · exact List.mem_append_right _ hvirtual

/-- Every path of the schema that is not reserved has a requirement. -/
lemma exists_of_mem_paths (h : schema.fault? = none) (hordered : schema.WellOrdered)
    (hkey : '.' ∉ schema.versionKey.toList) (hpath : path ∈ schema.paths)
    (hreserved : path ∉ schema.reserved) :
    ∃ r ∈ schema.requirements defaults, r.path = path := by
  rcases List.mem_append.1 hpath with hpath | hvirtual
  · obtain ⟨r, hr, hsame⟩ := (mem_pathsIn_iff h hordered hkey).1 hpath
    exact ⟨r, mem_requirements.2 (Or.inl hr), hsame⟩
  · by_cases htaken : path ∈ (schema.reservedRequirements
        ++ schema.walkedRequirements defaults).map Requirement.path
    · obtain ⟨r, hr, hsame⟩ := List.mem_map.1 htaken
      rcases List.mem_append.1 hr with hr | hr
      · obtain ⟨other, hother, rfl⟩ := List.mem_map.1 hr
        exact absurd (hsame ▸ hother) hreserved
      · exact ⟨r, mem_requirements.2 (Or.inl hr), hsame⟩
    · exact ⟨_, mem_requirements.2 (Or.inr ⟨path, hvirtual, htaken, rfl⟩), rfl⟩

/-- Below an array of subdocuments, the levels that count are those of its own requirements. -/
lemma required?_below_iff (h : schema.fault? = none) (hordered : schema.WellOrdered)
    (hkey : '.' ∉ schema.versionKey.toList) (hid : schema.ListsNoIdentifier) {fields : Fields}
    {virtuals : List String} {hasId : Bool} {acl : Option AccessRule} {action : Action} {level : Nat}
    (hwalks : schema.Walks path (.documents fields virtuals hasId acl)) :
    (∃ other, (Path.isBelow path other = true ∧
        schema.CountsFor path (.documents fields virtuals hasId acl) other) ∧
        schema.required? defaults other action = some level) ↔
      ∃ r ∈ Field.ownRequirements defaults schema.reservedRequirements path fields virtuals hasId,
        r.level? action = some level := by
  have hpath := (leads_of_fieldAt? h hordered hwalks.2).ne_empty (sound_fields h hordered)
  have hpaths : ∀ other, other ∈ (Field.documents fields virtuals hasId acl).paths path ↔
      ∃ r ∈ (Field.documents fields virtuals hasId acl).requirements defaults
        schema.reservedRequirements path, r.path = other :=
    fun _ => Field.mem_paths_iff defaults
      (fun r hr hsame => hsame ▸ flat_reservedRequirements hkey r hr) _ path hpath
  constructor
  · rintro ⟨other, ⟨hbelow, hcounts⟩, hrequired⟩
    obtain ⟨r, hr, rfl, hlevel⟩ := required?_eq_some hrequired
    refine ⟨r, ?_, hlevel⟩
    have hne : r.path ≠ path := Path.ne_of_isBelow hbelow
    rcases cases_of_fieldAt? h hordered hwalks.2 hr (Path.within_of_isBelow hbelow) with
      ⟨-, hr⟩ | ⟨haround, -, htaken⟩ | ⟨hsame, -⟩
    · rcases List.mem_append.1 hr with hr | hr
      · exact hr
      · exact absurd (congrArg Requirement.path (List.mem_singleton.1 hr)) hne
    · obtain ⟨s, hs, hsame⟩ := (hpaths _).1 (hcounts haround)
      exact absurd hsame (htaken hwalks s hs)
    · exact absurd hsame hne
  · rintro ⟨r, hr, hlevel⟩
    have hr' : r ∈ (Field.documents fields virtuals hasId acl).requirements defaults
        schema.reservedRequirements path := List.mem_append_left _ hr
    refine ⟨r.path, ⟨Field.below_ownRequirements hpath r hr, fun _ => (hpaths _).2 ⟨r, hr', rfl⟩⟩, ?_⟩
    rw [required?_of_mem h hordered hid (mem_requirements_of_walks h hordered hwalks hr')]
    exact hlevel

/-- The level of an array of subdocuments is the strictest among those that count for it. -/
lemma isStrictest_of_walks (h : schema.fault? = none) (hordered : schema.WellOrdered)
    (hkey : '.' ∉ schema.versionKey.toList) (hid : schema.ListsNoIdentifier) {fields : Fields}
    {virtuals : List String} {hasId : Bool} {acl : Option AccessRule}
    (hwalks : schema.Walks path (.documents fields virtuals hasId acl)) (defaults : Levels)
    (action : Action) :
    IsStrictest (schema.required? defaults) defaults
      (fun other => Path.isBelow path other = true ∧
        schema.CountsFor path (.documents fields virtuals hasId acl) other) action
      (Requirement.strictest defaults
        (Field.ownRequirements defaults schema.reservedRequirements path fields virtuals hasId)
        action) := by
  have hlevels : ∀ n, _ ↔ n ∈ (Field.ownRequirements defaults schema.reservedRequirements path fields
      virtuals hasId).filterMap fun r => r.level? action := fun n =>
    (required?_below_iff h hordered hkey hid hwalks).trans List.mem_filterMap.symm
  refine ⟨fun other hother n hn => ?_, ?_⟩
  · exact le_getD_greatest? ((hlevels n).1 ⟨other, hother, hn⟩) _
  · rw [Requirement.strictest]
    cases hgreatest : greatest? ((Field.ownRequirements defaults schema.reservedRequirements path
        fields virtuals hasId).filterMap fun r => r.level? action) with
    | some level => exact Or.inl ((hlevels level).2 (greatest?_eq_some_iff.1 hgreatest).1)
    | none =>
        refine Or.inr ⟨fun other hother => Option.eq_none_iff_forall_ne_some.2 fun n hn => ?_, rfl⟩
        have hmem := (hlevels n).1 ⟨other, hother, hn⟩
        rw [greatest?_eq_none_iff.1 hgreatest] at hmem
        exact absurd hmem List.not_mem_nil

/-- A path is taken by a field with a requirement. -/
lemma isTaken_of_walks {field : Field} (hwalks : schema.Walks path field) {reserved : List Requirement}
    (hr : field.requirement? defaults reserved path = some r) : schema.IsTaken path := by
  cases field with
  | leaf type acl => exact Or.inl ⟨type, acl, hwalks⟩
  | array element acl => exact Or.inr (Or.inl ⟨element, acl, hwalks⟩)
  | object _ _ => exact absurd hr (by simp [Field.requirement?])
  | documents fields virtuals hasId acl =>
      exact Or.inr (Or.inr (Or.inl ⟨fields, virtuals, hasId, acl, hwalks⟩))

/-- Nothing reserved is below an array. -/
lemma arrayRequirement_eq (hkey : '.' ∉ schema.versionKey.toList) (own : List Requirement) :
    Field.arrayRequirement defaults schema.reservedRequirements path own
      = .ofArray defaults path own := by
  have hnil : (schema.reservedRequirements.filter fun r => Path.isBelow path r.path) = [] := by
    refine List.filter_eq_nil_iff.2 fun r hr => ?_
    rw [Path.not_isBelow_of_no_dot (flat_reservedRequirements hkey r hr)]
    decide
  rw [Field.arrayRequirement, hnil, List.nil_append]

/-- The levels of a schema follow the policy, where an array counts what counts for it. -/
theorem levelPolicy_required? (h : schema.fault? = none) (hordered : schema.WellOrdered)
    (hkey : '.' ∉ schema.versionKey.toList) (hid : schema.ListsNoIdentifier) :
    schema.LevelPolicy defaults schema.CountsFor (schema.required? defaults) where
  leaf hwalks := (required?_of_walks h hordered hid hwalks rfl).trans (asked_eq ..)
  array hwalks := (required?_of_walks h hordered hid hwalks rfl).trans (asked_eq ..)
  documents := by
    intro path fields virtuals hasId acl action hwalks
    have hlevels : schema.required? defaults path = _ :=
      required?_of_walks h hordered hid hwalks rfl
    have hstrictest := isStrictest_of_walks h hordered hkey hid hwalks defaults action
    rw [hlevels, arrayRequirement_eq hkey]
    cases action with
    | read | update =>
        rw [if_pos (by decide)]
        exact ⟨_, rfl, hstrictest⟩
    | create | delete => rfl
  identifier := by
    intro path fields virtuals acl action hwalks
    have hfree : Requirement.free (Path.join path Path.identifier) ∈ schema.requirements defaults :=
      mem_requirements_of_walks h hordered hwalks (List.mem_append_left _
        (Requirement.mem_ofSubdocuments.2 (Or.inr (Or.inr ⟨rfl, rfl⟩))))
    have hlevels := required?_of_mem h hordered hid hfree
    rw [show schema.required? defaults (Path.join path Path.identifier) = _ from hlevels]
    cases action <;> rfl
  virtual := by
    intro path action hpath hreserved htaken
    obtain ⟨r, hr, rfl⟩ : ∃ r ∈ schema.requirements defaults, r.path = path :=
      exists_of_mem_paths h hordered hkey hpath hreserved
    rw [required?_of_mem h hordered hid hr]
    cases origin h hordered hr with
    | field hleads hshown hfield =>
        have htaken' := isTaken_of_walks (walks_of_leads h hordered hleads hshown) hfield
        exact absurd ((Field.requirement?_mem hfield).2 ▸ htaken') htaken
    | identifier hleads hshown =>
        exact absurd (Or.inr (Or.inr (Or.inr
          ⟨_, _, _, _, walks_of_leads h hordered hleads hshown, rfl⟩))) htaken
    | virtual _ => rfl
  other := by
    intro path action hpath
    refine Option.eq_none_iff_forall_ne_some.2 fun level hlevel => ?_
    obtain ⟨r, hr, rfl, -⟩ := required?_eq_some hlevel
    exact hpath (mem_paths_of_mem h hordered hkey hr)

/-! ## What an index allows -/

/-- **A compiled index allows what the policy asks for**: everything on reserved paths, and on other paths
whatever is required there at the level of the caller or below.  There is one way to follow the policy,
except for reserved paths; an array of subdocuments does not count the virtual paths that are only listed
around it. -/
theorem allows_iff_required (h : schema.fault? = none) (hordered : schema.WellOrdered)
    (hkey : '.' ∉ schema.versionKey.toList) (hid : schema.ListsNoIdentifier) (defaults : Levels) :
    (∃ required, schema.LevelPolicy defaults schema.CountsFor required) ∧
      ∀ required, schema.LevelPolicy defaults schema.CountsFor required →
        ∀ path action level,
          (schema.compile defaults).allows path action level = true ↔
            path = Path.identifier ∨ path = schema.versionKey ∨
              ∃ granted, required path action = some granted ∧ granted ≤ level := by
  have hpolicy : schema.LevelPolicy defaults schema.CountsFor (schema.required? defaults) :=
    levelPolicy_required? h hordered hkey hid
  refine ⟨⟨_, hpolicy⟩, fun required hrequired path action level => ?_⟩
  have hreserved : path ∈ schema.reserved ↔ path = Path.identifier ∨ path = schema.versionKey := by
    simp [reserved]
  rw [allows_compile_iff h hordered, ← or_assoc, ← hreserved]
  refine or_congr_right' fun hfree => ?_
  rw [hrequired.unique hkey hpolicy action path hfree]
  constructor
  · rintro ⟨r, hr, rfl, granted, hle, hlevel⟩
    exact ⟨granted, (congrFun (required?_of_mem h hordered hid hr) action).trans hlevel, hle⟩
  · rintro ⟨granted, hgranted, hle⟩
    obtain ⟨r, hr, rfl, hlevel⟩ := required?_eq_some hgranted
    exact ⟨r, hr, rfl, granted, hle, hlevel⟩

end Schema

/-! ## Orders -/

/-- The price of an item; anyone may read and update it. -/
def ordersPrice : Field := .leaf .number (some ⟨none, some 0, some 0, none, none⟩)

/-- Items with a price and an identifier. -/
def ordersItems : Field := .documents [("price", ordersPrice)] [] true none

/-- Orders have items; the schema lists a virtual path below them. -/
def ordersSchema : Schema :=
  ⟨"orders", defaultVersionKey, ⟨[("items", ordersItems)], ["items.total"], false⟩⟩

/-- Default levels under which reading asks for level 5. -/
def ordersDefaults : Levels := ⟨0, 5, 0, 0⟩

/-- Keys lead to the items and to their price, and nowhere else. -/
lemma orders_leads {keys : List String} {path : String} {field : Field}
    (h : Fields.Leads "" ordersSchema.tree.fields keys path field) :
    (path = "items" ∧ field = ordersItems) ∨ (path = "items.price" ∧ field = ordersPrice) := by
  cases h with
  | here hfind =>
      have hmem := Keyed.mem_of_find? hfind
      simp only [ordersSchema, List.mem_singleton, Prod.mk.injEq] at hmem
      obtain ⟨rfl, rfl⟩ := hmem
      exact Or.inl ⟨rfl, rfl⟩
  | inside hfind hinner hleads =>
      have hmem := Keyed.mem_of_find? hfind
      simp only [ordersSchema, List.mem_singleton, Prod.mk.injEq] at hmem
      obtain ⟨rfl, rfl⟩ := hmem
      cases hinner
      cases hleads with
      | here hfind =>
          have hmem := Keyed.mem_of_find? hfind
          simp only [List.mem_singleton, Prod.mk.injEq] at hmem
          obtain ⟨rfl, rfl⟩ := hmem
          exact Or.inr ⟨rfl, rfl⟩
      | inside hfind hinner _ =>
          have hmem := Keyed.mem_of_find? hfind
          simp only [List.mem_singleton, Prod.mk.injEq] at hmem
          obtain ⟨rfl, rfl⟩ := hmem
          exact absurd hinner (by simp [Field.nested?, ordersPrice])

lemma orders_accepted : ordersSchema.fault? = none := by decide

lemma orders_wellOrdered : ordersSchema.WellOrdered :=
  ⟨List.pairwise_singleton _ _, ⟨List.pairwise_singleton _ _, trivial, trivial⟩, trivial⟩

lemma orders_listsNoIdentifier : ordersSchema.ListsNoIdentifier := by
  intro path fields virtuals hasId acl hfield
  rcases orders_leads (Schema.leads_of_fieldAt? orders_accepted orders_wellOrdered hfield) with
    ⟨-, hsame⟩ | ⟨-, hsame⟩
  · cases hsame
    exact List.not_mem_nil
  · exact absurd hsame (by simp [ordersPrice])

theorem allows_iff_required_orders :
    (∃ required, ordersSchema.LevelPolicy ordersDefaults ordersSchema.CountsFor required) ∧
      ∀ required, ordersSchema.LevelPolicy ordersDefaults ordersSchema.CountsFor required →
        ∀ path action level,
          (ordersSchema.compile ordersDefaults).allows path action level = true ↔
            path = Path.identifier ∨ path = ordersSchema.versionKey ∨
              ∃ granted, required path action = some granted ∧ granted ≤ level :=
  Schema.allows_iff_required orders_accepted orders_wellOrdered (by decide)
    orders_listsNoIdentifier ordersDefaults

/-- The levels of orders if the items count everything below them. -/
def ordersLevels (path : String) (action : Action) : Option Nat :=
  if path = "items" ∨ path = "items.total" then
    match action with
    | .read => some 5
    | .update => some 0
    | _ => if path = "items" then none else some 0
  else if path = "items.price" then
    match action with
    | .read | .update => some 0
    | _ => none
  else if path = "items._id" then if action = .read then some 0 else none
  else none

lemma orders_walks {path : String} {field : Field} (h : ordersSchema.Walks path field) :
    (path = "items" ∧ field = ordersItems) ∨ (path = "items.price" ∧ field = ordersPrice) :=
  orders_leads (Schema.leads_of_fieldAt? orders_accepted orders_wellOrdered h.2)

lemma ordersLevels_le (path : String) {action : Action} {level : Nat}
    (h : ordersLevels path action = some level) : level ≤ ordersDefaults.of action := by
  unfold ordersLevels at h
  cases action <;> simp [ordersDefaults, Levels.of] at h ⊢ <;> grind

/-- These levels follow the policy. -/
lemma ordersLevels_policy :
    ordersSchema.LevelPolicy ordersDefaults (fun _ _ _ => True) ordersLevels where
  leaf := by
    intro path type acl hwalks
    rcases orders_walks hwalks with ⟨-, hsame⟩ | ⟨rfl, hsame⟩
    · exact absurd hsame (by simp [ordersItems])
    · cases hsame
      funext action
      cases action <;> rfl
  array := by
    intro path element acl hwalks
    rcases orders_walks hwalks with ⟨-, hsame⟩ | ⟨-, hsame⟩
    · exact absurd hsame (by simp [ordersItems])
    · exact absurd hsame (by simp [ordersPrice])
  documents := by
    intro path fields virtuals hasId acl action hwalks
    rcases orders_walks hwalks with ⟨rfl, -⟩ | ⟨-, hsame⟩
    · split
      next haction =>
        refine ⟨ordersDefaults.of action, ?_, fun other _ n hn => ordersLevels_le other hn,
          Or.inl ⟨"items.total", ⟨by decide, trivial⟩, ?_⟩⟩
        · rcases haction with rfl | rfl <;> rfl
        · rcases haction with rfl | rfl <;> rfl
      next haction => cases action <;> simp_all [ordersLevels]
    · exact absurd hsame (by simp [ordersPrice])
  identifier := by
    intro path fields virtuals acl action hwalks
    rcases orders_walks hwalks with ⟨rfl, -⟩ | ⟨-, hsame⟩
    · cases action <;> rfl
    · exact absurd hsame (by simp [ordersPrice])
  virtual := by
    intro path action hpath hreserved htaken
    have hpaths : ordersSchema.paths = ["items.price", "items._id", "items", "items.total"] := rfl
    rw [hpaths] at hpath
    have hprice : ordersSchema.IsTaken "items.price" := Or.inl ⟨_, _, by decide, rfl⟩
    have hitems : ordersSchema.IsTaken "items" := Or.inr (Or.inr (Or.inl ⟨_, _, _, _, by decide, rfl⟩))
    have hid : ordersSchema.IsTaken "items._id" :=
      Or.inr (Or.inr (Or.inr ⟨"items", _, _, _, ⟨by decide, rfl⟩, rfl⟩))
    simp only [List.mem_cons, List.not_mem_nil, or_false] at hpath
    rcases hpath with rfl | rfl | rfl | rfl
    · exact absurd hprice htaken
    · exact absurd hid htaken
    · exact absurd hitems htaken
    · cases action <;> rfl
  other := by
    intro path action hpath
    have hpaths : ordersSchema.paths = ["items.price", "items._id", "items", "items.total"] := rfl
    rw [hpaths] at hpath
    simp only [List.mem_cons, List.not_mem_nil, or_false, not_or] at hpath
    obtain ⟨hprice, hid, hitems, htotal⟩ := hpath
    simp [ordersLevels, hprice, hid, hitems, htotal]

/-- **An array may be read although a virtual path below it may not**: if the items of an order counted
everything below them, reading them would ask for level 5. -/
theorem orders_items_permissive :
    (ordersSchema.fault? = none ∧ '.' ∉ ordersSchema.versionKey.toList ∧
      ordersSchema.ListsNoIdentifier) ∧
    (∃ required, ordersSchema.LevelPolicy ordersDefaults (fun _ _ _ => True) required) ∧
    ∀ required, ordersSchema.LevelPolicy ordersDefaults (fun _ _ _ => True) required →
      (ordersSchema.compile ordersDefaults).allows "items" .read 0 = true ∧
        ¬ ("items" = Path.identifier ∨ "items" = ordersSchema.versionKey ∨
          ∃ granted, required "items" .read = some granted ∧ granted ≤ 0) := by
  refine ⟨⟨orders_accepted, by decide, orders_listsNoIdentifier⟩, ⟨_, ordersLevels_policy⟩,
    fun required hpolicy => ⟨by decide, ?_⟩⟩
  have hsame := hpolicy.unique (by decide) ordersLevels_policy .read "items" (by decide)
  have hlevel : required "items" .read = some 5 := hsame
  rintro (hid | hkey | ⟨granted, hgranted, hle⟩)
  · exact absurd hid (by decide)
  · exact absurd hkey (by decide)
  · rw [hlevel] at hgranted
    cases hgranted
    omega

end DocumentAccess
