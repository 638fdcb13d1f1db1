import DocumentAccess.Proofs.Access.Required
import Mathlib.Order.Bounds.Defs

/-!
# How often a path is granted

An index is searched downwards from the level of the caller, and the search stops at the first grant.
That finds the least level that suffices as long as a path is granted at one level for each action.
Nothing in the building of an index sees to that: it only leaves out a grant that is there already at
the same level.  What does see to it is that the walk over a schema comes to each path once, except for
paths that anyone may read and that are granted for reading a second time.

* `AccessIndex.GrantedOnce`, `AccessIndex.FirstHitLeast` — one level for an action on a path, and a search
  that finds the least.
* `Schema.mem_grants_compile` — what is granted is what is reserved or required.
* `Schema.ReadAgain` — the second level at which a path that anyone may read is granted.
* **`Schema.grantedOnce_iff`** — an action on a path is granted at one level, and the search finds the
  least level, unless the action is reading and the second level is another one.
* `granted_twice` — both kinds of second levels do occur.
-/

namespace DocumentAccess

namespace AccessIndex

variable {index : AccessIndex} {path : String} {action : Action} {level : Nat}

lemma mem_pathsAt : path ∈ index.pathsAt level action ↔ ⟨level, action, path⟩ ∈ index.grants := by
  simp only [pathsAt, List.mem_map, List.mem_filter, decide_eq_true_eq]
  constructor
  · rintro ⟨grant, ⟨hmem, rfl, rfl⟩, rfl⟩
    exact hmem
  · exact fun hmem => ⟨_, ⟨hmem, rfl, rfl⟩, rfl⟩

lemma grantedLevel?_eq_some_iff {ceiling : Nat} :
    index.grantedLevel? path action ceiling = some level ↔
      (level ≤ ceiling ∧ path ∈ index.pathsAt level action) ∧
        ∀ other ≤ ceiling, path ∈ index.pathsAt other action → other ≤ level := by
  have hmem : ∀ n, n ∈ (index.grants.filter fun grant =>
      grant.path = path ∧ grant.action = action ∧ grant.level ≤ ceiling).map Grant.level ↔
      n ≤ ceiling ∧ path ∈ index.pathsAt n action := by
    intro n
    simp only [mem_pathsAt, List.mem_map, List.mem_filter, decide_eq_true_eq]
    constructor
    · rintro ⟨grant, ⟨hgrant, rfl, rfl, hle⟩, rfl⟩
      exact ⟨hle, hgrant⟩
    · exact fun h => ⟨_, ⟨h.2, rfl, rfl, h.1⟩, rfl⟩
  rw [grantedLevel?, greatest?_eq_some_iff, hmem]
  simp only [hmem, and_imp]

/-! ## One level -/

/-- The path is granted for the action at one level at most. -/
def GrantedOnce (index : AccessIndex) (path : String) (action : Action) : Prop :=
  ∀ level other, path ∈ index.pathsAt level action → path ∈ index.pathsAt other action →
    level = other

/-- From whichever level the search starts, the level that it finds is the least one that suffices. -/
def FirstHitLeast (index : AccessIndex) (path : String) (action : Action) : Prop :=
  ∀ ceiling level, index.grantedLevel? path action ceiling = some level →
    IsLeast {sufficient | (index.grantedLevel? path action sufficient).isSome = true} level

/-- **The search finds the least level exactly on paths that are granted once.** -/
theorem firstHitLeast_iff : index.FirstHitLeast path action ↔ index.GrantedOnce path action := by
  constructor
  · intro hleast
    -- a search that starts at the higher one of two levels stops there
    have hle : ∀ level other, path ∈ index.pathsAt level action →
        path ∈ index.pathsAt other action → level ≤ other → other ≤ level := by
      intro level other hlevel hother _
      have hsufficient : (index.grantedLevel? path action level).isSome = true :=
        isSome_grantedLevel?_iff.2 ⟨level, Nat.le_refl _, mem_pathsAt.1 hlevel⟩
      have hfound : index.grantedLevel? path action other = some other :=
        grantedLevel?_eq_some_iff.2 ⟨⟨Nat.le_refl _, hother⟩, fun _ hle _ => hle⟩
      exact (hleast other other hfound).2 hsufficient
    intro level other hlevel hother
    rcases Nat.le_total level other with h | h
    · exact Nat.le_antisymm h (hle level other hlevel hother h)
    · exact Nat.le_antisymm (hle other level hother hlevel h) h
  · intro honce ceiling level hfound
    obtain ⟨⟨-, hlevel⟩, -⟩ := grantedLevel?_eq_some_iff.1 hfound
    refine ⟨isSome_grantedLevel?_iff.2 ⟨level, Nat.le_refl _, mem_pathsAt.1 hlevel⟩, ?_⟩
    intro sufficient hsufficient
    obtain ⟨granted, hle, hgrant⟩ := isSome_grantedLevel?_iff.1 hsufficient
    exact honce level granted hlevel (mem_pathsAt.2 hgrant) ▸ hle

end AccessIndex

/-- What is free has a level for reading only, and that is 0. -/
lemma Requirement.read_of_free {path : String} {action : Action} {level : Nat}
    (h : (free path).level? action = some level) : action = .read ∧ level = 0 := by
  cases action with
  | read => exact ⟨rfl, (Option.some.inj h).symm⟩
  | create | update | delete => exact absurd h (by simp [free])

namespace Schema

variable {schema : Schema} {defaults : Levels} {path : String} {action : Action} {level : Nat}
  {r s : Requirement}

/-! ## What a compiled index grants -/

/-- **What is granted** is what is reserved, for reading from level 0 on, or required. -/
theorem mem_grants_compile (h : schema.fault? = none) (hordered : schema.WellOrdered) :
    ⟨level, action, path⟩ ∈ (schema.compile defaults).grants ↔
      (path ∈ schema.reserved ∧ action = .read ∧ level = 0) ∨
        ∃ r ∈ schema.requirements defaults, path = r.path ∧ r.level? action = some level := by
  rw [compile_eq h hordered, AccessIndex.mem_grants_requireAll,
    (schema.agrees_start defaults path).grants path (List.prefix_refl _)]
  refine or_congr_left ?_
  constructor
  · rintro ⟨r, hr, rfl, hlevel⟩
    obtain ⟨reserved, hreserved, rfl⟩ := List.mem_map.1 hr
    exact ⟨hreserved, Requirement.read_of_free hlevel⟩
  · rintro ⟨hreserved, rfl, rfl⟩
    exact ⟨_, List.mem_map_of_mem hreserved, rfl, rfl⟩

/-- The level at which a path that anyone may read is granted for reading a second time. -/
inductive ReadAgain (schema : Schema) (defaults : Levels) : String → Nat → Prop
  /-- The version counter has the path of a field, which asks for a level of its own. -/
  | counter {field : Field} {r : Requirement} {level : Nat} :
      schema.Walks schema.versionKey field →
      field.requirement? defaults schema.reservedRequirements schema.versionKey = some r →
      r.level? .read = some level → ReadAgain schema defaults schema.versionKey level
  /-- Subdocuments list the name of their identifier as a virtual path. -/
  | identifier {array : String} {fields : Fields} {virtuals : List String}
      {acl : Option AccessRule} :
      schema.Walks array (.documents fields virtuals true acl) → Path.identifier ∈ virtuals →
      Path.join array Path.identifier ≠ schema.versionKey →
      ReadAgain schema defaults (Path.join array Path.identifier) defaults.read

/-- Nothing reserved is walked, except at the path of the version counter. -/
lemma eq_versionKey_of_walks {field : Field} (hwalks : schema.Walks path field)
    (hreserved : path ∈ schema.reserved) : path = schema.versionKey := by
  rcases List.mem_pair.1 hreserved with rfl | hpath
  · have hshown : Path.identifier ∉ schema.reserved := by
      have hkeys : Path.segments Path.identifier = [Path.identifier] := by decide
      exact (hkeys ▸ hwalks.1).1
    exact absurd List.mem_cons_self hshown
  · exact hpath

/-- A path that anyone may read is granted for reading at level 0, and at the second level. -/
lemma grants_of_readAgain (h : schema.fault? = none) (hordered : schema.WellOrdered)
    (hagain : schema.ReadAgain defaults path level) :
    ⟨0, .read, path⟩ ∈ (schema.compile defaults).grants ∧
      ⟨level, .read, path⟩ ∈ (schema.compile defaults).grants := by
  rw [mem_grants_compile h hordered, mem_grants_compile h hordered]
  cases hagain with
  | counter hwalks hrequirement hlevel =>
      obtain ⟨hr, hpath⟩ := Field.requirement?_mem hrequirement
      exact ⟨Or.inl ⟨List.mem_cons_of_mem _ List.mem_cons_self, rfl, rfl⟩,
        Or.inr ⟨_, mem_requirements_of_walks h hordered hwalks hr, hpath.symm, hlevel⟩⟩
  | @identifier array fields virtuals acl hwalks hlisted hkey =>
      have hsound := sound_fields h hordered
      have hleads := leads_of_fieldAt? h hordered hwalks.2
      have hbelow := Path.isBelow_join (hleads.ne_empty hsound) Path.identifier
      have htaken : Path.join array Path.identifier ∉ (schema.reservedRequirements
          ++ Field.requirementsIn defaults schema.reservedRequirements [Path.identifier] array
            fields).map Requirement.path := by
        rw [List.map_append, List.mem_append, map_path_reservedRequirements, not_or, reserved,
          List.mem_pair, not_or]
        refine ⟨⟨fun hid => ?_, hkey⟩, fun hwalked => ?_⟩
        · rw [hid, Path.not_isBelow_of_no_dot (by decide)] at hbelow
          exact absurd hbelow (by decide)
        · obtain ⟨r, hr, hsame⟩ := List.mem_map.1 hwalked
          exact Field.path_ne_identifier (hleads.sound hsound).documents hr hsame
      have hown : ∀ r ∈ Field.ownRequirements defaults schema.reservedRequirements array fields
          virtuals true, r ∈ schema.requirements defaults := fun r hr =>
        mem_requirements_of_walks h hordered hwalks (List.mem_append_left _ hr)
      exact ⟨Or.inr ⟨_, hown _ (Requirement.mem_ofSubdocuments.2 (Or.inr (Or.inr ⟨rfl, rfl⟩))),
          rfl, rfl⟩,
        Or.inr ⟨_, hown _ (Requirement.mem_ofSubdocuments.2
          (Or.inr (Or.inl ⟨_, hlisted, htaken, rfl⟩))), rfl, rfl⟩⟩

/-- A reserved path that is required besides is that of the version counter, or grants nothing new. -/
lemma readAgain_of_reserved (h : schema.fault? = none) (hordered : schema.WellOrdered)
    (hr : r ∈ schema.requirements defaults) (hreserved : r.path ∈ schema.reserved)
    (hlevel : r.level? .read = some level) (hne : level ≠ 0) :
    schema.ReadAgain defaults r.path level := by
  cases origin h hordered hr with
  | @field keys path field r hleads hshown hrequirement =>
      have hwalks := walks_of_leads h hordered hleads hshown
      obtain rfl := (Field.requirement?_mem hrequirement).2
      have hkey := eq_versionKey_of_walks hwalks hreserved
      rw [hkey] at hwalks hrequirement ⊢
      exact .counter hwalks hrequirement hlevel
  | identifier _ _ => exact absurd (Option.some.inj hlevel).symm hne
  | virtual hfree =>
      rw [map_path_reservedRequirements] at hfree
      exact absurd hreserved hfree

/-- Two requirements on the path of the identifier of subdocuments are the same, or read it again. -/
lemma readAgain_of_identifier (h : schema.fault? = none) (hordered : schema.WellOrdered)
    {array : String} {fields : Fields} {virtuals : List String} {acl : Option AccessRule}
    (hwalks : schema.Walks array (.documents fields virtuals true acl))
    (hs : s ∈ schema.requirements defaults) (hsame : s.path = Path.join array Path.identifier)
    (hne : s ≠ .free (Path.join array Path.identifier)) :
    s = .ofRule defaults (Path.join array Path.identifier) none ∧
      schema.ReadAgain defaults (Path.join array Path.identifier) defaults.read := by
  obtain ⟨hlisted, hfree, hrule⟩ :=
    (cases_of_identifier h hordered hwalks hs hsame).resolve_left hne
  refine ⟨hrule, .identifier hwalks hlisted fun hkey => hfree ?_⟩
  exact hkey ▸ List.mem_cons_of_mem _ List.mem_cons_self

/-- Two requirements on one path are the same, or one of them is free and the other reads again. -/
lemma readAgain_of_requirements (h : schema.fault? = none) (hordered : schema.WellOrdered)
    (hr : r ∈ schema.requirements defaults) (hs : s ∈ schema.requirements defaults)
    (hsame : r.path = s.path) (hne : r ≠ s) :
    schema.ReadAgain defaults r.path defaults.read ∧
      ((r = .free r.path ∧ s = .ofRule defaults r.path none) ∨
        (s = .free r.path ∧ r = .ofRule defaults r.path none)) := by
  cases origin h hordered hr with
  | field hleads hshown hfield =>
      have hwalks := walks_of_leads h hordered hleads hshown
      have hpath := (Field.requirement?_mem hfield).2
      exact absurd (requirement?_of_walks h hordered hwalks hfield hs (hsame.symm.trans hpath)).symm
        hne
  | identifier hleads hshown =>
      have hwalks := walks_of_leads h hordered hleads hshown
      obtain ⟨hrule, hagain⟩ :=
        readAgain_of_identifier h hordered hwalks hs hsame.symm (Ne.symm hne)
      exact ⟨hagain, Or.inl ⟨rfl, hrule⟩⟩
  | @virtual path hfree =>
      cases origin h hordered hs with
      | field hleads hshown hfield =>
          have hwalks := walks_of_leads h hordered hleads hshown
          have hpath := (Field.requirement?_mem hfield).2
          exact absurd (requirement?_of_walks h hordered hwalks hfield hr (hsame.trans hpath)) hne
      | identifier hleads hshown =>
          have hwalks := walks_of_leads h hordered hleads hshown
          obtain ⟨hrule, hagain⟩ := readAgain_of_identifier h hordered hwalks hr hsame hne
          have hpath : path = _ := hsame
          subst hpath
          exact ⟨hagain, Or.inr ⟨rfl, rfl⟩⟩
      | @virtual other _ =>
          have hpath : path = other := hsame
          exact absurd (congrArg (Requirement.ofRule defaults · none) hpath) hne

/-- Of two levels for an action on a path, one is 0 and the other the second level for reading. -/
lemma readAgain_of_ne (h : schema.fault? = none) (hordered : schema.WellOrdered) {other : Nat}
    (hlevel : ⟨level, action, path⟩ ∈ (schema.compile defaults).grants)
    (hother : ⟨other, action, path⟩ ∈ (schema.compile defaults).grants) (hne : level ≠ other) :
    action = .read ∧ ∃ second, second ≠ 0 ∧ schema.ReadAgain defaults path second := by
  rw [mem_grants_compile h hordered] at hlevel hother
  rcases hlevel with ⟨hreserved, rfl, rfl⟩ | ⟨r, hr, rfl, hrlevel⟩
  · rcases hother with ⟨-, -, rfl⟩ | ⟨s, hs, rfl, hslevel⟩
    · exact absurd rfl hne
    · exact ⟨rfl, other, Ne.symm hne,
        readAgain_of_reserved h hordered hs hreserved hslevel (Ne.symm hne)⟩
  · rcases hother with ⟨hreserved, rfl, rfl⟩ | ⟨s, hs, hsame, hslevel⟩
    · exact ⟨rfl, level, hne, readAgain_of_reserved h hordered hr hreserved hrlevel hne⟩
    · have hrs : r ≠ s := by
        rintro rfl
        exact hne (Option.some.inj (hrlevel.symm.trans hslevel))
      obtain ⟨hagain, ⟨hfree, hrule⟩ | ⟨hfree, hrule⟩⟩ :=
        readAgain_of_requirements h hordered hr hs hsame hrs
      · obtain ⟨rfl, rfl⟩ := Requirement.read_of_free (hfree ▸ hrlevel)
        rw [hrule] at hslevel
        obtain rfl : defaults.read = other := Option.some.inj hslevel
        exact ⟨rfl, _, Ne.symm hne, hagain⟩
      · obtain ⟨rfl, rfl⟩ := Requirement.read_of_free (hfree ▸ hslevel)
        rw [hrule] at hrlevel
        obtain rfl : defaults.read = level := Option.some.inj hrlevel
        exact ⟨rfl, _, hne, hagain⟩

/-- **An action on a path is granted at one level** unless it is reading and the path is granted for
reading a second time at a level other than 0; and just then the search from the level of a caller finds
the least level that suffices. -/
theorem grantedOnce_iff (h : schema.fault? = none) (hordered : schema.WellOrdered)
    (defaults : Levels) (path : String) (action : Action) :
    ((schema.compile defaults).GrantedOnce path action ↔
        (action = .read → ∀ level, schema.ReadAgain defaults path level → level = 0)) ∧
      ((schema.compile defaults).GrantedOnce path action ↔
        (schema.compile defaults).FirstHitLeast path action) := by
  refine ⟨⟨?_, ?_⟩, AccessIndex.firstHitLeast_iff.symm⟩
  · rintro honce rfl level hagain
    obtain ⟨hzero, hlevel⟩ := grants_of_readAgain h hordered hagain
    exact honce level 0 (AccessIndex.mem_pathsAt.2 hlevel) (AccessIndex.mem_pathsAt.2 hzero)
  · intro hagain level other hlevel hother
    by_contra hne
    obtain ⟨haction, second, hsecond, hread⟩ := readAgain_of_ne h hordered
      (AccessIndex.mem_pathsAt.1 hlevel) (AccessIndex.mem_pathsAt.1 hother) hne
    exact hsecond (hagain haction second hread)

end Schema

/-- Orders whose items have an identifier and list its name as a virtual path. -/
def labelledSchema : Schema :=
  ⟨"orders", defaultVersionKey,
    ⟨[("items", .documents [("price", .leaf .number none)] [Path.identifier] true none)], [], false⟩⟩

lemma labelled_accepted : labelledSchema.fault? = none := by decide

lemma labelled_wellOrdered : labelledSchema.WellOrdered :=
  ⟨List.pairwise_singleton _ _, ⟨List.pairwise_singleton _ _, ⟨trivial, trivial⟩⟩, trivial⟩

/-- Updating is granted once; so is reading an identifier that is listed as a virtual path, if anyone may
read by default. -/
theorem grantedOnce_orders :
    ((ordersSchema.compile ordersDefaults).pathsAt 0 .update = ["items.price", "items", "items.total"] ∧
      (ordersSchema.compile ordersDefaults).GrantedOnce "items" .update ∧
      (ordersSchema.compile ordersDefaults).FirstHitLeast "items" .update) ∧
    labelledSchema.ReadAgain (.uniform 0) "items._id" 0 ∧
      (labelledSchema.compile (.uniform 0)).GrantedOnce "items._id" .read ∧
      (labelledSchema.compile (.uniform 0)).FirstHitLeast "items._id" .read := by
  have honce := Schema.grantedOnce_iff orders_accepted orders_wellOrdered ordersDefaults "items" .update
  have hitems := honce.1.2 fun hread => absurd hread (by decide)
  have hread := Schema.grantedOnce_iff labelled_accepted labelled_wellOrdered (.uniform 0) "items._id"
    .read
  have hsecond : ∀ {path level}, labelledSchema.ReadAgain (.uniform 0) path level →
      path = "items._id" → level = 0 := by
    intro path level hagain hpath
    cases hagain with
    | counter => exact absurd hpath (by decide)
    | identifier => rfl
  have hid := hread.1.2 fun _ level hagain => hsecond hagain rfl
  have hwalks : labelledSchema.Walks "items"
      (.documents [("price", .leaf .number none)] [Path.identifier] true none) := ⟨by decide, rfl⟩
  have hjoin : Path.join "items" Path.identifier = "items._id" := by decide
  exact ⟨⟨rfl, hitems, honce.2.1 hitems⟩,
    hjoin ▸ .identifier hwalks (List.mem_singleton_self _) (by decide), hid, hread.2.1 hid⟩

/-- Orders whose version counter has the path of a field that asks for level 5. -/
def stampedSchema : Schema :=
  ⟨"orders", "stock.count",
    ⟨[("stock", .object [("count", .leaf .number (some ⟨none, some 5, none, none, none⟩))] none)], [],
      false⟩⟩

/-- **A path may be granted for reading at two levels**, and then a search from the higher one does not
find the lower one: the path of an identifier that subdocuments list as a virtual path, and the path of
the version counter if a field has it. -/
theorem granted_twice :
    (labelledSchema.fault? = none ∧ labelledSchema.WellOrdered ∧
      ¬ (labelledSchema.compile ordersDefaults).GrantedOnce "items._id" .read ∧
      ¬ (labelledSchema.compile ordersDefaults).FirstHitLeast "items._id" .read) ∧
    (stampedSchema.fault? = none ∧ stampedSchema.WellOrdered ∧
      ¬ (stampedSchema.compile ordersDefaults).GrantedOnce "stock.count" .read ∧
      ¬ (stampedSchema.compile ordersDefaults).FirstHitLeast "stock.count" .read) := by
  have hlabelled : ¬ (labelledSchema.compile ordersDefaults).GrantedOnce "items._id" .read :=
    fun honce => absurd (honce 0 5 (by decide) (by decide)) (by decide)
  have hstamped : ¬ (stampedSchema.compile ordersDefaults).GrantedOnce "stock.count" .read :=
    fun honce => absurd (honce 0 5 (by decide) (by decide)) (by decide)
  refine ⟨⟨labelled_accepted, labelled_wellOrdered, hlabelled,
      fun hleast => hlabelled (AccessIndex.firstHitLeast_iff.1 hleast)⟩,
    ⟨by decide, ?_, hstamped, fun hleast => hstamped (AccessIndex.firstHitLeast_iff.1 hleast)⟩⟩
  exact ⟨List.pairwise_singleton _ _,
    ⟨List.pairwise_singleton _ _, ⟨trivial, trivial⟩⟩, trivial⟩

end DocumentAccess
