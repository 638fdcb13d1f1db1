import DocumentAccess.Proofs.Access.Required

/-!
# Addressable paths

Compiling a schema lists its paths by a walk over the tree, while references are followed by looking up
dotted paths.  Both agree on which paths there are, although each has its own way with names that are
reserved.

* `AccessIndex.Lists` — what a walk does to an index: paths are listed, and none twice.
* **`AccessIndex.lists_addField`**, **`Schema.lists_compile`** — the step and the run: a field lists its
  paths, and a schema lists its own.
* **`Field.mem_pathsIn_iff`** — the paths of fields, by the keys that lead to them.
* `Schema.Addressable` — the paths of a schema, by look-ups.
* **`Schema.all_compile`** — a compiled index lists just these paths, each once.
-/

namespace DocumentAccess

namespace AccessIndex

variable {index before middle after : AccessIndex} {path context : String}
  {paths others : List String} {defaults : Levels} {versionKey : String}

/-! ## Walks that list paths -/

/-- Paths become addressable, and none of them is listed twice. -/
structure Lists (before after : AccessIndex) (paths : List String) : Prop where
  mem : ∀ path, path ∈ after.all ↔ path ∈ before.all ∨ path ∈ paths
  nodup : before.all.Nodup → after.all.Nodup

lemma Lists.nil (index : AccessIndex) : index.Lists index [] where
  mem := by simp
  nodup := id

lemma Lists.append (h : before.Lists middle paths) (h' : middle.Lists after others) :
    before.Lists after (paths ++ others) where
  mem := by
    intro path
    rw [h'.mem, h.mem, List.mem_append, or_assoc]
  nodup := fun hnodup => h'.nodup (h.nodup hnodup)

lemma nodup_adjoin {α : Type} [DecidableEq α] {members : List α} (h : members.Nodup) (a : α) :
    (adjoin members a).Nodup := by
  rw [adjoin]
  split
  next => exact h
  next hnew => exact h.append (List.nodup_singleton a) (List.disjoint_singleton.2 hnew)

/-- A step that makes one path addressable lists it. -/
lemma lists_of_all (h : after.all = adjoin before.all path) : before.Lists after [path] where
  mem := by
    intro other
    rw [h, mem_adjoin, List.mem_singleton]
  nodup := by
    intro hnodup
    rw [h]
    exact nodup_adjoin hnodup path

lemma lists_addReserved (index : AccessIndex) (path : String) :
    index.Lists (index.addReserved path) [path] :=
  lists_of_all rfl

lemma lists_addLeaf (defaults : Levels) (path : String) (acl : Option AccessRule)
    (index : AccessIndex) : index.Lists (index.addLeaf defaults path acl) [path] := by
  refine lists_of_all ?_
  rw [addLeaf_eq, require, foldl_grant]
  rfl

/-- A virtual path that is passed over is listed already. -/
lemma lists_addVirtuals (defaults : Levels) (context : String) (virtuals : List String)
    (index : AccessIndex) :
    index.Lists (index.addVirtuals defaults context virtuals)
      (virtuals.map (Path.join context)) := by
  induction virtuals generalizing index with
  | nil => exact .nil index
  | cons virtual rest ih =>
      rw [addVirtuals, List.foldl_cons, ← addVirtuals, List.map_cons, ← List.singleton_append]
      refine Lists.append ?_ (ih _)
      by_cases hpath : index.hasPath (Path.join context virtual) = true
      · have hlisted : Path.join context virtual ∈ index.all := of_decide_eq_true hpath
        rw [if_pos hpath]
        exact lists_of_all (if_pos hlisted).symm
      · rw [if_neg hpath]
        exact lists_addLeaf defaults _ none index

lemma lists_addIdentifier (path : String) (index : AccessIndex) :
    index.Lists (index.addIdentifier path) [Path.join path Path.identifier] :=
  lists_of_all rfl

lemma lists_addArray (defaults : Levels) (path : String) (index : AccessIndex) :
    index.Lists (index.addArray defaults path) [path] :=
  lists_of_all rfl

/-- The fields under a context list their paths, if each of them does. -/
lemma lists_addFields {hide : List String} {fields : Fields}
    (h : ∀ entry ∈ fields, ∀ index : AccessIndex,
      index.Lists (addField defaults versionKey (Path.join context entry.1) entry.2 index)
        (entry.2.paths (Path.join context entry.1))) (index : AccessIndex) :
    index.Lists (addFields defaults versionKey hide context fields index)
      (Field.pathsIn hide context fields) := by
  induction fields generalizing index with
  | nil => exact .nil index
  | cons entry rest ih =>
      obtain ⟨name, field⟩ := entry
      obtain ⟨hfield, hrest⟩ := List.forall_mem_cons.1 h
      rw [addFields, Field.pathsIn]
      refine Lists.append ?_ (ih hrest _)
      split
      · exact .nil index
      · exact hfield index

/-- **The step**: a field lists its paths. -/
theorem lists_addField (defaults : Levels) (versionKey : String) (field : Field) :
    ∀ path, path ≠ "" → ∀ index : AccessIndex,
      index.Lists (addField defaults versionKey path field index) (field.paths path) := by
  induction field using Field.inductionOn with
  | leaf _ acl => exact fun path _ index => lists_addLeaf defaults path acl index
  | array element _ _ => exact fun path _ index => lists_addLeaf defaults path element.acl index
  | object fields _ ih =>
      intro path hpath index
      exact lists_addFields (fun entry hentry =>
        ih entry hentry _ (Path.ne_empty_of_isBelow (Path.isBelow_join hpath _))) index
  | documents fields virtuals hasId _ ih =>
      intro path hpath index
      have hhidden : hidden versionKey path = [Path.identifier] := by
        rw [hidden, if_neg (by simpa [String.isEmpty_iff] using hpath)]
      have hwalked : index.Lists (addFields defaults versionKey [Path.identifier] path fields index)
          (Field.pathsIn [Path.identifier] path fields) :=
        lists_addFields (fun entry hentry =>
          ih entry hentry _ (Path.ne_empty_of_isBelow (Path.isBelow_join hpath _))) index
      rw [addField, Field.paths, hhidden]
      have hvirtuals := hwalked.append (lists_addVirtuals defaults path virtuals _)
      refine Lists.append (hvirtuals.append ?_) (lists_addArray defaults path _)
      cases hasId with
      | false => exact .nil _
      | true => exact lists_addIdentifier path _

end AccessIndex

/-! ## Paths by keys -/

namespace Field

/-- The paths that a field has besides those of the fields inside. -/
def ownPaths (path : String) : Field → List String
  | .leaf _ _ => [path]
  | .array _ _ => [path]
  | .object _ _ => []
  | .documents _ virtuals hasId _ =>
    virtuals.map (Path.join path) ++ (if hasId then [Path.join path Path.identifier] else []) ++ [path]

section Keys

variable {hide keys : List String} {context path other name : String} {fields inner : Fields}
  {field outer : Field}

lemma mem_paths_of_mem_ownPaths (h : other ∈ field.ownPaths path) : other ∈ field.paths path := by
  cases field with
  | leaf _ _ | array _ _ => exact h
  | object _ _ => exact absurd h List.not_mem_nil
  | documents _ _ _ _ =>
      simp only [ownPaths, paths, List.mem_append] at h ⊢
      tauto

/-- The paths of a field with fields inside are its own and theirs. -/
lemma mem_paths_of_nested (hinner : outer.nested? = some inner) :
    other ∈ outer.paths path ↔
      other ∈ outer.ownPaths path ∨ other ∈ pathsIn [Path.identifier] path inner := by
  cases outer with
  | leaf _ _ | array _ _ => exact absurd hinner (by simp [nested?])
  | object _ _ =>
      cases hinner
      simp [ownPaths, paths]
  | documents _ _ _ _ =>
      cases hinner
      simp only [ownPaths, paths, List.mem_append]
      tauto

/-- A field that keys lead to has its own paths among those of the fields. -/
lemma mem_pathsIn_of_leads (h : Fields.Leads context fields keys path field)
    (hshown : Path.Shown hide keys) (hother : other ∈ field.ownPaths path) :
    other ∈ pathsIn hide context fields := by
  induction h generalizing hide with
  | here hfind =>
      exact mem_pathsIn.2
        ⟨_, Keyed.mem_of_find? hfind, hshown.1, mem_paths_of_mem_ownPaths hother⟩
  | inside hfind hinner _ ih =>
      exact mem_pathsIn.2 ⟨_, Keyed.mem_of_find? hfind, hshown.1,
        (mem_paths_of_nested hinner).2 (Or.inr (ih hshown.2 hother))⟩

/-- Keys that are not hidden lead to a field that has the path by itself. -/
def HasOwn (hide : List String) (context : String) (fields : Fields) (other : String) : Prop :=
  ∃ keys path field, Fields.Leads context fields keys path field ∧ Path.Shown hide keys ∧
    other ∈ field.ownPaths path

lemma HasOwn.inside (hfind : Keyed.find? name fields = some outer)
    (hinner : outer.nested? = some inner) (hname : name ∉ hide)
    (h : HasOwn [Path.identifier] (Path.join context name) inner other) :
    HasOwn hide context fields other := by
  obtain ⟨keys, path, field, hleads, hshown, hother⟩ := h
  exact ⟨_, path, field, .inside hfind hinner hleads, ⟨hname, hshown⟩, hother⟩

/-- A path of a field is one that some field has by itself: the field, or one inside it. -/
lemma hasOwn_of_mem_paths (field : Field) : ∀ {hide : List String} {context : String}
    {fields : Fields} {name : String}, Fields.Sound fields →
    Keyed.find? name fields = some field → name ∉ hide →
    other ∈ field.paths (Path.join context name) → HasOwn hide context fields other := by
  induction field using Field.inductionOn with
  | leaf _ _ | array _ _ _ =>
      intro hide context fields name _ hfind hname hother
      exact ⟨_, _, _, .here hfind, ⟨hname, trivial⟩, hother⟩
  | object inner _ ih | documents inner _ _ _ ih =>
      intro hide context fields name hsound hfind hname hother
      rcases (mem_paths_of_nested rfl).1 hother with hown | hinside
      · exact ⟨_, _, _, .here hfind, ⟨hname, trivial⟩, hown⟩
      · obtain ⟨entry, hentry, hshown, hother⟩ := mem_pathsIn.1 hinside
        have hsound' := hsound.nested hfind rfl
        exact .inside hfind rfl hname
          (ih entry hentry hsound' (hsound'.find?_of_mem hentry) hshown hother)

/-- **The paths of fields are those that the fields have by themselves to which keys lead.** -/
theorem mem_pathsIn_iff (hsound : Fields.Sound fields) :
    other ∈ pathsIn hide context fields ↔ HasOwn hide context fields other := by
  constructor
  · intro hother
    obtain ⟨entry, hentry, hshown, hother⟩ := mem_pathsIn.1 hother
    exact hasOwn_of_mem_paths entry.2 hsound (hsound.find?_of_mem hentry) hshown hother
  · rintro ⟨keys, path, field, hleads, hshown, hother⟩
    exact mem_pathsIn_of_leads hleads hshown hother

end Keys

end Field

/-! ## Schemas -/

namespace Schema

variable {schema : Schema} {defaults : Levels} {path : String} {field : Field}

/-- **The run**: compiling a schema lists what is reserved, and the paths of the schema. -/
theorem lists_compile (h : schema.fault? = none) (hordered : schema.WellOrdered)
    (defaults : Levels) :
    (AccessIndex.empty defaults.create defaults.delete).Lists (schema.compile defaults)
      (schema.reserved ++ schema.paths) := by
  have hsound := sound_fields h hordered
  have hstart : (AccessIndex.empty defaults.create defaults.delete).Lists (schema.start defaults)
      schema.reserved :=
    (AccessIndex.lists_addReserved ..).append (AccessIndex.lists_addReserved ..)
  have hwalked : (schema.start defaults).Lists
      (AccessIndex.addFields defaults schema.versionKey
        (AccessIndex.hidden schema.versionKey "") "" schema.tree.fields (schema.start defaults))
      (Field.pathsIn schema.reserved "" schema.tree.fields) :=
    AccessIndex.lists_addFields (fun entry hentry => AccessIndex.lists_addField defaults
      schema.versionKey entry.2 _ (Path.join_ne_empty (hsound.ne_empty_of_mem hentry))) _
  have hvirtuals : schema.tree.virtuals.map (Path.join "") = schema.tree.virtuals :=
    List.map_id'' (fun _ => rfl) _
  have hlisted := AccessIndex.lists_addVirtuals defaults "" schema.tree.virtuals
    (AccessIndex.addFields defaults schema.versionKey
      (AccessIndex.hidden schema.versionKey "") "" schema.tree.fields (schema.start defaults))
  rw [hvirtuals] at hlisted
  exact hstart.append (hwalked.append hlisted)

/-- No name on a path is that of the identifier, and the first one is not that of the version counter. -/
def Shows (schema : Schema) (path : String) : Prop :=
  Path.identifier ∉ Path.segments path ∧ (Path.segments path).head? ≠ some schema.versionKey

lemma shown_identifier_iff {keys : List String} :
    Path.Shown [Path.identifier] keys ↔ Path.identifier ∉ keys := by
  induction keys with
  | nil => simp [Path.Shown]
  | cons key rest ih => rw [Path.Shown, ih, List.mem_singleton, List.mem_cons, not_or, ← ne_eq, ne_comm]

lemma walks_iff :
    schema.Walks path field ↔ schema.tree.fieldAt? path = some field ∧ schema.Shows path := by
  rw [Walks, and_comm, Shows]
  refine and_congr_right fun _ => ?_
  obtain ⟨key, rest, hkeys⟩ := List.exists_cons_of_ne_nil (Path.segments_ne_nil path)
  rw [hkeys, Path.Shown, shown_identifier_iff, reserved]
  simp only [List.mem_cons, List.not_mem_nil, or_false, not_or, List.head?_cons, ne_eq,
    Option.some.injEq]
  tauto

/-- The paths of a schema: what is reserved, what is looked up and not an object, the identifiers of
subdocuments, and the virtual paths of documents and subdocuments. -/
inductive Addressable (schema : Schema) : String → Prop
  | identifier : Addressable schema Path.identifier
  | versionKey : Addressable schema schema.versionKey
  | field {path : String} {field : Field} :
      schema.tree.fieldAt? path = some field → (∀ fields acl, field ≠ .object fields acl) →
      schema.Shows path → Addressable schema path
  | inner {array : String} {fields : Fields} {virtuals : List String} {acl : Option AccessRule} :
      schema.tree.fieldAt? array = some (.documents fields virtuals true acl) →
      schema.Shows array → Addressable schema (array ++ "." ++ Path.identifier)
  | virtual {path : String} : path ∈ schema.tree.virtuals → Addressable schema path
  | innerVirtual {array path : String} {fields : Fields} {virtuals : List String} {hasId : Bool}
      {acl : Option AccessRule} :
      schema.tree.fieldAt? array = some (.documents fields virtuals hasId acl) →
      schema.Shows array → path ∈ virtuals → Addressable schema (array ++ "." ++ path)

/-- Keys below a field follow its path after a dot. -/
lemma join_of_fieldAt? (h : schema.fault? = none) (hordered : schema.WellOrdered)
    (hfield : schema.tree.fieldAt? path = some field) (key : String) :
    Path.join path key = path ++ "." ++ key := by
  have hne := (leads_of_fieldAt? h hordered hfield).ne_empty (sound_fields h hordered)
  rw [Path.join, if_neg (by simpa [String.isEmpty_iff] using hne)]

/-- The paths that a field has by itself are addressable, if look-ups reach the field. -/
lemma addressable_of_ownPaths (h : schema.fault? = none) (hordered : schema.WellOrdered)
    {other : String} (hwalks : schema.Walks path field) (hother : other ∈ field.ownPaths path) :
    schema.Addressable other := by
  obtain ⟨hfield, hshows⟩ := walks_iff.1 hwalks
  cases field with
  | leaf _ _ | array _ _ =>
      rw [List.mem_singleton.1 hother]
      exact .field hfield (by simp) hshows
  | object _ _ => exact absurd hother List.not_mem_nil
  | documents fields virtuals hasId acl =>
      rw [Field.ownPaths, List.mem_append, List.mem_append] at hother
      rcases hother with (hvirtual | hid) | hself
      · obtain ⟨virtual, hlisted, rfl⟩ := List.mem_map.1 hvirtual
        rw [join_of_fieldAt? h hordered hfield]
        exact .innerVirtual hfield hshows hlisted
      · cases hasId with
        | false => exact absurd hid List.not_mem_nil
        | true =>
            rw [List.mem_singleton.1 hid, join_of_fieldAt? h hordered hfield]
            exact .inner hfield hshows
      · rw [List.mem_singleton.1 hself]
        exact .field hfield (by simp) hshows

/-- The paths that a field has by itself are listed, if look-ups reach the field. -/
lemma mem_paths_of_fieldAt? (h : schema.fault? = none) (hordered : schema.WellOrdered)
    {other : String} (hfield : schema.tree.fieldAt? path = some field) (hshows : schema.Shows path)
    (hother : other ∈ field.ownPaths path) : other ∈ schema.paths :=
  List.mem_append_left _ (Field.mem_pathsIn_of_leads (leads_of_fieldAt? h hordered hfield)
    (walks_iff.2 ⟨hfield, hshows⟩).1 hother)

/-- What is reserved and the paths of a schema are its addressable paths. -/
lemma mem_paths_iff_addressable (h : schema.fault? = none) (hordered : schema.WellOrdered) :
    path ∈ schema.reserved ++ schema.paths ↔ schema.Addressable path := by
  rw [List.mem_append]
  constructor
  · rintro (hreserved | hpath)
    · rcases List.mem_pair.1 hreserved with rfl | rfl
      · exact .identifier
      · exact .versionKey
    · rcases List.mem_append.1 hpath with hpath | hvirtual
      · obtain ⟨keys, place, field, hleads, hshown, hown⟩ :=
          (Field.mem_pathsIn_iff (sound_fields h hordered)).1 hpath
        exact addressable_of_ownPaths h hordered (walks_of_leads h hordered hleads hshown) hown
      · exact .virtual hvirtual
  · intro haddressable
    cases haddressable with
    | identifier => exact Or.inl List.mem_cons_self
    | versionKey => exact Or.inl (List.mem_cons_of_mem _ List.mem_cons_self)
    | @field _ field hfield hkind hshows =>
        refine Or.inr (mem_paths_of_fieldAt? h hordered hfield hshows ?_)
        cases field with
        | leaf _ _ | array _ _ => exact List.mem_singleton_self _
        | object fields acl => exact absurd rfl (hkind fields acl)
        | documents _ _ _ _ => exact List.mem_append_right _ (List.mem_singleton_self _)
    | inner harray hshows =>
        rw [← join_of_fieldAt? h hordered harray]
        exact Or.inr (mem_paths_of_fieldAt? h hordered harray hshows (by simp [Field.ownPaths]))
    | virtual hvirtual => exact Or.inr (List.mem_append_right _ hvirtual)
    | innerVirtual harray hshows hvirtual =>
        rw [← join_of_fieldAt? h hordered harray]
        refine Or.inr (mem_paths_of_fieldAt? h hordered harray hshows ?_)
        exact List.mem_append_left _ (List.mem_append_left _ (List.mem_map_of_mem hvirtual))

/-- **A compiled index lists exactly the addressable paths, each once.** -/
theorem all_compile (h : schema.fault? = none) (hordered : schema.WellOrdered) (defaults : Levels) :
    (schema.compile defaults).all.Nodup ∧
      ∀ path, path ∈ (schema.compile defaults).all ↔ schema.Addressable path := by
  have hlists := lists_compile h hordered defaults
  refine ⟨hlists.nodup List.nodup_nil, fun path => ?_⟩
  rw [hlists.mem, ← mem_paths_iff_addressable h hordered, or_iff_right]
  exact List.not_mem_nil

end Schema

theorem all_compile_orders :
    (ordersSchema.compile ordersDefaults).all
        = ["_id", "__v", "items.price", "items._id", "items", "items.total"] ∧
      (ordersSchema.compile ordersDefaults).all.Nodup ∧
      ∀ path, path ∈ (ordersSchema.compile ordersDefaults).all ↔ ordersSchema.Addressable path :=
  ⟨rfl, Schema.all_compile orders_accepted orders_wellOrdered ordersDefaults⟩

end DocumentAccess
