import DocumentAccess.Access.Compile
import DocumentAccess.Proofs.Access.Lookup
import DocumentAccess.Proofs.Fields

/-!
# What the paths of a schema ask for

An index is built step by step: the walk looks at what was registered so far, and finds what is below an
array by its name.  What comes of it can be said without steps: a tree asks for a list of levels, one for
each path and action, and the level of an array is the strictest one among those of its own subdocuments.

* `Requirement` — a path with the level of each action that is granted on it.
* `Field.requirements`, `Schema.requirements` — the requirements of a field and of a schema, by recursion
  on the tree.
* `AccessIndex.requireAll` — an index with requirements added.
* **`AccessIndex.mem_grants_requireAll`** — just what is required is granted.
* `AccessIndex.addVirtuals_eq`, `AccessIndex.addArray_eq` — what the steps of the walk add, as
  requirements.
-/

namespace DocumentAccess

/-! ## Requirements -/

/-- A path with the level of each action that is granted on it at all. -/
structure Requirement where
  path : String
  level? : Action → Option Nat

namespace Requirement

/-- The levels that a rule declares; without a rule, the default levels. -/
def ofRule (defaults : Levels) (path : String) (acl : Option AccessRule) : Requirement :=
  ⟨path, match acl with
    | some acl => acl.level? defaults.read
    | none => fun action => some (defaults.of action)⟩

/-- Anyone may read; nothing else is granted. -/
def free (path : String) : Requirement :=
  ⟨path, fun
    | .read => some 0
    | _ => none⟩

/-- The highest level that something asks for; the default level if nothing asks for one. -/
def strictest (defaults : Levels) (below : List Requirement) (action : Action) : Nat :=
  (greatest? (below.filterMap fun r => r.level? action)).getD (defaults.of action)

/-- An array of subdocuments may be read and updated from the strictest level below it on. -/
def ofArray (defaults : Levels) (path : String) (below : List Requirement) : Requirement :=
  ⟨path, fun
    | .read => some (strictest defaults below .read)
    | .update => some (strictest defaults below .update)
    | _ => none⟩

/-- The virtual paths under a context ask for the default levels, those excepted that are taken. -/
def ofVirtuals (defaults : Levels) (context : String) (taken virtuals : List String) :
    List Requirement :=
  ((distinct (virtuals.map (Path.join context))).filter (· ∉ taken)).map (ofRule defaults · none)

/-- The requirements of subdocuments at a path, from those of their fields: virtual paths and the
identifier come after the fields. -/
def ofSubdocuments (defaults : Levels) (reserved : List Requirement) (path : String)
    (virtuals : List String) (hasId : Bool) (walked : List Requirement) : List Requirement :=
  walked ++ ofVirtuals defaults path ((reserved ++ walked).map Requirement.path) virtuals
    ++ if hasId then [free (Path.join path Path.identifier)] else []

/-- The actions that are granted, with their levels. -/
def grants (r : Requirement) : List (Action × Nat) :=
  Action.all.filterMap fun action => (r.level? action).map fun level => (action, level)

end Requirement

namespace Field

mutual

/-- The requirements of the field at a path.  Reserved paths below an array count there like its own. -/
def requirements (defaults : Levels) (reserved : List Requirement) (path : String) :
    Field → List Requirement
  | .leaf _ acl => [.ofRule defaults path acl]
  | .array element _ => [.ofRule defaults path element.acl]
  | .object fields _ => requirementsIn defaults reserved [Path.identifier] path fields
  | .documents fields virtuals hasId _ =>
    let own := Requirement.ofSubdocuments defaults reserved path virtuals hasId
      (requirementsIn defaults reserved [Path.identifier] path fields)
    own ++ [.ofArray defaults path ((reserved.filter fun r => Path.isBelow path r.path) ++ own)]

/-- The requirements of the fields under a context, those with a hidden name left out. -/
def requirementsIn (defaults : Levels) (reserved : List Requirement) (hide : List String)
    (context : String) : List (String × Field) → List Requirement
  | [] => []
  | (name, field) :: rest =>
    (if hide.contains name then []
      else requirements defaults reserved (Path.join context name) field)
      ++ requirementsIn defaults reserved hide context rest

end

/-- The requirements of the subdocuments at a path. -/
def ownRequirements (defaults : Levels) (reserved : List Requirement) (path : String)
    (fields : Fields) (virtuals : List String) (hasId : Bool) : List Requirement :=
  Requirement.ofSubdocuments defaults reserved path virtuals hasId
    (requirementsIn defaults reserved [Path.identifier] path fields)

/-- The requirement of an array of subdocuments, given those of its subdocuments. -/
def arrayRequirement (defaults : Levels) (reserved : List Requirement) (path : String)
    (own : List Requirement) : Requirement :=
  .ofArray defaults path ((reserved.filter fun r => Path.isBelow path r.path) ++ own)

/-- An array of subdocuments has the requirements of its subdocuments, then its own. -/
lemma requirements_documents (defaults : Levels) (reserved : List Requirement) (path : String)
    (fields : Fields) (virtuals : List String) (hasId : Bool) (acl : Option AccessRule) :
    (Field.documents fields virtuals hasId acl).requirements defaults reserved path
      = ownRequirements defaults reserved path fields virtuals hasId
        ++ [arrayRequirement defaults reserved path
              (ownRequirements defaults reserved path fields virtuals hasId)] := rfl

end Field

namespace Schema

/-- Anyone may read the fields that every document has. -/
def reservedRequirements (schema : Schema) : List Requirement :=
  schema.reserved.map Requirement.free

lemma map_path_reservedRequirements (schema : Schema) :
    schema.reservedRequirements.map Requirement.path = schema.reserved := rfl

/-- The requirements of the fields of a schema. -/
def walkedRequirements (schema : Schema) (defaults : Levels) : List Requirement :=
  Field.requirementsIn defaults schema.reservedRequirements schema.reserved "" schema.tree.fields

/-- The requirements of a schema: those of its fields, then those of its virtual paths. -/
def requirements (schema : Schema) (defaults : Levels) : List Requirement :=
  let walked := schema.walkedRequirements defaults
  walked ++ Requirement.ofVirtuals defaults ""
    ((schema.reservedRequirements ++ walked).map Requirement.path) schema.tree.virtuals

end Schema

/-! ## Adding requirements -/

lemma Requirement.mem_grants {r : Requirement} {action : Action} {level : Nat} :
    (action, level) ∈ r.grants ↔ r.level? action = some level := by
  have hall : action ∈ Action.all := by cases action <;> decide
  simp only [grants, List.mem_filterMap, Option.map_eq_some_iff, Prod.mk.injEq]
  constructor
  · rintro ⟨other, -, granted, hlevel, rfl, rfl⟩
    exact hlevel
  · exact fun h => ⟨action, hall, level, h, rfl, rfl⟩

lemma Requirement.mem_ofVirtuals {defaults : Levels} {context : String}
    {taken virtuals : List String} {r : Requirement} :
    r ∈ ofVirtuals defaults context taken virtuals ↔
      ∃ virtual ∈ virtuals, Path.join context virtual ∉ taken ∧
        r = ofRule defaults (Path.join context virtual) none := by
  simp only [ofVirtuals, List.mem_map, List.mem_filter, mem_distinct, decide_eq_true_eq]
  constructor
  · rintro ⟨path, ⟨⟨virtual, hvirtual, rfl⟩, htaken⟩, rfl⟩
    exact ⟨virtual, hvirtual, htaken, rfl⟩
  · rintro ⟨virtual, hvirtual, htaken, rfl⟩
    exact ⟨_, ⟨⟨virtual, hvirtual, rfl⟩, htaken⟩, rfl⟩

/-- Only the virtual paths under the context have to be looked up among the taken ones. -/
lemma Requirement.ofVirtuals_congr {defaults : Levels} {context : String}
    {taken taken' virtuals : List String}
    (h : ∀ virtual, Path.join context virtual ∈ taken ↔ Path.join context virtual ∈ taken') :
    ofVirtuals defaults context taken virtuals = ofVirtuals defaults context taken' virtuals := by
  rw [ofVirtuals, ofVirtuals]
  congr 1
  refine List.filter_congr fun path hpath => ?_
  obtain ⟨virtual, -, rfl⟩ := List.mem_map.1 (mem_distinct.1 hpath)
  simp only [h]

/-- A virtual path that is taken is passed over. -/
lemma Requirement.ofVirtuals_cons_of_mem {defaults : Levels} {context virtual : String}
    {taken virtuals : List String} (h : Path.join context virtual ∈ taken) :
    ofVirtuals defaults context taken (virtual :: virtuals)
      = ofVirtuals defaults context taken virtuals := by
  rw [ofVirtuals, ofVirtuals, List.map_cons, distinct, List.filter_cons_of_neg (by simpa using h),
    List.filter_filter]
  congr 1
  refine List.filter_congr fun other _ => ?_
  by_cases hother : other = Path.join context virtual
  · simp [hother, h]
  · simp [hother]

/-- A virtual path that is not taken comes first, and is taken for those after it. -/
lemma Requirement.ofVirtuals_cons_of_not_mem {defaults : Levels} {context virtual : String}
    {taken virtuals : List String} (h : Path.join context virtual ∉ taken) :
    ofVirtuals defaults context taken (virtual :: virtuals)
      = ofRule defaults (Path.join context virtual) none
        :: ofVirtuals defaults context (Path.join context virtual :: taken) virtuals := by
  rw [ofVirtuals, ofVirtuals, List.map_cons, distinct, List.filter_cons_of_pos (by simpa using h),
    List.map_cons, List.filter_filter]
  congr 2
  refine List.filter_congr fun other _ => ?_
  by_cases hother : other = Path.join context virtual
  · simp [hother]
  · simp [hother]

namespace AccessIndex

variable {index : AccessIndex} {r : Requirement} {rs : List Requirement} {path : String}
  {action : Action} {level : Nat}

/-- Adds a path with its levels. -/
def require (index : AccessIndex) (r : Requirement) : AccessIndex :=
  (r.grants.foldl (fun index (action, level) => index.grant level action r.path) index).addPath r.path

/-- Adds paths with their levels, in order. -/
def requireAll (index : AccessIndex) (rs : List Requirement) : AccessIndex :=
  rs.foldl require index

lemma requireAll_append (index : AccessIndex) (as bs : List Requirement) :
    index.requireAll (as ++ bs) = (index.requireAll as).requireAll bs :=
  List.foldl_append

/-- Grants are made one after the other, and change nothing else. -/
lemma foldl_grant (grants : List (Action × Nat)) (index : AccessIndex) :
    grants.foldl (fun index (action, level) => index.grant level action path) index
      = { index with
          grants := grants.foldl
            (fun grants grant => adjoin grants ⟨grant.2, grant.1, path⟩) index.grants } := by
  induction grants generalizing index with
  | nil => rfl
  | cons grant rest ih => exact ih _

lemma mem_foldl_adjoin {grants : List (Action × Nat)} {before : List Grant} {grant : Grant} :
    grant ∈ grants.foldl (fun before pair => adjoin before ⟨pair.2, pair.1, path⟩) before ↔
      grant ∈ before ∨ grant.path = path ∧ (grant.action, grant.level) ∈ grants := by
  induction grants generalizing before with
  | nil => simp
  | cons pair rest ih =>
      obtain ⟨level, action, other⟩ := grant
      rw [List.foldl_cons, ih, mem_adjoin, List.mem_cons, Grant.mk.injEq, Prod.ext_iff]
      tauto

lemma mem_grants_require :
    ⟨level, action, path⟩ ∈ (index.require r).grants ↔
      ⟨level, action, path⟩ ∈ index.grants ∨ path = r.path ∧ r.level? action = some level := by
  rw [require, foldl_grant]
  exact mem_foldl_adjoin.trans (by rw [Requirement.mem_grants])

lemma mem_all_require : path ∈ (index.require r).all ↔ path ∈ index.all ∨ path = r.path := by
  rw [require, foldl_grant]
  exact mem_adjoin

lemma reserved_require (index : AccessIndex) (r : Requirement) :
    (index.require r).reserved = index.reserved := by
  rw [require, foldl_grant]
  rfl

/-- **The grants of an index with requirements.** -/
theorem mem_grants_requireAll :
    ⟨level, action, path⟩ ∈ (index.requireAll rs).grants ↔
      ⟨level, action, path⟩ ∈ index.grants ∨
        ∃ r ∈ rs, path = r.path ∧ r.level? action = some level := by
  induction rs generalizing index with
  | nil => simp [requireAll]
  | cons r rest ih =>
      have hstep : index.requireAll (r :: rest) = (index.require r).requireAll rest := rfl
      rw [hstep, ih, mem_grants_require, List.exists_mem_cons_iff, or_assoc]

lemma mem_all_requireAll :
    path ∈ (index.requireAll rs).all ↔ path ∈ index.all ∨ ∃ r ∈ rs, path = r.path := by
  induction rs generalizing index with
  | nil => simp [requireAll]
  | cons r rest ih =>
      have hstep : index.requireAll (r :: rest) = (index.require r).requireAll rest := rfl
      rw [hstep, ih, mem_all_require, List.exists_mem_cons_iff, or_assoc]

lemma reserved_requireAll (index : AccessIndex) (rs : List Requirement) :
    (index.requireAll rs).reserved = index.reserved := by
  induction rs generalizing index with
  | nil => rfl
  | cons r rest ih => exact (ih _).trans (reserved_require index r)

/-! ## The steps of the walk -/

lemma addLeaf_eq (defaults : Levels) (path : String) (acl : Option AccessRule)
    (index : AccessIndex) :
    index.addLeaf defaults path acl = index.require (.ofRule defaults path acl) := by
  cases acl <;> rfl

/-- Virtual paths that are there already are passed over, and so is the second of two equal ones. -/
lemma addVirtuals_eq (defaults : Levels) (context : String) (virtuals : List String)
    (index : AccessIndex) :
    index.addVirtuals defaults context virtuals
      = index.requireAll (Requirement.ofVirtuals defaults context index.all virtuals) := by
  induction virtuals generalizing index with
  | nil => rfl
  | cons virtual rest ih =>
      rw [addVirtuals, List.foldl_cons, ← addVirtuals, ih]
      by_cases hpath : Path.join context virtual ∈ index.all
      · have hhas : index.hasPath (Path.join context virtual) = true := decide_eq_true hpath
        rw [if_pos hhas, Requirement.ofVirtuals_cons_of_mem hpath]
      · have hhas : ¬ index.hasPath (Path.join context virtual) = true := by
          simpa [hasPath] using hpath
        rw [if_neg hhas, addLeaf_eq, Requirement.ofVirtuals_cons_of_not_mem hpath]
        refine congrArg (requireAll _) (Requirement.ofVirtuals_congr fun other => ?_)
        rw [mem_all_require, List.mem_cons, or_comm]
        rfl

/-- An array takes the strictest level below it. -/
lemma addArray_eq {below : List Requirement} (defaults : Levels)
    (h : ∀ action n, (∃ other, Path.isBelow path other = true ∧ ⟨n, action, other⟩ ∈ index.grants) ↔
      ∃ r ∈ below, r.level? action = some n) :
    index.addArray defaults path = index.require (.ofArray defaults path below) := by
  have hlevels : ∀ action n, n ∈ below.filterMap (fun r => r.level? action) ↔
      ∃ other, Path.isBelow path other = true ∧ ⟨n, action, other⟩ ∈ index.grants := by
    intro action n
    rw [h, List.mem_filterMap]
  have hread : index.highestBelow? path .read
      = greatest? (below.filterMap fun r => r.level? .read) := highestBelow?_eq (hlevels .read)
  -- the grant for reading stands at the path itself, so it does not count for updating
  have hupdate : ∀ n, (index.grant n .read path).highestBelow? path .update
      = greatest? (below.filterMap fun r => r.level? .update) := by
    intro n
    refine highestBelow?_eq fun m => (hlevels .update m).trans ?_
    simp only [grant, mem_adjoin, Grant.mk.injEq, reduceCtorEq, false_and, and_false, or_false]
  rw [addArray, List.foldl_cons, List.foldl_cons, List.foldl_nil, hread, hupdate]
  rfl

end AccessIndex

end DocumentAccess
