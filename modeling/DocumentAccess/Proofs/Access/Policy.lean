import DocumentAccess.Proofs.Access.Places

/-!
# The level policy

Which level a path requires for an action can be said from the schema alone.  A single value, or an
array of single values, asks for what its rule declares; an array of subdocuments asks for the strictest
level below it; virtual paths ask for the default levels, and identifiers may be read by anyone.

* `Levels.asked`, `IsStrictest` — what a rule asks for, and the strictest of several levels.
* `Field.paths`, `Schema.paths` — the paths of a field and of a schema.
* `Schema.LevelPolicy` — the policy, as conditions on levels.
* `Schema.CountsFor` — which paths below an array count for it when a schema is compiled.
* **`Schema.LevelPolicy.unique`** — there is one way to follow the policy.
-/

namespace DocumentAccess

/-! ## The policy -/

/-- The level that a rule declares for the action by itself. -/
def AccessRule.declaredFor? (acl : AccessRule) : Action → Option Nat
  | .create => acl.create
  | .read => acl.read
  | .update => acl.update
  | .delete => acl.delete

/-- The level that a field asks for: the declared one; undeclared, the default level for reading and that
of `write` for the others.  Without a rule, the default level. -/
def Levels.asked (defaults : Levels) (acl : Option AccessRule) (action : Action) : Option Nat :=
  match acl with
  | none => some (defaults.of action)
  | some acl => (acl.declaredFor? action).or
      (if action = .read then some defaults.read else acl.write)

/-- The greatest level that some paths require for an action; the default level if none requires any. -/
def IsStrictest (required : String → Action → Option Nat) (defaults : Levels)
    (among : String → Prop) (action : Action) (level : Nat) : Prop :=
  (∀ other, among other → ∀ n, required other action = some n → n ≤ level) ∧
    ((∃ other, among other ∧ required other action = some level) ∨
      (∀ other, among other → required other action = none) ∧ level = defaults.of action)

namespace Field

mutual

/-- The paths of a field: its own unless it is an object, those of the fields inside, and those that
subdocuments have besides. -/
def paths (path : String) : Field → List String
  | .leaf _ _ => [path]
  | .array _ _ => [path]
  | .object fields _ => pathsIn [Path.identifier] path fields
  | .documents fields virtuals hasId _ =>
    pathsIn [Path.identifier] path fields ++ virtuals.map (Path.join path)
      ++ (if hasId then [Path.join path Path.identifier] else []) ++ [path]

/-- The paths of the fields under a context, those with a hidden name left out. -/
def pathsIn (hide : List String) (context : String) : List (String × Field) → List String
  | [] => []
  | (name, field) :: rest =>
    (if hide.contains name then [] else paths (Path.join context name) field)
      ++ pathsIn hide context rest

end

end Field

namespace Schema

/-- The paths of a schema: those of its fields, and its virtual paths. -/
def paths (schema : Schema) : List String :=
  Field.pathsIn schema.reserved "" schema.tree.fields ++ schema.tree.virtuals

/-- No subdocuments list the name of the identifier as a virtual path. -/
def ListsNoIdentifier (schema : Schema) : Prop :=
  ∀ path fields virtuals hasId acl,
    schema.tree.fieldAt? path = some (.documents fields virtuals hasId acl) →
      Path.identifier ∉ virtuals

/-- The path is that of a single value or of an array that is walked, or of the identifier of
subdocuments. -/
def IsTaken (schema : Schema) (path : String) : Prop :=
  (∃ type acl, schema.Walks path (.leaf type acl)) ∨
  (∃ element acl, schema.Walks path (.array element acl)) ∨
  (∃ fields virtuals hasId acl, schema.Walks path (.documents fields virtuals hasId acl)) ∨
  (∃ array fields virtuals acl, schema.Walks array (.documents fields virtuals true acl) ∧
    path = Path.join array Path.identifier)

/-- The levels that a schema requires on its paths.  Of the paths below an array of subdocuments, those
count that `counted` says. -/
structure LevelPolicy (schema : Schema) (defaults : Levels)
    (counted : String → Field → String → Prop) (required : String → Action → Option Nat) : Prop where
  /-- A single value asks for the levels of its rule. -/
  leaf {path type acl} : schema.Walks path (.leaf type acl) →
    required path = defaults.asked acl
  /-- An array of single values asks for the levels of the rule of its element. -/
  array {path element acl} : schema.Walks path (.array element acl) →
    required path = defaults.asked element.acl
  /-- An array of subdocuments asks for the strictest level below it, for reading and for updating. -/
  documents {path fields virtuals hasId acl} (action : Action) :
    schema.Walks path (.documents fields virtuals hasId acl) →
      if action = .read ∨ action = .update then
        ∃ level, required path action = some level ∧
          IsStrictest required defaults (fun other => Path.isBelow path other = true ∧
            counted path (.documents fields virtuals hasId acl) other) action level
      else required path action = none
  /-- An identifier may be read from level 0 on. -/
  identifier {path fields virtuals acl} (action : Action) :
    schema.Walks path (.documents fields virtuals true acl) →
      required (Path.join path Path.identifier) action = if action = .read then some 0 else none
  /-- A path that is listed as virtual and is not taken asks for the default levels. -/
  virtual {path} (action : Action) : path ∈ schema.paths → path ∉ schema.reserved →
    ¬ schema.IsTaken path → required path action = some (defaults.of action)
  /-- Any other path has no level. -/
  other {path} (action : Action) : path ∉ schema.paths → required path action = none

/-- The paths below an array of subdocuments that count for it: not those which are only listed as
virtual paths around it. -/
def CountsFor (schema : Schema) (array : String) (field : Field) (other : String) : Prop :=
  other ∈ schema.virtualsAround array → other ∈ field.paths array

variable {schema : Schema} {defaults : Levels} {path : String}

/-! ## The policy determines the levels -/

/-- Without a dot in the version key, no reserved path has one. -/
lemma no_dot_of_mem_reserved (hkey : '.' ∉ schema.versionKey.toList) (hpath : path ∈ schema.reserved) :
    '.' ∉ path.toList := by
  rcases List.mem_cons.1 hpath with rfl | hpath
  · decide
  · rw [List.mem_singleton.1 hpath]
    exact hkey

lemma not_mem_reserved_of_isBelow (hkey : '.' ∉ schema.versionKey.toList) {other : String}
    (h : Path.isBelow path other = true) : other ∉ schema.reserved := by
  intro hreserved
  rw [Path.not_isBelow_of_no_dot (no_dot_of_mem_reserved hkey hreserved)] at h
  exact absurd h (by decide)

lemma isStrictest_unique {required required' : String → Action → Option Nat} {among : String → Prop}
    {action : Action} {level level' : Nat}
    (hsame : ∀ other, among other → required other action = required' other action)
    (h : IsStrictest required defaults among action level)
    (h' : IsStrictest required' defaults among action level') : level = level' := by
  obtain ⟨hbound, hattained⟩ := h
  obtain ⟨hbound', hattained'⟩ := h'
  rcases hattained with ⟨other, hother, hlevel⟩ | ⟨hnone, rfl⟩
  · rcases hattained' with ⟨other', hother', hlevel'⟩ | ⟨hnone', -⟩
    · have hle := hbound' other hother level (hsame other hother ▸ hlevel)
      have hge := hbound other' hother' level' ((hsame other' hother').trans hlevel')
      omega
    · rw [hsame other hother, hnone' other hother] at hlevel
      exact absurd hlevel (by simp)
  · rcases hattained' with ⟨other', hother', hlevel'⟩ | ⟨-, rfl⟩
    · rw [← hsame other' hother', hnone other' hother'] at hlevel'
      exact absurd hlevel' (by simp)
    · rfl

/-- **The policy determines the level of every path that is not reserved.** -/
theorem LevelPolicy.unique {counted : String → Field → String → Prop}
    {required required' : String → Action → Option Nat} (hkey : '.' ∉ schema.versionKey.toList)
    (hp : schema.LevelPolicy defaults counted required)
    (hp' : schema.LevelPolicy defaults counted required') (action : Action) :
    ∀ path ∉ schema.reserved, required path action = required' path action := by
  -- no path of the schema has more than `depth` segments; the induction is on how many are missing
  obtain ⟨depth, hdepth⟩ : ∃ depth, ∀ path ∈ schema.paths, (Path.segments path).length ≤ depth :=
    ⟨_, fun _ hpath => le_getD_greatest?
      (List.mem_map_of_mem (f := fun path => (Path.segments path).length) hpath) 0⟩
  have hall : ∀ missing path, depth < (Path.segments path).length + missing →
      path ∉ schema.reserved → required path action = required' path action := by
    intro missing
    induction missing with
    | zero =>
        intro path hlong _
        have hpath : path ∉ schema.paths := fun hpath => by
          have := hdepth path hpath
          omega
        rw [hp.other action hpath, hp'.other action hpath]
    | succ missing ih =>
        intro path hlong hreserved
        by_cases htaken : schema.IsTaken path
        · rcases htaken with ⟨type, acl, hwalks⟩ | ⟨element, acl, hwalks⟩ |
            ⟨fields, virtuals, hasId, acl, hwalks⟩ | ⟨array, fields, virtuals, acl, hwalks, rfl⟩
          · rw [hp.leaf hwalks, hp'.leaf hwalks]
          · rw [hp.array hwalks, hp'.array hwalks]
          · have hlevel := hp.documents action hwalks
            have hlevel' := hp'.documents action hwalks
            by_cases haction : action = .read ∨ action = .update
            · rw [if_pos haction] at hlevel hlevel'
              obtain ⟨level, hrequired, hstrictest⟩ := hlevel
              obtain ⟨level', hrequired', hstrictest'⟩ := hlevel'
              have hbelow : ∀ other, Path.isBelow path other = true ∧
                  counted path (.documents fields virtuals hasId acl) other →
                    required other action = required' other action := by
                rintro other ⟨hother, -⟩
                have hlonger := Path.length_lt_of_isBelow hother
                exact ih other (by omega) (not_mem_reserved_of_isBelow hkey hother)
              rw [hrequired, hrequired', isStrictest_unique hbelow hstrictest hstrictest']
            · rw [if_neg haction] at hlevel hlevel'
              rw [hlevel, hlevel']
          · rw [hp.identifier action hwalks, hp'.identifier action hwalks]
        · by_cases hpath : path ∈ schema.paths
          · rw [hp.virtual action hpath hreserved htaken,
              hp'.virtual action hpath hreserved htaken]
          · rw [hp.other action hpath, hp'.other action hpath]
  exact fun path hreserved => hall (depth + 1) path (by omega) hreserved

end Schema

end DocumentAccess
