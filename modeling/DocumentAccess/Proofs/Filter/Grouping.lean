import DocumentAccess.Proofs.Ascending
import DocumentAccess.Proofs.Filter.Touched

/-!
# Logical groups and touched paths

The key of a logical group becomes part of the context of all filters in the group, and is swept out again
when their paths are collected.  A walk under a context depends on the fields of the context only, so
filters in a group touch what they touch alone, unless the key of the group leaves a field behind.

* `Filter.sanitize_touchedAt` — walks under contexts with the same fields touch the same paths.
* `Filter.SweptPaths`, `Filter.sweptPaths_collect` — collected paths ascend and are sanitized.
* `GroupKey`, `Grouping` — keys that leave no field behind, and filters in groups inside groups.
* **`Filter.groups_transparent`** — the paths of a group are those of its filters exactly when its key
  leaves no field behind, also for groups inside groups.
* `Filter.dotted_group_touches_below` — a key with a field behind the operator.
-/

namespace DocumentAccess

namespace Filter

/-! ## Contexts with the same fields -/

/-- The paths touched by the members of a value, if it is an object. -/
def touchedInside (path : String) (value : Value) : List String :=
  (value.members?.map (touched path)).getD []

/-- Walks under contexts with the same fields touch the same paths.  An object is walked in two ways, at
a path and, in a list, below it, so the induction carries both. -/
theorem sanitize_touchedAt (value : Value) {a b : String} (h : Path.fields a = Path.fields b) :
    (touchedAt a value).map Path.sanitize = (touchedAt b value).map Path.sanitize ∧
      (touchedInside a value).map Path.sanitize = (touchedInside b value).map Path.sanitize := by
  have hself : ∀ {a b : String}, Path.fields a = Path.fields b →
      [a].map Path.sanitize = [b].map Path.sanitize := by
    intro a b h
    simp [Path.sanitize_congr h]
  induction value using Value.inductionOn generalizing a b with
  | array items ih =>
      refine ⟨?_, rfl⟩
      rw [touchedAt, touchedAt, touchedItems_eq_flatMap, touchedItems_eq_flatMap, List.map_append,
        List.map_append, List.map_flatMap, List.map_flatMap]
      congr 1
      · split_ifs
        · exact hself h
        · rfl
      · exact List.flatMap_congr fun item hitem => (ih item hitem h).2
  | object members ih =>
      have hmembers : (touched a members).map Path.sanitize = (touched b members).map Path.sanitize := by
        rw [touched_eq_flatMap, touched_eq_flatMap, List.map_flatMap, List.map_flatMap]
        refine List.flatMap_congr fun entry hentry => ?_
        split_ifs
        · rfl
        · exact (ih entry hentry (Path.fields_join_congr h entry.1)).1
      refine ⟨?_, hmembers⟩
      rw [touchedAt, touchedAt, drilled_eq_find?, drilled_eq_find?]
      by_cases hempty : members.isEmpty = true
      · rw [if_pos hempty, if_pos hempty]
        exact hself h
      rw [if_neg hempty, if_neg hempty]
      cases hwrapper : members.find? fun member => isDrillWrapper member.1 with
      | none =>
          simp only [Option.map_none]
          split_ifs
          · exact hself h
          · exact hmembers
      | some wrapper =>
          have hinside := (ih wrapper (List.mem_of_find?_eq_some hwrapper) h).2
          simp only [Option.map_some]
          cases hvalue : wrapper.2 with
          | object inner =>
              rw [hvalue] at hinside
              exact hinside
          | _ => exact hself h
  | _ => exact ⟨hself h, rfl⟩

/-! ## Collected paths -/

/-- Paths as they are reported: ascending, none empty, each sanitized. -/
structure SweptPaths (paths : List String) : Prop where
  strict : Ascending.Strict paths
  ne_empty : ∀ path ∈ paths, path ≠ ""
  sanitized : ∀ path ∈ paths, Path.sanitize path = path

/-- Whatever was touched, collecting it gives reported paths. -/
lemma sweptPaths_collect (touched : List String) : SweptPaths (collect touched) where
  strict := Ascending.strict_ofList _
  ne_empty := fun _ hpath => (mem_collect.1 hpath).2
  sanitized := by
    intro path hpath
    obtain ⟨⟨raw, -, rfl⟩, -⟩ := mem_collect.1 hpath
    exact Path.sanitize_sanitize raw

lemma sweptPaths_nil : SweptPaths [] :=
  sweptPaths_collect []

/-- Collecting what several walks touched is collecting each of them first. -/
lemma collect_flatMap {α : Type} (parts : List α) (walk : α → List String) :
    collect (parts.flatMap walk) = Ascending.ofList (parts.flatMap fun part => collect (walk part)) := by
  rw [collect, List.map_flatMap, List.filter_flatMap]
  exact (Ascending.ofList_flatMap_ofList parts _).symm

/-- The union of the paths of some filters. -/
def pathsOfAll (filters : List Value) : List String :=
  Ascending.ofList (filters.flatMap paths)

/-- What an object touches is reported. -/
lemma paths_of_isObject {filter : Value} (h : filter.isObject = true) :
    paths filter = collect (touchedInside "" filter) := by
  cases filter with
  | object members => rfl
  | _ => exact absurd h (by simp [Value.isObject])

/-! ## Groups -/

/-- The filter that groups some filters under a key. -/
def group (key : String) (filters : List Value) : Value :=
  .object [(key, .array filters)]

lemma paths_group {key : String} (hkey : key ≠ Path.identifier) (filters : List Value) :
    paths (group key filters) = collect (touchedAt key (.array filters)) := by
  show collect (touched "" [(key, .array filters)]) = _
  rw [touched, if_neg hkey, touched, List.append_nil]
  rfl

/-- A key without fields adds nothing to what the filters in its group touch. -/
lemma paths_group_of_fields_eq_nil {key : String} (hkey : Path.fields key = [])
    {filters : List Value} (hfilters : ∀ filter ∈ filters, filter.isObject = true) :
    paths (group key filters) = pathsOfAll filters := by
  have hidentifier : key ≠ Path.identifier := by
    rintro rfl
    exact absurd hkey (by decide)
  have hswept : ∀ touched : List String, collect (key :: touched) = collect touched := by
    intro touched
    simp [collect, Path.sanitize_of_fields_eq_nil hkey]
  have hroot : Path.fields key = Path.fields "" := by rw [hkey]; decide
  calc paths (group key filters) = collect (touchedItems key filters) := by
        rw [paths_group hidentifier, touchedAt]
        split_ifs
        · exact hswept _
        · rfl
    _ = Ascending.ofList (filters.flatMap fun filter => collect (touchedInside key filter)) := by
        rw [touchedItems_eq_flatMap, collect_flatMap]
        rfl
    _ = pathsOfAll filters := by
        refine congrArg Ascending.ofList (List.flatMap_congr fun filter hfilter => ?_)
        rw [paths_of_isObject (hfilters filter hfilter), collect,
          (sanitize_touchedAt filter hroot).2, ← collect]

/-- A group without filters touches its key, if a field of it is left. -/
lemma fields_eq_nil_of_paths_group {key : String} (h : ∀ filters : List Value,
    (∀ filter ∈ filters, filter.isObject = true) → paths (group key filters) = pathsOfAll filters) :
    Path.fields key = [] := by
  have hkey : key ≠ Path.identifier := by
    rintro rfl
    exact absurd (h [.object [("a", .null)]] (by simp [Value.isObject])) (by decide)
  have hnone : Path.sanitize key ∉ paths (group key []) := by
    rw [h [] (by simp)]
    exact List.not_mem_nil
  rw [paths_group hkey, mem_collect, touchedAt] at hnone
  refine Path.sanitize_eq_empty_iff.1 (not_not.1 fun hne => hnone ⟨⟨key, ?_, rfl⟩, hne⟩)
  simp

end Filter

/-! ## Groups inside groups -/

/-- A key that leaves no field behind: between its dots there are operators only, or nothing. -/
structure GroupKey where
  key : String
  swept : ∀ segment ∈ Path.segments key, isOperatorKey segment = true ∨ segment = ""

/-- An operator key without dots leaves no field behind. -/
lemma swept_of_isOperatorKey {key : String} (h : isOperatorKey key = true) (hdot : '.' ∉ key.toList) :
    ∀ segment ∈ Path.segments key, isOperatorKey segment = true ∨ segment = "" := by
  rw [Path.segments_of_no_dot hdot]
  simp [h]

/-- Filters in groups: a filter by itself, or a list of groupings under a key. -/
inductive Grouping where
  | filter (members : Members)
  | group (key : GroupKey) (parts : List Grouping)

namespace Grouping

/-- Induction on groupings: a group has the statement for its parts. -/
@[elab_as_elim]
theorem inductionOn {motive : Grouping → Prop} (filter : ∀ members, motive (.filter members))
    (group : ∀ key parts, (∀ part ∈ parts, motive part) → motive (.group key parts))
    (grouping : Grouping) : motive grouping :=
  @Grouping.rec motive (fun parts => ∀ part ∈ parts, motive part) filter group
    (fun _ h => absurd h List.not_mem_nil)
    (fun _ _ hhead hrest part h => (List.mem_cons.1 h).elim (fun e => e ▸ hhead) (hrest part))
    grouping

mutual

/-- The filter that a grouping is. -/
def value : Grouping → Value
  | .filter members => .object members
  | .group key parts => Filter.group key.key (values parts)

def values : List Grouping → List Value
  | [] => []
  | part :: rest => value part :: values rest

end

mutual

/-- The filters in a grouping, without the groups around them. -/
def filters : Grouping → List Value
  | .filter members => [.object members]
  | .group _ parts => filtersOf parts

def filtersOf : List Grouping → List Value
  | [] => []
  | part :: rest => filters part ++ filtersOf rest

end

lemma values_eq_map (parts : List Grouping) : values parts = parts.map value := by
  induction parts with
  | nil => rfl
  | cons part rest ih => rw [values, ih, List.map_cons]

lemma filtersOf_eq_flatMap (parts : List Grouping) : filtersOf parts = parts.flatMap filters := by
  induction parts with
  | nil => rfl
  | cons part rest ih => rw [filtersOf, ih, List.flatMap_cons]

lemma isObject_value (grouping : Grouping) : grouping.value.isObject = true := by
  cases grouping <;> rfl

/-- The paths of a grouping are those of the filters in it. -/
theorem paths_value (grouping : Grouping) :
    Filter.paths grouping.value = Filter.pathsOfAll grouping.filters := by
  induction grouping using inductionOn with
  | filter members =>
      refine (Filter.sweptPaths_collect _).strict.ext (Ascending.strict_ofList _) fun path => ?_
      rw [filters, Filter.pathsOfAll, List.flatMap_singleton, Ascending.mem_ofList]
      rfl
  | group key parts ih =>
      have hobjects : ∀ filter ∈ values parts, filter.isObject = true := by
        simp [values_eq_map, isObject_value]
      rw [value, Filter.paths_group_of_fields_eq_nil (Path.fields_eq_nil_iff.2 key.swept) hobjects,
        filters, values_eq_map, filtersOf_eq_flatMap, Filter.pathsOfAll, Filter.pathsOfAll,
        List.flatMap_map, List.flatMap_assoc, List.flatMap_congr ih]
      exact Ascending.ofList_flatMap_ofList parts _

end Grouping

/-- **Logical groups are transparent**: under an operator key without dots, filters touch what they touch
alone.  For any key this holds of all lists of filters exactly when between its dots there are operators
only, or nothing.  It holds of groups inside groups; and all reported paths ascend and are sanitized. -/
theorem Filter.groups_transparent :
    (∀ key, isOperatorKey key = true → '.' ∉ key.toList → ∀ filters : List Value,
      (∀ filter ∈ filters, filter.isObject = true) → paths (group key filters) = pathsOfAll filters) ∧
    (∀ key, (∀ filters : List Value, (∀ filter ∈ filters, filter.isObject = true) →
        paths (group key filters) = pathsOfAll filters) ↔
      ∀ segment ∈ Path.segments key, isOperatorKey segment = true ∨ segment = "") ∧
    (∀ grouping : Grouping, paths grouping.value = pathsOfAll grouping.filters) ∧
    ∀ value : Value, SweptPaths (paths value) ∧ SweptPaths (Update.paths value) := by
  have hgroup : ∀ key, (∀ segment ∈ Path.segments key, isOperatorKey segment = true ∨ segment = "") →
      ∀ filters : List Value, (∀ filter ∈ filters, filter.isObject = true) →
        paths (group key filters) = pathsOfAll filters :=
    fun key hswept _ hfilters => paths_group_of_fields_eq_nil (Path.fields_eq_nil_iff.2 hswept) hfilters
  refine ⟨fun key hkey hdot => hgroup key (swept_of_isOperatorKey hkey hdot), fun key => ⟨fun h => ?_,
    hgroup key⟩, Grouping.paths_value, fun value => ⟨?_, ?_⟩⟩
  · exact Path.fields_eq_nil_iff.1 (fields_eq_nil_of_paths_group h)
  · cases value with
    | object members => exact sweptPaths_collect _
    | array items => exact sweptPaths_collect _
    | _ => exact sweptPaths_nil
  · cases value with
    | object members => exact sweptPaths_collect _
    | _ => exact sweptPaths_nil

/-- Alternatives with an empty field name, with a dotted one, and with a leading dot. -/
def orFilters : List Value :=
  [.object [("", .object [("a", .ofNat 1)])], .object [(".b", .ofNat 1), ("c.d", .array [])]]

theorem Filter.groups_transparent_or :
    isOperatorKey "_$or" = true ∧ '.' ∉ "_$or".toList ∧
      (∀ filter ∈ orFilters, filter.isObject = true) ∧
      paths (group "_$or" orFilters) = ["a", "b", "c.d"] ∧
      paths (group "_$or" orFilters) = pathsOfAll orFilters := by
  have hkey : isOperatorKey "_$or" = true := by decide
  have hdot : '.' ∉ "_$or".toList := by decide
  have hobjects : ∀ filter ∈ orFilters, filter.isObject = true := by simp [orFilters, Value.isObject]
  exact ⟨hkey, hdot, hobjects, by decide, groups_transparent.1 _ hkey hdot _ hobjects⟩

/-- An operator key with a dot leaves the field behind the dot in front of what its filters touch. -/
theorem Filter.dotted_group_touches_below :
    isOperatorKey "$or.x" = true ∧
      paths (group "$or.x" [.object [("a", .ofNat 1)]]) = ["x.a"] ∧
      pathsOfAll [.object [("a", .ofNat 1)]] = ["a"] ∧
      ¬ ∀ key, isOperatorKey key = true → ∀ filters : List Value,
        (∀ filter ∈ filters, filter.isObject = true) →
          paths (group key filters) = pathsOfAll filters := by
  refine ⟨by decide, by decide, by decide, fun h => ?_⟩
  have hobject : ∀ filter ∈ [Value.object [("a", .ofNat 1)]], filter.isObject = true := by
    simp [Value.isObject]
  exact absurd (h "$or.x" (by decide) _ hobject) (by decide)

end DocumentAccess
