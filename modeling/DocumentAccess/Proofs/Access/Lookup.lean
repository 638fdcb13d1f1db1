import DocumentAccess.Access.Selection
import DocumentAccess.Proofs.Below

/-!
# What an index allows

An index is asked about its grants only as a set: in which order they were made, and how often, does not
show in what it allows.

* `greatest?_eq_some_iff` — the greatest of a list is the member that no other exceeds.
* **`AccessIndex.allows_iff`** — an action is allowed on reserved paths and where it is granted at the
  level or below it.
* `AccessIndex.highestBelow?_eq` — the strictest grant below a path, from the levels below it.
-/

namespace DocumentAccess

/-! ## The greatest of a list -/

lemma greatest?_eq_max? (ns : List Nat) : greatest? ns = ns.max? := by
  induction ns with
  | nil => rfl
  | cons n rest ih =>
      rw [greatest?, ih, List.max?_cons]
      cases rest.max? with
      | none => rfl
      | some m =>
          by_cases h : n < m
          · simp [h, Nat.max_eq_right (Nat.le_of_lt h)]
          · simp [h, Nat.max_eq_left (Nat.not_lt.1 h)]

lemma greatest?_eq_none_iff {ns : List Nat} : greatest? ns = none ↔ ns = [] := by
  rw [greatest?_eq_max?, List.max?_eq_none_iff]

lemma greatest?_eq_some_iff {ns : List Nat} {m : Nat} :
    greatest? ns = some m ↔ m ∈ ns ∧ ∀ n ∈ ns, n ≤ m := by
  rw [greatest?_eq_max?, List.max?_eq_some_iff]

/-- The greatest depends on the members only. -/
lemma greatest?_congr {as bs : List Nat} (h : ∀ n, n ∈ as ↔ n ∈ bs) :
    greatest? as = greatest? bs := by
  refine Option.ext fun m => ?_
  rw [greatest?_eq_some_iff, greatest?_eq_some_iff, h m]
  simp only [h]

lemma le_getD_greatest? {ns : List Nat} {n : Nat} (h : n ∈ ns) (fallback : Nat) :
    n ≤ (greatest? ns).getD fallback := by
  cases hgreatest : greatest? ns with
  | none =>
      rw [greatest?_eq_none_iff.1 hgreatest] at h
      exact absurd h List.not_mem_nil
  | some m => exact (greatest?_eq_some_iff.1 hgreatest).2 n h

/-! ## Lists without repetitions -/

lemma mem_distinct {members : List String} {member : String} :
    member ∈ distinct members ↔ member ∈ members := by
  induction members with
  | nil => rfl
  | cons other rest ih =>
      rw [distinct, List.mem_cons, List.mem_cons, List.mem_filter, ih, decide_eq_true_eq]
      by_cases h : member = other
      · simp [h]
      · simp [h]

lemma nodup_distinct (members : List String) : (distinct members).Nodup := by
  induction members with
  | nil => exact List.nodup_nil
  | cons member rest ih =>
      refine List.nodup_cons.2 ⟨?_, ih.filter _⟩
      simp

/-- Of the later of two lists, those members stay that the first does not have. -/
lemma distinct_append (as bs : List String) :
    distinct (as ++ bs) = distinct as ++ (distinct bs).filter (· ∉ as) := by
  induction as with
  | nil => simp [distinct]
  | cons a rest ih =>
      rw [List.cons_append, distinct, ih, List.filter_append, List.filter_filter, distinct,
        List.cons_append]
      congr 2
      refine List.filter_congr fun member _ => ?_
      simp [not_or]

/-- Going on with a list leaves what it has without repetitions in front. -/
lemma prefix_distinct {as bs : List String} (h : as <+: bs) : distinct as <+: distinct bs := by
  obtain ⟨later, rfl⟩ := h
  rw [distinct_append]
  exact List.prefix_append _ _

lemma mem_adjoin {α : Type} [DecidableEq α] {members : List α} {a b : α} :
    a ∈ AccessIndex.adjoin members b ↔ a ∈ members ∨ a = b := by
  rw [AccessIndex.adjoin]
  split
  · refine ⟨Or.inl, ?_⟩
    rintro (h | rfl)
    · exact h
    · assumption
  · simp

namespace AccessIndex

/-! ## Looking up -/

variable {index : AccessIndex} {path : String} {action : Action} {level : Nat}

lemma isSome_grantedLevel?_iff :
    (index.grantedLevel? path action level).isSome = true ↔
      ∃ granted ≤ level, ⟨granted, action, path⟩ ∈ index.grants := by
  rw [Option.isSome_iff_ne_none, grantedLevel?, Ne, greatest?_eq_none_iff, List.map_eq_nil_iff]
  constructor
  · intro hne
    obtain ⟨⟨granted, _, _⟩, hgrant⟩ := List.exists_mem_of_ne_nil _ hne
    simp only [List.mem_filter, decide_eq_true_eq] at hgrant
    obtain ⟨hmem, rfl, rfl, hle⟩ := hgrant
    exact ⟨granted, hle, hmem⟩
  · rintro ⟨granted, hle, hmem⟩
    refine List.ne_nil_of_mem (a := ⟨granted, action, path⟩) ?_
    simp [hmem, hle]

/-- **What is allowed**: everything on reserved paths, and what is granted at the level or below. -/
theorem allows_iff :
    index.allows path action level = true ↔
      path ∈ index.reserved ∨ ∃ granted ≤ level, ⟨granted, action, path⟩ ∈ index.grants := by
  rw [allows, Bool.or_eq_true, isSome_grantedLevel?_iff, isReserved, decide_eq_true_eq]

/-- The paths that are granted up to a level. -/
lemma mem_grantedPaths_iff :
    path ∈ index.grantedPaths action level ↔
      ∃ granted ≤ level, ⟨granted, action, path⟩ ∈ index.grants := by
  simp only [grantedPaths, mem_distinct, List.mem_flatMap, List.mem_filter, levels,
    Ascending.mem_ofList, pathsAt, List.mem_map, decide_eq_true_eq]
  constructor
  · rintro ⟨granted, ⟨-, hle⟩, grant, ⟨hmem, rfl, rfl⟩, rfl⟩
    exact ⟨grant.level, hle, hmem⟩
  · rintro ⟨granted, hle, hmem⟩
    exact ⟨granted, ⟨⟨_, hmem, rfl⟩, hle⟩, _, ⟨hmem, rfl, rfl⟩, rfl⟩

/-- The strictest grant below a path is the greatest of the levels that are granted below it. -/
lemma highestBelow?_eq {levels : List Nat}
    (h : ∀ n, n ∈ levels ↔
      ∃ other, Path.isBelow path other = true ∧ ⟨n, action, other⟩ ∈ index.grants) :
    index.highestBelow? path action = greatest? levels := by
  refine greatest?_congr fun n => ?_
  rw [h n, List.mem_map]
  constructor
  · rintro ⟨⟨granted, _, other⟩, hgrant, rfl⟩
    simp only [List.mem_filter, decide_eq_true_eq] at hgrant
    obtain ⟨hmem, rfl, hbelow⟩ := hgrant
    exact ⟨other, hbelow, hmem⟩
  · rintro ⟨other, hbelow, hmem⟩
    refine ⟨⟨n, action, other⟩, ?_, rfl⟩
    simp only [List.mem_filter, decide_eq_true_eq]
    exact ⟨hmem, trivial, hbelow⟩

end AccessIndex

end DocumentAccess
