import DocumentAccess.Proofs.Update.Kept
import DocumentAccess.Proofs.Update.Places

/-!
# Places that say nothing about a path

Along a path that a command does not write to, each place *passes*: it is not the end of the path, is not
closed to it and is no predicate without a payload.  So a value that passes has no leaves along the path,
and there are none to write, to append or to take out.

* `Update.Passed`, `Update.PassedAt` — places that pass, and values in which all places do.
* **`Update.leafless`** — a value that passes has no leaves.
* `Update.PassedAt.payload` — in an addressed argument that passes, the payload passes.
-/

namespace DocumentAccess.Update

open Value

/-! ## Passed places -/

/-- A place inside a path that says nothing about the path itself. -/
structure Passed (place : Place) : Prop where
  inside : place.route ≠ some []
  unclosed : isClosed place.value = false
  kept : isRemoval place.value = false

def PassedAt (route : Route) (value : Value) : Prop :=
  ∀ place ∈ placesAt route value, Passed place

def PassedMembers (route : Route) (members : Members) : Prop :=
  ∀ place ∈ placesOfMembers route members, Passed place

section Passed

variable {route : Route}

lemma self_mem_placesAt (path : List String) (value : Value) :
    ⟨some path, value⟩ ∈ placesAt (some path) value := by
  cases value <;> simp [placesAt, here]

lemma PassedAt.self {path : List String} {value : Value} (h : PassedAt (some path) value) :
    Passed ⟨some path, value⟩ :=
  h _ (self_mem_placesAt path value)

/-- A path does not end at a value that passes. -/
lemma PassedAt.route_ne {value : Value} (h : PassedAt route value) : route ≠ some [] := by
  rintro rfl
  exact h.self.inside rfl

/-- The path does not lead to a value that passes and is closed. -/
lemma PassedAt.route_eq_none {value : Value} (h : PassedAt route value)
    (hclosed : isClosed value = true) : route = none := by
  cases route with
  | none => rfl
  | some path => exact absurd hclosed (by rw [h.self.unclosed]; exact Bool.false_ne_true)

lemma PassedMembers.entry {members : Members} (h : PassedMembers route members)
    {entry : String × Value} (hentry : entry ∈ members) :
    PassedAt (route.below entry.1) entry.2 := by
  rw [PassedMembers, placesOfMembers_eq_flatMap] at h
  exact fun place hplace => h place (List.mem_flatMap.2 ⟨entry, hentry, hplace⟩)

lemma PassedAt.members {members : Members} (h : PassedAt route (.object members)) :
    PassedMembers route members := by
  rw [PassedAt, placesAt] at h
  exact fun place hplace => h place (List.mem_append_right _ hplace)

/-- A list that passes has objects only. -/
lemma PassedAt.items {path : List String} {items : List Value}
    (h : PassedAt (some path) (.array items)) :
    ∀ item ∈ items, ∃ members, item = .object members ∧ PassedMembers (some path) members := by
  have hobjects : ∀ item ∈ items, item.isObject = true := by
    have hunclosed := h.self.unclosed
    simpa only [isClosed, List.any_eq_false, Bool.not_eq_true', Bool.not_eq_false] using hunclosed
  rw [PassedAt, placesAt, placesOfItems_eq_flatMap] at h
  intro item hitem
  cases item with
  | object members =>
      exact ⟨members, rfl, fun place hplace =>
        h place (List.mem_append_right _ (List.mem_flatMap.2 ⟨_, hitem, hplace⟩))⟩
  | _ => exact absurd (hobjects _ hitem) (by simp [isObject])

/-! ## No leaves -/

/-- What passes has no leaves: as a whole, and, when it is an object, in its members. -/
structure LeaflessWhere (value : Value) : Prop where
  whole : ∀ route, PassedAt route value → leavesAt route value = []
  inside : ∀ members, value = .object members → ∀ route, PassedMembers route members →
    leavesAtMembers route members = []

lemma leaflessWhere (value : Value) : LeaflessWhere value := by
  induction value using Value.inductionOn with
  | object members ih =>
      have hinside : ∀ route, PassedMembers route members → leavesAtMembers route members = [] := by
        intro route h
        rw [leavesAtMembers_eq_flatMap, List.flatMap_eq_nil_iff]
        exact fun entry hentry => (ih entry hentry).whole _ (h.entry hentry)
      refine ⟨fun route h => ?_, ?_⟩
      · rw [leavesAt_object h.route_ne]
        exact hinside route h.members
      · rintro others hothers
        obtain rfl : members = others := by simpa using hothers
        exact hinside
  | array items ih =>
      refine ⟨fun route h => ?_, fun members hmembers => absurd hmembers (by simp)⟩
      cases route with
      | none => exact leavesAt_none _
      | some path =>
          rw [leavesAt_array h.route_ne, leavesAtItems_eq_flatMap, List.map_eq_nil_iff,
            List.flatMap_eq_nil_iff]
          intro item hitem
          obtain ⟨members, rfl, hmembers⟩ := h.items item hitem
          rw [leavesAt_object h.route_ne]
          exact (ih _ hitem).inside members rfl _ hmembers
  | _ =>
      refine ⟨fun route h => ?_, fun members hmembers => absurd hmembers (by simp)⟩
      rw [h.route_eq_none rfl]
      exact leavesAt_none _

/-- A value that passes has no leaves. -/
lemma leafless {value : Value} (h : PassedAt route value) (hordered : value.WellOrdered) :
    Leafless route value :=
  ⟨hordered, (leaflessWhere value).whole route h⟩

/-! ## Addressed arguments that pass -/

/-- The places of a payload are places of its argument. -/
lemma PassedAt.payload_places {argument : Members} (h : PassedAt route (.object argument)) :
    ∀ place ∈ placesOfPayload route argument, Passed place := by
  rw [PassedAt, placesAt] at h
  exact fun place hplace => h place (List.mem_append_left _ (List.mem_append_right _ hplace))

/-- The payload of an argument that passes is an object whose members pass. -/
lemma PassedAt.payload {argument fields : Members} (h : PassedAt route (.object argument))
    (hdo : Keyed.find? doKey argument = some (.object fields)) : PassedMembers route fields := by
  have hplaces := h.payload_places
  rw [placesOfPayload_eq, hdo] at hplaces
  exact hplaces

/-- The path does not lead to a number in a payload. -/
lemma PassedAt.payload_number {argument : Members} {n : Number}
    (h : PassedAt route (.object argument))
    (hdo : Keyed.find? doKey argument = some (.number n)) : route = none := by
  have hplaces := h.payload_places
  rw [placesOfPayload_eq, hdo] at hplaces
  cases route with
  | none => rfl
  | some path =>
      have hnumber := (hplaces ⟨some path, .number n⟩ (by simp [here])).unclosed
      exact absurd hnumber (by simp [isClosed])

end Passed

end DocumentAccess.Update
