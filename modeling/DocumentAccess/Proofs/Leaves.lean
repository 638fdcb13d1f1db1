import DocumentAccess.Proofs.Paths
import DocumentAccess.Proofs.Values

/-!
# Leaves of a document

A leaf is a value that is no container, or an empty container.  Its path are the keys that lead to it,
joined by dots; positions in lists are left out, so a path may have several leaves.  A path is followed
into a value key by key: what is left of it at some place is its *route* there.

* `Value.leaves` — all leaves, in order, with the keys that lead to them.
* `Value.valuesAt` — the leaves at a dotted path.
* `Value.leavesAt` — the leaves that a route leads to, each with the routes at the lists on the way.
* **`Value.valuesAt_eq`** — the leaves at a path are those that the path leads to.
* `Value.leavesAtMembers_insert` — one member may be replaced by another with the same leaves.
-/

namespace DocumentAccess

/-- What is left of a path at some place: `none` where the path does not lead. -/
abbrev Route := Option (List String)

namespace Route

/-- The route below a key. -/
def below (key : String) (route : Route) : Route :=
  route.bind fun path =>
    if (Path.segments key).isPrefixOf path then some (path.drop (Path.segments key).length) else none

@[simp] lemma below_none (key : String) : below key none = none := rfl

/-- A path leads below a key when it starts with the segments of the key. -/
lemma below_eq_some_iff {key : String} {path rest : List String} :
    below key (some path) = some rest ↔ path = Path.segments key ++ rest := by
  show (if _ then _ else _) = _ ↔ _
  by_cases h : (Path.segments key).isPrefixOf path = true
  · obtain ⟨tail, rfl⟩ := List.isPrefixOf_iff_prefix.1 h
    simp
  · refine ⟨fun hsome => by simp [h] at hsome, fun hpath => absurd ?_ h⟩
    exact List.isPrefixOf_iff_prefix.2 ⟨rest, hpath.symm⟩

lemma below_beq (key : String) (route : Route) (rest : List String) :
    (route == some (Path.segments key ++ rest)) = (below key route == some rest) := by
  cases route with
  | none => rfl
  | some path =>
      rw [Bool.eq_iff_iff, beq_iff_eq, beq_iff_eq, below_eq_some_iff, Option.some.injEq]

end Route

/-- A leaf at the end of a route, with the routes at the lists on the way to it. -/
structure Leaf where
  lists : List Route
  value : Value

/-- The same leaf seen from around a list. -/
def Leaf.within (route : Route) (leaf : Leaf) : Leaf :=
  ⟨route :: leaf.lists, leaf.value⟩

namespace Value

/-! ## All leaves -/

mutual

/-- The leaves of a value, in order, with the keys that lead to them. -/
def leaves : Value → List (List String × Value)
  | .object members => if members.isEmpty then [([], .object [])] else leavesOfMembers members
  | .array items => if items.isEmpty then [([], .array [])] else leavesOfItems items
  | value => [([], value)]

def leavesOfMembers : List (String × Value) → List (List String × Value)
  | [] => []
  | (key, value) :: rest =>
    ((leaves value).map fun leaf => (key :: leaf.1, leaf.2)) ++ leavesOfMembers rest

def leavesOfItems : List Value → List (List String × Value)
  | [] => []
  | item :: rest => leaves item ++ leavesOfItems rest

end

/-- The leaves at a dotted path, in order. -/
def valuesAt (path : String) (value : Value) : List Value :=
  (value.leaves.filter fun leaf => ".".intercalate leaf.1 = path).map Prod.snd

/-! ## Leaves along a route -/

mutual

/-- The leaves of a value that a route leads to. -/
def leavesAt (route : Route) : Value → List Leaf
  | .object members =>
    if members.isEmpty && route == some [] then [⟨[], .object []⟩] else leavesAtMembers route members
  | .array items =>
    if items.isEmpty && route == some [] then [⟨[], .array []⟩]
    else (leavesAtItems route items).map (Leaf.within route)
  | value => if route == some [] then [⟨[], value⟩] else []

def leavesAtMembers (route : Route) : List (String × Value) → List Leaf
  | [] => []
  | (key, value) :: rest => leavesAt (route.below key) value ++ leavesAtMembers route rest

def leavesAtItems (route : Route) : List Value → List Leaf
  | [] => []
  | item :: rest => leavesAt route item ++ leavesAtItems route rest

end

/-- The leaves of a member, if there is one. -/
def leavesAtSlot (route : Route) : Option Value → List Leaf
  | some value => leavesAt route value
  | none => []

section LeavesAt

variable {route : Route}

lemma leavesAtItems_eq_flatMap (items : List Value) :
    leavesAtItems route items = items.flatMap (leavesAt route) := by
  induction items with
  | nil => rfl
  | cons item rest ih => rw [leavesAtItems, ih, List.flatMap_cons]

lemma leavesAtMembers_eq_flatMap (members : Members) :
    leavesAtMembers route members
      = members.flatMap fun entry => leavesAt (route.below entry.1) entry.2 := by
  induction members with
  | nil => rfl
  | cons entry rest ih => rw [leavesAtMembers, ih, List.flatMap_cons]

/-- Before the end of a route, the leaves of an object are those of its members. -/
lemma leavesAt_object (h : route ≠ some []) (members : Members) :
    leavesAt route (.object members) = leavesAtMembers route members := by
  rw [leavesAt, if_neg (by simp [h])]

lemma leavesAt_array (h : route ≠ some []) (items : List Value) :
    leavesAt route (.array items) = (leavesAtItems route items).map (Leaf.within route) := by
  rw [leavesAt, if_neg (by simp [h])]

/-- Before the end of a route there are no leaves outside containers. -/
lemma leavesAt_scalar (h : route ≠ some []) {value : Value} (hobject : value.isObject = false)
    (harray : ∀ items, value ≠ .array items) : leavesAt route value = [] := by
  cases value with
  | object members => exact absurd hobject (by simp [isObject])
  | array items => exact absurd rfl (harray items)
  | _ => simp [leavesAt, h]

lemma leavesAt_none (value : Value) : leavesAt none value = [] := by
  induction value using Value.inductionOn with
  | array items ih =>
      rw [leavesAt_array (by simp), leavesAtItems_eq_flatMap, List.map_eq_nil_iff,
        List.flatMap_eq_nil_iff]
      exact ih
  | object members ih =>
      rw [leavesAt_object (by simp), leavesAtMembers_eq_flatMap, List.flatMap_eq_nil_iff]
      exact ih
  | _ => rfl

/-- A leaf of an item is one of the list, seen from around it. -/
lemma mem_leavesAt_array (h : route ≠ some []) {items : List Value} {item : Value}
    (hitem : item ∈ items) {leaf : Leaf} (hleaf : leaf ∈ leavesAt route item) :
    leaf.within route ∈ leavesAt route (.array items) := by
  rw [leavesAt_array h, leavesAtItems_eq_flatMap]
  exact List.mem_map_of_mem (List.mem_flatMap.2 ⟨item, hitem, hleaf⟩)

/-! ## Replacing a member -/

/-- A member may be replaced by one with the same leaves, and one without leaves may be added. -/
lemma leavesAtMembers_insert {members : Members} (h : Keyed.Sorted members) (key : String)
    (value : Value)
    (hsame : leavesAt (route.below key) value
      = leavesAtSlot (route.below key) (Keyed.find? key members)) :
    leavesAtMembers route (Keyed.insert key value members) = leavesAtMembers route members := by
  induction members with
  | nil =>
      simp only [Keyed.insert, leavesAtMembers, hsame]
      rfl
  | cons entry rest ih =>
      obtain ⟨k, old⟩ := entry
      obtain ⟨hhead, htail⟩ := List.pairwise_cons.1 h
      by_cases hk : k = key
      · subst hk
        rw [Keyed.find?_cons_self] at hsame
        simp only [Keyed.insert, if_true, leavesAtMembers, hsame]
        rfl
      · rw [Keyed.find?_cons_of_ne hk] at hsame
        by_cases hlt : Ordered.before key k = true
        · -- all keys of the rest come after this one
          have hnone : Keyed.find? key rest = none := by
            refine Keyed.find?_eq_none_iff.2 fun other hother hkey => ?_
            have hbefore := Ordered.trans hlt (hhead other hother)
            rw [hkey] at hbefore
            exact Ordered.ne_of_before hbefore rfl
          rw [hnone] at hsame
          simp only [Keyed.insert, hk, hlt, if_true, if_false, leavesAtMembers, hsame]
          rfl
        · simp only [Keyed.insert, hk, hlt, Bool.false_eq_true, if_false, leavesAtMembers,
            ih htail hsame]

/-! ## Equal values -/

lemma exists_of_forall₂ {α β : Type} {R : α → β → Prop} {as : List α} {bs : List β}
    (h : List.Forall₂ R as bs) {a : α} (ha : a ∈ as) : ∃ b ∈ bs, R a b := by
  induction h with
  | nil => exact absurd ha List.not_mem_nil
  | @cons x y _ _ hxy _ ih =>
      rcases List.mem_cons.1 ha with rfl | hrest
      · exact ⟨y, List.mem_cons_self, hxy⟩
      · obtain ⟨b, hb, hab⟩ := ih hrest
        exact ⟨b, List.mem_cons_of_mem _ hb, hab⟩

/-- A value without leaves along a route equals only such values, although equal numbers may differ. -/
lemma leavesAt_eq_nil_of_beq {a b : Value} (hab : (a == b) = true) (h : leavesAt route b = []) :
    leavesAt route a = [] := by
  induction b using Value.inductionOn generalizing a route with
  | array bs ih =>
      cases a with
      | array as =>
          have hitems := beqItems_iff.1 hab
          have hempty : as.isEmpty = bs.isEmpty := by cases hitems <;> rfl
          rw [leavesAt, leavesAtItems_eq_flatMap] at h ⊢
          rw [hempty]
          by_cases hend : (bs.isEmpty && route == some []) = true
          · simp [hend] at h
          · rw [if_neg hend, List.map_eq_nil_iff, List.flatMap_eq_nil_iff] at h ⊢
            intro item hitem
            obtain ⟨other, hother, hequal⟩ := exists_of_forall₂ hitems hitem
            exact ih other hother hequal (h other hother)
      | _ => exact absurd hab (by simp [BEq.beq, beq])
  | object bs ih =>
      cases a with
      | object as =>
          have hmembers := beqMembers_iff.1 hab
          have hempty : as.isEmpty = bs.isEmpty := by cases hmembers <;> rfl
          rw [leavesAt, leavesAtMembers_eq_flatMap] at h ⊢
          rw [hempty]
          by_cases hend : (bs.isEmpty && route == some []) = true
          · simp [hend] at h
          · rw [if_neg hend, List.flatMap_eq_nil_iff] at h ⊢
            intro entry hentry
            obtain ⟨other, hother, hkey, hequal⟩ := exists_of_forall₂ hmembers hentry
            rw [hkey]
            exact ih other hother hequal (h other hother)
      | _ => exact absurd hab (by simp [BEq.beq, beq])
  | _ =>
      cases a with
      | array as => exact absurd hab (by simp [BEq.beq, beq])
      | object as => exact absurd hab (by simp [BEq.beq, beq])
      | _ => simpa [leavesAt] using h

end LeavesAt

/-! ## The leaves at a dotted path -/

/-- The leaves that a route leads to are those whose keys have the segments of the route. -/
lemma leavesAt_eq_filter (route : Route) (value : Value) :
    (value.leaves.filter fun leaf => route == some (leaf.1.flatMap Path.segments)).map Prod.snd
      = (leavesAt route value).map Leaf.value := by
  induction value using Value.inductionOn generalizing route with
  | array items ih =>
      rw [leaves, leavesAt]
      by_cases hempty : items.isEmpty = true
      · obtain rfl := List.isEmpty_iff.1 hempty
        by_cases hend : route = some []
        · simp [hend]
        · simp [hend, leavesAtItems]
      · simp only [hempty, Bool.false_and, Bool.false_eq_true, if_false, List.map_map]
        clear hempty
        induction items with
        | nil => rfl
        | cons item rest ihrest =>
            rw [leavesOfItems, leavesAtItems, List.filter_append, List.map_append, List.map_append,
              ih item List.mem_cons_self,
              ihrest fun other hother => ih other (List.mem_cons_of_mem _ hother)]
            rfl
  | object members ih =>
      rw [leaves, leavesAt]
      by_cases hempty : members.isEmpty = true
      · obtain rfl := List.isEmpty_iff.1 hempty
        by_cases hend : route = some []
        · simp [hend]
        · simp [hend, leavesAtMembers]
      · simp only [hempty, Bool.false_and, Bool.false_eq_true, if_false]
        clear hempty
        induction members with
        | nil => rfl
        | cons entry rest ihrest =>
            obtain ⟨key, value⟩ := entry
            rw [leavesOfMembers, leavesAtMembers, List.filter_append, List.map_append,
              List.map_append, ihrest fun other hother => ih other (List.mem_cons_of_mem _ hother),
              ← ih (key, value) List.mem_cons_self (route.below key), List.filter_map, List.map_map]
            congr 2
            refine List.filter_congr fun leaf _ => ?_
            rw [Function.comp_apply, List.flatMap_cons, Route.below_beq]
  | _ =>
      by_cases hend : route = some []
      · simp [leaves, leavesAt, hend]
      · simp [leaves, leavesAt, hend]

/-- **The leaves at a path are those that the path leads to.** -/
theorem valuesAt_eq {path : String} (h : path ≠ "") (value : Value) :
    value.valuesAt path = (leavesAt (some (Path.segments path)) value).map Leaf.value := by
  rw [← leavesAt_eq_filter, valuesAt]
  congr 1
  refine List.filter_congr fun leaf _ => ?_
  rw [Bool.eq_iff_iff, decide_eq_true_iff, beq_iff_eq, Option.some.injEq]
  by_cases hkeys : leaf.1 = []
  · rw [hkeys]
    exact ⟨fun hpath => absurd hpath.symm h, fun hpath => absurd hpath (Path.segments_ne_nil path)⟩
  · rw [← Path.segments_intercalate hkeys]
    exact ⟨fun hpath => by rw [hpath], fun hpath => (Path.segments_injective hpath).symm⟩

end Value

end DocumentAccess
