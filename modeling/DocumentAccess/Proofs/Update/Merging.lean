import DocumentAccess.Proofs.Update.Passed

/-!
# What `$set` keeps

A value that passes has no leaves, but may replace some: a list replaces whatever it is merged into,
and an object replaces what is no object.  Where the document has no leaf in the way, `$set` keeps the
leaves along the route.

* `Update.Free` — a place where `$set` replaces no leaf of the document.
* `Update.mergeKeeps` — merging keeps leaves where it replaces none.
* **`Update.keepsSlot_set`** — so does `$set`, also in the element that a predicate selects.
-/

namespace DocumentAccess.Update

open Value

/-! ## `$set` -/

/-- No leaf of the document is replaced by what `$set` merges in at a place: there is none when that is
a list, and none inside a list at the place when it is an object. -/
structure Free (whole : List Leaf) (place : Place) : Prop where
  list : ∀ items, place.value = .array items → whole = []
  object : ∀ members, place.value = .object members → ∀ leaf ∈ whole, place.route ∉ leaf.lists

section Set

variable {whole : List Leaf} {versionKey : String} {route : Route} {path key : String}

/-- Only in lists can there be leaves before the end of a path, other than in objects. -/
lemma leavesAt_of_free {value : Value} (h : Held whole route value) (hroute : route ≠ some [])
    (hobject : value.isObject = false) (hfree : ∀ leaf ∈ whole, route ∉ leaf.lists) :
    leavesAt route value = [] := by
  cases value with
  | array items =>
      refine List.eq_nil_iff_forall_not_mem.2 fun leaf hleaf => ?_
      obtain ⟨outer, houter, hlists⟩ := h.leaves leaf hleaf
      rw [leavesAt_array hroute] at hleaf
      obtain ⟨inner, -, rfl⟩ := List.mem_map.1 hleaf
      exact hfree outer houter (hlists List.mem_cons_self)
  | object members => exact absurd hobject (by simp [isObject])
  | _ => exact leavesAt_scalar hroute rfl (by simp)

lemma kept_merge_object {patches : Members} (hpatches : Leafless route (.object patches))
    (hinside : Keeps whole route fun doc => .done (mergeMembers doc patches)) {target : Value}
    (htarget : Held whole route target)
    (hfree : target.isObject = false → leavesAt route target = []) :
    Kept route target (merge target (.object patches)) := by
  cases target with
  | object members =>
      rw [merge]
      exact hinside members htarget
  | _ =>
      rw [merge]
      · exact hpatches.kept (hfree rfl)
      · simp

lemma mergeMembers_eq_each (members patches : Members) :
    mergeMembers members patches
      = (each (fun key patch => atSlot key fun slot => .done (some (merged patch slot))) patches
          members).value := by
  induction patches generalizing members with
  | nil => rfl
  | cons entry rest ih =>
      obtain ⟨key, patch⟩ := entry
      rw [mergeMembers, ih]
      show _ = (each _ rest (Keyed.insert key (merged patch (Keyed.find? key members)) members)).value
      cases Keyed.find? key members <;> rfl

/-- What is merged into members keeps the leaves that it keeps at each of them. -/
lemma keeps_mergeMembers (hroute : route ≠ some []) {patches : Members}
    (h : ∀ entry ∈ patches, route.below entry.1 ≠ some [] ∧
      KeepsSlot whole (route.below entry.1) fun slot => .done (some (merged entry.2 slot))) :
    Keeps whole route fun doc => .done (mergeMembers doc patches) := by
  intro doc hdoc
  show Kept route (.object doc) (.object (mergeMembers doc patches))
  rw [mergeMembers_eq_each]
  refine keeps_each (fun entry hentry => ?_) doc hdoc
  obtain ⟨hkey, hslot⟩ := h entry hentry
  exact keeps_atSlot hroute hkey hslot

/-- Merging a value that passes keeps leaves where it replaces none: as a whole, and, when it is an
object, in the members that it is merged into. -/
structure MergeKeeps (whole : List Leaf) (patch : Value) : Prop where
  slot : ∀ route, PassedAt route patch → (∀ place ∈ mergedPlaces route patch, Free whole place) →
    patch.WellOrdered → KeepsSlot whole route fun slot => .done (some (merged patch slot))
  inside : ∀ patches, patch = .object patches → ∀ route : Route, route ≠ some [] →
    (∀ entry ∈ patches, PassedAt (route.below entry.1) entry.2) →
    (∀ place ∈ mergedPlacesOfMembers route patches, Free whole place) →
    (∀ entry ∈ patches, entry.2.WellOrdered) →
    Keeps whole route fun doc => .done (mergeMembers doc patches)

lemma self_mem_mergedPlaces (path : List String) (value : Value) :
    ⟨some path, value⟩ ∈ mergedPlaces (some path) value := by
  cases value <;> simp [mergedPlaces, here]

lemma mergeKeeps (whole : List Leaf) (patch : Value) : MergeKeeps whole patch := by
  induction patch using Value.inductionOn with
  | object patches ih =>
      have hinside : ∀ route : Route, route ≠ some [] →
          (∀ entry ∈ patches, PassedAt (route.below entry.1) entry.2) →
          (∀ place ∈ mergedPlacesOfMembers route patches, Free whole place) →
          (∀ entry ∈ patches, entry.2.WellOrdered) →
          Keeps whole route fun doc => .done (mergeMembers doc patches) :=
        fun route hroute hpassed hfree hordered => keeps_mergeMembers hroute fun entry hentry =>
          ⟨(hpassed entry hentry).route_ne, (ih entry hentry).slot _ (hpassed entry hentry)
            (fun place hplace => hfree place (by
              rw [mergedPlacesOfMembers_eq_flatMap]
              exact List.mem_flatMap.2 ⟨entry, hentry, hplace⟩)) (hordered entry hentry)⟩
      refine ⟨fun route hpassed hfree hordered => ?_, ?_⟩
      · have hroute := hpassed.route_ne
        have hpatches := leafless hpassed hordered
        intro slot hslot after hafter
        obtain rfl := Option.some.inj hafter
        cases slot with
        | none => exact hpatches.kept (leavesAt_empty hroute)
        | some target =>
            refine kept_merge_object hpatches ?_ hslot fun hobject => ?_
            · refine hinside route hroute (fun entry hentry => hpassed.members.entry hentry)
                (fun place hplace => hfree place ?_) (wellOrdered_object.1 hordered).2
              rw [mergedPlaces]
              exact List.mem_append_right _ hplace
            · cases route with
              | none => exact leavesAt_none _
              | some path =>
                  exact leavesAt_of_free hslot hroute hobject
                    ((hfree _ (self_mem_mergedPlaces path _)).object patches rfl)
      · rintro others hothers
        obtain rfl : patches = others := by simpa using hothers
        exact hinside
  | array items ih =>
      refine ⟨fun route hpassed hfree hordered => ?_, fun members hmembers => absurd hmembers (by simp)⟩
      have hitems := leafless hpassed hordered
      intro slot hslot after hafter
      obtain rfl := Option.some.inj hafter
      have hbefore : leavesAt route (slot.getD (.object [])) = [] := by
        cases route with
        | none => exact leavesAt_none _
        | some path =>
            have hnone : whole = [] := (hfree _ (self_mem_mergedPlaces path _)).list items rfl
            refine List.eq_nil_iff_forall_not_mem.2 fun leaf hleaf => ?_
            obtain ⟨outer, houter, -⟩ := hslot.leaves leaf hleaf
            rw [hnone] at houter
            exact absurd houter List.not_mem_nil
      cases slot <;> exact hitems.kept hbefore
  | _ =>
      refine ⟨fun route hpassed hfree hordered => ?_, fun members hmembers => absurd hmembers (by simp)⟩
      rw [hpassed.route_eq_none rfl]
      intro slot _ after hafter
      obtain rfl := Option.some.inj hafter
      cases slot <;> exact kept_none _ trivial

/-- Only the empty predicate selects elements that are no objects. -/
lemma eq_nil_of_holds {predicate : Members} {element : Value} (h : holds predicate element = true)
    (hobject : element.isObject = false) : predicate = [] := by
  refine List.eq_nil_iff_forall_not_mem.2 fun entry hentry => ?_
  have hvalue := List.all_eq_true.1 h entry hentry
  obtain ⟨segment, rest, hsegments⟩ := List.exists_cons_of_ne_nil (Path.segments_ne_nil entry.1)
  have hget : element.get? segment = none := by
    cases element with
    | object members => exact absurd hobject (by simp [isObject])
    | _ => rfl
  simp [hasValue, hsegments, lookup, hget] at hvalue

/-- What may be set of an argument is in order when the argument is. -/
lemma wellOrdered_settable {payload : Members} (h : (Value.object payload).WellOrdered)
    (versionKey : String) : (Value.object (settable versionKey payload)).WellOrdered := by
  obtain ⟨hsorted, hmembers⟩ := wellOrdered_object.1 h
  exact wellOrdered_object.2
    ⟨hsorted.filter _, fun entry hentry => hmembers entry (List.mem_of_mem_filter hentry)⟩

lemma leafless_settable {payload : Members} (hroute : route ≠ some [])
    (hpassed : PassedMembers route payload) (hordered : (Value.object payload).WellOrdered) :
    Leafless route (.object (settable versionKey payload)) := by
  refine ⟨wellOrdered_settable hordered versionKey, ?_⟩
  rw [leavesAt_object hroute, leavesAtMembers_eq_flatMap, List.flatMap_eq_nil_iff]
  intro entry hentry
  exact (leaflessWhere entry.2).whole _ (hpassed.entry (List.mem_filter.1 hentry).1)

/-- A payload is merged into the first element that its predicate selects. -/
lemma keepsSlot_mergeFirst (argument : Members) {predicate payload : Members}
    (hroute : route ≠ some []) (hpassed : PassedMembers route payload)
    (hordered : (Value.object payload).WellOrdered)
    (hempty : predicate = [] → ∀ place ∈ here route (.object argument), Free whole place)
    (hfree : ∀ place ∈ mergedPlacesOfMembers route (settable versionKey payload), Free whole place) :
    KeepsSlot whole route fun slot =>
      .done (slot.map (mergeFirst predicate (settable versionKey payload))) := by
  intro slot hslot
  cases slot with
  | none => exact kept_of_none rfl
  | some target =>
      intro after hafter
      obtain rfl := Option.some.inj hafter
      cases target with
      | array items =>
          refine kept_array_of_forall₂ hroute (forall₂_onFirst
            (fun item hitem => (hslot.item hroute hitem).kept) fun item hitem hholds => ?_)
          have helement := hslot.item hroute hitem
          refine kept_merge_object (leafless_settable hroute hpassed hordered) ?_ helement
            fun hobject => ?_
          · refine (mergeKeeps whole (.object (settable versionKey payload))).inside _ rfl route hroute
              (fun entry hentry => hpassed.entry (List.mem_filter.1 hentry).1) hfree
              fun entry hentry => (wellOrdered_object.1 hordered).2 entry (List.mem_filter.1 hentry).1
          · cases route with
            | none => exact leavesAt_none _
            | some rest =>
                have hplace := hempty (eq_nil_of_holds hholds hobject) ⟨some rest, .object argument⟩
                  (by simp [here])
                exact leavesAt_of_free helement hroute hobject (hplace.object argument rfl)
      | _ => exact hslot.kept

theorem keepsSlot_set {value : Value} (hpassed : PassedAt route value)
    (hfree : ∀ place ∈ settingPlaces versionKey route value, Free whole place)
    (hordered : value.WellOrdered) : KeepsSlot whole route (setSlot versionKey path value) := by
  have hdirect := (mergeKeeps whole value).slot route hpassed
  cases value with
  | object argument =>
      unfold settingPlaces at hfree
      unfold setSlot
      dsimp only at hfree ⊢
      cases haddress : Address.ofMembers argument with
      | direct =>
          rw [haddress] at hfree
          exact hdirect hfree hordered
      | refused => exact fun slot _ => kept_of_none rfl
      | matching predicate payload =>
          obtain ⟨-, hdo⟩ := Address.of_matching haddress
          rcases payload with _ | payload
          · exact fun slot _ => kept_of_none rfl
          · cases payload with
            | object payload =>
                simp only [haddress] at hfree
                have hpayload := (wellOrdered_object.1 hordered).2 _ (Keyed.mem_of_find? hdo)
                refine keepsSlot_mergeFirst argument hpassed.route_ne (hpassed.payload hdo) hpayload
                  (fun hempty place hplace => hfree place (List.mem_append_left _ ?_))
                  fun place hplace => hfree place (List.mem_append_right _ hplace)
                rw [hempty]
                exact hplace
            | _ => exact fun slot _ => kept_of_none rfl
  | _ => exact hdirect hfree hordered

end Set

end DocumentAccess.Update
