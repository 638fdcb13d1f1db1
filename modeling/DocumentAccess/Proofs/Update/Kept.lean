import DocumentAccess.Proofs.Leaves
import DocumentAccess.Proofs.Update.Steps

/-!
# Changes that keep the leaves along a route

A step of a command keeps the leaves along a route when the value that it makes of a member has the
leaves that the member had; a missing member has none.  This is carried from slots to objects and
lists, from steps to sequences, and to what the verbs do with lists.  Steps insert members, so
documents have to be well ordered, and stay so.

* `Update.Kept` — a value after a change, with the leaves of the value before.
* `Update.Held` — what is known of a value before a change: its leaves lie in lists that the leaves of
  the whole document lie in.
* `Update.Keeps`, `Update.KeepsSlot` — the changes of objects, and of slots, that keep leaves.
* **`Update.keeps_each`** — a sequence keeps the leaves that its steps keep.
-/

namespace DocumentAccess.Update

open Value

/-- The value after a change has the leaves along a route that were there before. -/
structure Kept (route : Route) (before after : Value) : Prop where
  ordered : after.WellOrdered
  leaves : leavesAt route after = leavesAt route before

/-- A well-ordered part of a document: its leaves along a route lie in lists that leaves of the whole
document lie in. -/
structure Held (whole : List Leaf) (route : Route) (value : Value) : Prop where
  ordered : value.WellOrdered
  leaves : ∀ leaf ∈ leavesAt route value, ∃ outer ∈ whole, leaf.lists ⊆ outer.lists

/-- A change of an object that keeps the leaves along a route. -/
def Keeps (whole : List Leaf) (route : Route) (change : Members → Attempt Members) : Prop :=
  ∀ doc, Held whole route (.object doc) → Kept route (.object doc) (.object (change doc).value)

/-- A change of a member that keeps the leaves along the route at the member; a missing member is like
one without leaves. -/
def KeepsSlot (whole : List Leaf) (route : Route) (treat : Option Value → Attempt (Option Value)) :
    Prop :=
  ∀ slot, Held whole route (slot.getD (.object [])) →
    ∀ after, (treat slot).value = some after → Kept route (slot.getD (.object [])) after

section Kept

variable {whole : List Leaf} {route : Route}

lemma Held.kept {value : Value} (h : Held whole route value) : Kept route value value :=
  ⟨h.ordered, rfl⟩

lemma Kept.trans {a b c : Value} (hab : Kept route a b) (hbc : Kept route b c) : Kept route a c :=
  ⟨hbc.ordered, hbc.leaves.trans hab.leaves⟩

lemma Held.of_kept {before after : Value} (h : Held whole route before)
    (hkept : Kept route before after) : Held whole route after :=
  ⟨hkept.ordered, by rw [hkept.leaves]; exact h.leaves⟩

/-- Off the path there is only the order to keep. -/
lemma kept_none (before : Value) {after : Value} (h : after.WellOrdered) : Kept none before after :=
  ⟨h, by rw [leavesAt_none, leavesAt_none]⟩

/-! ## Members -/

lemma leavesAt_empty (h : route ≠ some []) : leavesAt route (.object []) = [] :=
  leavesAt_object h []

lemma held_empty (h : route ≠ some []) : Held whole route (.object []) := by
  refine ⟨wellOrdered_object.2 ⟨List.Pairwise.nil, by simp⟩, ?_⟩
  rw [leavesAt_empty h]
  simp

/-- A member is held when the object around it is. -/
lemma Held.member {doc : Members} (h : Held whole route (.object doc)) (hroute : route ≠ some [])
    {key : String} (hkey : route.below key ≠ some []) :
    Held whole (route.below key) ((Keyed.find? key doc).getD (.object [])) := by
  cases hslot : Keyed.find? key doc with
  | none => exact held_empty hkey
  | some value =>
      have hmem := Keyed.mem_of_find? hslot
      refine ⟨(wellOrdered_object.1 h.ordered).2 _ hmem, fun leaf hleaf => h.leaves leaf ?_⟩
      rw [leavesAt_object hroute, leavesAtMembers_eq_flatMap]
      exact List.mem_flatMap.2 ⟨(key, value), hmem, hleaf⟩

lemma kept_insert {doc : Members} (h : (Value.object doc).WellOrdered) (hroute : route ≠ some [])
    {key : String} (hkey : route.below key ≠ some []) {value : Value}
    (hvalue : Kept (route.below key) ((Keyed.find? key doc).getD (.object [])) value) :
    Kept route (.object doc) (.object (Keyed.insert key value doc)) := by
  obtain ⟨hsorted, hmembers⟩ := wellOrdered_object.1 h
  refine ⟨wellOrdered_object.2 ⟨hsorted.insert key value, fun entry hentry => ?_⟩, ?_⟩
  · rcases Keyed.mem_insert hentry with rfl | hentry
    · exact hvalue.ordered
    · exact hmembers entry hentry
  · rw [leavesAt_object hroute, leavesAt_object hroute]
    refine leavesAtMembers_insert hsorted key value ?_
    rw [hvalue.leaves]
    cases Keyed.find? key doc with
    | none => exact leavesAt_empty hkey
    | some value => rfl

/-- A step keeps leaves when it does so at the member that it treats. -/
lemma keeps_atSlot (hroute : route ≠ some []) {key : String} (hkey : route.below key ≠ some [])
    {treat : Option Value → Attempt (Option Value)} (h : KeepsSlot whole (route.below key) treat) :
    Keeps whole route (atSlot key treat) := by
  intro doc hdoc
  show Kept route (.object doc) (.object (put key doc (treat (Keyed.find? key doc)).value))
  cases hafter : (treat (Keyed.find? key doc)).value with
  | none => exact hdoc.kept
  | some after =>
      exact kept_insert hdoc.ordered hroute hkey (h _ (hdoc.member hroute hkey) after hafter)

lemma keeps_done (whole : List Leaf) (route : Route) : Keeps whole route .done :=
  fun _ hdoc => hdoc.kept

lemma keeps_failed (whole : List Leaf) (route : Route) (error : UpdateError) :
    Keeps whole route fun doc => .failed doc error :=
  fun _ hdoc => hdoc.kept

/-- **A sequence keeps the leaves that its steps keep**, even when one of them fails. -/
theorem keeps_each {step : String → Value → Members → Attempt Members} {argument : Members}
    (h : ∀ entry ∈ argument, Keeps whole route (step entry.1 entry.2)) :
    Keeps whole route (each step argument) := by
  intro doc hdoc
  exact each_induction (motive := fun after => Kept route (.object doc) (.object after))
    (fun entry hentry after hafter => hafter.trans (h entry hentry after (hdoc.of_kept hafter)))
    hdoc.kept

/-- A change of objects, made to any value: what is no object stays as it is. -/
lemma Keeps.onObject {change : Members → Attempt Members} (h : Keeps whole route change)
    (path : String) {value : Value} (hvalue : Held whole route value) :
    Kept route value (Update.onObject path change value).value := by
  cases value with
  | object doc => exact h doc hvalue
  | _ => exact hvalue.kept

/-! ## Slots -/

/-- Where nothing is written, nothing is changed. -/
lemma kept_of_none {before : Value} {attempt : Attempt (Option Value)} (h : attempt.value = none) :
    ∀ after, attempt.value = some after → Kept route before after :=
  fun after hafter => absurd hafter (by simp [h])

/-- A change of objects, made to a member that becomes an object when it is missing. -/
lemma Keeps.slot {change : Members → Attempt Members} (h : Keeps whole route change) (path : String) :
    KeepsSlot whole route fun slot =>
      (Update.onObject path change (slot.getD (.object []))).map some := by
  intro slot hslot after hafter
  obtain rfl := Option.some.inj hafter
  exact h.onObject path hslot

/-! ## Lists -/

lemma Held.item {items : List Value} (h : Held whole route (.array items)) (hroute : route ≠ some [])
    {item : Value} (hitem : item ∈ items) : Held whole route item := by
  refine ⟨wellOrdered_array.1 h.ordered item hitem, fun leaf hleaf => ?_⟩
  obtain ⟨outer, houter, hlists⟩ := h.leaves _ (mem_leavesAt_array hroute hitem hleaf)
  exact ⟨outer, houter, List.Subset.trans (List.subset_cons_self route leaf.lists) hlists⟩

/-- A list keeps the leaves that its items keep together. -/
lemma kept_array (hroute : route ≠ some []) {items changed : List Value}
    (hordered : ∀ item ∈ changed, item.WellOrdered)
    (hleaves : changed.flatMap (leavesAt route) = items.flatMap (leavesAt route)) :
    Kept route (.array items) (.array changed) := by
  refine ⟨wellOrdered_array.2 hordered, ?_⟩
  rw [leavesAt_array hroute, leavesAt_array hroute, leavesAtItems_eq_flatMap,
    leavesAtItems_eq_flatMap, hleaves]

lemma kept_array_of_forall₂ (hroute : route ≠ some []) {items changed : List Value}
    (h : List.Forall₂ (Kept route) items changed) : Kept route (.array items) (.array changed) := by
  refine kept_array hroute ?_ ?_
  · induction h with
    | nil => simp
    | cons hhead _ ih => exact List.forall_mem_cons.2 ⟨hhead.ordered, ih⟩
  · induction h with
    | nil => rfl
    | cons hhead _ ih => rw [List.flatMap_cons, List.flatMap_cons, hhead.leaves, ih]

lemma forall₂_onFirst {test : Value → Bool} {change : Value → Attempt Value} {items : List Value}
    (hsame : ∀ item ∈ items, Kept route item item)
    (hchange : ∀ item ∈ items, test item = true → Kept route item (change item).value) :
    List.Forall₂ (Kept route) items (Attempt.onFirst test change items).value := by
  induction items with
  | nil => exact List.Forall₂.nil
  | cons item rest ih =>
      obtain ⟨hitem, hrest⟩ := List.forall_mem_cons.1 hsame
      rw [Attempt.onFirst]
      by_cases htest : test item = true
      · rw [if_pos htest]
        exact List.Forall₂.cons (hchange item List.mem_cons_self htest)
          (List.forall₂_same.2 hrest)
      · rw [if_neg htest]
        exact List.Forall₂.cons hitem
          (ih hrest fun other hother => hchange other (List.mem_cons_of_mem _ hother))

lemma forall₂_onIndex {change : Value → Attempt Value} {items : List Value} (position : Nat)
    (hsame : ∀ item ∈ items, Kept route item item)
    (hchange : ∀ item ∈ items, Kept route item (change item).value) :
    List.Forall₂ (Kept route) items (Attempt.onIndex change position items).value := by
  induction items generalizing position with
  | nil => cases position <;> exact List.Forall₂.nil
  | cons item rest ih =>
      obtain ⟨hitem, hrest⟩ := List.forall_mem_cons.1 hsame
      cases position with
      | zero =>
          exact List.Forall₂.cons (hchange item List.mem_cons_self) (List.forall₂_same.2 hrest)
      | succ position =>
          exact List.Forall₂.cons hitem (ih position hrest fun other hother =>
            hchange other (List.mem_cons_of_mem _ hother))

lemma keepsSlot_inArray (hroute : route ≠ some []) {change : List Value → Attempt (List Value)}
    (h : ∀ items, Held whole route (.array items) →
      List.Forall₂ (Kept route) items (change items).value) :
    KeepsSlot whole route (inArray change) := by
  rintro (_ | value) hslot after hafter
  · exact absurd hafter (by simp [inArray, Attempt.done])
  · cases value with
    | array items =>
        obtain rfl := Option.some.inj hafter
        exact kept_array_of_forall₂ hroute (h items hslot)
    | _ => exact absurd hafter (by simp [inArray, Attempt.done])

/-- A change of the first element that a predicate selects. -/
lemma keepsSlot_onFirst (hroute : route ≠ some []) {test : Value → Bool}
    {change : Value → Attempt Value}
    (h : ∀ item, Held whole route item → Kept route item (change item).value) :
    KeepsSlot whole route (inArray (Attempt.onFirst test change)) :=
  keepsSlot_inArray hroute fun _ hitems => forall₂_onFirst
    (fun _ hitem => (hitems.item hroute hitem).kept)
    fun item hitem _ => h item (hitems.item hroute hitem)

/-- A change of the element at a position. -/
lemma keepsSlot_onIndex (hroute : route ≠ some []) (position : Nat) {change : Value → Attempt Value}
    (h : ∀ item, Held whole route item → Kept route item (change item).value) :
    KeepsSlot whole route (inArray (Attempt.onIndex change position)) :=
  keepsSlot_inArray hroute fun _ hitems => forall₂_onIndex position
    (fun _ hitem => (hitems.item hroute hitem).kept)
    fun item hitem => h item (hitems.item hroute hitem)

/-! ## Values without leaves -/

/-- A value that brings no leaves along a route. -/
structure Leafless (route : Route) (value : Value) : Prop where
  ordered : value.WellOrdered
  leaves : leavesAt route value = []

lemma Leafless.kept {before after : Value} (h : Leafless route after)
    (hbefore : leavesAt route before = []) : Kept route before after :=
  ⟨h.ordered, h.leaves.trans hbefore.symm⟩

/-- The values that `$push` takes from an argument without leaves have none. -/
lemma Leafless.asValues (hroute : route ≠ some []) {value : Value} (h : Leafless route value) :
    ∀ item ∈ asValues value, Leafless route item := by
  cases value with
  | array items =>
      have hleaves := h.leaves
      rw [leavesAt_array hroute, leavesAtItems_eq_flatMap, List.map_eq_nil_iff,
        List.flatMap_eq_nil_iff] at hleaves
      exact fun item hitem => ⟨wellOrdered_array.1 h.ordered item hitem, hleaves item hitem⟩
  | _ => exact fun item hitem => (List.mem_singleton.1 hitem) ▸ h

/-- Extending a list by values without leaves. -/
lemma kept_extend (hroute : route ≠ some []) (unique : Bool) {values : List Value}
    (hvalues : ∀ value ∈ values, Leafless route value) {items : List Value}
    (hitems : ∀ item ∈ items, item.WellOrdered) :
    Kept route (.array items) (.array (extend unique items values)) := by
  induction values generalizing items with
  | nil => exact ⟨wellOrdered_array.2 hitems, rfl⟩
  | cons value rest ih =>
      obtain ⟨hvalue, hrest⟩ := List.forall_mem_cons.1 hvalues
      rw [extend]
      by_cases hpresent : (unique && items.contains value) = true
      · rw [if_pos hpresent]
        exact ih hrest hitems
      · rw [if_neg hpresent]
        have hextended : ∀ item ∈ items ++ [value], item.WellOrdered := by
          intro item hitem
          rcases List.mem_append.1 hitem with hitem | hitem
          · exact hitems item hitem
          · exact List.mem_singleton.1 hitem ▸ hvalue.ordered
        refine Kept.trans (kept_array hroute hextended ?_) (ih hrest hextended)
        simp [hvalue.leaves]

/-- Taking values without leaves out of a list. -/
lemma kept_without (hroute : route ≠ some []) {values : List Value}
    (hvalues : ∀ value ∈ values, Leafless route value) {items : List Value}
    (hitems : ∀ item ∈ items, item.WellOrdered) :
    Kept route (.array items) (.array (without values items)) := by
  refine kept_array hroute (fun item hitem => hitems item (List.mem_filter.1 hitem).1) ?_
  clear hitems
  induction items with
  | nil => rfl
  | cons item rest ih =>
      rw [without] at ih ⊢
      by_cases hequal : values.contains item = true
      · obtain ⟨value, hvalue, hbeq⟩ := List.contains_iff_exists_mem_beq.1 hequal
        have hnil := leavesAt_eq_nil_of_beq hbeq (hvalues value hvalue).leaves
        rw [List.filter_cons_of_neg (by simpa using hequal), ih, List.flatMap_cons, hnil,
          List.nil_append]
      · rw [List.filter_cons_of_pos (by simpa using hequal), List.flatMap_cons, ih, List.flatMap_cons]

lemma eraseFirst_eq_eraseP (test : Value → Bool) (items : List Value) :
    eraseFirst test items = items.eraseP test := by
  induction items with
  | nil => rfl
  | cons item rest ih => rw [eraseFirst, List.eraseP_cons, ih, Bool.cond_eq_ite]

end Kept

end DocumentAccess.Update
