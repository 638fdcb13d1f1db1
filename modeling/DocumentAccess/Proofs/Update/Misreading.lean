import DocumentAccess.Proofs.Update.AddressFree

/-!
# Misread addressing

Each verb recognises addressing in its argument on its own, and only where it finds a list.  Elsewhere
it takes the argument for what is to be written: it writes a member under an addressing key, copies a
value with such a key inside, or does one of these where it goes on inside a member.  That is the only
way in which a verb brings addressing into a document.

* `Update.GoesInto` — where a verb goes on inside a member, and with which part of its argument.
* `Update.Misreads` — how a verb comes to write an addressing key.
* `Update.incSlot_cases` — what `$inc` can do with an object.
* **`Update.verbFree_of`** — unless a verb misreads its argument, it stores no addressing.
-/

namespace DocumentAccess.Update

open Value

/-! ## Misreadings -/

/-- The argument under a key is for the member there, and not for one of its elements. -/
def Direct : Verb → Value → Prop
  | .set, .object argument => Keyed.find? whereKey argument = none
  | .inc, .object argument => ∀ entry ∈ argument, isAddressing entry.1 = false
  | _, _ => True

/-- Given an argument for a member, a verb goes on with some fields as its argument inside an object:
the element that the argument addresses, or the member itself, which is made if it is missing. -/
inductive GoesInto (verb : Verb) (argument : Members) : Option Value → Members → Members → Prop
  | matching {predicate fields members : Members} {items : List Value} {position : Nat}
      (haddress : Address.ofMembers argument = .matching predicate (some (.object fields)))
      (hindex : verb = .inc → Keyed.contains indexKey argument = false)
      (hfirst : FirstMatch predicate items position (.object members)) :
      GoesInto verb argument (some (.array items)) fields members
  | indexed {index : Value} {position : Nat} {fields members : Members} {items : List Value}
      (hverb : verb = .inc) (hwhere : Keyed.contains whereKey argument = false)
      (hindex : Keyed.find? indexKey argument = some index) (hposition : index.natural? = some position)
      (hdo : Keyed.find? doKey argument = some (.object fields))
      (hitem : items[position]? = some (.object members)) :
      GoesInto verb argument (some (.array items)) fields members
  | direct {slot : Option Value} {members : Members}
      (hdirect : verb = .inc → Direct verb (.object argument))
      (hslot : slot.getD (.object []) = .object members) :
      GoesInto verb argument slot argument members

/-- A verb takes addressing in its argument for something to write: it takes an addressing key for the
name of a member, copies a value with addressing inside, or does so where it goes on inside. -/
inductive Misreads (versionKey : String) : Verb → String → Value → Option Value → Prop
  /-- A member is written under an addressing key. -/
  | key {verb : Verb} {key : String} {value : Value} {slot : Option Value}
      (hkey : isAddressing key = true) (hpull : verb ≠ .pull)
      (hset : verb = .set → isProtected versionKey key = false) (hdirect : Direct verb value) :
      Misreads versionKey verb key value slot
  /-- `$set` copies its value, or merges it in. -/
  | value {key : String} {value : Value} {slot : Option Value}
      (hset : isProtected versionKey key = false) (hdirect : Direct .set value)
      (hvalue : ¬ value.AddressFree) :
      Misreads versionKey .set key value slot
  /-- `$set` merges the payload into an element. -/
  | payload {key : String} {argument predicate payload : Members} {items : List Value} {position : Nat}
      {element : Value} (hset : isProtected versionKey key = false)
      (haddress : Address.ofMembers argument = .matching predicate (some (.object payload)))
      (hfirst : FirstMatch predicate items position element)
      (hpayload : ¬ (object (settable versionKey payload)).AddressFree) :
      Misreads versionKey .set key (.object argument) (some (.array items))
  /-- `$push` and `$addToSet` copy their value into a list. -/
  | item {verb : Verb} {key : String} {argument : Members} {items : List Value}
      (hverb : verb = .push ∨ verb = .addToSet) (hwhere : Keyed.find? whereKey argument = none)
      (hvalue : ¬ (object argument).AddressFree) :
      Misreads versionKey verb key (.object argument) (some (.array items))
  /-- The verb misreads a member of its argument where it goes on. -/
  | inside {verb : Verb} {key : String} {argument fields members : Members} {slot : Option Value}
      {entry : String × Value} (hset : verb ≠ .set)
      (hinside : GoesInto verb argument slot fields members) (hentry : entry ∈ fields)
      (h : Misreads versionKey verb entry.1 entry.2 (Keyed.find? entry.1 members)) :
      Misreads versionKey verb key (.object argument) slot

section Free

variable {versionKey path key : String} {verb : Verb} {value : Value} {slot : Option Value}

lemma address_eq_direct_iff {argument : Members} :
    Address.ofMembers argument = .direct ↔ Keyed.find? whereKey argument = none := by
  unfold Address.ofMembers
  rcases Keyed.find? whereKey argument with _ | value
  · simp
  · cases value <;> simp

lemma contains_eq_false_iff {argument : Members} :
    Keyed.contains key argument = false ↔ ∀ entry ∈ argument, entry.1 ≠ key := by
  simp [Keyed.contains]

/-- `$inc` looks for each of the addressing keys. -/
lemma direct_inc_iff {argument : Members} :
    Direct .inc (.object argument) ↔ Keyed.contains indexKey argument = false ∧
      Keyed.find? whereKey argument = none ∧ Keyed.contains doKey argument = false := by
  rw [contains_eq_false_iff, contains_eq_false_iff, Keyed.find?_eq_none_iff]
  simp only [Direct, isAddressing, Bool.or_eq_false_iff, decide_eq_false_iff_not]
  constructor
  · intro h
    exact ⟨fun entry he => (h entry he).2, fun entry he => (h entry he).1.1,
      fun entry he => (h entry he).1.2⟩
  · rintro ⟨hindex, hwhere, hdo⟩ entry he
    exact ⟨⟨hwhere entry he, hdo entry he⟩, hindex entry he⟩

lemma incSlot_direct {argument : Members} (h : Direct .inc (.object argument)) (path : String)
    (slot : Option Value) :
    incSlot path (.object argument) slot
      = (onObject path (inc path argument) (slot.getD (.object []))).map some := by
  obtain ⟨hindex, hwhere, hdo⟩ := direct_inc_iff.1 h
  simp [incSlot, hindex, hdo, address_eq_direct_iff.2 hwhere]

/-- Given an object, `$inc` writes nothing, or changes an element of a list, or goes into the member. -/
lemma incSlot_cases (path : String) (argument : Members) (slot : Option Value) :
    (incSlot path (.object argument) slot).value = none ∨
    (∃ predicate fields items, slot = some (.array items) ∧
      Address.ofMembers argument = .matching predicate (some (.object fields)) ∧
      Keyed.contains indexKey argument = false) ∨
    (∃ index position payload items, slot = some (.array items) ∧
      Keyed.contains whereKey argument = false ∧ Keyed.find? indexKey argument = some index ∧
      index.natural? = some position ∧ Keyed.find? doKey argument = some payload) ∨
    Direct .inc (.object argument) := by
  by_cases hindex : Keyed.contains indexKey argument = true
  · by_cases hwhere : Keyed.contains whereKey argument = true
    · simp [incSlot, hindex, hwhere, Attempt.failed]
    · rw [Bool.not_eq_true] at hwhere
      cases hfound : Keyed.find? indexKey argument with
      | none => simp [incSlot, hindex, hwhere, hfound, Attempt.failed]
      | some index =>
          cases hposition : index.natural? with
          | none => simp [incSlot, hindex, hwhere, hfound, hposition, Attempt.failed]
          | some position =>
              cases hdo : Keyed.find? doKey argument with
              | none => simp [incSlot, hindex, hwhere, hfound, hposition, hdo, Attempt.failed]
              | some payload =>
                  rcases slot with _ | existing
                  · simp [incSlot, hindex, hwhere, hfound, hposition, hdo, inArray, Attempt.done]
                  · cases existing with
                    | array items =>
                        exact Or.inr (Or.inr (Or.inl
                          ⟨index, position, payload, items, rfl, hwhere, rfl, hposition, rfl⟩))
                    | _ =>
                        simp [incSlot, hindex, hwhere, hfound, hposition, hdo, inArray, Attempt.done]
  · rw [Bool.not_eq_true] at hindex
    cases haddress : Address.ofMembers argument with
    | direct =>
        by_cases hdo : Keyed.contains doKey argument = true
        · simp [incSlot, hindex, haddress, hdo, Attempt.failed]
        · rw [Bool.not_eq_true] at hdo
          exact Or.inr (Or.inr (Or.inr
            (direct_inc_iff.2 ⟨hindex, address_eq_direct_iff.1 haddress, hdo⟩)))
    | refused => simp [incSlot, hindex, haddress, Attempt.failed]
    | matching predicate payload =>
        rcases payload with _ | payload
        · simp [incSlot, hindex, haddress, Attempt.failed]
        · cases payload with
          | object fields =>
              rcases slot with _ | existing
              · simp [incSlot, hindex, haddress, inArray, Attempt.done]
              · cases existing with
                | array items => exact Or.inr (Or.inl ⟨predicate, fields, items, rfl, rfl, hindex⟩)
                | _ => simp [incSlot, hindex, haddress, inArray, Attempt.done]
          | _ => simp [incSlot, hindex, haddress, Attempt.failed]

/-- Unless a verb misreads its argument, it writes nothing under an addressing key. -/
lemma verbSlot_addressingKey (hkey : isAddressing key = true)
    (h : ¬ Misreads versionKey verb key value none) (path : String) :
    (verbSlot versionKey verb path key value none).value = none := by
  cases verb with
  | set =>
      by_cases hset : isProtected versionKey key = true
      · simp [verbSlot, hset, Attempt.done]
      · have hdirect : ¬ Direct .set value :=
          fun hdirect => h (.key hkey (by simp) (fun _ => by simpa using hset) hdirect)
        rw [Bool.not_eq_true] at hset
        cases value with
        | object argument =>
            simp only [verbSlot, hset, setSlot]
            cases haddress : Address.ofMembers argument with
            | direct => exact absurd (address_eq_direct_iff.1 haddress) hdirect
            | matching predicate payload =>
                rcases payload with _ | payload
                · rfl
                · cases payload <;> rfl
            | refused => rfl
        | _ => exact absurd trivial hdirect
  | inc =>
      have hdirect : ¬ Direct .inc value := fun hdirect => h (.key hkey (by simp) (by simp) hdirect)
      cases value with
      | object argument =>
          rcases incSlot_cases (Path.join path key) argument none with
            hnone | ⟨_, _, _, hslot, -⟩ | ⟨_, _, _, _, hslot, -⟩ | hinside
          · exact hnone
          · simp at hslot
          · simp at hslot
          · exact absurd hinside hdirect
      | _ => exact absurd trivial hdirect
  | pull => cases value <;> rfl
  | _ => exact absurd (.key hkey (by simp) (by simp) (by cases value <;> trivial)) h

/-! ## What each verb writes -/

lemma slotFree_set (hslot : SlotFree slot) (h : ¬ Misreads versionKey .set key value slot)
    (path : String) : SlotFree (verbSlot versionKey .set path key value slot).value := by
  by_cases hset : isProtected versionKey key = true
  · simp [verbSlot, hset, Attempt.done, slotFree_none]
  · rw [Bool.not_eq_true] at hset
    have hvalue : Direct .set value → value.AddressFree := by
      intro hdirect
      by_contra hvalue
      exact h (.value hset hdirect hvalue)
    rw [verbSlot, hset]
    cases value with
    | object argument =>
        simp only [Bool.false_eq_true, if_false, setSlot]
        cases haddress : Address.ofMembers argument with
        | direct =>
            exact slotFree_some.2 (slotFree_merged hslot (hvalue (address_eq_direct_iff.1 haddress)))
        | refused => exact slotFree_none
        | matching predicate payload =>
            rcases payload with _ | payload
            · exact slotFree_none
            · cases payload with
              | object payload =>
                  refine slotFree_mergeFirst hslot ?_
                  rintro items rfl position element hfirst
                  by_contra hpayload
                  exact h (.payload hset haddress hfirst hpayload)
              | _ => exact slotFree_none
    | _ => exact slotFree_some.2 (slotFree_merged hslot (hvalue trivial))

/-- Where a verb goes on, it keeps addressing out of an object. -/
def InsideFree (versionKey : String) (verb : Verb) (argument : Members) (slot : Option Value) : Prop :=
  ∀ fields members, GoesInto verb argument slot fields members → (object members).AddressFree →
    ∀ path, (object (each (verbStep versionKey verb path) fields members).value).AddressFree

lemma slotFree_addressed {argument predicate fields : Members} {items : List Value}
    (hitems : (array items).AddressFree)
    (haddress : Address.ofMembers argument = .matching predicate (some (.object fields)))
    (hinc : verb = .inc → Keyed.contains indexKey argument = false) (hset : verb ≠ .set)
    (hinside : InsideFree versionKey verb argument (some (.array items))) (path : String) :
    SlotFree (verbSlot versionKey verb path key (.object argument) (some (.array items))).value := by
  rw [verbSlot_matching haddress (fun h => absurd h hset) hinc]
  refine slotFree_some.2 (addressFree_onFirst hitems fun position element hfirst => ?_)
  have helement := addressFree_array.1 hitems _ (List.mem_of_getElem? hfirst.found)
  have hchange : elementChange versionKey verb (Path.join path key) fields element
      = applyVerb versionKey verb (Path.join path key) (.object fields) element := by
    cases verb with
    | set => exact absurd rfl hset
    | _ => rfl
  rw [hchange]
  cases element with
  | object members =>
      rw [applyVerb_object]
      exact hinside fields members (.matching haddress hinc hfirst) helement _
  | _ => exact helement

lemma slotFree_onObject {argument members : Members} (hslot : SlotFree slot)
    (hdirect : verb = .inc → Direct verb (.object argument))
    (hinside : InsideFree versionKey verb argument slot)
    (hmembers : slot.getD (.object []) = .object members) (path : String) :
    (object (each (verbStep versionKey verb path) argument members).value).AddressFree :=
  hinside argument members (.direct hdirect hmembers) (hmembers ▸ hslot.getD) path

lemma slotFree_inc {argument : Members} (hslot : SlotFree slot)
    (hinside : InsideFree versionKey .inc argument slot) (path : String) :
    SlotFree (verbSlot versionKey .inc path key (.object argument) slot).value := by
  rcases incSlot_cases (Path.join path key) argument slot with
    hnone | ⟨predicate, fields, items, rfl, haddress, hindex⟩ |
      ⟨index, position, payload, items, rfl, hwhere, hindex, hposition, hdo⟩ | hdirect
  · rw [verbSlot, hnone]
    exact slotFree_none
  · exact slotFree_addressed (slotFree_some.1 hslot) haddress (fun _ => hindex) (by simp) hinside path
  · rw [verbSlot, incSlot_indexed versionKey _ hindex hwhere hdo, hposition]
    have hitems := slotFree_some.1 hslot
    refine slotFree_some.2 (addressFree_onIndex hitems fun element hitem => ?_)
    have helement := addressFree_array.1 hitems _ (List.mem_of_getElem? hitem)
    cases payload with
    | number delta => exact addressFree_addTo helement
    | object fields =>
        cases element with
        | object members =>
            rw [indexedChange, applyVerb_object]
            exact hinside fields members (.indexed rfl hwhere hindex hposition hdo hitem) helement _
        | _ => exact helement
    | _ => exact helement
  · rw [verbSlot, incSlot_direct hdirect]
    refine slotFree_some.2 (addressFree_onObject hslot.getD fun members hmembers => ?_)
    rw [inc_eq_each versionKey]
    exact slotFree_onObject hslot (fun _ => hdirect) hinside hmembers _

/-- Outside lists `$push`, `$addToSet` and `$pull` go on inside the value, if it is an object. -/
lemma slotFree_descends {argument : Members} (hverb : verb ≠ .set ∧ verb ≠ .inc)
    (hvalue : SlotFree (some value)) (harray : ∀ items, value ≠ .array items)
    (hinside : InsideFree versionKey verb argument (some value)) (path : String) :
    SlotFree (verbSlot versionKey verb path key (.object argument) (some value)).value := by
  rw [verbSlot_descends hverb harray]
  cases value with
  | object members =>
      rw [applyVerb_object]
      exact slotFree_some.2 (slotFree_onObject hvalue (fun h => absurd h hverb.2) hinside rfl _)
  | _ => exact hvalue

lemma verbSlot_appendVerb (unique : Bool) (versionKey path key : String) (value : Value) :
    verbSlot versionKey (appendVerb unique) path key value
      = appendSlot unique (Path.join path key) value := by
  cases unique <;> rfl

lemma appendVerb_ne (unique : Bool) : appendVerb unique ≠ .set ∧ appendVerb unique ≠ .inc := by
  cases unique <;> simp [appendVerb]

/-- Given an object for a list, `$push` and `$addToSet` write nothing, or change an element, or append
the object. -/
lemma appendSlot_cases (unique : Bool) (path : String) (argument : Members) (items : List Value) :
    (appendSlot unique path (.object argument) (some (.array items))).value = none ∨
    (∃ predicate fields, Address.ofMembers argument = .matching predicate (some (.object fields))) ∨
    Address.ofMembers argument = .direct := by
  cases haddress : Address.ofMembers argument with
  | direct => exact Or.inr (Or.inr rfl)
  | refused => simp [appendSlot, haddress, Attempt.failed]
  | matching predicate payload =>
      rcases payload with _ | payload
      · simp [appendSlot, haddress, Attempt.failed]
      · cases payload with
        | object fields => exact Or.inr (Or.inl ⟨predicate, fields, rfl⟩)
        | _ => simp [appendSlot, haddress, Attempt.failed]

lemma slotFree_append (unique : Bool) {argument : Members} (hslot : SlotFree slot)
    (hinside : InsideFree versionKey (appendVerb unique) argument slot)
    (hitem : ∀ items, slot = some (.array items) → Keyed.find? whereKey argument = none →
      (object argument).AddressFree) (path : String) :
    SlotFree (verbSlot versionKey (appendVerb unique) path key (.object argument) slot).value := by
  obtain ⟨hset, hinc⟩ := appendVerb_ne unique
  rcases slot with _ | existing
  · have hchild := slotFree_onObject hslot (fun h => absurd h hinc) hinside rfl (Path.join path key)
    rw [← append_eq_each] at hchild
    rw [verbSlot_appendVerb, appendSlot]
    rcases happend : append unique (Path.join path key) argument [] with ⟨child, _ | error⟩
    · rw [happend] at hchild
      exact slotFree_some.2 hchild
    · exact slotFree_none
  · cases existing with
    | array items =>
        have hitems := slotFree_some.1 hslot
        rcases appendSlot_cases unique (Path.join path key) argument items with
          hnone | ⟨predicate, fields, haddress⟩ | haddress
        · rw [verbSlot_appendVerb, hnone]
          exact slotFree_none
        · exact slotFree_addressed hitems haddress (fun h => absurd h hinc) hset hinside path
        · rw [verbSlot_appendVerb]
          simp only [appendSlot, haddress]
          refine slotFree_some.2 (addressFree_extend unique hitems ?_)
          exact ⟨hitem items rfl (address_eq_direct_iff.1 haddress), trivial⟩
    | _ => exact slotFree_descends ⟨hset, hinc⟩ hslot (by simp) hinside path

lemma slotFree_pull {argument : Members} (hslot : SlotFree slot)
    (hinside : InsideFree versionKey .pull argument slot) (path : String) :
    SlotFree (verbSlot versionKey .pull path key (.object argument) slot).value := by
  rcases slot with _ | existing
  · exact slotFree_none
  · cases existing with
    | array items =>
        have hitems := slotFree_some.1 hslot
        cases haddress : Address.ofMembers argument with
        | direct =>
            simp only [verbSlot, pullSlot, haddress]
            exact slotFree_some.2 (addressFree_sublist hitems List.filter_sublist.subset)
        | refused =>
            simp only [verbSlot, pullSlot, haddress]
            exact slotFree_none
        | matching predicate payload =>
            rcases payload with _ | payload
            · simp only [verbSlot, pullSlot, haddress]
              refine slotFree_some.2 (addressFree_sublist hitems ?_)
              rw [eraseFirst_eq_eraseP]
              exact List.eraseP_subset
            · cases payload with
              | object fields =>
                  exact slotFree_addressed hitems haddress (by simp) (by simp) hinside path
              | _ =>
                  simp only [verbSlot, pullSlot, haddress]
                  refine slotFree_some.2 (addressFree_onFirst hitems fun position element hfirst => ?_)
                  exact addressFree_array.1 hitems _ (List.mem_of_getElem? hfirst.found)
    | _ => exact slotFree_descends (by simp) hslot (by simp) hinside path

/-! ### Values that are no objects -/

lemma slotFree_extendSlot (hslot : SlotFree slot) (hvalue : value.AddressFree) (unique : Bool)
    (path : String) : SlotFree (extendSlot unique path value slot).value := by
  have hvalues := addressFree_asValues hvalue
  rcases slot with _ | existing
  · exact slotFree_some.2 (addressFree_extend unique trivial hvalues)
  · cases existing with
    | array items => exact slotFree_some.2 (addressFree_extend unique (slotFree_some.1 hslot) hvalues)
    | _ => exact slotFree_none

lemma slotFree_withoutSlot (hslot : SlotFree slot) (path : String) (value : Value) :
    SlotFree (withoutSlot path value slot).value := by
  rcases slot with _ | existing
  · exact slotFree_none
  · cases existing with
    | array items =>
        exact slotFree_some.2 (addressFree_sublist (slotFree_some.1 hslot) List.filter_sublist.subset)
    | _ => exact slotFree_none

lemma slotFree_addSlot (hslot : SlotFree slot) (path : String) (delta : Number) :
    SlotFree (addSlot path delta slot).value := by
  have hcurrent : (slot.getD (.ofNat 0)).AddressFree := by
    rcases slot with _ | existing
    · trivial
    · exact slotFree_some.1 hslot
  have hsum : (addTo path delta (slot.getD (.ofNat 0))).value.AddressFree := addressFree_addTo hcurrent
  unfold addSlot
  rcases hadd : addTo path delta (slot.getD (.ofNat 0)) with ⟨sum, _ | error⟩
  · rw [hadd] at hsum
    exact slotFree_some.2 hsum
  · exact slotFree_none

/-- A value that is no object is added to a member without addressing. -/
lemma slotFree_value (hslot : SlotFree slot) (hvalue : value.AddressFree)
    (hobject : value.isObject = false) (hset : verb ≠ .set) (path : String) :
    SlotFree (verbSlot versionKey verb path key value slot).value := by
  cases verb with
  | set => exact absurd rfl hset
  | inc =>
      cases value with
      | number delta => exact slotFree_addSlot hslot _ delta
      | object argument => simp [isObject] at hobject
      | _ => exact slotFree_none
  | pull =>
      cases value with
      | object argument => simp [isObject] at hobject
      | _ => exact slotFree_withoutSlot hslot _ _
  | _ =>
      cases value with
      | object argument => simp [isObject] at hobject
      | _ => exact slotFree_extendSlot hslot hvalue _ _

/-! ### Every verb -/

/-- What a verb makes of a member stays free of addressing, unless the verb misreads its argument. -/
def VerbFree (versionKey : String) (verb : Verb) (value : Value) : Prop :=
  ∀ path key slot, SlotFree slot → ¬ Misreads versionKey verb key value slot →
    SlotFree (verbSlot versionKey verb path key value slot).value

/-- So does the object, when a verb misreads no member of its whole argument. -/
def ArgumentFree (versionKey : String) (verb : Verb) (argument : Members) : Prop :=
  ∀ doc, (object doc).AddressFree →
    (∀ entry ∈ argument, ¬ Misreads versionKey verb entry.1 entry.2 (Keyed.find? entry.1 doc)) →
    ∀ path, (object (each (verbStep versionKey verb path) argument doc).value).AddressFree

lemma argumentFree_of_values {argument : Members} (hargument : (argument.map Prod.fst).Nodup)
    (hvalues : ∀ entry ∈ argument, VerbFree versionKey verb entry.2) :
    ArgumentFree versionKey verb argument := by
  intro doc hdoc h path
  rw [addressFree_object]
  rintro ⟨key, after⟩ hafter
  rcases mem_each hargument hafter with hbefore | ⟨value, hvalue, hwritten⟩
  · exact addressFree_object.1 hdoc _ hbefore
  · have hread := h (key, value) hvalue
    constructor
    · by_contra hkey
      rw [Bool.not_eq_false] at hkey
      rw [hdoc.find?_eq_none hkey] at hread hwritten
      rw [verbSlot_addressingKey hkey hread] at hwritten
      simp at hwritten
    · exact hvalues _ hvalue path key _ (fun existing hexisting => (hdoc.find? hexisting).2) hread
        after hwritten

/-- A verb goes on with its argument, or with the payload in it. -/
lemma insideFree {argument : Members} (hset : verb ≠ .set)
    (hargument : ArgumentFree versionKey verb argument)
    (hpayload : ∀ fields, Keyed.find? doKey argument = some (.object fields) →
      ArgumentFree versionKey verb fields)
    (h : ¬ Misreads versionKey verb key (.object argument) slot) :
    InsideFree versionKey verb argument slot := by
  intro fields members hgoes hmembers path
  have hread : ∀ entry ∈ fields,
      ¬ Misreads versionKey verb entry.1 entry.2 (Keyed.find? entry.1 members) :=
    fun entry hentry hmisreads => h (.inside hset hgoes hentry hmisreads)
  cases hgoes with
  | matching haddress hindex hfirst =>
      exact hpayload fields (Address.of_matching haddress).2 members hmembers hread path
  | indexed hverb hwhere hindex hposition hdo hitem =>
      exact hpayload fields hdo members hmembers hread path
  | direct hdirect hslot => exact hargument members hmembers hread path

/-- **Unless a verb misreads its argument, it stores no addressing.** -/
theorem verbFree_of {value : Value} (hordered : value.WellOrdered) (hlists : value.ListsAddressFree) :
    VerbFree versionKey verb value ∧
      ∀ argument, value = .object argument → ArgumentFree versionKey verb argument := by
  -- a payload stands one level below the members, so they carry the statement about arguments along
  induction value using Value.inductionOn with
  | object argument ih =>
      obtain ⟨hsorted, hvalues⟩ := wellOrdered_object.1 hordered
      have hfree := listsAddressFree_object.1 hlists
      have hargument : ArgumentFree versionKey verb argument :=
        argumentFree_of_values hsorted.nodup_keys fun entry he =>
          (ih entry he (hvalues entry he) (hfree entry he)).1
      have hpayload : ∀ fields, Keyed.find? doKey argument = some (.object fields) →
          ArgumentFree versionKey verb fields := by
        intro fields hdo
        have hmem := Keyed.mem_of_find? hdo
        exact (ih _ hmem (hvalues _ hmem) (hfree _ hmem)).2 fields rfl
      refine ⟨fun path key slot hslot h => ?_, ?_⟩
      · have hinside : verb ≠ .set → InsideFree versionKey verb argument slot :=
          fun hset => insideFree hset hargument hpayload h
        cases verb with
        | set => exact slotFree_set hslot h path
        | inc => exact slotFree_inc hslot (hinside (by simp)) path
        | pull => exact slotFree_pull hslot (hinside (by simp)) path
        | push =>
            refine slotFree_append false hslot (hinside (by simp)) (fun items hitems hwhere => ?_) path
            by_contra hvalue
            exact h (hitems ▸ .item (.inl rfl) hwhere hvalue)
        | addToSet =>
            refine slotFree_append true hslot (hinside (by simp)) (fun items hitems hwhere => ?_) path
            by_contra hvalue
            exact h (hitems ▸ .item (.inr rfl) hwhere hvalue)
      · rintro _ ⟨⟩
        exact hargument
  | _ =>
      refine ⟨fun path key slot hslot h => ?_, fun argument hargument => by simp at hargument⟩
      by_cases hset : verb = .set
      · subst hset
        exact slotFree_set hslot h path
      · exact slotFree_value hslot (addressFree_of_lists hlists rfl) rfl hset path

end Free

end DocumentAccess.Update
