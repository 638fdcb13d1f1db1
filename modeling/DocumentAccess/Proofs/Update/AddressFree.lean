import DocumentAccess.Proofs.Update.Elements
import DocumentAccess.Proofs.Update.Merging

/-!
# Values without addressing

The keys `_$where_`, `_$do_` and `_$index_` say which element of a list an argument speaks about; they
are not meant for documents.  The parts that the verbs are made of — insertion, merging, changes of an
element, extension of lists — bring no such key into a document when what they add has none.

* `Value.AddressFree` — no object inside has an addressing key.
* `Value.ListsAddressFree` — no list inside has one; an argument may still address elements.
* `Update.addressFree_merge`, `Update.not_addressFree_merge` — merging adds the addressing of the patch,
  and no other.
* `Update.SlotFree` — a member, present or missing, without addressing.
-/

namespace DocumentAccess

/-- A key that belongs to the addressing of an argument. -/
def isAddressing (key : String) : Bool :=
  key = whereKey || key = doKey || key = indexKey

namespace Value

/-! ## Values without addressing -/

mutual

/-- No object inside has an addressing key. -/
def AddressFree : Value → Prop
  | .array items => AddressFreeItems items
  | .object members => AddressFreeMembers members
  | _ => True

def AddressFreeItems : List Value → Prop
  | [] => True
  | item :: rest => AddressFree item ∧ AddressFreeItems rest

def AddressFreeMembers : List (String × Value) → Prop
  | [] => True
  | (key, value) :: rest =>
    (isAddressing key = false ∧ AddressFree value) ∧ AddressFreeMembers rest

end

mutual

/-- The lists inside are free of addressing; the objects around them may have some. -/
def ListsAddressFree : Value → Prop
  | .array items => AddressFreeItems items
  | .object members => MembersListsAddressFree members
  | _ => True

def MembersListsAddressFree : List (String × Value) → Prop
  | [] => True
  | (_, value) :: rest => ListsAddressFree value ∧ MembersListsAddressFree rest

end

lemma addressFreeItems_iff {items : List Value} :
    AddressFreeItems items ↔ ∀ item ∈ items, item.AddressFree := by
  induction items with
  | nil => simp [AddressFreeItems]
  | cons item rest ih => simp [AddressFreeItems, ih]

lemma addressFree_array {items : List Value} :
    (array items).AddressFree ↔ ∀ item ∈ items, item.AddressFree := by
  rw [AddressFree, addressFreeItems_iff]

lemma addressFree_object {members : Members} :
    (object members).AddressFree ↔
      ∀ entry ∈ members, isAddressing entry.1 = false ∧ entry.2.AddressFree := by
  rw [AddressFree]
  induction members with
  | nil => simp [AddressFreeMembers]
  | cons entry rest ih => simp [AddressFreeMembers, ih]

lemma listsAddressFree_object {members : Members} :
    (object members).ListsAddressFree ↔ ∀ entry ∈ members, entry.2.ListsAddressFree := by
  rw [ListsAddressFree]
  induction members with
  | nil => simp [MembersListsAddressFree]
  | cons entry rest ih => simp [MembersListsAddressFree, ih]

/-- A value that is no object is free of addressing when its lists are. -/
lemma addressFree_of_lists {value : Value} (h : value.ListsAddressFree)
    (hobject : value.isObject = false) : value.AddressFree := by
  cases value with
  | array items => exact h
  | object members => simp [isObject] at hobject
  | _ => trivial

lemma AddressFree.find? {members : Members} (h : (object members).AddressFree) {key : String}
    {value : Value} (hfind : Keyed.find? key members = some value) :
    isAddressing key = false ∧ value.AddressFree :=
  addressFree_object.1 h _ (Keyed.mem_of_find? hfind)

/-- There is no member under an addressing key. -/
lemma AddressFree.find?_eq_none {members : Members} (h : (object members).AddressFree) {key : String}
    (hkey : isAddressing key = true) : Keyed.find? key members = none := by
  rw [Keyed.find?_eq_none_iff]
  rintro entry hentry rfl
  simp [(addressFree_object.1 h entry hentry).1] at hkey

/-- Equal values have the same keys inside. -/
lemma addressFree_of_beq {a b : Value} (hab : beq a b = true) (h : b.AddressFree) :
    a.AddressFree := by
  induction b using inductionOn generalizing a with
  | array bs ih =>
      cases a with
      | array as =>
          rw [addressFree_array] at h ⊢
          intro item hitem
          obtain ⟨other, hother, hequal⟩ := exists_of_forall₂ (beqItems_iff.1 hab) hitem
          exact ih other hother hequal (h other hother)
      | _ => simp [beq] at hab
  | object bs ih =>
      cases a with
      | object as =>
          rw [addressFree_object] at h ⊢
          intro entry hentry
          obtain ⟨other, hother, hkey, hequal⟩ := exists_of_forall₂ (beqMembers_iff.1 hab) hentry
          rw [hkey]
          exact ⟨(h other hother).1, ih other hother hequal (h other hother).2⟩
      | _ => simp [beq] at hab
  | _ =>
      cases a with
      | array as => simp [beq] at hab
      | object as => simp [beq] at hab
      | _ => trivial

end Value

namespace Update

open Value

/-! ## The parts of the verbs -/

section Parts

variable {doc : Members} {key path : String}

lemma addressFree_insert (hdoc : (object doc).AddressFree) {value : Value}
    (hkey : isAddressing key = false) (hvalue : value.AddressFree) :
    (object (Keyed.insert key value doc)).AddressFree := by
  rw [addressFree_object] at hdoc ⊢
  intro entry hentry
  rcases Keyed.mem_insert hentry with rfl | hbefore
  · exact ⟨hkey, hvalue⟩
  · exact hdoc entry hbefore

/-- A merge of values without addressing has none. -/
lemma addressFree_merge {target patch : Value} (htarget : target.AddressFree)
    (hpatch : patch.AddressFree) : (merge target patch).AddressFree := by
  induction patch using Value.inductionOn generalizing target with
  | object patches ih =>
      cases target with
      | object members =>
          rw [merge, mergeMembers_eq_each]
          have hpatches := addressFree_object.1 hpatch
          refine each_induction (motive := fun members => (object members).AddressFree)
            (fun entry hentry doc hdoc => ?_) htarget
          obtain ⟨hkey, hvalue⟩ := hpatches entry hentry
          refine addressFree_insert hdoc hkey ?_
          cases hfind : Keyed.find? entry.1 doc with
          | none => exact hvalue
          | some existing => exact ih entry hentry (hdoc.find? hfind).2 hvalue
      | _ =>
          rw [merge]
          · exact hpatch
          · simp
  | _ => simpa [merge] using hpatch

/-- A value with addressing keeps it when it is merged in. -/
lemma not_addressFree_merge {patch : Value} (hpatch : ¬ patch.AddressFree)
    (hordered : patch.WellOrdered) (target : Value) : ¬ (merge target patch).AddressFree := by
  induction patch using Value.inductionOn generalizing target with
  | object patches ih =>
      cases target with
      | object members =>
          obtain ⟨hsorted, hvalues⟩ := wellOrdered_object.1 hordered
          rw [addressFree_object] at hpatch
          push Not at hpatch
          obtain ⟨⟨key, value⟩, hentry, hfree⟩ := hpatch
          rw [merge, mergeMembers_eq_each]
          have hdone : (each (fun key patch => atSlot key fun slot => .done (some (merged patch slot)))
              patches members).failure = none := by
            clear ih hordered hsorted hvalues hentry hfree
            induction patches generalizing members with
            | nil => rfl
            | cons entry rest ih => exact ih _
          have hwritten := (each_written hsorted.nodup_keys hdone hentry).2 _ rfl
          intro hmerged
          obtain ⟨hkey, hvalue⟩ := addressFree_object.1 hmerged _ hwritten
          cases hfind : Keyed.find? key members with
          | none =>
              rw [hfind] at hvalue
              exact hfree hkey hvalue
          | some existing =>
              rw [hfind] at hvalue
              exact ih _ hentry (hfree hkey) (hvalues _ hentry) existing hvalue
      | _ =>
          rw [merge]
          · exact hpatch
          · simp
  | _ => simpa [merge] using hpatch

lemma exists_firstMatch (predicate : Members) (items : List Value) :
    (∀ item ∈ items, ¬ Satisfies predicate item) ∨
      ∃ position element, FirstMatch predicate items position element := by
  induction items with
  | nil => exact Or.inl (by simp)
  | cons item rest ih =>
      by_cases hitem : Satisfies predicate item
      · exact Or.inr ⟨0, item, rfl, hitem, by simp⟩
      · rcases ih with hnone | ⟨position, element, hfirst⟩
        · exact Or.inl (List.forall_mem_cons.2 ⟨hitem, hnone⟩)
        · refine Or.inr ⟨position + 1, element, by simpa using hfirst.found, hfirst.satisfies, ?_⟩
          rintro (_ | before) hbefore other hother
          · obtain rfl : item = other := by simpa using hother
            exact hitem
          · exact hfirst.least before (by omega) other (by simpa using hother)

lemma addressFree_set {items : List Value} (hitems : (array items).AddressFree) {value : Value}
    (hvalue : value.AddressFree) (position : Nat) :
    (array (items.set position value)).AddressFree := by
  rw [addressFree_array] at hitems ⊢
  intro item hitem
  rcases List.mem_or_eq_of_mem_set hitem with hmem | rfl
  · exact hitems item hmem
  · exact hvalue

lemma addressFree_onFirst {items : List Value} {predicate : Members}
    {change : Value → Attempt Value} (hitems : (array items).AddressFree)
    (h : ∀ position element, FirstMatch predicate items position element →
      (change element).value.AddressFree) :
    (array (Attempt.onFirst (holds predicate) change items).value).AddressFree := by
  rcases exists_firstMatch predicate items with hnone | ⟨position, element, hfirst⟩
  · rw [onFirst_eq_done hnone]
    exact hitems
  · rw [onFirst_eq_set hfirst]
    exact addressFree_set hitems (h position element hfirst) position

lemma addressFree_onIndex {items : List Value} {change : Value → Attempt Value} {position : Nat}
    (hitems : (array items).AddressFree)
    (h : ∀ element, items[position]? = some element → (change element).value.AddressFree) :
    (array (Attempt.onIndex change position items).value).AddressFree := by
  rw [onIndex_eq_set]
  cases hitem : items[position]? with
  | none => exact hitems
  | some element => exact addressFree_set hitems (h element hitem) position

lemma addressFree_onObject {change : Members → Attempt Members} {value : Value}
    (hvalue : value.AddressFree)
    (h : ∀ members, value = .object members → (object (change members).value).AddressFree) :
    (onObject path change value).value.AddressFree := by
  cases value with
  | object members => exact h members rfl
  | _ => exact hvalue

lemma addressFree_addTo {delta : Number} {value : Value} (hvalue : value.AddressFree) :
    (addTo path delta value).value.AddressFree := by
  cases value with
  | number current =>
      rw [addTo]
      cases current.add delta <;> trivial
  | _ => exact hvalue

lemma addressFree_extend {items values : List Value} (unique : Bool)
    (hitems : (array items).AddressFree) (hvalues : (array values).AddressFree) :
    (array (extend unique items values)).AddressFree := by
  induction values generalizing items with
  | nil => exact hitems
  | cons value rest ih =>
      obtain ⟨hvalue, hrest⟩ := hvalues
      rw [extend]
      refine ih ?_ hrest
      split
      · exact hitems
      · rw [addressFree_array] at hitems ⊢
        simpa [or_imp, forall_and] using ⟨hitems, hvalue⟩

lemma addressFree_asValues {value : Value} (h : value.AddressFree) :
    (array (asValues value)).AddressFree := by
  cases value with
  | array items => exact h
  | _ => exact ⟨h, trivial⟩

/-- What is left of a list without addressing has none. -/
lemma addressFree_sublist {items kept : List Value} (hitems : (array items).AddressFree)
    (h : kept ⊆ items) : (array kept).AddressFree := by
  rw [addressFree_array] at hitems ⊢
  exact fun item hitem => hitems item (h hitem)

end Parts

/-! ## Members -/

section Slot

variable {value : Value} {slot : Option Value}

/-- A member, present or missing, without addressing. -/
def SlotFree (slot : Option Value) : Prop :=
  ∀ value, slot = some value → value.AddressFree

lemma slotFree_some : SlotFree (some value) ↔ value.AddressFree := by
  simp [SlotFree]

lemma slotFree_none : SlotFree none := by
  simp [SlotFree]

lemma SlotFree.getD (h : SlotFree slot) : (slot.getD (.object [])).AddressFree := by
  cases slot with
  | none => trivial
  | some value => exact slotFree_some.1 h

lemma slotFree_merged (hslot : SlotFree slot) (hvalue : value.AddressFree) :
    (merged value slot).AddressFree := by
  cases slot with
  | none => exact hvalue
  | some existing => exact addressFree_merge (slotFree_some.1 hslot) hvalue

lemma slotFree_mergeFirst (hslot : SlotFree slot) {predicate payload : Members}
    (h : ∀ items, slot = some (.array items) → ∀ position element,
      FirstMatch predicate items position element → (object payload).AddressFree) :
    SlotFree (slot.map (mergeFirst predicate payload)) := by
  cases slot with
  | none => exact slotFree_none
  | some existing =>
      rw [Option.map_some, slotFree_some]
      rw [slotFree_some] at hslot
      cases existing with
      | array items =>
          refine addressFree_onFirst hslot fun position element hfirst => ?_
          exact addressFree_merge (addressFree_array.1 hslot _ (List.mem_of_getElem? hfirst.found))
            (h items rfl position element hfirst)
      | _ => exact hslot

end Slot

end Update

end DocumentAccess
