import DocumentAccess.Proofs.Update.Misreading

/-!
# Stored addressing

What a verb misreads is stored, if the verb succeeds: later steps write other members, and lists are
only extended.  So a verb keeps addressing out of a document exactly when it misreads nothing, and a
command does when none of its verbs misreads anything on the way.

* **`Update.Misreads.written`** — what a verb misreads is stored.
* `Update.MisreadsIn` — a verb misreads its argument in the course of a command.
* **`Update.apply_addressFree`** — a command that misreads nothing keeps a document free of addressing.
* `Update.addressing_stored` — four ways to store addressing.
-/

namespace DocumentAccess.Update

open Value

/-! ## What is misread is stored -/

section Stored

variable {versionKey path key : String} {verb : Verb} {value : Value} {slot : Option Value}
  {argument fields members doc : Members}

lemma Misreads.ne_pull (h : Misreads versionKey verb key value slot) : verb ≠ .pull := by
  induction h with
  | key _ hpull _ _ => exact hpull
  | item hverb _ _ => rcases hverb with rfl | rfl <;> simp
  | inside _ _ _ _ ih => exact ih
  | _ => simp

lemma GoesInto.addressFree (h : GoesInto verb argument slot fields members) (hslot : SlotFree slot) :
    (object members).AddressFree := by
  cases h with
  | matching _ _ hfirst =>
      exact addressFree_array.1 (slotFree_some.1 hslot) _ (List.mem_of_getElem? hfirst.found)
  | indexed _ _ _ _ _ hitem =>
      exact addressFree_array.1 (slotFree_some.1 hslot) _ (List.mem_of_getElem? hitem)
  | direct _ hmembers => exact hmembers ▸ hslot.getD

lemma GoesInto.wellOrdered (h : GoesInto verb argument slot fields members)
    (hargument : (object argument).WellOrdered) : (object fields).WellOrdered := by
  have hpayload : Keyed.find? doKey argument = some (.object fields) → (object fields).WellOrdered :=
    fun hdo => (wellOrdered_object.1 hargument).2 _ (Keyed.mem_of_find? hdo)
  cases h with
  | matching haddress _ _ => exact hpayload (Address.of_matching haddress).2
  | indexed _ _ _ _ hdo _ => exact hpayload hdo
  | direct _ _ => exact hargument

lemma addressFree_of_set {items : List Value} {position : Nat} {before after : Value}
    (hfound : items[position]? = some before) (h : (array (items.set position after)).AddressFree) :
    after.AddressFree :=
  addressFree_array.1 h after (List.mem_set (List.getElem?_eq_some_iff.1 hfound).1 after)

/-- Where a verb goes on and succeeds, what it makes of the object is stored. -/
lemma GoesInto.written (h : GoesInto verb argument slot fields members) (hset : verb ≠ .set)
    (hpull : verb ≠ .pull)
    (hdone : (verbSlot versionKey verb path key (.object argument) slot).failure = none) :
    (each (verbStep versionKey verb (Path.join path key)) fields members).failure = none ∧
      ∃ after, (verbSlot versionKey verb path key (.object argument) slot).value = some after ∧
        (after.AddressFree →
          (object (each (verbStep versionKey verb (Path.join path key)) fields members).value).AddressFree)
        := by
  cases h with
  | @matching predicate _ items position _ haddress hindex hfirst =>
      have hchange : elementChange versionKey verb (Path.join path key) fields (.object members)
          = applyVerb versionKey verb (Path.join path key) (.object fields) (.object members) := by
        cases verb with
        | set => exact absurd rfl hset
        | _ => rfl
      rw [verbSlot_matching haddress (fun h => absurd h hset) hindex, onFirst_eq_set hfirst, hchange,
        applyVerb_object] at hdone ⊢
      exact ⟨hdone, _, rfl, addressFree_of_set hfirst.found⟩
  | @indexed index position _ _ items hverb hwhere hindex hposition hdo hitem =>
      subst hverb
      rw [verbSlot, incSlot_indexed versionKey _ hindex hwhere hdo, hposition] at hdone ⊢
      simp only [inArray, onIndex_eq_set, hitem, Option.elim_some, indexedChange] at hdone ⊢
      rw [applyVerb_object] at hdone ⊢
      exact ⟨hdone, _, rfl, addressFree_of_set hitem⟩
  | direct hdirect hmembers =>
      by_cases hinc : verb = .inc
      · subst hinc
        rw [verbSlot, incSlot_direct (hdirect rfl), hmembers] at hdone ⊢
        simp only [onObject, inc_eq_each versionKey] at hdone ⊢
        exact ⟨hdone, _, rfl, id⟩
      · obtain ⟨unique, rfl⟩ : ∃ unique, verb = appendVerb unique := by
          cases verb with
          | push => exact ⟨false, rfl⟩
          | addToSet => exact ⟨true, rfl⟩
          | _ => simp at hset hpull hinc
        rcases slot with _ | existing
        · obtain rfl : members = [] := by simpa using hmembers.symm
          rw [verbSlot_appendVerb, appendSlot, append_eq_each versionKey] at hdone ⊢
          rcases heach : each (verbStep versionKey (appendVerb unique) (Path.join path key)) argument []
            with ⟨child, _ | error⟩
          · exact ⟨rfl, _, rfl, id⟩
          · simp [heach, Attempt.failed] at hdone
        · obtain rfl : existing = .object members := hmembers
          rw [verbSlot_descends ⟨hset, hinc⟩ (by simp), applyVerb_object] at hdone ⊢
          exact ⟨hdone, _, rfl, id⟩

lemma mem_extend (unique : Bool) {items : List Value} (hitems : (array items).AddressFree)
    (hvalue : ¬ value.AddressFree) : value ∈ extend unique items [value] := by
  have hnew : items.contains value = false := by
    rw [← Bool.not_eq_true]
    intro hcontains
    obtain ⟨item, hitem, hequal⟩ := List.contains_iff_exists_mem_beq.1 hcontains
    exact hvalue (addressFree_of_beq hequal (addressFree_array.1 hitems item hitem))
  simp [extend, hnew]

/-- What is direct is written under an addressing key, where there is no member. -/
lemma direct_written (hset : verb = .set → isProtected versionKey key = false) (hpull : verb ≠ .pull)
    (hdirect : Direct verb value)
    (hdone : (verbSlot versionKey verb path key value none).failure = none) :
    ∃ after, (verbSlot versionKey verb path key value none).value = some after := by
  cases verb with
  | set =>
      cases value with
      | object argument =>
          simp [verbSlot, hset rfl, setSlot, address_eq_direct_iff.2 hdirect, Attempt.done]
      | _ => simp [verbSlot, hset rfl, setSlot, Attempt.done]
  | inc =>
      cases value with
      | number delta =>
          rw [verbSlot, incSlot, addSlot, Option.getD_none] at hdone ⊢
          rcases hadd : addTo (Path.join path key) delta (.ofNat 0) with ⟨sum, _ | error⟩
          · exact ⟨sum, rfl⟩
          · simp [hadd, Attempt.failed] at hdone
      | object argument =>
          rw [verbSlot, incSlot_direct hdirect]
          exact ⟨_, rfl⟩
      | _ => simp [verbSlot, incSlot, Attempt.failed] at hdone
  | pull => exact absurd rfl hpull
  | _ =>
      cases value with
      | object argument =>
          simp only [verbSlot, appendSlot] at hdone ⊢
          split at hdone
          · exact ⟨_, rfl⟩
          · simp [Attempt.failed] at hdone
      | _ => exact ⟨_, rfl⟩

lemma not_addressFree_merged (hvalue : ¬ value.AddressFree) (hordered : value.WellOrdered) :
    ¬ (merged value slot).AddressFree := by
  cases slot with
  | none => exact hvalue
  | some existing => exact not_addressFree_merge hvalue hordered existing

/-- A step writes an addressing key, or a value with addressing. -/
def StoresAddressing (key : String) (outcome : Attempt (Option Value)) : Prop :=
  ∃ after, outcome.value = some after ∧ (isAddressing key = true ∨ ¬ after.AddressFree)

/-- What one step stores is still there when all have succeeded. -/
lemma not_addressFree_each (hsorted : Keyed.Sorted argument)
    (hdone : (each (verbStep versionKey verb path) argument doc).failure = none)
    {entry : String × Value} (hentry : entry ∈ argument)
    (h : (verbSlot versionKey verb path entry.1 entry.2 (Keyed.find? entry.1 doc)).failure = none →
      StoresAddressing entry.1
        (verbSlot versionKey verb path entry.1 entry.2 (Keyed.find? entry.1 doc))) :
    ¬ (object (each (verbStep versionKey verb path) argument doc).value).AddressFree := by
  intro hfree
  obtain ⟨hentryDone, hstays⟩ := each_written hsorted.nodup_keys hdone hentry
  obtain ⟨after, hafter, hstored⟩ := h hentryDone
  obtain ⟨hkey, hvalue⟩ := addressFree_object.1 hfree _ (hstays after hafter)
  rcases hstored with haddressing | hinside
  · rw [hkey] at haddressing
    simp at haddressing
  · exact hinside hvalue

/-- **What a verb misreads is stored**, if the verb succeeds. -/
lemma Misreads.written (h : Misreads versionKey verb key value slot) (hslot : SlotFree slot)
    (hkey : isAddressing key = true → slot = none) (hordered : value.WellOrdered) (path : String)
    (hdone : (verbSlot versionKey verb path key value slot).failure = none) :
    StoresAddressing key (verbSlot versionKey verb path key value slot) := by
  induction h generalizing path with
  | key haddressing hpull hset hdirect =>
      obtain rfl := hkey haddressing
      obtain ⟨after, hafter⟩ := direct_written hset hpull hdirect hdone
      exact ⟨after, hafter, Or.inl haddressing⟩
  | @value key value slot hset hdirect hvalue =>
      refine ⟨merged value slot, ?_, Or.inr (not_addressFree_merged hvalue hordered)⟩
      cases value with
      | object argument => simp [verbSlot, hset, setSlot, address_eq_direct_iff.2 hdirect, Attempt.done]
      | _ => simp [verbSlot, hset, setSlot, Attempt.done]
  | @payload key argument predicate payload items position element hset haddress hfirst hpayload =>
      have hfields : (object payload).WellOrdered :=
        (wellOrdered_object.1 hordered).2 _ (Keyed.mem_of_find? (Address.of_matching haddress).2)
      rw [verbSlot_matching haddress (fun _ => hset) (by simp), onFirst_eq_set hfirst]
      refine ⟨_, rfl, Or.inr fun hfree => ?_⟩
      exact not_addressFree_merge hpayload (wellOrdered_settable hfields versionKey) element
        (addressFree_of_set hfirst.found hfree)
  | @item verb key argument items hverb hwhere hvalue =>
      obtain ⟨unique, rfl⟩ : ∃ unique, verb = appendVerb unique :=
        hverb.elim (fun h => ⟨false, h⟩) fun h => ⟨true, h⟩
      rw [verbSlot_appendVerb]
      simp only [appendSlot, address_eq_direct_iff.2 hwhere]
      refine ⟨_, rfl, Or.inr fun hfree => hvalue ?_⟩
      exact addressFree_array.1 hfree _ (mem_extend unique (slotFree_some.1 hslot) hvalue)
  | @inside verb key argument fields members slot entry hset hinside hentry h ih =>
      obtain ⟨heach, after, hafter, hfree⟩ := hinside.written hset h.ne_pull hdone
      have hmembers := hinside.addressFree hslot
      obtain ⟨hsorted, hfields⟩ := wellOrdered_object.1 (hinside.wellOrdered hordered)
      refine ⟨after, hafter, Or.inr fun hafterFree => ?_⟩
      refine not_addressFree_each hsorted heach hentry (fun hentryDone => ?_) (hfree hafterFree)
      exact ih (fun existing hfound => (hmembers.find? hfound).2) hmembers.find?_eq_none
        (hfields entry hentry) _ hentryDone

end Stored

/-! ## Commands -/

/-- In the course of a command on an object, a verb misreads its argument. -/
inductive MisreadsIn (versionKey : String) : String → Members → Members → Prop
  /-- The first member is a verb, and misreads a member of its argument. -/
  | verb {path key : String} {verb : Verb} {argument rest doc : Members} {entry : String × Value}
      (hkey : UpdateKey.ofKey key = .verb verb) (hentry : entry ∈ argument)
      (h : Misreads versionKey verb entry.1 entry.2 (Keyed.find? entry.1 doc)) :
      MisreadsIn versionKey path ((key, .object argument) :: rest) doc
  /-- The first member is a field, and the command for it misreads something. -/
  | field {path key : String} {command rest doc members : Members}
      (hkey : UpdateKey.ofKey key = .field)
      (hmember : (Keyed.find? key doc).getD (.object []) = .object members)
      (h : MisreadsIn versionKey (Path.join path key) command members) :
      MisreadsIn versionKey path ((key, .object command) :: rest) doc
  /-- The first member succeeds, and the rest misreads something in what it leaves. -/
  | later {path key : String} {argument : Value} {rest doc : Members}
      (hdone : (commandStep versionKey path key argument doc).failure = none)
      (h : MisreadsIn versionKey path rest (commandStep versionKey path key argument doc).value) :
      MisreadsIn versionKey path ((key, argument) :: rest) doc

section Commands

variable {versionKey : String}

lemma not_isAddressing_of_field {key : String} (h : UpdateKey.ofKey key = .field) :
    isAddressing key = false := by
  rw [← Bool.not_eq_true]
  intro hkey
  simp only [isAddressing, Bool.or_eq_true, decide_eq_true_eq] at hkey
  rcases hkey with (rfl | rfl) | rfl <;> simp [UpdateKey.ofKey, whereKey, doKey, indexKey] at h

/-- A member of a command keeps an object free of addressing, unless it misreads something. -/
lemma addressFree_commandStep {path key : String} {argument : Value} (hordered : argument.WellOrdered)
    (hlists : argument.ListsAddressFree)
    (hinside : ∀ command, argument = .object command → ∀ path doc, doc.AddressFree →
      (∀ members, doc = .object members → ¬ MisreadsIn versionKey path command members) →
      (walk versionKey path command doc).value.AddressFree)
    {rest doc : Members} (hdoc : (object doc).AddressFree)
    (h : ¬ MisreadsIn versionKey path ((key, argument) :: rest) doc) :
    (object (commandStep versionKey path key argument doc).value).AddressFree := by
  cases hkey : UpdateKey.ofKey key with
  | verb verb =>
      cases argument with
      | object argument =>
          rw [commandStep_verb hkey]
          exact (verbFree_of hordered hlists).2 argument rfl doc hdoc
            (fun entry hentry hmisreads => h (.verb hkey hentry hmisreads)) path
      | _ => simpa [commandStep, hkey, Attempt.failed] using hdoc
  | field =>
      rw [commandStep_field hkey]
      cases argument with
      | object command =>
          have hmember : ((Keyed.find? key doc).getD (.object [])).AddressFree :=
            SlotFree.getD fun value hfound => (hdoc.find? hfound).2
          refine addressFree_insert hdoc (not_isAddressing_of_field hkey) ?_
          exact hinside command rfl _ _ hmember fun members hmembers hmisreads =>
            h (.field hkey hmembers hmisreads)
      | _ => exact hdoc
  | _ => simpa [commandStep, hkey, Attempt.failed, Attempt.done] using hdoc

lemma addressFree_walk {command : Value} (hordered : command.WellOrdered)
    (hlists : command.ListsAddressFree) :
    ∀ members, command = .object members → ∀ path doc, doc.AddressFree →
      (∀ target, doc = .object target → ¬ MisreadsIn versionKey path members target) →
      (walk versionKey path members doc).value.AddressFree := by
  induction command using Value.inductionOn with
  | object command ih =>
      rintro _ ⟨⟩ path doc hdoc h
      have hvalues := (wellOrdered_object.1 hordered).2
      have hfree := listsAddressFree_object.1 hlists
      clear hordered hlists
      cases doc with
      | object doc =>
          rw [walk_object]
          replace h := h doc rfl
          induction command generalizing doc with
          | nil => exact hdoc
          | cons entry rest ihrest =>
              obtain ⟨key, argument⟩ := entry
              have hself : (key, argument) ∈ (key, argument) :: rest := List.mem_cons_self
              have hstep := addressFree_commandStep (hvalues _ hself) (hfree _ hself)
                (ih _ hself (hvalues _ hself) (hfree _ hself)) hdoc h
              rw [each, Attempt.andThen]
              cases hdone : (commandStep versionKey path key argument doc).failure with
              | some error => exact hstep
              | none =>
                  exact ihrest (fun other hother => ih other (List.mem_cons_of_mem _ hother))
                    (fun other hother => hvalues other (List.mem_cons_of_mem _ hother))
                    (fun other hother => hfree other (List.mem_cons_of_mem _ hother)) _ hstep
                    fun hlater => h (.later hdone hlater)
      | _ =>
          rw [walk_of_not_object _ _ _ rfl]
          exact hdoc
  | _ => exact fun members hmembers => by simp at hmembers

end Commands

/-- **A command keeps a document free of addressing** unless one of its verbs misreads its argument, also
when it fails; and a verb that succeeds keeps addressing out exactly when it misreads nothing. -/
theorem apply_addressFree (versionKey : String) :
    (∀ command doc : Value, command.WellOrdered → command.ListsAddressFree → doc.AddressFree →
      (∀ members target, command = .object members → doc = .object target →
        ¬ MisreadsIn versionKey "" members target) →
      (apply versionKey command doc).value.AddressFree) ∧
    ∀ verb path argument doc, (object argument).WellOrdered → (object argument).ListsAddressFree →
      (object doc).AddressFree →
      (applyVerb versionKey verb path (.object argument) (.object doc)).failure = none →
      ((applyVerb versionKey verb path (.object argument) (.object doc)).value.AddressFree ↔
        ∀ entry ∈ argument,
          ¬ Misreads versionKey verb entry.1 entry.2 (Keyed.find? entry.1 doc)) := by
  refine ⟨fun command doc hordered hlists hdoc h => ?_,
    fun verb path argument doc hordered hlists hdoc hdone => ⟨fun hfree entry hentry hmisreads => ?_,
      fun h => ?_⟩⟩
  · cases command with
    | object members =>
        rw [apply]
        split
        · exact hdoc
        · exact addressFree_walk hordered hlists members rfl "" doc hdoc fun target htarget =>
            h members target rfl htarget
    | _ => exact hdoc
  · rw [applyVerb_object] at hfree hdone
    obtain ⟨hsorted, hvalues⟩ := wellOrdered_object.1 hordered
    refine not_addressFree_each hsorted hdone hentry (fun hentryDone => ?_) hfree
    exact hmisreads.written (fun existing hfound => (hdoc.find? hfound).2) hdoc.find?_eq_none
      (hvalues entry hentry) path hentryDone
  · rw [applyVerb_object]
    exact (verbFree_of hordered hlists).2 argument rfl doc hdoc h path

/-- Tags for the tea in an order. -/
def teaTags : Members :=
  [("items", addressing [("article", .string "tea")] [("tags", .string "new")])]

/-- Tags for the tea are put on the tea. -/
theorem apply_addressFree_tea :
    (apply "__v" (.object [("$push", .object teaTags)])
        (.object [("items", .array teaItems)])).value.AddressFree ∧
    (apply "__v" (.object [("$push", .object teaTags)])
        (.object [("items", .array teaItems)])).failure = none := by
  refine ⟨(apply_addressFree "__v").1 _ _ ?_ ?_ ?_ ?_, rfl⟩
  · have hkeys : Ordered.before doKey whereKey = true := by decide
    simp [teaTags, addressing, WellOrdered, WellOrderedMembers, Keyed.Sorted, hkeys]
  · simp [teaTags, addressing, ListsAddressFree, MembersListsAddressFree]
  · have hkeys : isAddressing "items" = false ∧ isAddressing "article" = false ∧
        isAddressing "count" = false := by decide
    simp [teaItems, AddressFree, AddressFreeMembers, AddressFreeItems, hkeys, Value.ofNat]
  · rintro _ _ ⟨⟩ ⟨⟩ h
    cases h with
    | verb hkey hentry h =>
        have hpush : UpdateKey.ofKey "$push" = .verb .push := by decide
        obtain rfl := UpdateKey.verb.inj (hpush.symm.trans hkey)
        obtain rfl := List.mem_singleton.1 hentry
        cases h with
        | key hkey => exact absurd hkey (by decide)
        | item _ hwhere _ => simp [Keyed.find?, doKey, whereKey] at hwhere
        | inside _ hinside hentry h =>
            cases hinside with
            | matching haddress _ _ =>
                rw [ofMembers_addressing] at haddress
                cases haddress
                obtain rfl := List.mem_singleton.1 hentry
                cases h with
                | key hkey => exact absurd hkey (by decide)
            | indexed hverb => simp at hverb
            | direct _ hslot => simp [teaItems, Keyed.find?] at hslot
    | field hkey => exact absurd hkey (by decide)
    | later _ h => cases h

/-- A command without addressing in its lists stores some in a document that has none. -/
structure Stored (command doc : Value) : Prop where
  lists : command.ListsAddressFree
  before : doc.AddressFree
  after : ¬ (apply "__v" command doc).value.AddressFree

/-- Addressing is stored where `$push` finds no list, in an item that is pushed, in a value that `$set`
copies, and under the keys of an argument that is addressed itself. -/
theorem addressing_stored :
    Stored (.object [("$push", .object teaTags)]) (.object []) ∧
    Stored (.object [("$push", .object [("items", .object [(indexKey, .ofNat 0)])])])
      (.object [("items", .array [])]) ∧
    Stored (.object [("$set", .object [("note", .object [("tea", .object [(doKey, .ofNat 1)])])])])
      (.object []) ∧
    Stored (.object [("$inc", .object [(indexKey, .ofNat 1)])]) (.object []) := by
  have hkeys : isAddressing "items" = false ∧ isAddressing "note" = false ∧
      isAddressing "tea" = false := by decide
  refine ⟨⟨?_, ?_, ?_⟩, ⟨?_, ?_, ?_⟩, ⟨?_, ?_, ?_⟩, ⟨?_, ?_, ?_⟩⟩
  · simp [teaTags, addressing, ListsAddressFree, MembersListsAddressFree]
  · trivial
  · show ¬ (object [("items", .object [(doKey, .object [("tags", .array [.string "new"])]),
      (whereKey, .object [("article", .array [.string "tea"])])])]).AddressFree
    exact fun h => absurd h.1.2.1.1 (by decide)
  · simp [ListsAddressFree, MembersListsAddressFree, Value.ofNat]
  · simp [AddressFree, AddressFreeMembers, AddressFreeItems, hkeys]
  · show ¬ (object [("items", .array [.object [(indexKey, .ofNat 0)]])]).AddressFree
    exact fun h => absurd h.1.2.1.1.1 (by decide)
  · simp [ListsAddressFree, MembersListsAddressFree, Value.ofNat]
  · trivial
  · show ¬ (object [("note", .object [("tea", .object [(doKey, .ofNat 1)])])]).AddressFree
    exact fun h => absurd h.1.2.1.2.1.1 (by decide)
  · simp [ListsAddressFree, MembersListsAddressFree, Value.ofNat]
  · trivial
  · show ¬ (object [(indexKey, .ofNat 1)]).AddressFree
    exact fun h => absurd h.1.1 (by decide)

end DocumentAccess.Update
