import DocumentAccess.Proofs.Update.Passed

/-!
# What the verbs keep

Each verb keeps the leaves along a route when the places of its argument on the way pass.  `$inc`,
`$push`, `$addToSet` and `$pull` recurse over the argument in the same way: into its members, and into
the payload of an addressed argument; `Update.slotKeeps_of` is that induction, and each verb only has
to say what it does with one member.

* `Update.SlotKeeps` — what a verb makes of a member keeps leaves.
* **`Update.slotKeeps_inc`**, **`Update.slotKeeps_append`**, **`Update.slotKeeps_pull`** — they all do.
-/

namespace DocumentAccess.Update

open Value

/-! ## Payloads -/

/-- The payload of an addressed argument, given to a verb. -/
def payloadStep (step : Members → Members → Attempt Members) (argument doc : Members) :
    Attempt Members :=
  (Keyed.find? doKey argument).elim (.done doc) fun payload =>
    match payload with
    | .object fields => step fields doc
    | _ => .done doc

lemma incPayload_eq (path : String) (argument doc : Members) :
    incPayload path argument doc = payloadStep (inc path) argument doc := by
  refine Keyed.eq_elim_find? (incPayload path · doc) rfl ?_ ?_ argument
  · intro payload rest
    cases payload <;> simp [incPayload]
  · intro key payload rest hkey
    cases payload <;> simp [incPayload, hkey]

lemma appendPayload_eq (unique : Bool) (path : String) (argument doc : Members) :
    appendPayload unique path argument doc = payloadStep (append unique path) argument doc := by
  refine Keyed.eq_elim_find? (appendPayload unique path · doc) rfl ?_ ?_ argument
  · intro payload rest
    cases payload <;> simp [appendPayload]
  · intro key payload rest hkey
    cases payload <;> simp [appendPayload, hkey]

lemma pullPayload_eq (path : String) (argument doc : Members) :
    pullPayload path argument doc = payloadStep (pull path) argument doc := by
  refine Keyed.eq_elim_find? (pullPayload path · doc) rfl ?_ ?_ argument
  · intro payload rest
    cases payload <;> simp [pullPayload]
  · intro key payload rest hkey
    cases payload <;> simp [pullPayload, hkey]

lemma incIndexed_eq (path : String) (argument : Members) (element : Value) :
    incIndexed path argument element
      = (Keyed.find? doKey argument).elim (.done element) fun payload =>
          match payload with
          | .number n => addTo path n element
          | .object fields => onObject path (inc path fields) element
          | _ => .failed element (.invalidArgument (some .inc) path .payloadKind) := by
  refine Keyed.eq_elim_find? (incIndexed path · element) rfl ?_ ?_ argument
  · intro payload rest
    cases payload <;> simp [incIndexed]
  · intro key payload rest hkey
    cases payload <;> simp [incIndexed, hkey]

/-! ## One induction for all -/

section Verbs

variable {whole : List Leaf} {versionKey : String} {verb : Verb} {route : Route} {path key : String}

/-- What a verb makes of a member keeps the leaves along every route on which its argument passes. -/
def SlotKeeps (whole : List Leaf) (versionKey : String) (verb : Verb) (value : Value) : Prop :=
  ∀ (route : Route) (path key : String), PassedAt route value → value.WellOrdered →
    KeepsSlot whole route (verbSlot versionKey verb path key value)

lemma keeps_members {argument : Members} (hslots : ∀ entry ∈ argument,
      SlotKeeps whole versionKey verb entry.2)
    (hroute : route ≠ some []) (hpassed : PassedMembers route argument)
    (hordered : ∀ entry ∈ argument, entry.2.WellOrdered) :
    Keeps whole route (each (verbStep versionKey verb path) argument) := by
  refine keeps_each fun entry hentry => ?_
  have hvalue := hpassed.entry hentry
  exact keeps_atSlot hroute hvalue.route_ne
    (hslots entry hentry _ path entry.1 hvalue (hordered entry hentry))

/-- A verb keeps leaves at every member when it does so for arguments that are no objects, and for
objects provided that it does so inside of them and of their payload. -/
theorem slotKeeps_of {body : String → Members → Members → Attempt Members}
    (hbody : ∀ path argument doc, body path argument doc
      = each (verbStep versionKey verb path) argument doc)
    (hvalue : ∀ (route : Route) (path key : String) (value : Value), value.isObject = false →
      PassedAt route value → value.WellOrdered →
      KeepsSlot whole route (verbSlot versionKey verb path key value))
    (hobject : ∀ (route : Route) (path key : String) (argument : Members),
      PassedAt route (.object argument) → (Value.object argument).WellOrdered →
      (∀ path, Keeps whole route (body path argument)) →
      (∀ path fields, Keyed.find? doKey argument = some (.object fields) →
        Keeps whole route (body path fields)) →
      KeepsSlot whole route (verbSlot versionKey verb path key (.object argument)))
    (value : Value) : SlotKeeps whole versionKey verb value := by
  have hsteps : ∀ path argument, body path argument = each (verbStep versionKey verb path) argument :=
    fun path argument => funext (hbody path argument)
  suffices h : SlotKeeps whole versionKey verb value ∧ ∀ members, value = .object members →
      ∀ entry ∈ members, SlotKeeps whole versionKey verb entry.2 from h.1
  induction value using Value.inductionOn with
  | object argument ih =>
      refine ⟨fun route path key hpassed hordered => ?_, ?_⟩
      · have hmembers := (wellOrdered_object.1 hordered).2
        refine hobject route path key argument hpassed hordered (fun path => ?_)
          fun path fields hdo => ?_
        · rw [hsteps]
          exact keeps_members (fun entry hentry => (ih entry hentry).1) hpassed.route_ne
            hpassed.members hmembers
        · have hpayload := Keyed.mem_of_find? hdo
          rw [hsteps]
          exact keeps_members ((ih _ hpayload).2 fields rfl) hpassed.route_ne (hpassed.payload hdo)
            (wellOrdered_object.1 (hmembers _ hpayload)).2
      · rintro others hothers
        obtain rfl : argument = others := by simpa using hothers
        exact fun entry hentry => (ih entry hentry).1
  | _ =>
      refine ⟨fun route path key => ?_, fun members hmembers => absurd hmembers (by simp)⟩
      exact hvalue route path key _ rfl

lemma keeps_payload {step : Members → Members → Attempt Members} {argument : Members}
    (h : ∀ fields, Keyed.find? doKey argument = some (.object fields) →
      Keeps whole route (step fields)) : Keeps whole route (payloadStep step argument) := by
  intro doc hdoc
  unfold payloadStep
  cases hdo : Keyed.find? doKey argument with
  | none => exact hdoc.kept
  | some payload =>
      cases payload with
      | object fields => exact h fields hdo doc hdoc
      | _ => exact hdoc.kept

/-- The payload is made to the first element of a list that a predicate selects. -/
lemma keepsSlot_payload (hroute : route ≠ some []) {step : Members → Members → Attempt Members}
    {argument predicate : Members} (h : ∀ fields, Keyed.find? doKey argument = some (.object fields) →
      Keeps whole route (step fields)) :
    KeepsSlot whole route (inArray (Attempt.onFirst (holds predicate)
      (onObject path (payloadStep step argument)))) :=
  keepsSlot_onFirst hroute fun _ hitem => (keeps_payload h).onObject path hitem

/-! ## `$inc` -/

lemma wellOrdered_addTo (path : String) (delta : Number) {value : Value} (h : value.WellOrdered) :
    (addTo path delta value).value.WellOrdered := by
  cases value with
  | number current =>
      rw [addTo]
      cases current.add delta <;> trivial
  | _ => exact h

/-- A number added in place is closed, so the path does not lead there. -/
lemma keepsSlot_addSlot (path : String) (delta : Number) :
    KeepsSlot whole none (addSlot path delta) := by
  intro slot hslot after hafter
  have hsum : (addTo path delta (slot.getD (.ofNat 0))).value.WellOrdered := by
    refine wellOrdered_addTo path delta ?_
    cases slot with
    | none => trivial
    | some value => exact hslot.ordered
  unfold addSlot at hafter
  rcases hadd : addTo path delta (slot.getD (.ofNat 0)) with ⟨sum, _ | error⟩
  · rw [hadd] at hsum hafter
    obtain rfl := Option.some.inj hafter
    exact kept_none _ hsum
  · rw [hadd] at hafter
    exact absurd hafter (by simp [Attempt.failed])

/-- An element at a position keeps its leaves: a payload that is no object is only there off the path. -/
lemma kept_incIndexed {argument : Members} (hpassed : PassedAt route (.object argument))
    (hpayload : ∀ fields, Keyed.find? doKey argument = some (.object fields) →
      Keeps whole route (inc path fields)) {element : Value} (helement : Held whole route element) :
    Kept route element (incIndexed path argument element).value := by
  rw [incIndexed_eq]
  cases hdo : Keyed.find? doKey argument with
  | none => exact helement.kept
  | some payload =>
      cases payload with
      | number n =>
          obtain rfl := hpassed.payload_number hdo
          exact kept_none _ (wellOrdered_addTo _ n helement.ordered)
      | object fields => exact (hpayload fields hdo).onObject _ helement
      | _ => exact helement.kept

theorem slotKeeps_inc (value : Value) : SlotKeeps whole versionKey .inc value := by
  refine slotKeeps_of (inc_eq_each versionKey) ?_ ?_ value
  · intro route path key value hobject hpassed _
    cases value with
    | number n =>
        rw [hpassed.route_eq_none rfl]
        exact keepsSlot_addSlot _ n
    | object argument => exact absurd hobject (by simp [isObject])
    | _ => exact fun slot _ => kept_of_none rfl
  · intro route path key argument hpassed hordered hinside hpayload
    have hroute := hpassed.route_ne
    unfold verbSlot
    intro slot hslot
    unfold incSlot
    dsimp only
    by_cases hindex : Keyed.contains indexKey argument = true
    · rw [if_pos hindex]
      by_cases hwhere : Keyed.contains whereKey argument = true
      · rw [if_pos hwhere]
        exact kept_of_none rfl
      · rw [if_neg hwhere]
        cases (Keyed.find? indexKey argument).bind Value.natural? with
        | none => exact kept_of_none rfl
        | some position =>
            dsimp only
            cases Keyed.find? doKey argument with
            | none => exact kept_of_none rfl
            | some payload =>
                exact keepsSlot_onIndex hroute position
                  (fun _ hitem => kept_incIndexed hpassed (hpayload _) hitem) slot hslot
    · rw [if_neg hindex]
      cases Address.ofMembers argument with
      | direct =>
          by_cases hdo : Keyed.contains doKey argument = true
          · simp only [if_pos hdo]
            exact kept_of_none rfl
          · simp only [if_neg hdo]
            exact (hinside _).slot _ slot hslot
      | matching predicate payload =>
          rcases payload with _ | payload
          · exact kept_of_none rfl
          · cases payload with
            | object _ =>
                simp only [funext (incPayload_eq (Path.join path key) argument)]
                exact keepsSlot_payload hroute (hpayload _) slot hslot
            | _ => exact kept_of_none rfl
      | refused => exact kept_of_none rfl

/-! ## `$push` and `$addToSet` -/

/-- What is no object is appended as it is, so it has no leaves when it passes. -/
lemma keepsSlot_extendSlot (unique : Bool) (path : String) {value : Value}
    (hroute : route ≠ some []) (hvalue : Leafless route value) :
    KeepsSlot whole route (extendSlot unique path value) := by
  intro slot hslot
  have hvalues := hvalue.asValues hroute
  cases slot with
  | none =>
      intro after hafter
      obtain rfl := Option.some.inj hafter
      have hextended : Kept route (.array []) (.array (extend unique [] (asValues value))) :=
        kept_extend hroute unique hvalues (by simp)
      refine ⟨hextended.ordered, ?_⟩
      rw [hextended.leaves]
      exact (leavesAt_array hroute []).trans (leavesAt_empty hroute).symm
  | some existing =>
      cases existing with
      | array items =>
          intro after hafter
          obtain rfl := Option.some.inj hafter
          exact kept_extend hroute unique hvalues (wellOrdered_array.1 hslot.ordered)
      | _ => exact kept_of_none rfl

theorem slotKeeps_append (unique : Bool) (value : Value) :
    SlotKeeps whole versionKey (appendVerb unique) value := by
  have hslot : ∀ path key value, verbSlot versionKey (appendVerb unique) path key value
      = appendSlot unique (Path.join path key) value := by
    intro path key value
    cases unique <;> rfl
  refine slotKeeps_of (append_eq_each versionKey · unique) ?_ ?_ value
  · intro route path key value hobject hpassed hordered
    rw [hslot]
    cases value with
    | object argument => exact absurd hobject (by simp [isObject])
    | _ => exact keepsSlot_extendSlot unique _ hpassed.route_ne (leafless hpassed hordered)
  · intro route path key argument hpassed hordered hinside hpayload
    have hroute := hpassed.route_ne
    have hargument := leafless hpassed hordered
    rw [hslot]
    intro slot hslot
    cases slot with
    | none =>
        have hcreated := hinside (Path.join path key) [] hslot
        unfold appendSlot
        dsimp only
        rcases happend : append unique (Path.join path key) argument [] with ⟨child, _ | error⟩
        · intro after hafter
          obtain rfl := Option.some.inj hafter
          rw [happend] at hcreated
          exact hcreated
        · exact kept_of_none rfl
    | some existing =>
        cases existing with
        | array items =>
            unfold appendSlot
            dsimp only
            cases Address.ofMembers argument with
            | direct =>
                intro after hafter
                obtain rfl := Option.some.inj hafter
                exact kept_extend hroute unique (by simpa using hargument)
                  (wellOrdered_array.1 hslot.ordered)
            | matching predicate payload =>
                rcases payload with _ | payload
                · exact kept_of_none rfl
                · cases payload with
                  | object _ =>
                      simp only [funext (appendPayload_eq unique (Path.join path key) argument)]
                      exact keepsSlot_payload hroute (hpayload _) _ hslot
                  | _ => exact kept_of_none rfl
            | refused => exact kept_of_none rfl
        | _ => exact (hinside _).slot _ (some _) hslot

/-! ## `$pull` -/

/-- Values that are no objects are taken out of lists; they have no leaves when they pass. -/
lemma keepsSlot_withoutSlot (path : String) {value : Value} (hroute : route ≠ some [])
    (hvalue : Leafless route value) : KeepsSlot whole route (withoutSlot path value) := by
  intro slot hslot
  cases slot with
  | none => exact kept_of_none rfl
  | some existing =>
      cases existing with
      | array items =>
          intro after hafter
          obtain rfl := Option.some.inj hafter
          exact kept_without hroute (hvalue.asValues hroute) (wellOrdered_array.1 hslot.ordered)
      | _ => exact kept_of_none rfl

theorem slotKeeps_pull (value : Value) : SlotKeeps whole versionKey .pull value := by
  refine slotKeeps_of (pull_eq_each versionKey) ?_ ?_ value
  · intro route path key value hobject hpassed hordered
    unfold verbSlot
    cases value with
    | object argument => exact absurd hobject (by simp [isObject])
    | _ => exact keepsSlot_withoutSlot _ hpassed.route_ne (leafless hpassed hordered)
  · intro route path key argument hpassed hordered hinside hpayload
    have hroute := hpassed.route_ne
    have hargument := leafless hpassed hordered
    unfold verbSlot
    intro slot hslot
    cases slot with
    | none => exact kept_of_none rfl
    | some existing =>
        cases existing with
        | array items =>
            unfold pullSlot
            dsimp only
            have hitems := wellOrdered_array.1 hslot.ordered
            cases haddress : Address.ofMembers argument with
            | direct =>
                intro after hafter
                obtain rfl := Option.some.inj hafter
                exact kept_without hroute (by simpa using hargument) hitems
            | matching predicate payload =>
                rcases payload with _ | payload
                · -- the path does not lead to a predicate without a payload
                  intro after hafter
                  obtain rfl := Option.some.inj hafter
                  cases route with
                  | none =>
                      refine kept_none _ (wellOrdered_array.2 fun item hitem => hitems item ?_)
                      rw [eraseFirst_eq_eraseP] at hitem
                      exact List.mem_of_mem_eraseP hitem
                  | some rest =>
                      exact absurd hpassed.self.kept (by simp [isRemoval, haddress])
                · cases payload with
                  | object _ =>
                      simp only [funext (pullPayload_eq (Path.join path key) argument)]
                      exact keepsSlot_payload hroute (hpayload _) _ hslot
                  | _ =>
                      exact keepsSlot_onFirst hroute (fun _ hitem => hitem.kept) (some (.array items))
                        hslot
            | refused => exact kept_of_none rfl
        | _ => exact (hinside _).slot _ (some _) hslot

end Verbs

end DocumentAccess.Update
