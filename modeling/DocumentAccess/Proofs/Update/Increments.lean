import DocumentAccess.Proofs.Numbers
import DocumentAccess.Proofs.Update.Misreading

/-!
# Increments commute

An increment adds to the numbers of a document, and sums do not depend on their order.  What has to be
shown is that success does not depend on it either: one increment may make the number or the object that
the other one meets, or take for an object what the other one takes for a number.  Increments are
compared with *unbounded* ones, whose sums are never too large and which either succeed or not:
these commute, and a real increment agrees with them as long as its sums fit in 64 bits.

* `Attempt.result?` — what an attempt made, if it succeeded.
* `Update.IsIncrement` — an argument of integer deltas and objects.
* `Update.sums` — the additions that `$inc` comes to, one after the other.
* `Update.plus`, `Update.plusMembers` — unbounded increments; **`Update.result?_inc`** says when they are
  what `$inc` does.
* `Update.plusMembers_eq_some_iff`, `Update.plusAt_lookup` — what an unbounded increment makes of a
  member, and of the value at a sequence of keys.
* **`Update.plus_comm`** — unbounded increments commute.
* `Update.Grown`, **`Update.increments_commute`** — two increments do, and add both of their deltas.
-/

namespace DocumentAccess

/-! ## Successful attempts -/

namespace Attempt

variable {α β : Type}

/-- What an attempt has made of a value, unless it failed. -/
def result? (attempt : Attempt α) : Option α :=
  match attempt.failure with
  | none => some attempt.value
  | some _ => none

lemma result?_eq_some_iff {attempt : Attempt α} {value : α} :
    attempt.result? = some value ↔ attempt = done value := by
  obtain ⟨made, _ | error⟩ := attempt <;> simp [result?, done]

lemma result?_eq_none_iff {attempt : Attempt α} : attempt.result? = none ↔ attempt.failure ≠ none := by
  obtain ⟨made, _ | error⟩ := attempt <;> simp [result?]

@[simp] lemma result?_map (f : α → β) (attempt : Attempt α) :
    (attempt.map f).result? = attempt.result?.map f := by
  obtain ⟨made, _ | error⟩ := attempt <;> rfl

@[simp] lemma result?_andThen (attempt : Attempt α) (next : α → Attempt α) :
    (attempt.andThen next).result? = attempt.result?.bind fun made => (next made).result? := by
  obtain ⟨made, _ | error⟩ := attempt <;> rfl

end Attempt

namespace Update

open Value Number

/-! ## Arguments and their sums -/

/-- Deltas that are 64-bit integers, at any depth of objects without addressing. -/
inductive IsIncrement : Value → Prop where
  | delta {d : Int} : IsWord d → IsIncrement (.number (.int d))
  | fields {fields : List (String × Value)} : (∀ entry ∈ fields, isAddressing entry.1 = false) →
      (∀ entry ∈ fields, IsIncrement entry.2) → IsIncrement (.object fields)

mutual

/-- The additions that `$inc` comes to with an argument without addressing: what it finds, and the delta
for it.  The last one may be the one that fails. -/
def sums (path : String) (argument : List (String × Value)) (doc : Members) : List (Value × Number) :=
  match argument with
  | [] => []
  | (key, delta) :: rest =>
    sumsAt (Path.join path key) delta (Keyed.find? key doc) ++
      ((incField (Path.join path key) key delta doc).result?).elim [] (sums path rest)
termination_by structural argument

/-- The additions for one member. -/
def sumsAt (path : String) (delta : Value) (slot : Option Value) : List (Value × Number) :=
  match delta with
  | .number n => [(slot.getD (.ofNat 0), n)]
  | .object fields =>
    match slot.getD (.object []) with
    | .object members => sums path fields members
    | _ => []
  | _ => []
termination_by structural delta

end

/-- What is found is no number, or it and the sum are 64-bit integers. -/
def Fits (current : Value) (delta : Number) : Prop :=
  ∀ number, current = .number number →
    ∃ c d, number = .int c ∧ delta = .int d ∧ IsWord c ∧ IsWord (c + d)

/-! ## Unbounded increments -/

mutual

/-- What an increment makes of a member if no integer is too large. -/
def plus (delta : Value) (slot : Option Value) : Option Value :=
  match delta with
  | .number (.int d) =>
    match slot.getD (.ofNat 0) with
    | .number (.int c) => some (.number (.int (c + d)))
    | _ => none
  | .object fields =>
    match slot.getD (.object []) with
    | .object members => (plusMembers fields members).map .object
    | _ => none
  | _ => none
termination_by structural delta

/-- What an increment makes of an object if no integer is too large. -/
def plusMembers (argument : List (String × Value)) (doc : Members) : Option Members :=
  match argument with
  | [] => some doc
  | (key, delta) :: rest =>
    (plus delta (Keyed.find? key doc)).bind fun value => plusMembers rest (Keyed.insert key value doc)
termination_by structural argument

end

/-- What an increment makes of the member at a key, where the argument may have no delta for it. -/
def plusAt (delta slot : Option Value) : Option (Option Value) :=
  match delta with
  | none => some slot
  | some delta => (plus delta slot).map some

/-- An unbounded increment that succeeds adds to an integer or goes into an object. -/
lemma plus_cases {delta value : Value} {slot : Option Value} (h : plus delta slot = some value) :
    (∃ d c, delta = .number (.int d) ∧ slot.getD (.ofNat 0) = .number (.int c) ∧
      value = .number (.int (c + d))) ∨
    ∃ fields members after, delta = .object fields ∧ slot.getD (.object []) = .object members ∧
      plusMembers fields members = some after ∧ value = .object after := by
  rw [plus.eq_def] at h
  split at h
  · next d =>
      split at h
      · next c hcurrent => exact Or.inl ⟨d, c, rfl, hcurrent, (Option.some.inj h).symm⟩
      · simp at h
  · next fields =>
      split at h
      · next members hmembers =>
          obtain ⟨after, hafter, rfl⟩ := Option.map_eq_some_iff.1 h
          exact Or.inr ⟨fields, members, after, rfl, hmembers, hafter, rfl⟩
      · simp at h
  · simp at h

/-! ## Real increments are unbounded ones -/

section Real

variable {path key : String} {delta : Value} {slot : Option Value} {argument doc : Members}

lemma result?_incField (path key : String) (delta : Value) (doc : Members) :
    (incField path key delta doc).result?
      = (incSlot path delta (Keyed.find? key doc)).result?.map (put key doc) := by
  rw [incField_eq_atSlot, atSlot, Attempt.result?_map]

lemma result?_addSlot {d : Int} (hd : IsWord d) (hfits : Fits (slot.getD (.ofNat 0)) (.int d)) :
    (addSlot path (.int d) slot).result? = (plus (.number (.int d)) slot).map some := by
  rw [addSlot, plus]
  cases hcurrent : slot.getD (.ofNat 0) with
  | number number =>
      obtain ⟨c, d', rfl, hd', hc, hsum⟩ := hfits number hcurrent
      obtain rfl := Number.int.inj hd'
      simp only [addTo, add_words hc hd hsum]
      rfl
  | _ => rfl

/-- What holds of the members of an argument holds of the argument: the increment of an object is the
unbounded one. -/
lemma result?_inc_of
    (h : ∀ entry ∈ argument, ∀ path slot, (∀ sum ∈ sumsAt path entry.2 slot, Fits sum.1 sum.2) →
      (incSlot path entry.2 slot).result? = (plus entry.2 slot).map some)
    (hfits : ∀ sum ∈ sums path argument doc, Fits sum.1 sum.2) :
    (inc path argument doc).result? = plusMembers argument doc := by
  induction argument generalizing doc with
  | nil => rfl
  | cons entry rest ih =>
      obtain ⟨key, delta⟩ := entry
      obtain ⟨hfirst, hrest⟩ := List.forall_mem_cons.1 h
      rw [sums] at hfits
      have hstep : (incField (Path.join path key) key delta doc).result?
          = (plus delta (Keyed.find? key doc)).map fun value => Keyed.insert key value doc := by
        rw [result?_incField, hfirst _ _ fun sum hsum => hfits sum (List.mem_append_left _ hsum),
          Option.map_map]
        rfl
      rw [inc, plusMembers, Attempt.result?_andThen, hstep]
      rw [hstep] at hfits
      cases hplus : plus delta (Keyed.find? key doc) with
      | none => rfl
      | some value =>
          rw [hplus] at hfits
          exact ih hrest fun sum hsum => hfits sum (List.mem_append_right _ hsum)

/-- An increment whose sums fit does what an unbounded one does. -/
lemma result?_incSlot (h : IsIncrement delta) (path : String) (slot : Option Value)
    (hfits : ∀ sum ∈ sumsAt path delta slot, Fits sum.1 sum.2) :
    (incSlot path delta slot).result? = (plus delta slot).map some := by
  induction h generalizing path slot with
  | delta hd => exact result?_addSlot hd (hfits _ (by rw [sumsAt]; exact List.mem_singleton_self _))
  | @fields fields hkeys _ ih =>
      rw [incSlot_direct hkeys, plus]
      rw [sumsAt] at hfits
      cases hslot : slot.getD (.object []) with
      | object members =>
          rw [hslot] at hfits
          rw [onObject, Attempt.result?_map, Attempt.result?_map, result?_inc_of ih hfits]
      | _ => rfl

/-- **An increment whose sums fit succeeds exactly when the unbounded one does, with the same result.** -/
theorem result?_inc (h : IsIncrement (.object argument))
    (hfits : ∀ sum ∈ sums path argument doc, Fits sum.1 sum.2) :
    (inc path argument doc).result? = plusMembers argument doc := by
  cases h with
  | fields _ hvalues =>
      exact result?_inc_of (fun entry hentry => result?_incSlot (hvalues entry hentry)) hfits

end Real

/-! ## Members of an unbounded increment -/

section Members

variable {delta value : Value} {slot : Option Value} {argument doc after : Members}

/-- An unbounded increment succeeds when each of its members does: none of them meets what another one
has made. -/
lemma exists_plusMembers (hargument : (argument.map Prod.fst).Nodup)
    (h : ∀ key, ∃ made, plusAt (Keyed.find? key argument) (Keyed.find? key doc) = some made) :
    ∃ after, plusMembers argument doc = some after := by
  induction argument generalizing doc with
  | nil => exact ⟨doc, rfl⟩
  | cons entry rest ih =>
      obtain ⟨k, delta⟩ := entry
      obtain ⟨hnew, hrest⟩ := List.nodup_cons.1 hargument
      obtain ⟨made, hmade⟩ := h k
      rw [Keyed.find?_cons_self] at hmade
      obtain ⟨value, hvalue, -⟩ := Option.map_eq_some_iff.1 hmade
      rw [plusMembers, hvalue, Option.bind_some]
      -- the rest of the argument has no delta for the member that was made, and finds the others unchanged
      refine ih hrest fun key => ?_
      by_cases hk : k = key
      · subst hk
        exact ⟨_, by rw [Keyed.find?_eq_none_of_not_mem hnew]; rfl⟩
      · have hother := h key
        rwa [Keyed.find?_cons_of_ne hk, ← Keyed.find?_insert_of_ne (Ne.symm hk) value doc] at hother

/-- **An unbounded increment makes of each member what its delta for that member makes of it.** -/
theorem plusMembers_eq_some_iff (hargument : (argument.map Prod.fst).Nodup) (hdoc : Keyed.Sorted doc) :
    plusMembers argument doc = some after ↔
      Keyed.Sorted after ∧ ∀ key,
        plusAt (Keyed.find? key argument) (Keyed.find? key doc) = some (Keyed.find? key after) := by
  induction argument generalizing doc with
  | nil =>
      rw [plusMembers, Option.some.injEq]
      constructor
      · rintro rfl
        exact ⟨hdoc, fun key => rfl⟩
      · rintro ⟨hafter, hmembers⟩
        exact hdoc.ext hafter fun key => Option.some.inj (hmembers key)
  | cons entry rest ih =>
      obtain ⟨k, delta⟩ := entry
      obtain ⟨hnew, hrest⟩ := List.nodup_cons.1 hargument
      rw [plusMembers, Option.bind_eq_some_iff]
      constructor
      · rintro ⟨value, hvalue, hafter⟩
        obtain ⟨hsorted, hmembers⟩ := (ih hrest (hdoc.insert k value)).1 hafter
        refine ⟨hsorted, fun key => ?_⟩
        have hmember := hmembers key
        by_cases hk : k = key
        · subst hk
          rw [Keyed.find?_eq_none_of_not_mem hnew, Keyed.find?_insert_self] at hmember
          rw [Keyed.find?_cons_self, plusAt, hvalue]
          exact hmember
        · rwa [Keyed.find?_insert_of_ne (Ne.symm hk), ← Keyed.find?_cons_of_ne hk delta rest] at hmember
      · rintro ⟨hsorted, hmembers⟩
        have hhead := hmembers k
        rw [Keyed.find?_cons_self] at hhead
        obtain ⟨value, hvalue, hfound⟩ := Option.map_eq_some_iff.1 hhead
        refine ⟨value, hvalue, (ih hrest (hdoc.insert k value)).2 ⟨hsorted, fun key => ?_⟩⟩
        by_cases hk : k = key
        · subst hk
          rw [Keyed.find?_eq_none_of_not_mem hnew, Keyed.find?_insert_self, hfound]
          rfl
        · have hmember := hmembers key
          rwa [Keyed.find?_cons_of_ne hk, ← Keyed.find?_insert_of_ne (Ne.symm hk) value doc] at hmember

lemma wellOrdered_getD (hslot : ∀ existing ∈ slot, existing.WellOrdered) {members : Members}
    (h : slot.getD (.object []) = .object members) : (Value.object members).WellOrdered := by
  cases slot with
  | none =>
      obtain rfl : [] = members := Value.object.inj h
      exact wellOrdered_object.2 ⟨List.Pairwise.nil, by simp⟩
  | some existing => exact h ▸ hslot existing rfl

/-- An unbounded increment keeps the order of members. -/
lemma wellOrdered_plus (hdelta : delta.WellOrdered) (hslot : ∀ existing ∈ slot, existing.WellOrdered)
    (h : plus delta slot = some value) : value.WellOrdered := by
  induction delta using Value.inductionOn generalizing slot value with
  | object fields ih =>
      obtain ⟨hsorted, hvalues⟩ := wellOrdered_object.1 hdelta
      rcases plus_cases h with ⟨d, c, hnumber, -⟩ | ⟨_, members, after, hsame, hmembers, hafter, rfl⟩
      · simp at hnumber
      · obtain rfl := Value.object.inj hsame
        obtain ⟨hdoc, hchildren⟩ := wellOrdered_object.1 (wellOrdered_getD hslot hmembers)
        obtain ⟨hordered, hmade⟩ := (plusMembers_eq_some_iff hsorted.nodup_keys hdoc).1 hafter
        refine wellOrdered_object.2 ⟨hordered, fun entry hentry => ?_⟩
        have hmember := hmade entry.1
        rw [(Keyed.find?_eq_some_iff hordered.nodup_keys).2 hentry] at hmember
        have hold : ∀ existing ∈ Keyed.find? entry.1 members, existing.WellOrdered :=
          fun existing hfound => hchildren _ (Keyed.mem_of_find? hfound)
        cases hfind : Keyed.find? entry.1 fields with
        | none =>
            rw [hfind] at hmember
            exact hold _ (Option.some.inj hmember)
        | some inner =>
            rw [hfind] at hmember
            have hmem := Keyed.mem_of_find? hfind
            obtain ⟨made, hplus, hsame⟩ := Option.map_eq_some_iff.1 hmember
            obtain rfl := Option.some.inj hsame
            exact ih _ hmem (hvalues _ hmem) hold hplus
  | _ =>
      rcases plus_cases h with ⟨d, c, -, -, rfl⟩ | ⟨fields, members, after, hobject, -⟩
      · trivial
      · simp at hobject

end Members

/-! ## Unbounded increments commute -/

section Commute

variable {first second : Value} {slot : Option Value} {a b doc after : Members}

/-- Where two increments commute at each member, what they make one after the other they also make in the
other order. -/
lemma plusMembers_exchange (ha : (a.map Prod.fst).Nodup) (hb : (b.map Prod.fst).Nodup)
    (hdoc : Keyed.Sorted doc)
    (hcomm : ∀ key, (plusAt (Keyed.find? key a) (Keyed.find? key doc)).bind (plusAt (Keyed.find? key b))
      = (plusAt (Keyed.find? key b) (Keyed.find? key doc)).bind (plusAt (Keyed.find? key a)))
    (h : (plusMembers a doc).bind (plusMembers b) = some after) :
    (plusMembers b doc).bind (plusMembers a) = some after := by
  obtain ⟨middle, hmiddle, hafter⟩ := Option.bind_eq_some_iff.1 h
  obtain ⟨hmiddleSorted, hfirst⟩ := (plusMembers_eq_some_iff ha hdoc).1 hmiddle
  obtain ⟨hafterSorted, hsecond⟩ := (plusMembers_eq_some_iff hb hmiddleSorted).1 hafter
  -- in the other order, each member goes through a value of its own, which together make a document
  have hother : ∀ key, ∃ made, plusAt (Keyed.find? key b) (Keyed.find? key doc) = some made ∧
      plusAt (Keyed.find? key a) made = some (Keyed.find? key after) := by
    intro key
    have hboth := hcomm key
    rw [hfirst key, Option.bind_some, hsecond key] at hboth
    exact Option.bind_eq_some_iff.1 hboth.symm
  obtain ⟨between, hbetween⟩ :=
    exists_plusMembers hb fun key => ⟨_, (hother key).choose_spec.1⟩
  obtain ⟨hbetweenSorted, hmade⟩ := (plusMembers_eq_some_iff hb hdoc).1 hbetween
  rw [hbetween, Option.bind_some, plusMembers_eq_some_iff ha hbetweenSorted]
  refine ⟨hafterSorted, fun key => ?_⟩
  obtain ⟨made, hsame, hlast⟩ := hother key
  rw [hmade key, Option.some.injEq] at hsame
  rw [hsame, hlast]

lemma plusMembers_comm_of (ha : (a.map Prod.fst).Nodup) (hb : (b.map Prod.fst).Nodup)
    (hdoc : Keyed.Sorted doc)
    (hcomm : ∀ key, (plusAt (Keyed.find? key a) (Keyed.find? key doc)).bind (plusAt (Keyed.find? key b))
      = (plusAt (Keyed.find? key b) (Keyed.find? key doc)).bind (plusAt (Keyed.find? key a))) :
    (plusMembers a doc).bind (plusMembers b) = (plusMembers b doc).bind (plusMembers a) :=
  Option.ext fun _ => ⟨plusMembers_exchange ha hb hdoc hcomm,
    plusMembers_exchange hb ha hdoc fun key => (hcomm key).symm⟩

lemma plusAt_comm_of {first second : Option Value}
    (h : ∀ v ∈ first, ∀ w ∈ second, (plus v slot).bind (fun made => plus w (some made))
      = (plus w slot).bind fun made => plus v (some made)) :
    (plusAt first slot).bind (plusAt second) = (plusAt second slot).bind (plusAt first) := by
  cases first with
  | none => exact (Option.bind_fun_some _).symm
  | some v =>
      cases second with
      | none => exact Option.bind_fun_some _
      | some w =>
          have hmap : ∀ v w, (plusAt (some v) slot).bind (plusAt (some w))
              = ((plus v slot).bind fun made => plus w (some made)).map some := by
            intro v w
            rw [plusAt]
            cases plus v slot <;> rfl
          rw [hmap, hmap, h v rfl w rfl]

/-- What one increment makes a number of, the other one cannot go into. -/
lemma plus_number_object (n : Number) (fields : Members) (slot : Option Value) :
    (plus (.number n) slot).bind (fun made => plus (.object fields) (some made)) = none := by
  refine Option.bind_eq_none_iff.2 fun made hmade => ?_
  rcases plus_cases hmade with ⟨d, c, -, -, rfl⟩ | ⟨_, _, _, hobject, -⟩
  · rw [plus]
    rfl
  · simp at hobject

/-- What one increment goes into, the other one cannot add to. -/
lemma plus_object_number (n : Number) (fields : Members) (slot : Option Value) :
    (plus (.object fields) slot).bind (fun made => plus (.number n) (some made)) = none := by
  refine Option.bind_eq_none_iff.2 fun made hmade => ?_
  rcases plus_cases hmade with ⟨_, _, hnumber, -⟩ | ⟨_, _, after, -, -, -, rfl⟩
  · simp at hnumber
  · cases n <;> simp [plus]

/-- What is no number and no object is no delta. -/
lemma plus_eq_none {delta : Value} (hnumber : ∀ n, delta ≠ .number n) (hobject : ∀ f, delta ≠ .object f)
    (slot : Option Value) : plus delta slot = none := by
  refine Option.eq_none_iff_forall_ne_some.2 fun made hmade => ?_
  rcases plus_cases hmade with ⟨d, _, rfl, -⟩ | ⟨fields, _, _, rfl, -⟩
  · exact hnumber _ rfl
  · exact hobject _ rfl

lemma plus_comm_of_eq_none (h : ∀ slot, plus second slot = none) (first : Value) (slot : Option Value) :
    (plus first slot).bind (fun made => plus second (some made))
      = (plus second slot).bind fun made => plus first (some made) := by
  simp only [h, Option.bind_none, Option.bind_fun_none]

/-- **Unbounded increments commute**, and one order succeeds when the other one does. -/
theorem plus_comm (hfirst : first.WellOrdered) (hsecond : second.WellOrdered)
    (hslot : ∀ existing ∈ slot, existing.WellOrdered) :
    (plus first slot).bind (fun made => plus second (some made))
      = (plus second slot).bind fun made => plus first (some made) := by
  induction first using Value.inductionOn generalizing second slot with
  | number m =>
      cases second with
      | number n =>
          cases m <;> cases n <;> cases hcurrent : slot.getD (.ofNat 0) with
          | number current => cases current <;> simp [plus, hcurrent, Int.add_right_comm]
          | _ => simp [plus, hcurrent]
      | object fields => rw [plus_number_object, plus_object_number]
      | _ => exact plus_comm_of_eq_none (plus_eq_none (by simp) (by simp)) _ _
  | object f ih =>
      cases second with
      | number n => rw [plus_number_object, plus_object_number]
      | object g =>
          obtain ⟨hf, hfvalues⟩ := wellOrdered_object.1 hfirst
          obtain ⟨hg, hgvalues⟩ := wellOrdered_object.1 hsecond
          cases hmembers : slot.getD (.object []) with
          | object members =>
              obtain ⟨hdoc, hchildren⟩ := wellOrdered_object.1 (wellOrdered_getD hslot hmembers)
              have htwo : ∀ f g : Members,
                  (plus (.object f) slot).bind (fun made => plus (.object g) (some made))
                    = ((plusMembers f members).bind (plusMembers g)).map .object := by
                intro f g
                rw [plus, hmembers]
                dsimp only
                cases plusMembers f members with
                | none => rfl
                | some middle =>
                    show plus (.object g) (some (.object middle)) = _
                    rw [plus]
                    rfl
              rw [htwo, htwo, plusMembers_comm_of hf.nodup_keys hg.nodup_keys hdoc fun key => ?_]
              refine plusAt_comm_of fun v hv w hw => ?_
              have hmem := Keyed.mem_of_find? hv
              exact ih _ hmem (hfvalues _ hmem) (hgvalues _ (Keyed.mem_of_find? hw))
                fun existing hfound => hchildren _ (Keyed.mem_of_find? hfound)
          | _ => simp [plus, hmembers]
      | _ => exact plus_comm_of_eq_none (plus_eq_none (by simp) (by simp)) _ _
  | _ => exact (plus_comm_of_eq_none (plus_eq_none (by simp) (by simp)) _ _).symm

end Commute

/-! ## What increments make of a document -/

/-- The integer that a delta is. -/
def delta? : Value → Option Int
  | .number (.int d) => some d
  | _ => none

/-- The delta that an argument has for the field at a sequence of keys. -/
def deltaAt (argument : Members) (keys : List String) : Option Int :=
  (lookup keys (.object argument)).bind delta?

/-- A sequence of keys leads to an object. -/
def HasObject (doc : Members) (keys : List String) : Prop :=
  ∃ members, lookup keys (.object doc) = some (.object members)

/-- What two increments make of a document: its fields are the values in it that are no objects. -/
structure Grown (a b doc after : Members) : Prop where
  /-- A field with a delta, zero if it is missing, grows by the sum of its deltas. -/
  incremented : ∀ keys, (deltaAt a keys ≠ none ∨ deltaAt b keys ≠ none) →
    ∃ c, (lookup keys (.object doc)).getD (.ofNat 0) = .ofInt c ∧
      lookup keys (.object after)
        = some (.ofInt (c + ((deltaAt a keys).getD 0 + (deltaAt b keys).getD 0)))
  /-- No other field changes, appears or disappears. -/
  elsewhere : ∀ keys, deltaAt a keys = none → deltaAt b keys = none → ∀ value,
    value.isObject = false →
      (lookup keys (.object after) = some value ↔ lookup keys (.object doc) = some value)
  /-- The objects are those of the document and of the arguments. -/
  objects : ∀ keys, HasObject after keys ↔ HasObject doc keys ∨ HasObject a keys ∨ HasObject b keys

section Grown

variable {delta slot made : Option Value}

lemma wellOrdered_get? {value : Option Value} (h : ∀ v ∈ value, v.WellOrdered) (key : String) :
    ∀ v ∈ value.bind (get? key), v.WellOrdered := by
  intro v hv
  obtain ⟨found, hfound, hget⟩ := Option.bind_eq_some_iff.1 hv
  cases found with
  | object members => exact (wellOrdered_object.1 (h _ hfound)).2 _ (Keyed.mem_of_find? hget)
  | _ => simp [get?] at hget

lemma plusAt_get? (hdelta : ∀ value ∈ delta, value.WellOrdered)
    (hslot : ∀ value ∈ slot, value.WellOrdered) (h : plusAt delta slot = some made) (key : String) :
    plusAt (delta.bind (get? key)) (slot.bind (get? key)) = some (made.bind (get? key)) := by
  cases delta with
  | none =>
      obtain rfl := Option.some.inj h
      rfl
  | some delta =>
      obtain ⟨value, hvalue, rfl⟩ := Option.map_eq_some_iff.1 h
      rcases plus_cases hvalue with
        ⟨d, c, rfl, hcurrent, rfl⟩ | ⟨fields, members, after, rfl, hmembers, hafter, rfl⟩
      · cases slot with
        | none => rfl
        | some existing =>
            obtain rfl : existing = .number (.int c) := hcurrent
            rfl
      · have hmember := ((plusMembers_eq_some_iff (wellOrdered_object.1 (hdelta _ rfl)).1.nodup_keys
          (wellOrdered_object.1 (wellOrdered_getD hslot hmembers)).1).1 hafter).2 key
        cases slot with
        | none =>
            obtain rfl : [] = members := Value.object.inj hmembers
            exact hmember
        | some existing =>
            obtain rfl : existing = .object members := hmembers
            exact hmember

/-- **What an increment makes of members, it makes of the values at sequences of keys.** -/
theorem plusAt_lookup (hdelta : ∀ value ∈ delta, value.WellOrdered)
    (hslot : ∀ value ∈ slot, value.WellOrdered) (h : plusAt delta slot = some made)
    (keys : List String) :
    plusAt (delta.bind (lookup keys)) (slot.bind (lookup keys)) = some (made.bind (lookup keys)) := by
  induction keys generalizing delta slot made with
  | nil => simpa [lookup] using h
  | cons key keys ih =>
      have hstep : ∀ value : Option Value,
          value.bind (lookup (key :: keys)) = (value.bind (get? key)).bind (lookup keys) :=
        fun value => (Option.bind_assoc value (get? key) (lookup keys)).symm
      rw [hstep, hstep, hstep]
      exact ih (wellOrdered_get? hdelta key) (wellOrdered_get? hslot key)
        (plusAt_get? hdelta hslot h key)

/-- An unbounded increment leaves a value alone, or adds to an integer, or goes into an object. -/
lemma plusAt_cases (h : plusAt delta slot = some made) :
    (delta = none ∧ made = slot) ∨
    (∃ d c, delta = some (.ofInt d) ∧ slot.getD (.ofNat 0) = .ofInt c ∧ made = some (.ofInt (c + d))) ∨
    ∃ fields members after, delta = some (.object fields) ∧ slot.getD (.object []) = .object members ∧
      made = some (.object after) := by
  cases delta with
  | none => exact Or.inl ⟨rfl, (Option.some.inj h).symm⟩
  | some delta =>
      obtain ⟨value, hvalue, rfl⟩ := Option.map_eq_some_iff.1 h
      rcases plus_cases hvalue with
        ⟨d, c, rfl, hcurrent, rfl⟩ | ⟨fields, members, after, rfl, hmembers, -, rfl⟩
      · exact Or.inr (Or.inl ⟨d, c, rfl, hcurrent, rfl⟩)
      · exact Or.inr (Or.inr ⟨fields, members, after, rfl, hmembers, rfl⟩)

lemma plusAt_of_delta {d : Int} (hdelta : delta.bind delta? = some d)
    (h : plusAt delta slot = some made) :
    ∃ c, slot.getD (.ofNat 0) = .ofInt c ∧ made = some (.ofInt (c + d)) := by
  rcases plusAt_cases h with ⟨rfl, -⟩ | ⟨e, c, rfl, hcurrent, rfl⟩ | ⟨fields, _, _, rfl, -⟩
  · simp at hdelta
  · obtain rfl : e = d := Option.some.inj hdelta
    exact ⟨c, hcurrent, rfl⟩
  · simp [delta?] at hdelta

/-- Without a delta, a value is left alone or is an object before and after. -/
lemma plusAt_of_no_delta (hdelta : delta.bind delta? = none) (h : plusAt delta slot = some made) :
    made = slot ∨ ∃ members after, slot.getD (.object []) = .object members ∧
      made = some (.object after) := by
  rcases plusAt_cases h with ⟨-, rfl⟩ | ⟨d, c, rfl, -⟩ | ⟨_, members, after, -, hmembers, rfl⟩
  · exact Or.inl rfl
  · simp [ofInt, delta?] at hdelta
  · exact Or.inr ⟨members, after, hmembers, rfl⟩

lemma plusAt_field (hdelta : delta.bind delta? = none) (h : plusAt delta slot = some made)
    {value : Value} (hvalue : value.isObject = false) : made = some value ↔ slot = some value := by
  rcases plusAt_of_no_delta hdelta h with rfl | ⟨members, after, hmembers, rfl⟩
  · exact Iff.rfl
  · have hobject : ∀ members, Value.object members ≠ value := by
      rintro members rfl
      simp [isObject] at hvalue
    constructor
    · exact fun hmade => absurd (Option.some.inj hmade) (hobject after)
    · rintro rfl
      exact absurd hmembers.symm (hobject members)

lemma plusAt_integer (hdelta : delta.bind delta? = none) (h : plusAt delta slot = some made) {c : Int}
    (hmade : made.getD (.ofNat 0) = .ofInt c) : slot.getD (.ofNat 0) = .ofInt c := by
  rcases plusAt_of_no_delta hdelta h with rfl | ⟨members, after, -, rfl⟩
  · exact hmade
  · simp [ofInt] at hmade

lemma plusAt_object (h : plusAt delta slot = some made) :
    (∃ after, made = some (.object after)) ↔
      (∃ members, slot = some (.object members)) ∨ ∃ fields, delta = some (.object fields) := by
  rcases plusAt_cases h with
    ⟨rfl, rfl⟩ | ⟨d, c, rfl, hcurrent, rfl⟩ | ⟨fields, members, after, rfl, -, rfl⟩
  · simp
  · have hslot : ∀ members, slot ≠ some (.object members) := by
      rintro members rfl
      simp [ofInt] at hcurrent
    simp [ofInt, hslot]
  · simp

variable {a b doc after : Members}

lemma plus_root {members : Members} (h : plusMembers a doc = some members) :
    plus (.object a) (some (.object doc)) = some (.object members) := by
  rw [plus]
  exact congrArg (Option.map Value.object) h

lemma plusAt_root {members : Members} (h : plusMembers a doc = some members) :
    plusAt (some (.object a)) (some (.object doc)) = some (some (.object members)) :=
  congrArg (Option.map some) (plus_root h)

/-- Two unbounded increments add both of their deltas. -/
lemma grown_of_plusMembers (ha : (Value.object a).WellOrdered) (hb : (Value.object b).WellOrdered)
    (hdoc : (Value.object doc).WellOrdered)
    (h : (plusMembers a doc).bind (plusMembers b) = some after) : Grown a b doc after := by
  obtain ⟨middle, hmiddle, hafter⟩ := Option.bind_eq_some_iff.1 h
  have hordered : (Value.object middle).WellOrdered :=
    wellOrdered_plus ha (by simpa using hdoc) (plus_root hmiddle)
  have hfirst : ∀ keys, plusAt (lookup keys (.object a)) (lookup keys (.object doc))
      = some (lookup keys (.object middle)) :=
    plusAt_lookup (by simpa using ha) (by simpa using hdoc) (plusAt_root hmiddle)
  have hsecond : ∀ keys, plusAt (lookup keys (.object b)) (lookup keys (.object middle))
      = some (lookup keys (.object after)) :=
    plusAt_lookup (by simpa using hb) (by simpa using hordered) (plusAt_root hafter)
  refine ⟨fun keys hkeys => ?_, fun keys hnoneA hnoneB value hvalue => ?_, fun keys => ?_⟩
  · cases hdeltaA : deltaAt a keys with
    | none =>
        cases hdeltaB : deltaAt b keys with
        | none => simp [hdeltaA, hdeltaB] at hkeys
        | some e =>
            obtain ⟨c, hcurrent, hsum⟩ := plusAt_of_delta hdeltaB (hsecond keys)
            refine ⟨c, plusAt_integer hdeltaA (hfirst keys) hcurrent, ?_⟩
            simpa using hsum
    | some d =>
        obtain ⟨c, hcurrent, hsum⟩ := plusAt_of_delta hdeltaA (hfirst keys)
        refine ⟨c, hcurrent, ?_⟩
        cases hdeltaB : deltaAt b keys with
        | none => simpa using (plusAt_field hdeltaB (hsecond keys) rfl).2 hsum
        | some e =>
            obtain ⟨c', hcurrent', hsum'⟩ := plusAt_of_delta hdeltaB (hsecond keys)
            rw [hsum] at hcurrent'
            obtain rfl : c + d = c' := Number.int.inj (Value.number.inj hcurrent')
            rw [hsum', Int.add_assoc]
            rfl
  · rw [plusAt_field hnoneB (hsecond keys) hvalue, plusAt_field hnoneA (hfirst keys) hvalue]
  · rw [HasObject, plusAt_object (hsecond keys), plusAt_object (hfirst keys), or_assoc]
    exact Iff.rfl

end Grown

/-! ## Two increments -/

/-- One increment after another. -/
def incrementTwice (versionKey key : String) (first second doc : Members) : Attempt Value :=
  (apply versionKey (.object [(key, .object first)]) (.object doc)).andThen
    (apply versionKey (.object [(key, .object second)]))

/-- The additions that one increment after another comes to; a second one is not tried when the first
one fails. -/
def sumsInTurn (first second doc : Members) : List (Value × Number) :=
  sums "" first doc ++ ((inc "" first doc).result?).elim [] (sums "" second)

section Twice

variable {key : String} {a b doc : Members}

lemma result?_incrementTwice (versionKey : String) (hkey : UpdateKey.ofKey key = .verb .inc)
    (ha : IsIncrement (.object a)) (hb : IsIncrement (.object b))
    (hfits : ∀ sum ∈ sumsInTurn a b doc, Fits sum.1 sum.2) :
    (incrementTwice versionKey key a b doc).result?
      = ((plusMembers a doc).bind (plusMembers b)).map .object := by
  have hrun : ∀ argument doc,
      (apply versionKey (.object [(key, .object argument)]) (.object doc)).result?
        = ((inc "" argument doc).result?).map .object := by
    intro argument doc
    rw [apply_verb hkey, applyVerb, onObject, Attempt.result?_map]
  have hfirst : (inc "" a doc).result? = plusMembers a doc :=
    result?_inc ha fun sum hsum => hfits sum (List.mem_append_left _ hsum)
  rw [incrementTwice, Attempt.result?_andThen, hrun, hfirst]
  cases hmiddle : plusMembers a doc with
  | none => rfl
  | some middle =>
      have hsecond : (inc "" b middle).result? = plusMembers b middle := by
        refine result?_inc hb fun sum hsum => hfits sum (List.mem_append_right _ ?_)
        rw [hfirst, hmiddle]
        exact hsum
      rw [Option.map_some, Option.bind_some, Option.bind_some, hrun, hsecond]

/-- **Increments commute.**  When everything that two increments add in either order is a 64-bit integer,
either both orders fail, or both succeed with the same document, in which each field has grown by the
deltas that the two give for it. -/
theorem increments_commute (versionKey : String) (hkey : UpdateKey.ofKey key = .verb .inc)
    (ha : IsIncrement (.object a)) (hb : IsIncrement (.object b))
    (haOrdered : (Value.object a).WellOrdered) (hbOrdered : (Value.object b).WellOrdered)
    (hdoc : (Value.object doc).WellOrdered)
    (hab : ∀ sum ∈ sumsInTurn a b doc, Fits sum.1 sum.2)
    (hba : ∀ sum ∈ sumsInTurn b a doc, Fits sum.1 sum.2) :
    (∃ after, incrementTwice versionKey key a b doc = .done (.object after) ∧
      incrementTwice versionKey key b a doc = .done (.object after) ∧ Grown a b doc after) ∨
    ((incrementTwice versionKey key a b doc).failure ≠ none ∧
      (incrementTwice versionKey key b a doc).failure ≠ none) := by
  obtain ⟨haSorted, haValues⟩ := wellOrdered_object.1 haOrdered
  obtain ⟨hbSorted, hbValues⟩ := wellOrdered_object.1 hbOrdered
  obtain ⟨hdocSorted, hdocValues⟩ := wellOrdered_object.1 hdoc
  have hcomm : (plusMembers a doc).bind (plusMembers b) = (plusMembers b doc).bind (plusMembers a) :=
    plusMembers_comm_of haSorted.nodup_keys hbSorted.nodup_keys hdocSorted fun key =>
      plusAt_comm_of fun v hv w hw =>
        plus_comm (haValues _ (Keyed.mem_of_find? hv)) (hbValues _ (Keyed.mem_of_find? hw))
          fun existing hfound => hdocValues _ (Keyed.mem_of_find? hfound)
  have hfirst := result?_incrementTwice versionKey hkey ha hb hab
  have hsecond := result?_incrementTwice versionKey hkey hb ha hba
  rw [← hcomm] at hsecond
  cases hboth : (plusMembers a doc).bind (plusMembers b) with
  | none =>
      rw [hboth] at hfirst hsecond
      exact Or.inr ⟨Attempt.result?_eq_none_iff.1 hfirst, Attempt.result?_eq_none_iff.1 hsecond⟩
  | some after =>
      rw [hboth] at hfirst hsecond
      exact Or.inl ⟨after, Attempt.result?_eq_some_iff.1 hfirst, Attempt.result?_eq_some_iff.1 hsecond,
        grown_of_plusMembers haOrdered hbOrdered hdoc hboth⟩

end Twice

/-- A song, one increment for a like and a play, and one that takes plays back and makes a counter. -/
def song : Members :=
  [("likes", .ofInt 5), ("stats", .object [("plays", .ofInt 7), ("title", .string "Etude")])]

def played : Members :=
  [("likes", .ofInt 1), ("stats", .object [("plays", .ofInt 1)])]

def takenBack : Members :=
  [("stats", .object [("plays", .ofInt (-3)), ("skips", .ofInt 2)])]

def countedSong : Members :=
  [("likes", .ofInt 6),
    ("stats", .object [("plays", .ofInt 5), ("skips", .ofInt 2), ("title", .string "Etude")])]

/-- The plays have grown by both deltas, the likes and the skips by one. -/
theorem increments_commute_song :
    incrementTwice "__v" "$inc" takenBack played song = .done (.object countedSong) ∧
    Grown played takenBack song countedSong := by
  have hkeys : Ordered.before "likes" "stats" = true ∧ Ordered.before "plays" "skips" = true ∧
      Ordered.before "plays" "title" = true := by decide
  have hplayed : IsIncrement (.object played) := by
    refine .fields (by decide) ?_
    simp only [played, List.forall_mem_cons, List.not_mem_nil, false_implies, implies_true, and_true]
    exact ⟨.delta (by decide), .fields (by decide) (by simpa using .delta (by decide))⟩
  have htakenBack : IsIncrement (.object takenBack) := by
    refine .fields (by decide) ?_
    simp only [takenBack, List.forall_mem_cons, List.not_mem_nil, false_implies, implies_true, and_true]
    refine .fields (by decide) ?_
    simp only [List.forall_mem_cons, List.not_mem_nil, false_implies, implies_true, and_true]
    exact ⟨.delta (by decide), .delta (by decide)⟩
  have hfits : ∀ c d : Int, IsWord c → IsWord (c + d) → Fits (.ofInt c) (.int d) := by
    intro c d hc hsum number hnumber
    exact ⟨c, d, (Value.number.inj hnumber).symm, rfl, hc, hsum⟩
  have hsums : sumsInTurn played takenBack song
      = [(.ofInt 5, .int 1), (.ofInt 7, .int 1), (.ofInt 8, .int (-3)), (.ofInt 0, .int 2)] := rfl
  have hsumsBack : sumsInTurn takenBack played song
      = [(.ofInt 7, .int (-3)), (.ofInt 0, .int 2), (.ofInt 5, .int 1), (.ofInt 4, .int 1)] := rfl
  have hplayedOrdered : (Value.object played).WellOrdered := by
    simp [played, WellOrdered, WellOrderedMembers, Keyed.Sorted, hkeys, Value.ofInt]
  have htakenBackOrdered : (Value.object takenBack).WellOrdered := by
    simp [takenBack, WellOrdered, WellOrderedMembers, Keyed.Sorted, hkeys, Value.ofInt]
  have hsong : (Value.object song).WellOrdered := by
    simp [song, WellOrdered, WellOrderedMembers, Keyed.Sorted, hkeys, Value.ofInt]
  have hinc : UpdateKey.ofKey "$inc" = .verb .inc := by decide
  rcases increments_commute "__v" hinc hplayed htakenBack hplayedOrdered htakenBackOrdered hsong
    (by
      rw [hsums]
      simp only [List.forall_mem_cons, List.not_mem_nil, false_implies, implies_true, and_true]
      refine ⟨?_, ?_, ?_, ?_⟩ <;> exact hfits _ _ (by decide) (by decide))
    (by
      rw [hsumsBack]
      simp only [List.forall_mem_cons, List.not_mem_nil, false_implies, implies_true, and_true]
      refine ⟨?_, ?_, ?_, ?_⟩ <;> exact hfits _ _ (by decide) (by decide))
    with ⟨after, -, hback, hgrown⟩ | ⟨hfailed, -⟩
  · have hsame : Attempt.done (Value.object countedSong) = .done (.object after) := hback
    obtain rfl : countedSong = after := Value.object.inj (congrArg Attempt.value hsame)
    exact ⟨hback, hgrown⟩
  · exact absurd rfl hfailed

end Update

end DocumentAccess
