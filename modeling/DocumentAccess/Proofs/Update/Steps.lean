import DocumentAccess.Proofs.Keyed
import DocumentAccess.Update.Command

/-!
# The steps of a command

Whatever a command does to an object it does member by member: a step looks at the member under one
key, and either writes that member or leaves the object as it is.  So each verb is told by what it
makes of one member, present or missing — its *slot* — and a command is a sequence of such steps.

* `Update.atSlot` — the step that treats the member under a key.
* `setSlot`, `incSlot`, `appendSlot`, `pullSlot`, `fieldSlot` — what the verbs and a command under a
  field key make of one member; each comes with the equation that says so.
* `Update.each` — one step for each entry of an argument; `Update.each_induction` is the induction over
  these steps.
* **`Update.walk_object`** — a command on an object is its steps in order.
-/

namespace DocumentAccess.Update

/-! ## Steps -/

/-- Writes what became of the member under a key, if it is to be written. -/
def put (key : String) (doc : Members) : Option Value → Members
  | some value => Keyed.insert key value doc
  | none => doc

/-- Treats the member under a key: `none` in the outcome leaves the object as it is. -/
def atSlot (key : String) (treat : Option Value → Attempt (Option Value)) (doc : Members) :
    Attempt Members :=
  (treat (Keyed.find? key doc)).map (put key doc)

/-- A change of the items of a list; what is no list is left alone. -/
def inArray (change : List Value → Attempt (List Value)) :
    Option Value → Attempt (Option Value)
  | some (.array items) => (change items).map fun items => some (.array items)
  | _ => .done none

lemma onElement_eq_atSlot (key : String) (predicate : Members) (change : Value → Attempt Value)
    (doc : Members) :
    onElement key predicate change doc
      = atSlot key (inArray (Attempt.onFirst (holds predicate) change)) doc := by
  unfold onElement atSlot
  rcases Keyed.find? key doc with _ | value
  · rfl
  · cases value <;> rfl

lemma onPosition_eq_atSlot (key : String) (position : Nat) (change : Value → Attempt Value)
    (doc : Members) :
    onPosition key position change doc
      = atSlot key (inArray (Attempt.onIndex change position)) doc := by
  unfold onPosition atSlot
  rcases Keyed.find? key doc with _ | value
  · rfl
  · cases value <;> rfl

/-! ## `$set` -/

/-- What a direct `$set` makes of a member. -/
def merged (value : Value) : Option Value → Value
  | some existing => merge existing value
  | none => value

/-- What `$set` makes of the member under a key that is not protected. -/
def setSlot (versionKey path : String) (value : Value) (slot : Option Value) :
    Attempt (Option Value) :=
  match value with
  | .object argument =>
    match Address.ofMembers argument with
    | .direct => .done (some (merged value slot))
    | .refused => .failed none (.invalidArgument none path .whereNotObject)
    | .matching predicate (some (.object payload)) =>
      .done (slot.map (mergeFirst predicate (settable versionKey payload)))
    | .matching _ _ => .failed none (.invalidArgument (some .set) path .doNotObject)
  | _ => .done (some (merged value slot))

lemma setMember_eq_atSlot (versionKey path key : String) (value : Value) (doc : Members) :
    setMember versionKey path key value doc = atSlot key (setSlot versionKey path value) doc := by
  unfold setMember atSlot
  cases value with
  | object argument =>
      dsimp only [setSlot]
      rcases Address.ofMembers argument with _ | ⟨predicate, payload⟩ | _
      · cases Keyed.find? key doc <;> rfl
      · rcases payload with _ | payload
        · rfl
        · cases payload <;> cases Keyed.find? key doc <;> rfl
      · rfl
  | _ => cases Keyed.find? key doc <;> rfl

/-! ## `$inc` -/

/-- What an increment by a number makes of a member. -/
def addSlot (path : String) (delta : Number) (slot : Option Value) : Attempt (Option Value) :=
  match addTo path delta (slot.getD (.ofNat 0)) with
  | ⟨sum, none⟩ => .done (some sum)
  | ⟨_, some error⟩ => .failed none error

/-- What `$inc` makes of a member. -/
def incSlot (path : String) (delta : Value) (slot : Option Value) : Attempt (Option Value) :=
  match delta with
  | .number n => addSlot path n slot
  | .object argument =>
    if Keyed.contains indexKey argument then
      if Keyed.contains whereKey argument then .failed none (.mixedAddressing path)
      else match (Keyed.find? indexKey argument).bind Value.natural? with
        | none => .failed none (.invalidArgument (some .inc) path .indexKind)
        | some position =>
          match Keyed.find? doKey argument with
          | none => .failed none (.invalidArgument (some .inc) path .indexWithoutDo)
          | some _ => inArray (Attempt.onIndex (incIndexed path argument) position) slot
    else match Address.ofMembers argument with
      | .refused => .failed none (.invalidArgument none path .whereNotObject)
      | .matching predicate (some (.object _)) =>
        inArray (Attempt.onFirst (holds predicate) (onObject path (incPayload path argument))) slot
      | .matching _ _ => .failed none (.invalidArgument (some .inc) path .doNotObject)
      | .direct =>
        if Keyed.contains doKey argument then .failed none (.missingAddress path)
        else (onObject path (inc path argument) (slot.getD (.object []))).map some
  | _ => .failed none (.invalidArgument (some .inc) path .deltaKind)

lemma addToField_eq_atSlot (path key : String) (delta : Number) (doc : Members) :
    addToField path key delta doc = atSlot key (addSlot path delta) doc := by
  unfold addToField atSlot addSlot
  rcases addTo path delta ((Keyed.find? key doc).getD (.ofNat 0)) with ⟨sum, _ | error⟩ <;> rfl

lemma incField_eq_atSlot (path key : String) (delta : Value) (doc : Members) :
    incField path key delta doc = atSlot key (incSlot path delta) doc := by
  cases delta with
  | number n =>
      rw [incField, addToField_eq_atSlot]
      rfl
  | object argument =>
      rw [incField]
      unfold atSlot incSlot
      dsimp only
      by_cases hindex : Keyed.contains indexKey argument = true
      · rw [if_pos hindex, if_pos hindex]
        by_cases hwhere : Keyed.contains whereKey argument = true
        · rw [if_pos hwhere, if_pos hwhere]
          rfl
        · rw [if_neg hwhere, if_neg hwhere]
          rcases (Keyed.find? indexKey argument).bind Value.natural? with _ | position
          · rfl
          · rcases Keyed.find? doKey argument with _ | payload
            · rfl
            · exact onPosition_eq_atSlot key position _ doc
      · rw [if_neg hindex, if_neg hindex]
        rcases Address.ofMembers argument with _ | ⟨predicate, payload⟩ | _
        · by_cases hdo : Keyed.contains doKey argument = true
          · rw [if_pos hdo, if_pos hdo]
            rfl
          · rw [if_neg hdo, if_neg hdo]
            rfl
        · rcases payload with _ | payload
          · rfl
          · cases payload with
            | object fields => exact onElement_eq_atSlot key predicate _ doc
            | _ => rfl
        · rfl
  | _ => rfl

/-! ## `$push` and `$addToSet` -/

/-- What `$push` or `$addToSet` of a value that is no object makes of a member. -/
def extendSlot (unique : Bool) (path : String) (value : Value) (slot : Option Value) :
    Attempt (Option Value) :=
  match slot with
  | none => .done (some (.array (extend unique [] (asValues value))))
  | some (.array items) => .done (some (.array (extend unique items (asValues value))))
  | some _ => .failed none (.invalidArgument (some (appendVerb unique)) path .targetNotArray)

/-- What `$push` or `$addToSet` makes of a member. -/
def appendSlot (unique : Bool) (path : String) (value : Value) (slot : Option Value) :
    Attempt (Option Value) :=
  match value with
  | .object argument =>
    match slot with
    | some (.array items) =>
      match Address.ofMembers argument with
      | .refused => .failed none (.invalidArgument none path .whereNotObject)
      | .matching predicate (some (.object _)) =>
        inArray (Attempt.onFirst (holds predicate) (onObject path (appendPayload unique path argument)))
          slot
      | .matching _ _ =>
        .failed none (.invalidArgument (some (appendVerb unique)) path .doNotObject)
      | .direct => .done (some (.array (extend unique items [.object argument])))
    | some existing => (onObject path (append unique path argument) existing).map some
    | none =>
      match append unique path argument [] with
      | ⟨child, none⟩ => .done (some (.object child))
      | ⟨_, some error⟩ => .failed none error
  | value => extendSlot unique path value slot

lemma appendValues_eq_atSlot (unique : Bool) (path key : String) (value : Value) (doc : Members) :
    appendValues unique path key value doc = atSlot key (extendSlot unique path value) doc := by
  unfold appendValues atSlot extendSlot
  rcases Keyed.find? key doc with _ | existing
  · rfl
  · cases existing <;> rfl

lemma appendField_eq_atSlot (unique : Bool) (path key : String) (value : Value) (doc : Members) :
    appendField unique path key value doc = atSlot key (appendSlot unique path value) doc := by
  cases value with
  | object argument =>
      rw [appendField]
      unfold atSlot appendSlot
      dsimp only
      rcases hslot : Keyed.find? key doc with _ | existing
      · rcases append unique path argument [] with ⟨child, _ | error⟩ <;> rfl
      · cases existing with
        | array items =>
            dsimp only
            rcases Address.ofMembers argument with _ | ⟨predicate, payload⟩ | _
            · rfl
            · rcases payload with _ | payload
              · rfl
              · cases payload with
                | object fields =>
                    dsimp only
                    rw [onElement_eq_atSlot, atSlot, hslot]
                | _ => rfl
            · rfl
        | _ => rfl
  | _ =>
      rw [appendField, appendValues_eq_atSlot]
      · rfl
      · simp

/-! ## `$pull` -/

/-- What `$pull` of a value that is no object makes of a member. -/
def withoutSlot (path : String) (value : Value) (slot : Option Value) : Attempt (Option Value) :=
  match slot with
  | none => .done none
  | some (.array items) => .done (some (.array (without (asValues value) items)))
  | some _ => .failed none (.invalidArgument (some .pull) path .targetNotArray)

/-- What `$pull` makes of a member. -/
def pullSlot (path : String) (value : Value) (slot : Option Value) : Attempt (Option Value) :=
  match value with
  | .object argument =>
    match slot with
    | some (.array items) =>
      match Address.ofMembers argument with
      | .refused => .failed none (.invalidArgument none path .whereNotObject)
      | .matching predicate none => .done (some (.array (eraseFirst (holds predicate) items)))
      | .matching predicate (some (.object _)) =>
        inArray (Attempt.onFirst (holds predicate) (onObject path (pullPayload path argument))) slot
      | .matching predicate (some _) =>
        inArray (Attempt.onFirst (holds predicate)
          fun element => .failed element (.invalidArgument (some .pull) path .doNotObject)) slot
      | .direct => .done (some (.array (without [.object argument] items)))
    | some existing => (onObject path (pull path argument) existing).map some
    | none => .done none
  | value => withoutSlot path value slot

lemma pullValues_eq_atSlot (path key : String) (value : Value) (doc : Members) :
    pullValues path key value doc = atSlot key (withoutSlot path value) doc := by
  unfold pullValues atSlot withoutSlot
  rcases Keyed.find? key doc with _ | existing
  · rfl
  · cases existing <;> rfl

lemma pullField_eq_atSlot (path key : String) (value : Value) (doc : Members) :
    pullField path key value doc = atSlot key (pullSlot path value) doc := by
  cases value with
  | object argument =>
      rw [pullField]
      unfold atSlot pullSlot
      dsimp only
      rcases hslot : Keyed.find? key doc with _ | existing
      · rfl
      · cases existing with
        | array items =>
            dsimp only
            rcases Address.ofMembers argument with _ | ⟨predicate, payload⟩ | _
            · rfl
            · rcases payload with _ | payload
              · rfl
              · cases payload <;>
                · dsimp only
                  rw [onElement_eq_atSlot, atSlot, hslot]
            · rfl
        | _ => rfl
  | _ =>
      rw [pullField, pullValues_eq_atSlot]
      · rfl
      · simp

/-! ## Sequences of steps -/

/-- One step for each entry of an argument, up to the first that fails. -/
def each (step : String → Value → Members → Attempt Members) : Members → Members → Attempt Members
  | [], doc => .done doc
  | (key, value) :: rest, doc => (step key value doc).andThen (each step rest)

/-- What every step keeps, a sequence of them keeps, even when one of them fails. -/
lemma each_induction {motive : Members → Prop} {step : String → Value → Members → Attempt Members}
    {argument : Members}
    (hstep : ∀ entry ∈ argument, ∀ doc, motive doc → motive (step entry.1 entry.2 doc).value)
    {doc : Members} (hdoc : motive doc) : motive (each step argument doc).value := by
  induction argument generalizing doc with
  | nil => exact hdoc
  | cons entry rest ih =>
      obtain ⟨key, value⟩ := entry
      have hfirst := hstep (key, value) List.mem_cons_self doc hdoc
      rw [each, Attempt.andThen]
      cases (step key value doc).failure with
      | some error => exact hfirst
      | none => exact ih (fun other hother => hstep other (List.mem_cons_of_mem _ hother)) hfirst

/-- What a verb makes of a member. -/
def verbSlot (versionKey : String) (verb : Verb) (path key : String) (value : Value)
    (slot : Option Value) : Attempt (Option Value) :=
  match verb with
  | .set => if isProtected versionKey key then .done none
      else setSlot versionKey (Path.join path key) value slot
  | .inc => incSlot (Path.join path key) value slot
  | .push => appendSlot false (Path.join path key) value slot
  | .pull => pullSlot (Path.join path key) value slot
  | .addToSet => appendSlot true (Path.join path key) value slot

/-- What a verb does for one member of its argument. -/
def verbStep (versionKey : String) (verb : Verb) (path key : String) (value : Value)
    (doc : Members) : Attempt Members :=
  atSlot key (verbSlot versionKey verb path key value) doc

lemma set_eq_each (versionKey path : String) (argument doc : Members) :
    set versionKey path argument doc = each (verbStep versionKey .set path) argument doc := by
  induction argument generalizing doc with
  | nil => rfl
  | cons entry rest ih =>
      obtain ⟨key, value⟩ := entry
      rw [set, each, funext ih]
      congr 1
      unfold verbStep atSlot verbSlot
      by_cases hkey : isProtected versionKey key = true
      · simp only [if_pos hkey]
        rfl
      · simp only [if_neg hkey]
        exact setMember_eq_atSlot versionKey _ key value doc

lemma inc_eq_each (versionKey path : String) (argument doc : Members) :
    inc path argument doc = each (verbStep versionKey .inc path) argument doc := by
  induction argument generalizing doc with
  | nil => rw [inc, each]
  | cons entry rest ih =>
      obtain ⟨key, value⟩ := entry
      rw [inc, each, funext ih, incField_eq_atSlot]
      rfl

lemma append_eq_each (versionKey path : String) (unique : Bool) (argument doc : Members) :
    append unique path argument doc
      = each (verbStep versionKey (appendVerb unique) path) argument doc := by
  induction argument generalizing doc with
  | nil => rw [append, each]
  | cons entry rest ih =>
      obtain ⟨key, value⟩ := entry
      rw [append, each, funext ih, appendField_eq_atSlot]
      cases unique <;> rfl

lemma pull_eq_each (versionKey path : String) (argument doc : Members) :
    pull path argument doc = each (verbStep versionKey .pull path) argument doc := by
  induction argument generalizing doc with
  | nil => rw [pull, each]
  | cons entry rest ih =>
      obtain ⟨key, value⟩ := entry
      rw [pull, each, funext ih, pullField_eq_atSlot]
      rfl

/-- A verb treats the members of its argument one after the other. -/
lemma applyVerb_object (versionKey : String) (verb : Verb) (path : String)
    (argument doc : Members) :
    applyVerb versionKey verb path (.object argument) (.object doc)
      = (each (verbStep versionKey verb path) argument doc).map .object := by
  cases verb with
  | set => rw [← set_eq_each]; rfl
  | inc => rw [← inc_eq_each]; rfl
  | push => rw [show Verb.push = appendVerb false from rfl, ← append_eq_each]; rfl
  | pull => rw [← pull_eq_each]; rfl
  | addToSet => rw [show Verb.addToSet = appendVerb true from rfl, ← append_eq_each]; rfl

/-! ## Commands -/

/-- What a command under a field key makes of the member there. -/
def fieldSlot (versionKey path : String) (command : Value) (slot : Option Value) :
    Attempt (Option Value) :=
  match command with
  | .object command => (walk versionKey path command (slot.getD (.object []))).map some
  | _ => .failed none (.notTraversable path)

/-- What one member of a command does to an object. -/
def commandStep (versionKey path key : String) (argument : Value) (doc : Members) :
    Attempt Members :=
  match UpdateKey.ofKey key with
  | .verb verb =>
    match argument with
    | .object argument => each (verbStep versionKey verb path) argument doc
    | _ => .failed doc (.invalidArgument (some verb) path .notObject)
  | .unknownVerb => .done doc
  | .whereAddress | .doAddress | .indexAddress => .failed doc (.misplacedAddress path)
  | .field => atSlot key (fieldSlot versionKey (Path.join path key) argument) doc

section commandStep

variable {versionKey path key : String}

lemma commandStep_verb {verb : Verb} (h : UpdateKey.ofKey key = .verb verb) (argument : Members) :
    commandStep versionKey path key (.object argument)
      = each (verbStep versionKey verb path) argument := by
  funext doc
  simp only [commandStep, h]

lemma commandStep_field (h : UpdateKey.ofKey key = .field) (argument : Value) :
    commandStep versionKey path key argument
      = atSlot key (fieldSlot versionKey (Path.join path key) argument) := by
  funext doc
  simp only [commandStep, h]

lemma commandStep_unknownVerb (h : UpdateKey.ofKey key = .unknownVerb) (argument : Value) :
    commandStep versionKey path key argument = .done := by
  funext doc
  simp only [commandStep, h]

end commandStep

lemma walkField_object (versionKey path key : String) (command : Value) (doc : Members) :
    walkField versionKey path key command (.object doc)
      = (atSlot key (fieldSlot versionKey (Path.join path key) command) doc).map .object := by
  cases command with
  | object command =>
      rw [walkField]
      rfl
  | _ =>
      rw [walkField]
      · rfl
      · simp

lemma map_andThen (attempt : Attempt Members) (next : Value → Attempt Value)
    (step : Members → Attempt Members) (h : ∀ doc, next (.object doc) = (step doc).map .object) :
    (attempt.map Value.object).andThen next = (attempt.andThen step).map .object := by
  obtain ⟨doc, _ | error⟩ := attempt
  · exact h doc
  · rfl

/-- **A command on an object is a sequence of steps**, one for each of its members. -/
theorem walk_object (versionKey path : String) (command doc : Members) :
    walk versionKey path command (.object doc)
      = (each (commandStep versionKey path) command doc).map .object := by
  induction command generalizing doc with
  | nil => rw [walk, each]; rfl
  | cons entry rest ih =>
      obtain ⟨key, argument⟩ := entry
      rw [walk, each, ← map_andThen _ _ _ ih]
      congr 1
      unfold commandStep
      cases UpdateKey.ofKey key with
      | verb verb =>
          cases argument with
          | object argument => exact applyVerb_object versionKey verb path argument doc
          | _ => rfl
      | field => exact walkField_object versionKey path key argument doc
      | _ => rfl

lemma andThen_done {α : Type} (attempt : Attempt α) : attempt.andThen .done = attempt := by
  obtain ⟨value, _ | error⟩ := attempt <;> rfl

/-- A command with one verb does what the verb does. -/
lemma apply_verb {versionKey key : String} {verb : Verb} (h : UpdateKey.ofKey key = .verb verb)
    (argument doc : Value) :
    apply versionKey (.object [(key, argument)]) doc = applyVerb versionKey verb "" argument doc := by
  have hwalk : walk versionKey "" [] = Attempt.done := rfl
  have hcount : verbCount [(key, argument)] ≠ 0 := by simp [verbCount, h]
  rw [apply, if_neg hcount, walk, h, hwalk, andThen_done]

end DocumentAccess.Update
