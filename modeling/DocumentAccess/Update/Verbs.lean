import DocumentAccess.Update.Address

/-!
# The verbs of an update command

Each verb takes an object argument and changes the members of the object it is applied to, one member
of the argument after the other.

* `Update.set` — merges values in deeply; the identifier and the version counter are left alone.
* `Update.inc` — adds to numbers, at any depth of the argument.
* `Update.append` — `$push` and `$addToSet`: extends lists.
* `Update.pull` — removes from lists.

All but `set` recurse over the argument: over its members, and over the payload inside an addressed
argument (`incPayload`, `appendPayload`, `pullPayload`).
-/

namespace DocumentAccess.Update

/-! ## `$set` -/

mutual

/-- Objects are merged member by member; any other patch replaces its target. -/
def merge (target : Value) (patch : Value) : Value :=
  match patch with
  | .object patches =>
    match target with
    | .object members => .object (mergeMembers members patches)
    | _ => .object patches
  | patch => patch

/-- Merges the members of a patch into those of an object. -/
def mergeMembers (members : Members) (patches : List (String × Value)) : Members :=
  match patches with
  | [] => members
  | (key, patch) :: rest =>
    mergeMembers
      (Keyed.insert key
        (match Keyed.find? key members with
          | some existing => merge existing patch
          | none => patch)
        members)
      rest

end

/-- The identifier and the version counter are not for a command to set. -/
def isProtected (versionKey key : String) : Bool :=
  key = Path.identifier || key = versionKey

/-- The members that a command may set. -/
def settable (versionKey : String) (members : Members) : Members :=
  members.filter fun entry => !isProtected versionKey entry.1

/-- Merges a payload into the first element that has the predicate's values. -/
def mergeFirst (predicate payload : Members) : Value → Value
  | .array items =>
    .array (Attempt.onFirst (holds predicate) (fun e => .done (merge e (.object payload))) items).value
  | other => other

/-- Sets one field. -/
def setMember (versionKey path key : String) (value : Value) (doc : Members) : Attempt Members :=
  let direct := Attempt.done (Keyed.insert key
    (match Keyed.find? key doc with
      | some existing => merge existing value
      | none => value) doc)
  match value with
  | .object argument =>
    match Address.ofMembers argument with
    | .direct => direct
    | .refused => .failed doc (.invalidArgument none path .whereNotObject)
    | .matching predicate (some (.object payload)) =>
      match Keyed.find? key doc with
      | some target =>
        .done (Keyed.insert key (mergeFirst predicate (settable versionKey payload) target) doc)
      | none => .done doc
    | .matching _ _ => .failed doc (.invalidArgument (some .set) path .doNotObject)
  | _ => direct

/-- Sets the fields of an argument in order, protected ones left out. -/
def set (versionKey path : String) : Members → Members → Attempt Members
  | [], doc => .done doc
  | (key, value) :: rest, doc =>
    (if isProtected versionKey key then .done doc
      else setMember versionKey (Path.join path key) key value doc).andThen
      (set versionKey path rest)

/-! ## `$inc` -/

/-- Adds to a number. -/
def addTo (path : String) (delta : Number) : Value → Attempt Value
  | .number current =>
    match current.add delta with
    | some sum => .done (.number sum)
    | none => .failed (.number current) (.notNumeric path)
  | value => .failed value (.notNumeric path)

/-- Adds to the number in a field; a missing field counts as zero. -/
def addToField (path key : String) (delta : Number) (doc : Members) : Attempt Members :=
  match addTo path delta ((Keyed.find? key doc).getD (.ofNat 0)) with
  | ⟨sum, none⟩ => .done (Keyed.insert key sum doc)
  | ⟨_, some error⟩ => .failed doc error

/-- Changes the element that a predicate selects in the array in a field, if there is one. -/
def onElement (key : String) (predicate : Members) (change : Value → Attempt Value) (doc : Members) :
    Attempt Members :=
  match Keyed.find? key doc with
  | some (.array items) =>
    (Attempt.onFirst (holds predicate) change items).map fun items =>
      Keyed.insert key (.array items) doc
  | _ => .done doc

/-- Changes the element at a position of the array in a field, if there is one. -/
def onPosition (key : String) (position : Nat) (change : Value → Attempt Value) (doc : Members) :
    Attempt Members :=
  match Keyed.find? key doc with
  | some (.array items) =>
    (Attempt.onIndex change position items).map fun items => Keyed.insert key (.array items) doc
  | _ => .done doc

mutual

/-- Increments the fields of an argument in order. -/
def inc (path : String) (argument : List (String × Value)) (doc : Members) : Attempt Members :=
  match argument with
  | [] => .done doc
  | (key, delta) :: rest => (incField (Path.join path key) key delta doc).andThen (inc path rest)
termination_by structural argument

/-- Increments one field: by a number, inside an object, or at the element it addresses. -/
def incField (path key : String) (delta : Value) (doc : Members) : Attempt Members :=
  match delta with
  | .number n => addToField path key n doc
  | .object argument =>
    if Keyed.contains indexKey argument then
      if Keyed.contains whereKey argument then .failed doc (.mixedAddressing path)
      else match (Keyed.find? indexKey argument).bind Value.natural? with
        | none => .failed doc (.invalidArgument (some .inc) path .indexKind)
        | some position =>
          match Keyed.find? doKey argument with
          | none => .failed doc (.invalidArgument (some .inc) path .indexWithoutDo)
          | some _ => onPosition key position (fun element => incIndexed path argument element) doc
    else match Address.ofMembers argument with
      | .refused => .failed doc (.invalidArgument none path .whereNotObject)
      | .matching predicate (some (.object _)) =>
        onElement key predicate
          (fun element => onObject path (fun doc => incPayload path argument doc) element) doc
      | .matching _ _ => .failed doc (.invalidArgument (some .inc) path .doNotObject)
      | .direct =>
        if Keyed.contains doKey argument then .failed doc (.missingAddress path)
        else
          (onObject path (fun doc => inc path argument doc)
            ((Keyed.find? key doc).getD (.object []))).map fun child => Keyed.insert key child doc
  | _ => .failed doc (.invalidArgument (some .inc) path .deltaKind)
termination_by structural delta

/-- Increments by the object at `_$do_` in an addressed argument. -/
def incPayload (path : String) (argument : List (String × Value)) (doc : Members) :
    Attempt Members :=
  match argument with
  | [] => .done doc
  | (key, payload) :: rest =>
    if key = doKey then
      match payload with
      | .object fields => inc path fields doc
      | _ => .done doc
    else incPayload path rest doc
termination_by structural argument

/-- Increments an element by the number or the object at `_$do_` in an indexed argument. -/
def incIndexed (path : String) (argument : List (String × Value)) (element : Value) :
    Attempt Value :=
  match argument with
  | [] => .done element
  | (key, payload) :: rest =>
    if key = doKey then
      match payload with
      | .number n => addTo path n element
      | .object fields => onObject path (fun doc => inc path fields doc) element
      | _ => .failed element (.invalidArgument (some .inc) path .payloadKind)
    else incIndexed path rest element
termination_by structural argument

end

/-! ## `$push` and `$addToSet` -/

/-- The values that an argument stands for: the items of a list, or itself. -/
def asValues : Value → List Value
  | .array items => items
  | value => [value]

/-- Appends values in order; if `unique`, those that are not in the list yet. -/
def extend (unique : Bool) (items : List Value) : List Value → List Value
  | [] => items
  | value :: rest =>
    extend unique (if unique && items.contains value then items else items ++ [value]) rest

/-- The verb that appends, with or without repetition. -/
def appendVerb (unique : Bool) : Verb :=
  if unique then .addToSet else .push

/-- Appends a value that is not an object to the list in a field; a missing list is empty. -/
def appendValues (unique : Bool) (path key : String) (value : Value) (doc : Members) :
    Attempt Members :=
  match Keyed.find? key doc with
  | none => .done (Keyed.insert key (.array (extend unique [] (asValues value))) doc)
  | some (.array items) =>
    .done (Keyed.insert key (.array (extend unique items (asValues value))) doc)
  | some _ => .failed doc (.invalidArgument (some (appendVerb unique)) path .targetNotArray)

mutual

/-- Appends to the fields of an argument in order. -/
def append (unique : Bool) (path : String) (argument : List (String × Value)) (doc : Members) :
    Attempt Members :=
  match argument with
  | [] => .done doc
  | (key, value) :: rest =>
    (appendField unique (Path.join path key) key value doc).andThen (append unique path rest)
termination_by structural argument

/-- Appends to one field: to its list, at the element of it that is addressed, or inside an object.  A
missing field becomes an object when the argument is one. -/
def appendField (unique : Bool) (path key : String) (value : Value) (doc : Members) :
    Attempt Members :=
  match value with
  | .object argument =>
    match Keyed.find? key doc with
    | some (.array items) =>
      match Address.ofMembers argument with
      | .refused => .failed doc (.invalidArgument none path .whereNotObject)
      | .matching predicate (some (.object _)) =>
        onElement key predicate
          (fun element => onObject path (fun doc => appendPayload unique path argument doc) element)
          doc
      | .matching _ _ =>
        .failed doc (.invalidArgument (some (appendVerb unique)) path .doNotObject)
      | .direct => .done (Keyed.insert key (.array (extend unique items [.object argument])) doc)
    | some existing =>
      (onObject path (fun doc => append unique path argument doc) existing).map fun child =>
        Keyed.insert key child doc
    | none =>
      match append unique path argument [] with
      | ⟨child, none⟩ => .done (Keyed.insert key (.object child) doc)
      | ⟨_, some error⟩ => .failed doc error
  | value => appendValues unique path key value doc
termination_by structural value

/-- Appends by the object at `_$do_` in an addressed argument. -/
def appendPayload (unique : Bool) (path : String) (argument : List (String × Value))
    (doc : Members) : Attempt Members :=
  match argument with
  | [] => .done doc
  | (key, payload) :: rest =>
    if key = doKey then
      match payload with
      | .object fields => append unique path fields doc
      | _ => .done doc
    else appendPayload unique path rest doc
termination_by structural argument

end

/-! ## `$pull` -/

/-- The items that equal none of the values. -/
def without (values items : List Value) : List Value :=
  items.filter fun item => !values.contains item

/-- Removes values from the list in a field; a missing field has none. -/
def pullValues (path key : String) (value : Value) (doc : Members) : Attempt Members :=
  match Keyed.find? key doc with
  | none => .done doc
  | some (.array items) =>
    .done (Keyed.insert key (.array (without (asValues value) items)) doc)
  | some _ => .failed doc (.invalidArgument (some .pull) path .targetNotArray)

/-- The list without its first item that passes the test. -/
def eraseFirst (test : Value → Bool) : List Value → List Value
  | [] => []
  | item :: rest => if test item then rest else item :: eraseFirst test rest

mutual

/-- Removes from the fields of an argument in order. -/
def pull (path : String) (argument : List (String × Value)) (doc : Members) : Attempt Members :=
  match argument with
  | [] => .done doc
  | (key, value) :: rest => (pullField (Path.join path key) key value doc).andThen (pull path rest)
termination_by structural argument

/-- Removes from one field: values or the addressed element from its list, inside that element, or
inside an object. -/
def pullField (path key : String) (value : Value) (doc : Members) : Attempt Members :=
  match value with
  | .object argument =>
    match Keyed.find? key doc with
    | some (.array items) =>
      match Address.ofMembers argument with
      | .refused => .failed doc (.invalidArgument none path .whereNotObject)
      | .matching predicate none =>
        .done (Keyed.insert key (.array (eraseFirst (holds predicate) items)) doc)
      | .matching predicate (some (.object _)) =>
        onElement key predicate
          (fun element => onObject path (fun doc => pullPayload path argument doc) element) doc
      | .matching predicate (some _) =>
        onElement key predicate
          (fun element => .failed element (.invalidArgument (some .pull) path .doNotObject)) doc
      | .direct => .done (Keyed.insert key (.array (without [.object argument] items)) doc)
    | some existing =>
      (onObject path (fun doc => pull path argument doc) existing).map fun child =>
        Keyed.insert key child doc
    | none => .done doc
  | value => pullValues path key value doc
termination_by structural value

/-- Removes by the object at `_$do_` in an addressed argument. -/
def pullPayload (path : String) (argument : List (String × Value)) (doc : Members) :
    Attempt Members :=
  match argument with
  | [] => .done doc
  | (key, payload) :: rest =>
    if key = doKey then
      match payload with
      | .object fields => pull path fields doc
      | _ => .done doc
    else pullPayload path rest doc
termination_by structural argument

end

end DocumentAccess.Update
