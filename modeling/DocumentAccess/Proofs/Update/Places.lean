import DocumentAccess.Proofs.Leaves
import DocumentAccess.Update.Verbs

/-!
# What a command says along a path

A path is followed into a command: at each *place* on the way stands a value that a verb may write
there.  Nothing is said here about the paths that are read off the command for the access checks.

The leaves at a path can only be changed in these ways (`Update.Written`):

* `key` — a key in the argument of a verb stands at the path itself;
* `field` — a field of the command does;
* `value` — on the way stands a value that no path leads on through;
* `removal` — on the way stands the predicate for an element to take out;
* `list` — a `$set` replaces what holds a leaf at the path by a list;
* `object` — a `$set` replaces a list that holds a leaf at the path by an object.

* `Update.commandPlaces`, `Update.commandSettings` — the places of all verbs, and those of `$set`.
* `Update.commandEnds` — the commands for the field at the end of a path.
* `Update.Written` — what a command says along a path may change the leaves there.
-/

namespace DocumentAccess.Update

/-! ## Places -/

/-- What stands at some place on a path. -/
structure Place where
  route : Route
  value : Value

/-- The place at the end of a key, if the path leads there. -/
def here (route : Route) (value : Value) : List Place :=
  if route.isSome then [⟨route, value⟩] else []

mutual

/-- The places on a path from a value on; a payload is read as if its members stood around it. -/
def placesAt (route : Route) : Value → List Place
  | .object members =>
    here route (.object members) ++ placesOfPayload route members ++ placesOfMembers route members
  | .array items => here route (.array items) ++ placesOfItems route items
  | value => here route value

def placesOfMembers (route : Route) : List (String × Value) → List Place
  | [] => []
  | (key, value) :: rest => placesAt (route.below key) value ++ placesOfMembers route rest

def placesOfItems (route : Route) : List Value → List Place
  | [] => []
  | .object members :: rest => placesOfMembers route members ++ placesOfItems route rest
  | _ :: rest => placesOfItems route rest

/-- The places in the payload of an addressed argument. -/
def placesOfPayload (route : Route) : List (String × Value) → List Place
  | [] => []
  | (key, value) :: rest =>
    if key = doKey then
      match value with
      | .object members => placesOfMembers route members
      | _ => here route value
    else placesOfPayload route rest

end

/-- The places in the argument of a verb. -/
def argumentPlaces (route : Route) : Value → List Place
  | .object argument => placesOfMembers route argument
  | _ => []

mutual

/-- The places on a path in the members of a command. -/
def commandPlaces (route : Route) : List (String × Value) → List Place
  | [] => []
  | (key, argument) :: rest =>
    (match UpdateKey.ofKey key with
      | .verb _ => argumentPlaces route argument
      | .field => fieldPlaces (route.below key) argument
      | _ => []) ++ commandPlaces route rest

def fieldPlaces (route : Route) : Value → List Place
  | .object command => commandPlaces route command
  | _ => []

end

mutual

/-- The commands in the members of a command for the field at the end of a path. -/
def commandEnds (route : Route) : List (String × Value) → List Members
  | [] => []
  | (key, argument) :: rest =>
    (match UpdateKey.ofKey key with
      | .field => fieldEnds (route.below key) argument
      | _ => []) ++ commandEnds route rest

def fieldEnds (route : Route) : Value → List Members
  | .object command => (if route = some [] then [command] else []) ++ commandEnds route command
  | _ => []

end

/-! ## Places of `$set` -/

mutual

/-- The places on a path where a direct `$set` merges a value in. -/
def mergedPlaces (route : Route) : Value → List Place
  | .object patches => here route (.object patches) ++ mergedPlacesOfMembers route patches
  | value => here route value

def mergedPlacesOfMembers (route : Route) : List (String × Value) → List Place
  | [] => []
  | (key, patch) :: rest => mergedPlaces (route.below key) patch ++ mergedPlacesOfMembers route rest

end

/-- The places where `$set` merges the value of a member in.  An addressed payload is merged into an
element of the list, at the place of its argument; only the empty predicate selects elements that are no
objects. -/
def settingPlaces (versionKey : String) (route : Route) (value : Value) : List Place :=
  match value with
  | .object argument =>
    match Address.ofMembers argument with
    | .direct => mergedPlaces route value
    | .matching predicate (some (.object payload)) =>
      (if predicate.isEmpty then here route value else [])
        ++ mergedPlacesOfMembers route (settable versionKey payload)
    | _ => []
  | _ => mergedPlaces route value

/-- The places where a `$set` with this argument merges values in. -/
def setPlaces (versionKey : String) (route : Route) : Value → List Place
  | .object argument =>
    (settable versionKey argument).flatMap fun entry =>
      settingPlaces versionKey (route.below entry.1) entry.2
  | _ => []

mutual

/-- The places where the `$set`s of a command merge values in. -/
def commandSettings (versionKey : String) (route : Route) : List (String × Value) → List Place
  | [] => []
  | (key, argument) :: rest =>
    (match UpdateKey.ofKey key with
      | .verb .set => setPlaces versionKey route argument
      | .field => fieldSettings versionKey (route.below key) argument
      | _ => []) ++ commandSettings versionKey route rest

def fieldSettings (versionKey : String) (route : Route) : Value → List Place
  | .object command => commandSettings versionKey route command
  | _ => []

end

/-! ## Written paths -/

/-- No path leads on through the fields of the value: it is no container, or a list with something else
than objects in it. -/
def isClosed : Value → Bool
  | .object _ => false
  | .array items => items.any fun item => !item.isObject
  | _ => true

/-- A predicate without a payload: `$pull` takes the element out that it selects. -/
def isRemoval : Value → Bool
  | .object argument =>
    match Address.ofMembers argument with
    | .matching _ none => true
    | _ => false
  | _ => false

/-- What a command says along a path may change the leaves that a document has there. -/
inductive Written (versionKey : String) (command : Members) (doc : Value) (path : String) : Prop where
  | key {value : Value} (h : ⟨some [], value⟩ ∈ commandPlaces (some (Path.segments path)) command)
  | field {inner : Members} (h : inner ∈ commandEnds (some (Path.segments path)) command)
  | value {place : Place} (h : place ∈ commandPlaces (some (Path.segments path)) command)
      (hclosed : isClosed place.value = true)
  | removal {place : Place} (h : place ∈ commandPlaces (some (Path.segments path)) command)
      (hremoval : isRemoval place.value = true)
  | list {route : Route} {items : List Value}
      (h : ⟨route, .array items⟩ ∈ commandSettings versionKey (some (Path.segments path)) command)
      (hleaf : doc.valuesAt path ≠ [])
  | object {route : Route} {members : Members}
      (h : ⟨route, .object members⟩ ∈ commandSettings versionKey (some (Path.segments path)) command)
      (hleaf : ∃ leaf ∈ doc.leavesAt (some (Path.segments path)), route ∈ leaf.lists)

/-! ## Walks over places -/

section Walks

variable (route : Route)

lemma placesOfMembers_eq_flatMap (members : Members) :
    placesOfMembers route members
      = members.flatMap fun entry => placesAt (route.below entry.1) entry.2 := by
  induction members with
  | nil => rfl
  | cons entry rest ih => rw [placesOfMembers, ih, List.flatMap_cons]

lemma placesOfItems_eq_flatMap (items : List Value) :
    placesOfItems route items = items.flatMap fun item =>
      (item.members?.map (placesOfMembers route)).getD [] := by
  induction items with
  | nil => rfl
  | cons item rest ih =>
      rw [List.flatMap_cons, ← ih]
      cases item with
      | object members => rw [placesOfItems]; rfl
      | _ =>
          rw [placesOfItems]
          · rfl
          · simp

lemma placesOfPayload_eq (members : Members) :
    placesOfPayload route members
      = (Keyed.find? doKey members).elim [] fun payload =>
          match payload with
          | .object fields => placesOfMembers route fields
          | _ => here route payload := by
  refine Keyed.eq_elim_find? (placesOfPayload route) rfl ?_ ?_ members
  · intro payload rest
    cases payload <;> simp [placesOfPayload]
  · intro key payload rest hkey
    cases payload <;> simp [placesOfPayload, hkey]

/-- The places on a path in one member of a command. -/
def stepPlaces (entry : String × Value) : List Place :=
  match UpdateKey.ofKey entry.1 with
  | .verb _ => argumentPlaces route entry.2
  | .field => fieldPlaces (route.below entry.1) entry.2
  | _ => []

lemma commandPlaces_eq_flatMap (command : Members) :
    commandPlaces route command = command.flatMap (stepPlaces route) := by
  induction command with
  | nil => rfl
  | cons entry rest ih =>
      rw [commandPlaces, ih, List.flatMap_cons]
      rfl

/-- The commands in one member of a command for the field at the end of a path. -/
def stepEnds (entry : String × Value) : List Members :=
  match UpdateKey.ofKey entry.1 with
  | .field => fieldEnds (route.below entry.1) entry.2
  | _ => []

lemma commandEnds_eq_flatMap (command : Members) :
    commandEnds route command = command.flatMap (stepEnds route) := by
  induction command with
  | nil => rfl
  | cons entry rest ih =>
      rw [commandEnds, ih, List.flatMap_cons]
      rfl

lemma mergedPlacesOfMembers_eq_flatMap (patches : Members) :
    mergedPlacesOfMembers route patches
      = patches.flatMap fun entry => mergedPlaces (route.below entry.1) entry.2 := by
  induction patches with
  | nil => rfl
  | cons entry rest ih => rw [mergedPlacesOfMembers, ih, List.flatMap_cons]

/-- The places on a path where one member of a command merges values in. -/
def stepSettings (versionKey : String) (entry : String × Value) : List Place :=
  match UpdateKey.ofKey entry.1 with
  | .verb .set => setPlaces versionKey route entry.2
  | .field => fieldSettings versionKey (route.below entry.1) entry.2
  | _ => []

lemma commandSettings_eq_flatMap (versionKey : String) (command : Members) :
    commandSettings versionKey route command = command.flatMap (stepSettings route versionKey) := by
  induction command with
  | nil => rfl
  | cons entry rest ih =>
      rw [commandSettings, ih, List.flatMap_cons]
      rfl

end Walks

/-- A selecting argument has its predicate and its payload at their keys. -/
lemma Address.of_matching {argument predicate : Members} {payload : Option Value}
    (h : Address.ofMembers argument = .matching predicate payload) :
    Keyed.find? whereKey argument = some (.object predicate) ∧
      Keyed.find? doKey argument = payload := by
  unfold Address.ofMembers at h
  rcases hwhere : Keyed.find? whereKey argument with _ | value
  · simp [hwhere] at h
  · cases value <;> simp_all

/-- There are no places where the path does not lead. -/
structure NoPlaces (value : Value) : Prop where
  whole : placesAt none value = []
  inside : ∀ members, value = .object members → placesOfMembers none members = []

lemma noPlaces (value : Value) : NoPlaces value := by
  induction value using Value.inductionOn with
  | object members ih =>
      have hmembers : placesOfMembers none members = [] := by
        rw [placesOfMembers_eq_flatMap, List.flatMap_eq_nil_iff]
        exact fun entry hentry => (ih entry hentry).whole
      have hpayload : placesOfPayload none members = [] := by
        rw [placesOfPayload_eq]
        cases hdo : Keyed.find? doKey members with
        | none => rfl
        | some payload =>
            cases payload with
            | object fields => exact (ih _ (Keyed.mem_of_find? hdo)).inside fields rfl
            | _ => rfl
      refine ⟨?_, ?_⟩
      · rw [placesAt, hpayload, hmembers]
        rfl
      · rintro others hothers
        obtain rfl : members = others := by simpa using hothers
        exact hmembers
  | array items ih =>
      have hitems : placesOfItems none items = [] := by
        rw [placesOfItems_eq_flatMap, List.flatMap_eq_nil_iff]
        intro item hitem
        cases item with
        | object members => exact (ih _ hitem).inside members rfl
        | _ => rfl
      refine ⟨?_, fun members hmembers => absurd hmembers (by simp)⟩
      rw [placesAt, hitems]
      rfl
  | _ => exact ⟨rfl, fun members hmembers => absurd hmembers (by simp)⟩

lemma placesAt_none (value : Value) : placesAt none value = [] :=
  (noPlaces value).whole

lemma placesOfMembers_none (members : Members) : placesOfMembers none members = [] :=
  (noPlaces (.object members)).inside members rfl

lemma fieldPlaces_none (argument : Value) : fieldPlaces none argument = [] := by
  induction argument using Value.inductionOn with
  | object command ih =>
      rw [fieldPlaces, commandPlaces_eq_flatMap, List.flatMap_eq_nil_iff]
      rintro ⟨key, argument⟩ hentry
      unfold stepPlaces
      cases UpdateKey.ofKey key with
      | verb verb =>
          cases argument with
          | object argument => exact placesOfMembers_none argument
          | _ => rfl
      | field => exact ih _ hentry
      | _ => rfl
  | _ => rfl

lemma fieldEnds_none (argument : Value) : fieldEnds none argument = [] := by
  induction argument using Value.inductionOn with
  | object command ih =>
      rw [fieldEnds, if_neg (by simp), List.nil_append, commandEnds_eq_flatMap,
        List.flatMap_eq_nil_iff]
      rintro ⟨key, argument⟩ hentry
      unfold stepEnds
      cases UpdateKey.ofKey key with
      | field => exact ih _ hentry
      | _ => rfl
  | _ => rfl

end DocumentAccess.Update
