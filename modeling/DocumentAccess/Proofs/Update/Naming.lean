import DocumentAccess.Proofs.Filter.Touched
import DocumentAccess.Proofs.Leaves

/-!
# What a command names on a path

A command *names* something on a path when its keys lead along the path, or past its end, to a value that
stands for the fields above it:

* a value that is no container, and an empty one;
* a list with something else than objects in it;
* an object with an operator in it, unless its first drill wrapper has an object, which then stands for it.

Operators in a key are left out, so that a value below an operator stands for the fields above it.  An
addressing key of a command, or a verb without an object, stands for the field that the command is made to.
Identifiers name nothing, and what stands beside a drill wrapper is not looked at.

* `Update.Spot` — where a walk over a command stands on a path.
* `Update.Named` — the command names something on a path.
* `Update.Covered` — a path is comparable with one of the command's paths.
* **`Update.covered_iff_named`** — a path is covered when the command names something on it.
-/

namespace DocumentAccess.Update

/-! ## Spots -/

/-- What is left of a path behind some fields; nothing, if they lead past its end. -/
def beyond (fields path : List String) : Route :=
  if fields.isPrefixOf path then some (path.drop fields.length)
  else if path.isPrefixOf fields then some []
  else none

/-- Where a walk over a command stands: whether there is a field above, and what is left of a path. -/
structure Spot where
  above : Bool
  route : Route

namespace Spot

/-- The fields that a key adds to those above: its segments without the operators and, if there are none
above, without the empty ones in front. -/
def added (spot : Spot) (key : String) : List String :=
  if spot.above then (Path.segments key).filter fun segment => !isOperatorKey segment
  else Path.fields key

/-- The spot below a key. -/
def into (spot : Spot) (key : String) : Spot :=
  ⟨spot.above || !(spot.added key).isEmpty, spot.route.bind (beyond (spot.added key))⟩

/-- There are fields above, and they lead along the path or past its end. -/
def isReached (spot : Spot) : Bool :=
  spot.above && spot.route.isSome

end Spot

/-! ## Names -/

/-- The value stands for the fields above it. -/
def standsAlone : Value → Bool
  | .object members =>
    members.isEmpty ||
      match members.find? fun member => isDrillWrapper member.1 with
      | some wrapper => !wrapper.2.isObject
      | none => members.any fun member => isOperatorKey member.1
  | .array items => items.isEmpty || items.any fun item => !item.isObject
  | _ => true

mutual

/-- A value names something on the path. -/
def namesValue (spot : Spot) : Value → Bool
  | .object members =>
    if standsAlone (.object members) then spot.isReached
    else (namesDrilled spot members).getD (namesMembers spot members)
  | .array items => (standsAlone (.array items) && spot.isReached) || namesItems spot items
  | _ => spot.isReached

def namesMembers (spot : Spot) : List (String × Value) → Bool
  | [] => false
  | (key, value) :: rest =>
    (key ≠ Path.identifier && namesValue (spot.into key) value) || namesMembers spot rest

def namesItems (spot : Spot) : List Value → Bool
  | [] => false
  | .object members :: rest => namesMembers spot members || namesItems spot rest
  | _ :: rest => namesItems spot rest

/-- The object in the first drill wrapper, if there is one, names something on the path. -/
def namesDrilled (spot : Spot) : List (String × Value) → Option Bool
  | [] => none
  | (key, value) :: rest =>
    if isDrillWrapper key then
      some (match value with
        | .object members => namesMembers spot members
        | _ => spot.isReached)
    else namesDrilled spot rest

end

/-- The argument of a verb names something on the path. -/
def namesArgument (spot : Spot) : Value → Bool
  | .object argument => namesMembers spot argument
  | _ => spot.isReached

mutual

/-- The members of a command name something on the path. -/
def namesCommand (spot : Spot) : List (String × Value) → Bool
  | [] => false
  | (key, argument) :: rest =>
    (match UpdateKey.ofKey key with
      | .verb _ | .unknownVerb => namesArgument spot argument
      | .whereAddress | .doAddress | .indexAddress => spot.isReached
      | .field => key ≠ Path.identifier && namesField (spot.into key) argument)
      || namesCommand spot rest

/-- The command for one field names something on the path. -/
def namesField (spot : Spot) : Value → Bool
  | .object command => namesCommand spot command
  | _ => spot.isReached

end

/-- A command names something on a path. -/
def Named (command : Members) (path : String) : Prop :=
  namesCommand ⟨false, some (Path.segments path)⟩ command = true

instance (command : Members) (path : String) : Decidable (Named command path) :=
  inferInstanceAs (Decidable (_ = true))

/-! ## Covered paths -/

/-- A path of the command equals a path, leads to it or goes on from it. -/
def Covered (command : Value) (path : String) : Prop :=
  ∃ written ∈ paths command, Path.segments written <+: Path.segments path ∨
    Path.segments path <+: Path.segments written

instance (command : Value) (path : String) : Decidable (Covered command path) :=
  inferInstanceAs (Decidable (∃ written ∈ paths command, _))

/-! ## Spots of contexts -/

lemma beyond_append (fields more path : List String) :
    beyond (fields ++ more) path = (beyond fields path).bind (beyond more) := by
  unfold beyond
  simp only [List.isPrefixOf_iff_prefix]
  by_cases halong : fields <+: path
  · obtain ⟨rest, rfl⟩ := halong
    simp [List.prefix_append_right_inj]
  · have hlonger : ¬ fields ++ more <+: path := fun h => halong ((List.prefix_append _ _).trans h)
    rw [if_neg halong, if_neg hlonger]
    by_cases hpast : path <+: fields
    · rw [if_pos hpast, if_pos (hpast.trans (List.prefix_append _ _))]
      by_cases hmore : more = []
      · simp [hmore]
      · simp [hmore]
    · have hbeside : ¬ path <+: fields ++ more := fun h =>
        (List.prefix_or_prefix_of_prefix h (List.prefix_append _ _)).elim hpast halong
      rw [if_neg hpast, if_neg hbeside]
      rfl

/-- The spot on a path behind the fields of a context. -/
def Spot.of (path : List String) (context : String) : Spot :=
  ⟨!(Path.fields context).isEmpty, beyond (Path.fields context) path⟩

section Spots

variable (path : List String)

lemma Spot.of_empty : Spot.of path "" = ⟨false, some path⟩ := by
  have hfields : Path.fields "" = [] := by decide
  simp [Spot.of, hfields, beyond]

lemma Spot.of_join (context key : String) :
    Spot.of path (Path.join context key) = (Spot.of path context).into key := by
  by_cases hempty : Path.fields context = []
  · simp [Spot.of, Spot.into, Spot.added, Path.fields_join, hempty, beyond]
  · have habove : (Path.fields context).isEmpty = false := List.isEmpty_eq_false_iff.2 hempty
    have hlonger : ∀ more, (Path.fields context ++ more).isEmpty = false := fun more =>
      List.isEmpty_eq_false_iff.2 (List.append_ne_nil_of_left_ne_nil hempty more)
    simp [Spot.of, Spot.into, Spot.added, Path.fields_join, hempty, beyond_append, habove, hlonger]

lemma Spot.isReached_of {path : List String} {context : String} :
    (Spot.of path context).isReached = true ↔
      Path.fields context ≠ [] ∧ (Path.fields context <+: path ∨ path <+: Path.fields context) := by
  simp only [Spot.of, Spot.isReached, beyond, List.isPrefixOf_iff_prefix, Bool.and_eq_true,
    Bool.not_eq_true', List.isEmpty_eq_false_iff]
  refine and_congr_right fun _ => ?_
  by_cases halong : Path.fields context <+: path
  · simp [halong]
  · by_cases hpast : path <+: Path.fields context
    · simp [halong, hpast]
    · simp [halong, hpast]

end Spots

/-! ## Names and touched paths -/

section Names

variable (spot : Spot)

lemma namesMembers_eq_any (members : Members) :
    namesMembers spot members
      = members.any fun entry =>
          entry.1 ≠ Path.identifier && namesValue (spot.into entry.1) entry.2 := by
  induction members with
  | nil => rfl
  | cons entry rest ih => rw [namesMembers, ih, List.any_cons]

lemma namesItems_eq_any (items : List Value) :
    namesItems spot items = items.any fun item =>
      (item.members?.map (namesMembers spot)).getD false := by
  induction items with
  | nil => rfl
  | cons item rest ih =>
      rw [List.any_cons, ← ih]
      cases item with
      | object members => rw [namesItems]; rfl
      | _ =>
          rw [namesItems]
          · rfl
          · simp

lemma namesDrilled_eq_find? (members : Members) :
    namesDrilled spot members
      = (members.find? fun member => isDrillWrapper member.1).map fun wrapper =>
          match wrapper.2 with
          | .object inner => namesMembers spot inner
          | _ => spot.isReached := by
  induction members with
  | nil => rfl
  | cons entry rest ih =>
      obtain ⟨key, value⟩ := entry
      by_cases hkey : isDrillWrapper key = true
      · cases value <;> simp [namesDrilled, hkey]
      · rw [List.find?_cons_of_neg (by simpa using hkey), ← ih]
        cases value <;> simp [namesDrilled, hkey]

/-- One member of a command names something on the path. -/
def namesStep (entry : String × Value) : Bool :=
  match UpdateKey.ofKey entry.1 with
  | .verb _ | .unknownVerb => namesArgument spot entry.2
  | .whereAddress | .doAddress | .indexAddress => spot.isReached
  | .field => entry.1 ≠ Path.identifier && namesField (spot.into entry.1) entry.2

lemma namesCommand_eq_any (command : Members) :
    namesCommand spot command = command.any (namesStep spot) := by
  induction command with
  | nil => rfl
  | cons entry rest ih =>
      rw [namesCommand, ih, List.any_cons]
      rfl

end Names

/-- The paths touched by one member of a command. -/
def stepTouched (context : String) (entry : String × Value) : List String :=
  match UpdateKey.ofKey entry.1 with
  | .verb _ | .unknownVerb => argumentTouched context entry.2
  | .whereAddress | .doAddress | .indexAddress => [context]
  | .field => if entry.1 = Path.identifier then [] else touchedAt (Path.join context entry.1) entry.2

lemma touched_eq_flatMap (context : String) (command : Members) :
    touched context command = command.flatMap (stepTouched context) := by
  induction command with
  | nil => rfl
  | cons entry rest ih =>
      rw [touched, ih, List.flatMap_cons]
      rfl

section Touched

variable {path : List String}

/-- Some of the touched paths is reached on a path. -/
def reaches (path : List String) (touched : List String) : Bool :=
  touched.any fun context => (Spot.of path context).isReached

lemma reaches_flatMap {α : Type} {parts : List α} {walk : α → List String} {names : α → Bool}
    (h : ∀ part ∈ parts, names part = reaches path (walk part)) :
    parts.any names = reaches path (parts.flatMap walk) := by
  rw [reaches, List.any_flatMap, Bool.eq_iff_iff, List.any_eq_true, List.any_eq_true]
  exact exists_congr fun part => and_congr_right fun hpart => by rw [h part hpart]; rfl

/-- A value names something on a path just when a path that it touches is reached: as a whole, and, when
it is an object, in its members. -/
structure NamesTouched (path : List String) (value : Value) : Prop where
  whole : ∀ context,
    namesValue (Spot.of path context) value = reaches path (Filter.touchedAt context value)
  inside : ∀ members, value = .object members → ∀ context,
    namesMembers (Spot.of path context) members = reaches path (Filter.touched context members)

lemma namesTouched_members {members : Members} (h : ∀ entry ∈ members, NamesTouched path entry.2)
    (context : String) :
    namesMembers (Spot.of path context) members = reaches path (Filter.touched context members) := by
  rw [namesMembers_eq_any, Filter.touched_eq_flatMap]
  refine reaches_flatMap fun entry hentry => ?_
  by_cases hid : entry.1 = Path.identifier
  · simp [hid, reaches]
  · rw [if_neg hid, ← (h entry hentry).whole, Spot.of_join]
    simp [hid]

lemma isReached_eq_reaches (context : String) :
    (Spot.of path context).isReached = reaches path [context] := by
  simp [reaches]

lemma namesTouched_object {members : Members} (h : ∀ entry ∈ members, NamesTouched path entry.2)
    (context : String) :
    namesValue (Spot.of path context) (.object members)
      = reaches path (Filter.touchedAt context (.object members)) := by
  rw [namesValue, namesDrilled_eq_find?, namesTouched_members h, isReached_eq_reaches, Filter.touchedAt,
    Filter.drilled_eq_find?]
  by_cases hempty : members.isEmpty = true
  · simp [standsAlone, hempty]
  cases hwrapper : members.find? fun member => isDrillWrapper member.1 with
  | none =>
      by_cases hoperator : (members.any fun member => isOperatorKey member.1) = true
      · simp [standsAlone, hempty, hwrapper, hoperator]
      · simp [standsAlone, hempty, hwrapper, hoperator]
  | some wrapper =>
      obtain ⟨key, inner⟩ := wrapper
      cases inner with
      | object inner =>
          have hinner := (h _ (List.mem_of_find?_eq_some hwrapper)).inside inner rfl context
          simp [standsAlone, hempty, hwrapper, Value.isObject, hinner]
      | _ => simp [standsAlone, hempty, hwrapper, Value.isObject]

lemma namesTouched_array {items : List Value} (h : ∀ item ∈ items, NamesTouched path item)
    (context : String) :
    namesValue (Spot.of path context) (.array items)
      = reaches path (Filter.touchedAt context (.array items)) := by
  have hitems : namesItems (Spot.of path context) items
      = reaches path (Filter.touchedItems context items) := by
    rw [namesItems_eq_any, Filter.touchedItems_eq_flatMap]
    refine reaches_flatMap fun item hitem => ?_
    cases item with
    | object members => exact (h _ hitem).inside members rfl context
    | _ => rfl
  rw [namesValue, hitems, Filter.touchedAt, reaches, reaches, List.any_append]
  congr 1
  rw [standsAlone]
  by_cases halone : (items.isEmpty || items.any fun item => !item.isObject) = true
  · simp [halone]
  · simp [halone]

lemma namesTouched (path : List String) (value : Value) : NamesTouched path value := by
  induction value using Value.inductionOn with
  | object members ih =>
      refine ⟨namesTouched_object ih, ?_⟩
      rintro others hothers context
      obtain rfl : members = others := by simpa using hothers
      exact namesTouched_members ih context
  | array items ih => exact ⟨namesTouched_array ih, fun members hmembers => absurd hmembers (by simp)⟩
  | _ => exact ⟨isReached_eq_reaches, fun members hmembers => absurd hmembers (by simp)⟩

lemma namesArgument_eq (context : String) (argument : Value) :
    namesArgument (Spot.of path context) argument
      = reaches path (argumentTouched context argument) := by
  cases argument with
  | object argument => exact (namesTouched path (.object argument)).inside argument rfl context
  | _ => simp [namesArgument, argumentTouched, reaches]

/-- A command for a field names something on a path just when a path that it touches is reached. -/
theorem namesField_eq (argument : Value) : ∀ context,
    namesField (Spot.of path context) argument = reaches path (touchedAt context argument) := by
  induction argument using Value.inductionOn with
  | object command ih =>
      intro context
      rw [namesField, touchedAt, namesCommand_eq_any, touched_eq_flatMap]
      refine reaches_flatMap fun entry hentry => ?_
      unfold namesStep stepTouched
      cases UpdateKey.ofKey entry.1 with
      | verb verb => exact namesArgument_eq context entry.2
      | unknownVerb => exact namesArgument_eq context entry.2
      | field =>
          by_cases hid : entry.1 = Path.identifier
          · simp [hid, reaches]
          · simp [hid, ← ih entry hentry, Spot.of_join]
      | _ => simp [reaches]
  | _ => exact fun context => by simp [namesField, touchedAt, reaches]

end Touched

/-- **A path is covered when the command names something on it**, and only then. -/
theorem covered_iff_named {members : Members} {path : String} :
    Covered (.object members) path ↔ Named members path := by
  have hnamed : namesCommand ⟨false, some (Path.segments path)⟩ members
      = reaches (Path.segments path) (touched "" members) := by
    rw [← Spot.of_empty]
    exact namesField_eq (.object members) ""
  rw [Named, hnamed, reaches, List.any_eq_true]
  simp only [Spot.isReached_of]
  constructor
  · rintro ⟨written, hwritten, hcomparable⟩
    obtain ⟨⟨context, hcontext, rfl⟩, hne⟩ := Filter.mem_collect.1 hwritten
    have hfields : Path.fields context ≠ [] := fun hnone => hne (Path.sanitize_eq_empty_iff.2 hnone)
    rw [Path.segments_sanitize hfields] at hcomparable
    exact ⟨context, hcontext, hfields, hcomparable⟩
  · rintro ⟨context, hcontext, hfields, hcomparable⟩
    obtain ⟨written, hwritten, hsegments⟩ := Filter.exists_collect hcontext hfields
    exact ⟨written, hwritten, hsegments ▸ hcomparable⟩

/-- A field that is set or counted is named, and so is one in the objects of a list; what stands beside
an element match is not. -/
example : Named [("$inc", .object [("n", .ofNat 1)]), ("$set", .object [("title", .ofNat 1)])] "title" ∧
    Named [("$inc", .object [("n", .ofNat 1)]), ("$set", .object [("title", .ofNat 1)])] "n" ∧
    Named [("$set", .object [("items", .array [.object [("a", .ofNat 2)]])])] "items.a" ∧
    ¬ Named [("$set", .object [("meta",
      .object [("$elemMatch", .object [("_id", .ofNat 0)]), ("secret", .ofNat 2)])])] "meta.secret" := by
  decide

end DocumentAccess.Update
