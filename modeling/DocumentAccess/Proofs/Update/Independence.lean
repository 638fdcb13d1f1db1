import DocumentAccess.Proofs.Update.Locality

/-!
# Commands with different targets

What a command does to one member of an object it does without looking at the others, so two commands
with different targets can be applied in either order.

* `Update.names`, `Update.targets` — the keys of the members that a command speaks about at the root.
* `Update.Confined` — a change of values that reads and writes members at given keys only.
* `Update.Interchange` — two changes of a value whose order does not matter.
* `Update.Confined.interchange` — changes confined to different keys can be interchanged.
* `Update.comesTo` — a command may change what a chain of keys leads to.
* `Update.lookup_walk` — what a command does not come to, however deep it lies, is left as it was.
* **`Update.apply_independent`** — commands do not interfere.
-/

namespace DocumentAccess.Update

/-! ## Targets -/

/-- The keys of an object; other values have none. -/
def keysOf : Value → List String
  | .object members => members.map Prod.fst
  | _ => []

/-- The keys of the members that a command speaks about at the root: its field keys, and the keys in
the arguments of its verbs. -/
def names : Members → List String
  | [] => []
  | (key, argument) :: rest =>
    (match UpdateKey.ofKey key with
      | .verb _ => keysOf argument
      | .field => [key]
      | _ => []) ++ names rest

/-- The keys that a whole command speaks about; what is no object speaks about none. -/
def targets : Value → List String
  | .object command => names command
  | _ => []

lemma verbTargets_subset (versionKey : String) (verb : Verb) (argument : Value) :
    verbTargets versionKey verb argument ⊆ keysOf argument := by
  cases argument with
  | object argument =>
      cases verb with
      | set => exact List.map_subset Prod.fst (List.filter_subset_self ..)
      | _ => exact fun _ h => h
  | _ => exact List.nil_subset _

/-- A command writes no other members than those that it speaks about. -/
lemma rootTargets_subset (versionKey : String) (command : Members) :
    rootTargets versionKey command ⊆ names command := by
  induction command with
  | nil => exact List.nil_subset _
  | cons entry rest ih =>
      obtain ⟨key, argument⟩ := entry
      unfold rootTargets names
      refine List.append_subset.2 ⟨?_, fun k hk => List.mem_append_right _ (ih hk)⟩
      refine List.Subset.trans ?_ (List.subset_append_left _ _)
      cases UpdateKey.ofKey key with
      | verb verb => exact verbTargets_subset versionKey verb argument
      | _ => exact fun _ h => h

/-! ## Confined changes -/

/-- A change of values that makes an object of an object, in the order of its keys if it was, and reads
and writes its members at the given keys only. -/
structure Confined (keys : Set String) (change : Value → Attempt Value) : Prop where
  object : ∀ doc, ∃ after, (change (.object doc)).value = .object after ∧
    (Keyed.Sorted doc → Keyed.Sorted after)
  elsewhere : ∀ doc, ∀ key ∉ keys, (change (.object doc)).value.get? key = Keyed.find? key doc
  inside : ∀ a b, AgreeOn keys a b → ∀ key ∈ keys,
    (change (.object a)).value.get? key = (change (.object b)).value.get? key
  failure : ∀ a b, AgreeOn keys a b →
    (change (.object a)).failure = (change (.object b)).failure

/-- The order of two changes of a document does not matter: either way it ends up the same, and each of
the changes has the same outcome. -/
structure Interchange (first second : Value → Attempt Value) (doc : Value) : Prop where
  document : (second (first doc).value).value = (first (second doc).value).value
  firstFailure : (first (second doc).value).failure = (first doc).failure
  secondFailure : (second (first doc).value).failure = (second doc).failure

section Confined

variable {keys others : Set String} {change first second : Value → Attempt Value}

/-- A change of values is confined when on objects it is a local change of the members. -/
lemma LocalOn.confined {step : Members → Attempt Members} (hstep : LocalOn keys step)
    (hsorted : ∀ doc, Keyed.Sorted doc → Keyed.Sorted (step doc).value)
    (hchange : ∀ doc, change (.object doc) = (step doc).map .object) : Confined keys change where
  object doc := ⟨(step doc).value, by rw [hchange]; rfl, hsorted doc⟩
  elsewhere doc key hkey := by
    rw [hchange]
    exact hstep.elsewhere doc key hkey
  inside a b hab key hkey := by
    rw [hchange, hchange]
    exact hstep.value a b hab key hkey
  failure a b hab := by
    rw [hchange, hchange]
    exact hstep.failure a b hab

/-- After a change that is confined to other keys, a confined change does at its keys what it would have
done before it, and elsewhere leaves what the other change made. -/
lemma Confined.after (hsecond : Confined others second) (hfirst : Confined keys first)
    (hdisjoint : ∀ key ∈ others, key ∉ keys) {doc middle : Members}
    (hmiddle : (first (.object doc)).value = .object middle) :
    (second (.object middle)).failure = (second (.object doc)).failure ∧
      (∀ key ∈ others, (second (.object middle)).value.get? key
        = (second (.object doc)).value.get? key) ∧
      ∀ key ∉ others, (second (.object middle)).value.get? key
        = (first (.object doc)).value.get? key := by
  have hagree : AgreeOn others middle doc := by
    intro key hkey
    have hsame := hfirst.elsewhere doc key (hdisjoint key hkey)
    rwa [hmiddle] at hsame
  refine ⟨hsecond.failure _ _ hagree, hsecond.inside _ _ hagree, fun key hkey => ?_⟩
  rw [hsecond.elsewhere middle key hkey, hmiddle]
  rfl

/-- **Changes confined to different keys can be interchanged.** -/
theorem Confined.interchange (hfirst : Confined keys first) (hsecond : Confined others second)
    (hdisjoint : ∀ key ∈ others, key ∉ keys) {doc : Members} (hdoc : Keyed.Sorted doc) :
    Interchange first second (.object doc) := by
  obtain ⟨one, hone, honeSorted⟩ := hfirst.object doc
  obtain ⟨two, htwo, htwoSorted⟩ := hsecond.object doc
  obtain ⟨hsecondFailure, hsecondInside, hsecondOutside⟩ := hsecond.after hfirst hdisjoint hone
  obtain ⟨hfirstFailure, hfirstInside, hfirstOutside⟩ :=
    hfirst.after hsecond (fun key hkey hother => hdisjoint key hother hkey) htwo
  refine ⟨?_, by rw [htwo, hfirstFailure], by rw [hone, hsecondFailure]⟩
  obtain ⟨onetwo, honetwo, hsorted⟩ := hsecond.object one
  obtain ⟨twoone, htwoone, hsorted'⟩ := hfirst.object two
  rw [hone, htwo, honetwo, htwoone]
  refine congrArg Value.object (Keyed.Sorted.ext (hsorted (honeSorted hdoc))
    (hsorted' (htwoSorted hdoc)) fun key => ?_)
  show (Value.object onetwo).get? key = (Value.object twoone).get? key
  rw [← honetwo, ← htwoone]
  by_cases hkey : key ∈ others
  · rw [hsecondInside key hkey, hfirstOutside key (hdisjoint key hkey)]
  · rw [hsecondOutside key hkey]
    by_cases hkey' : key ∈ keys
    · rw [hfirstInside key hkey']
    · rw [hfirstOutside key hkey', hfirst.elsewhere doc key hkey', hsecond.elsewhere doc key hkey]

end Confined

/-! ## Commands -/

lemma sorted_atSlot {doc : Members} (hdoc : Keyed.Sorted doc) (key : String)
    (treat : Option Value → Attempt (Option Value)) :
    Keyed.Sorted (atSlot key treat doc).value := by
  show Keyed.Sorted (put key doc (treat (Keyed.find? key doc)).value)
  cases (treat (Keyed.find? key doc)).value with
  | none => exact hdoc
  | some value => exact hdoc.insert key value

lemma sorted_commandStep {doc : Members} (hdoc : Keyed.Sorted doc) (versionKey path key : String)
    (argument : Value) : Keyed.Sorted (commandStep versionKey path key argument doc).value := by
  unfold commandStep
  cases UpdateKey.ofKey key with
  | verb verb =>
      cases argument with
      | object argument =>
          exact each_induction (motive := Keyed.Sorted)
            (fun entry _ doc hdoc => sorted_atSlot hdoc entry.1 _) hdoc
      | _ => exact hdoc
  | field => exact sorted_atSlot hdoc key _
  | _ => exact hdoc

/-- A change that fails at once is confined to whatever keys. -/
lemma confined_failed (keys : Set String) (error : UpdateError) :
    Confined keys fun doc => .failed doc error :=
  (localOn_failed keys error).confined (fun _ hdoc => hdoc) fun _ => rfl

/-- What a verb does to an object, at the root or inside, is confined to the keys of its argument. -/
lemma confined_applyVerb (versionKey : String) (verb : Verb) (path : String) (argument : Value) :
    Confined {key | key ∈ keysOf argument} (applyVerb versionKey verb path argument) := by
  cases argument with
  | object argument =>
      refine LocalOn.confined
        ((localOn_verb versionKey verb path argument).mono (verbTargets_subset versionKey verb _)) ?_
        (applyVerb_object versionKey verb path argument)
      exact fun doc hdoc => each_induction (motive := Keyed.Sorted)
        (fun entry _ doc hdoc => sorted_atSlot hdoc entry.1 _) hdoc
  | _ => exact confined_failed _ _

/-- What a command does at the root, or to an object that it has descended into, is confined to the
members that it speaks about there. -/
lemma confined_walk (versionKey path : String) (command : Members) :
    Confined {key | key ∈ names command} (walk versionKey path command) := by
  refine LocalOn.confined
    ((localOn_command versionKey path command).mono (rootTargets_subset versionKey command)) ?_
    (walk_object versionKey path command)
  exact fun doc hdoc => each_induction (motive := Keyed.Sorted)
    (fun entry _ doc hdoc => sorted_commandStep hdoc versionKey path entry.1 entry.2) hdoc

lemma confined_apply (versionKey : String) (command : Value) :
    Confined {key | key ∈ targets command} (apply versionKey command) := by
  cases command with
  | object command =>
      by_cases hcount : verbCount command = 0
      · have hfails : apply versionKey (.object command) = fun doc => .failed doc .noVerb := by
          funext doc
          rw [apply, if_pos hcount]
        rw [hfails]
        exact confined_failed _ _
      · have hwalks : apply versionKey (.object command) = walk versionKey "" command := by
          funext doc
          rw [apply, if_neg hcount]
        rw [hwalks]
        exact confined_walk versionKey "" command
  | _ => exact confined_failed _ _

/-! ## Nested objects -/

/-- A command may change what a chain of keys leads to: the chain follows its field keys, and ends there
or comes to a key in the argument of a verb. -/
def comesTo : List String → Members → Bool
  | [], _ => true
  | key :: keys, command => command.any fun entry =>
    match UpdateKey.ofKey entry.1, entry.2 with
    | .verb _, argument => (keysOf argument).contains key
    | .field, .object nested => entry.1 == key && comesTo keys nested
    | _, _ => false

/-- One step leaves what it does not come to as it was, if the commands under its field key do. -/
lemma lookup_commandStep {keys : List String}
    (hnested : ∀ nested : Members, comesTo keys nested = false → ∀ versionKey path doc,
      lookup keys (walk versionKey path nested doc).value = lookup keys doc)
    {key : String} {entry : String × Value} (h : comesTo (key :: keys) [entry] = false)
    (versionKey path : String) (doc : Members) :
    lookup (key :: keys) (.object (commandStep versionKey path entry.1 entry.2 doc).value)
      = lookup (key :: keys) (.object doc) := by
  obtain ⟨k, argument⟩ := entry
  show (Keyed.find? key (commandStep versionKey path k argument doc).value).bind (lookup keys)
    = (Keyed.find? key doc).bind (lookup keys)
  simp only [comesTo, List.any_cons, List.any_nil, Bool.or_false] at h
  unfold commandStep
  cases hk : UpdateKey.ofKey k with
  | verb verb =>
      cases argument with
      | object argument =>
          have hkey : key ∉ keysOf (.object argument) := by simpa [hk] using h
          have hlocal := localOn_verb versionKey verb path argument
          rw [hlocal.elsewhere doc key fun hmem => hkey (verbTargets_subset _ _ _ hmem)]
      | _ => rfl
  | field =>
      by_cases hkey : key = k
      · subst hkey
        cases argument with
        | object nested =>
            have hfree : comesTo keys nested = false := by simpa [hk] using h
            show (Keyed.find? key (Keyed.insert key _ doc)).bind (lookup keys) = _
            rw [Keyed.find?_insert_self, Option.bind_some, hnested nested hfree]
            cases Keyed.find? key doc with
            | some child => rfl
            | none =>
                -- the command goes to a new object, where the chain leads nowhere
                cases keys with
                | nil => simp [comesTo] at hfree
                | cons next rest => rfl
        | _ => rfl
      · rw [(localOn_atSlot k _).elsewhere doc key hkey]
  | _ => rfl

/-- **What a command does not come to is left as it was**, even when the command fails. -/
theorem lookup_walk {keys : List String} {command : Members} (h : comesTo keys command = false)
    (versionKey path : String) (doc : Value) :
    lookup keys (walk versionKey path command doc).value = lookup keys doc := by
  induction keys generalizing versionKey path command doc with
  | nil => simp [comesTo] at h
  | cons key keys ih =>
      cases doc with
      | object members =>
          rw [walk_object]
          refine each_induction
            (motive := fun after => lookup (key :: keys) (.object after)
              = lookup (key :: keys) (.object members)) ?_ rfl
          intro entry hentry after hafter
          rw [comesTo, List.any_eq_false] at h
          refine (lookup_commandStep (fun nested hnested => ih hnested) ?_ versionKey path after).trans
            hafter
          simpa [comesTo] using h entry hentry
      | _ => rw [walk_of_not_object _ _ _ rfl]

/-! ## Independence -/

/-- **Commands do not interfere.**  A command is confined to the members that it speaks about, whether it
succeeds or fails, so commands that speak about different members can be applied in either order.  The
same holds of a command at every nested object that it comes to, and of a verb; and what a command does
not come to is left as it was, however deep it lies. -/
theorem apply_independent (versionKey : String) :
    (∀ command, Confined {key | key ∈ targets command} (apply versionKey command)) ∧
    (∀ first second, (targets first).Disjoint (targets second) → ∀ doc, Keyed.Sorted doc →
      Interchange (apply versionKey first) (apply versionKey second) (.object doc)) ∧
    (∀ path command, Confined {key | key ∈ names command} (walk versionKey path command)) ∧
    (∀ verb path argument,
      Confined {key | key ∈ keysOf argument} (applyVerb versionKey verb path argument)) ∧
    ∀ keys command, comesTo keys command = false → ∀ path doc,
      lookup keys (walk versionKey path command doc).value = lookup keys doc := by
  refine ⟨confined_apply versionKey, ?_, confined_walk versionKey, confined_applyVerb versionKey,
    fun keys command hfree path doc => lookup_walk hfree versionKey path doc⟩
  intro first second hdisjoint doc hdoc
  exact (confined_apply versionKey first).interchange (confined_apply versionKey second)
    (fun _ hsecond hfirst => hdisjoint hfirst hsecond) hdoc

/-- A command that counts a visit, and one that sets the town in a profile. -/
def countVisit : Value :=
  .object [("$inc", .object [("visits", .ofNat 1)])]

def moveTown : Value :=
  .object [("profile", .object [("$set", .object [("town", .string "Oslo")])])]

/-- The count fails and the profile is changed, in either order; the name in it stays. -/
theorem apply_independent_profile :
    Interchange (apply "__v" countVisit) (apply "__v" moveTown)
      (.object [("profile", .object [("name", .string "Ada")]), ("visits", .string "many")]) ∧
    (apply "__v" countVisit
      (.object [("profile", .object [("name", .string "Ada")]), ("visits", .string "many")])).failure
        = some (.notNumeric "visits") ∧
    lookup ["profile", "name"] (walk "__v" ""
      [("profile", .object [("$set", .object [("town", .string "Oslo")])])]
      (.object [("profile", .object [("name", .string "Ada")])])).value
        = some (.string "Ada") := by
  obtain ⟨-, hinterchange, -, -, hframe⟩ := apply_independent "__v"
  refine ⟨hinterchange countVisit moveTown ?_ _ ?_, by decide, ?_⟩
  · have hvisits : targets countVisit = ["visits"] := by decide
    have hprofile : targets moveTown = ["profile"] := by decide
    simp [hvisits, hprofile]
  · have hkeys : Ordered.before "profile" "visits" = true := by decide
    simp [Keyed.Sorted, hkeys]
  · rw [hframe ["profile", "name"] _ (by decide)]
    rfl

end DocumentAccess.Update
