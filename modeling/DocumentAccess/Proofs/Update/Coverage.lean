import DocumentAccess.Proofs.Update.Exposure
import DocumentAccess.Proofs.Update.Locality
import DocumentAccess.Proofs.Update.Merging
import DocumentAccess.Proofs.Update.Verbs

/-!
# The paths of a command cover what it writes

The paths read off a command should be comparable with every path whose leaves the command changes.
Two walks over the command have to agree for that: the verbs write along a path, and the names are looked
for on it.  A path is covered just when the command names something on it.  What a command changes it
writes in one of the ways of `Update.Written`, and where it names nothing on the way there is a gap
between the two walks: the path is exposed (`Update.Exposed`).

* **`Update.keeps_command`** — a command keeps the leaves along a path where everything passes.
* **`Update.wellOrdered_apply`** — documents stay well ordered.
* **`Update.written_of_change`** — what a command changes it writes in one of these ways.
* **`Update.apply_covered`** — a change is covered, or its path is exposed.
-/

namespace DocumentAccess.Update

open Value

/-! ## Commands -/

section Commands

variable {whole : List Leaf} {versionKey : String} {route : Route} {path : String}

lemma keeps_verb (verb : Verb) {argument : Members} (hroute : route ≠ some [])
    (hpassed : PassedMembers route argument)
    (hfree : verb = .set → ∀ place ∈ setPlaces versionKey route (.object argument), Free whole place)
    (hordered : ∀ entry ∈ argument, entry.2.WellOrdered) :
    Keeps whole route (each (verbStep versionKey verb path) argument) := by
  cases verb with
  | set =>
      refine keeps_each fun entry hentry => ?_
      have hvalue := hpassed.entry hentry
      refine keeps_atSlot hroute hvalue.route_ne ?_
      unfold verbSlot
      by_cases hprotected : isProtected versionKey entry.1 = true
      · simp only [if_pos hprotected]
        exact fun slot _ => kept_of_none rfl
      · simp only [if_neg hprotected]
        refine keepsSlot_set hvalue (fun place hplace => hfree rfl place ?_) (hordered entry hentry)
        exact List.mem_flatMap.2 ⟨entry, by simpa [settable, hprotected] using hentry, hplace⟩
  | inc => exact keeps_members (fun entry _ => slotKeeps_inc entry.2) hroute hpassed hordered
  | push => exact keeps_members (fun entry _ => slotKeeps_append false entry.2) hroute hpassed hordered
  | pull => exact keeps_members (fun entry _ => slotKeeps_pull entry.2) hroute hpassed hordered
  | addToSet =>
      exact keeps_members (fun entry _ => slotKeeps_append true entry.2) hroute hpassed hordered

/-- A command made to any value: what is no object stays as it is. -/
lemma kept_walk {command : Members} (h : Keeps whole route (each (commandStep versionKey path) command))
    {value : Value} (hvalue : Held whole route value) :
    Kept route value (walk versionKey path command value).value := by
  cases value with
  | object doc =>
      rw [walk_object]
      exact h doc hvalue
  | _ =>
      rw [walk_of_not_object _ _ _ rfl]
      exact hvalue.kept

/-- **A command keeps the leaves along a path where every place passes** and where `$set` replaces no
leaf. -/
theorem keeps_command (command : Value) : ∀ members, command = .object members →
    ∀ (route : Route) (path : String), route ≠ some [] →
      (∀ place ∈ commandPlaces route members, Passed place) →
      commandEnds route members = [] →
      (∀ place ∈ commandSettings versionKey route members, Free whole place) →
      (∀ entry ∈ members, entry.2.WellOrdered) →
      Keeps whole route (each (commandStep versionKey path) members) := by
  induction command using Value.inductionOn with
  | object command ih =>
      rintro members hmembers route path hroute hpassed hends hfree hordered
      obtain rfl : command = members := by simpa using hmembers
      refine keeps_each fun entry hentry => ?_
      obtain ⟨key, argument⟩ := entry
      have hplaces : ∀ place ∈ stepPlaces route (key, argument), Passed place := by
        rw [commandPlaces_eq_flatMap] at hpassed
        exact fun place hplace => hpassed place (List.mem_flatMap.2 ⟨_, hentry, hplace⟩)
      have hstepEnds : stepEnds route (key, argument) = [] := by
        rw [commandEnds_eq_flatMap, List.flatMap_eq_nil_iff] at hends
        exact hends _ hentry
      have hsettings : ∀ place ∈ stepSettings route versionKey (key, argument), Free whole place := by
        rw [commandSettings_eq_flatMap] at hfree
        exact fun place hplace => hfree place (List.mem_flatMap.2 ⟨_, hentry, hplace⟩)
      have hargument : argument.WellOrdered := hordered _ hentry
      unfold stepPlaces at hplaces
      unfold stepEnds at hstepEnds
      unfold stepSettings at hsettings
      dsimp only at hplaces hstepEnds hsettings ⊢
      cases hkey : UpdateKey.ofKey key with
      | verb verb =>
          cases argument with
          | object argument =>
              rw [hkey] at hplaces hsettings
              rw [commandStep_verb hkey]
              refine keeps_verb verb hroute hplaces ?_ (wellOrdered_object.1 hargument).2
              rintro rfl
              exact hsettings
          | _ =>
              unfold commandStep
              rw [hkey]
              exact keeps_failed whole route _
      | unknownVerb =>
          rw [commandStep_unknownVerb hkey]
          exact keeps_done whole route
      | field =>
          rw [hkey] at hplaces hstepEnds hsettings
          rw [commandStep_field hkey]
          cases argument with
          | object inner =>
              obtain ⟨hown, hinside⟩ := List.append_eq_nil_iff.1 hstepEnds
              have hend : route.below key ≠ some [] := fun hend => by simp [hend] at hown
              refine keeps_atSlot hroute hend fun slot hslot after hafter => ?_
              obtain rfl := Option.some.inj hafter
              exact kept_walk (ih _ hentry inner rfl _ _ hend hplaces hinside hsettings
                (wellOrdered_object.1 hargument).2) hslot
          | _ => exact fun doc hdoc => hdoc.kept
      | _ =>
          unfold commandStep
          rw [hkey]
          exact keeps_failed whole route _
  | _ => exact fun members hmembers => absurd hmembers (by simp)

end Commands

/-! ## Order -/

section Order

variable {versionKey : String}

lemma mergedPlaces_none (value : Value) : mergedPlaces none value = [] := by
  induction value using Value.inductionOn with
  | object patches ih =>
      have hmembers : mergedPlacesOfMembers none patches = [] := by
        rw [mergedPlacesOfMembers_eq_flatMap, List.flatMap_eq_nil_iff]
        exact ih
      rw [mergedPlaces, hmembers]
      rfl
  | _ => rfl

lemma settingPlaces_none (value : Value) : settingPlaces versionKey none value = [] := by
  cases value with
  | object argument =>
      unfold settingPlaces
      dsimp only
      cases Address.ofMembers argument with
      | direct => exact mergedPlaces_none _
      | matching predicate payload =>
          rcases payload with _ | payload
          · rfl
          · cases payload with
            | object payload =>
                have hmembers : mergedPlacesOfMembers none (settable versionKey payload) = [] := by
                  rw [mergedPlacesOfMembers_eq_flatMap, List.flatMap_eq_nil_iff]
                  exact fun entry _ => mergedPlaces_none entry.2
                simp [hmembers, here]
            | _ => rfl
      | refused => rfl
  | _ => exact mergedPlaces_none _

lemma fieldSettings_none (argument : Value) : fieldSettings versionKey none argument = [] := by
  induction argument using Value.inductionOn with
  | object command ih =>
      rw [fieldSettings, commandSettings_eq_flatMap, List.flatMap_eq_nil_iff]
      rintro ⟨key, argument⟩ hentry
      unfold stepSettings
      cases UpdateKey.ofKey key with
      | verb verb =>
          cases verb with
          | set =>
              cases argument with
              | object argument => exact List.flatMap_eq_nil_iff.2 fun entry _ => settingPlaces_none _
              | _ => rfl
          | _ => rfl
      | field => exact ih _ hentry
      | _ => rfl
  | _ => rfl

/-- **Documents stay well ordered**: off every path there is only the order to keep. -/
theorem wellOrdered_apply {command doc : Value} (hcommand : command.WellOrdered)
    (hdoc : doc.WellOrdered) : (apply versionKey command doc).value.WellOrdered := by
  cases command with
  | object members =>
      rw [apply]
      by_cases hcount : verbCount members = 0
      · rw [if_pos hcount]
        exact hdoc
      · rw [if_neg hcount]
        have hkeeps : Keeps [] none (each (commandStep versionKey "") members) := by
          have hplaces : commandPlaces none members = [] := fieldPlaces_none (.object members)
          have hends : commandEnds none members = [] :=
            (List.append_eq_nil_iff.1 (fieldEnds_none (.object members))).2
          have hsettings : commandSettings versionKey none members = [] :=
            fieldSettings_none (.object members)
          refine keeps_command (.object members) members rfl none "" (by simp) ?_ hends ?_
            (wellOrdered_object.1 hcommand).2
          · simp [hplaces]
          · simp [hsettings]
        refine (kept_walk hkeeps ⟨hdoc, ?_⟩).ordered
        rw [leavesAt_none]
        simp
  | _ => exact hdoc

end Order

/-! ## Written changes -/

section Written

variable {versionKey path : String} {members : Members} {doc : Value}

/-- Along a path that is not written every place passes. -/
lemma passed_of_not_written (hwritten : ¬ Written versionKey members doc path) :
    ∀ place ∈ commandPlaces (some (Path.segments path)) members, Passed place := by
  rintro ⟨route, value⟩ hplace
  refine ⟨?_, ?_, ?_⟩
  · rintro (rfl : route = some [])
    exact hwritten (.key hplace)
  · exact Bool.eq_false_iff.2 fun hclosed => hwritten (.value hplace hclosed)
  · exact Bool.eq_false_iff.2 fun hremoval => hwritten (.removal hplace hremoval)

/-- At a path that is not written, `$set` replaces no leaf of the document. -/
lemma free_of_not_written (hpath : path ≠ "") (hwritten : ¬ Written versionKey members doc path) :
    ∀ place ∈ commandSettings versionKey (some (Path.segments path)) members,
      Free (leavesAt (some (Path.segments path)) doc) place := by
  rintro ⟨route, value⟩ hplace
  refine ⟨?_, ?_⟩
  · rintro items rfl
    by_contra hleaf
    refine hwritten (.list hplace fun hnone => hleaf ?_)
    rw [valuesAt_eq hpath, List.map_eq_nil_iff] at hnone
    exact hnone
  · rintro others rfl leaf hleaf hlists
    exact hwritten (.object hplace ⟨leaf, hleaf, hlists⟩)

/-- **A path is written whenever its leaves are not what they were**, also after a failure. -/
theorem written_of_change (hcommand : (Value.object members).WellOrdered) (hdoc : doc.WellOrdered)
    (hpath : path ≠ "")
    (hchange : (apply versionKey (.object members) doc).value.valuesAt path ≠ doc.valuesAt path) :
    Written versionKey members doc path := by
  by_contra hwritten
  have hroute : some (Path.segments path) ≠ some [] :=
    fun hend => Path.segments_ne_nil path (Option.some.inj hend)
  have hheld : Held (leavesAt (some (Path.segments path)) doc) (some (Path.segments path)) doc :=
    ⟨hdoc, fun leaf hleaf => ⟨leaf, hleaf, List.Subset.refl _⟩⟩
  have hkept : Kept (some (Path.segments path)) doc (walk versionKey "" members doc).value :=
    kept_walk (keeps_command (.object members) members rfl _ "" hroute (passed_of_not_written hwritten)
      (List.eq_nil_iff_forall_not_mem.2 fun inner hinner => hwritten (.field hinner))
      (free_of_not_written hpath hwritten) (wellOrdered_object.1 hcommand).2) hheld
  refine hchange ?_
  rw [apply]
  by_cases hcount : verbCount members = 0
  · rw [if_pos hcount]
    rfl
  · rw [if_neg hcount, valuesAt_eq hpath, valuesAt_eq hpath, hkept.leaves]

end Written

/-! ## Covered changes -/

/-- **What a command changes is covered by its paths**, except at exposed paths: whenever the leaves at
a plain path are not what they were, also after a failure, the path is comparable with one of the
command's paths, or the command exposes it. -/
theorem apply_covered {versionKey path : String} {command doc : Value} (hcommand : command.WellOrdered)
    (hdoc : doc.WellOrdered) (hplain : IsPlain (Path.segments path))
    (hchange : (apply versionKey command doc).value.valuesAt path ≠ doc.valuesAt path) :
    Covered command path ∨
      ∃ members, command = .object members ∧ Exposed versionKey members doc path := by
  cases command with
  | object members =>
      by_cases hnamed : Named members path
      · exact Or.inl (covered_iff_named.2 hnamed)
      · have hwritten := written_of_change hcommand hdoc hplain.ne_empty hchange
        exact Or.inr ⟨members, rfl, gap_of_written hplain hwritten hnamed, hnamed⟩
  | _ => exact absurd rfl hchange

/-- A list with one object in it, set as a whole. -/
def itemsReplaced : Value :=
  .object [("$set", .object [("items", .array [.object [("a", .ofNat 2)]])])]

def itemsBefore : Value :=
  .object [("items", .array [.object [("a", .ofNat 1), ("secret", .ofNat 7)]])]

theorem apply_covered_items :
    (apply "__v" itemsReplaced itemsBefore).value.valuesAt "items.secret"
        ≠ itemsBefore.valuesAt "items.secret" ∧
      (Covered itemsReplaced "items.secret" ∨
        ∃ members, itemsReplaced = .object members ∧
          Exposed "__v" members itemsBefore "items.secret") := by
  have hchange : (apply "__v" itemsReplaced itemsBefore).value.valuesAt "items.secret"
      ≠ itemsBefore.valuesAt "items.secret" := mt (congrArg List.length) (by decide)
  refine ⟨hchange, apply_covered ?_ ?_ (by decide) hchange⟩
  · simp [itemsReplaced, WellOrdered, WellOrderedMembers, WellOrderedItems, Keyed.Sorted, Value.ofNat]
  · have hkeys : Ordered.before "a" "secret" = true := by decide
    simp [itemsBefore, WellOrdered, WellOrderedMembers, WellOrderedItems, Keyed.Sorted, Value.ofNat,
      hkeys]

/-- A command changes the leaves at a plain path that is not comparable with any of its paths. -/
structure Unseen (versionKey : String) (command doc : Value) (path : String) : Prop where
  plain : IsPlain (Path.segments path)
  change : (apply versionKey command doc).value.valuesAt path ≠ doc.valuesAt path
  uncovered : ¬ Covered command path

/-- Changes are missed at each of the gaps: where only an identifier stands at the key, where a field has
no verb, where a value or a predicate stands beside a drill wrapper, where a list is replaced by another,
and where it is replaced by an object. -/
theorem apply_not_covered :
    Unseen "__v" (.object [("$set", .object [("a", .object [("_id", .ofNat 1)])])])
      (.object [("a", .ofNat 5)]) "a" ∧
    Unseen "__v" (.object [("$set", .object [("b", .ofNat 1)]), ("a", .object [])])
      (.object []) "a" ∧
    Unseen "__v"
      (.object [("$set", .object [("meta",
        .object [("$elemMatch", .object [("_id", .ofNat 0)]), ("secret", .ofNat 2)])])])
      (.object []) "meta.secret" ∧
    Unseen "__v"
      (.object [("$pull", .object [("items",
        .object [("$elemMatch", .object [("_id", .ofNat 0)]), ("_$where_", .object [("a", .ofNat 1)])])])])
      itemsBefore "items.secret" ∧
    Unseen "__v" itemsReplaced itemsBefore "items.secret" ∧
    Unseen "__v" (.object [("$set", .object [("items", .object [("a", .ofNat 2)])])]) itemsBefore
      "items.secret" := by
  refine ⟨⟨by decide, ?_, by decide⟩, ⟨by decide, ?_, by decide⟩, ⟨by decide, ?_, by decide⟩,
    ⟨by decide, ?_, by decide⟩, ⟨by decide, ?_, by decide⟩, ⟨by decide, ?_, by decide⟩⟩
  all_goals exact mt (congrArg List.length) (by decide)

end DocumentAccess.Update
