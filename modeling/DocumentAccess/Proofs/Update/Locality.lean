import DocumentAccess.Proofs.Update.Steps
import Mathlib.Data.Set.Insert

/-!
# Locality of updates

A step of a command reads and writes one member of an object, and leaves the others as they are.  So a
command is local to the keys that it names at the root, and what becomes of one member can be found by
applying only the parts of the command that name it.

* `Update.LocalOn` — a change reads and writes members at given keys only.
* `Update.rootTargets` — the keys of the members that a command may write at the root.
* **`Update.localOn_command`** — a command is local to its root targets.
* `Update.partsNaming` — the parts of a command that name a key at the root.
* **`Update.walk_get?`** — what a command makes of a member is what the parts that name it make of it.
* `Update.mem_each`, `Update.each_written` — steps under different keys all find their member as it was.
-/

namespace DocumentAccess.Update

/-! ## Local changes -/

/-- Two objects have the same members at the given keys. -/
def AgreeOn (keys : Set String) (a b : Members) : Prop :=
  ∀ key ∈ keys, Keyed.find? key a = Keyed.find? key b

/-- A change of an object that reads and writes its members at the given keys only. -/
structure LocalOn (keys : Set String) (change : Members → Attempt Members) : Prop where
  elsewhere : ∀ doc, AgreeOn keysᶜ (change doc).value doc
  value : ∀ a b, AgreeOn keys a b → AgreeOn keys (change a).value (change b).value
  failure : ∀ a b, AgreeOn keys a b → (change a).failure = (change b).failure

section LocalOn

variable {keys : Set String} {change next : Members → Attempt Members}

/-- What is local to some keys is local to more of them. -/
lemma LocalOn.mono {more : Set String} (h : LocalOn keys change) (hsub : keys ⊆ more) :
    LocalOn more change where
  elsewhere doc other hother := h.elsewhere doc other fun hkeys => hother (hsub hkeys)
  value a b hab other hother := by
    by_cases hkeys : other ∈ keys
    · exact h.value a b (fun key hkey => hab key (hsub hkey)) other hkeys
    · rw [h.elsewhere a other hkeys, h.elsewhere b other hkeys]
      exact hab other hother
  failure a b hab := h.failure a b fun key hkey => hab key (hsub hkey)

lemma localOn_done (keys : Set String) : LocalOn keys .done where
  elsewhere _ _ _ := rfl
  value _ _ hab := hab
  failure _ _ _ := rfl

lemma localOn_failed (keys : Set String) (error : UpdateError) :
    LocalOn keys fun doc => .failed doc error where
  elsewhere _ _ _ := rfl
  value _ _ hab := hab
  failure _ _ _ := rfl

lemma LocalOn.andThen (hchange : LocalOn keys change) (hnext : LocalOn keys next) :
    LocalOn keys fun doc => (change doc).andThen next where
  elsewhere doc := by
    intro other hother
    cases hfailure : (change doc).failure with
    | some error =>
        rw [Attempt.andThen, hfailure]
        exact hchange.elsewhere doc other hother
    | none =>
        rw [Attempt.andThen, hfailure]
        exact (hnext.elsewhere _ other hother).trans (hchange.elsewhere doc other hother)
  value a b hab := by
    have hfailures := hchange.failure a b hab
    have hvalues := hchange.value a b hab
    cases hfailure : (change a).failure with
    | some error =>
        rw [Attempt.andThen, Attempt.andThen, ← hfailures, hfailure]
        exact hvalues
    | none =>
        rw [Attempt.andThen, Attempt.andThen, ← hfailures, hfailure]
        exact hnext.value _ _ hvalues
  failure a b hab := by
    have hfailures := hchange.failure a b hab
    cases hfailure : (change a).failure with
    | some error =>
        simp only [Attempt.andThen, ← hfailures, hfailure]
    | none =>
        rw [Attempt.andThen, Attempt.andThen, ← hfailures, hfailure]
        exact hnext.failure _ _ (hchange.value a b hab)

end LocalOn

/-- A step is local to the key of the member that it treats. -/
lemma localOn_atSlot (key : String) (treat : Option Value → Attempt (Option Value)) :
    LocalOn {key} (atSlot key treat) where
  elsewhere doc other hother := by
    show Keyed.find? other (put key doc (treat (Keyed.find? key doc)).value)
      = Keyed.find? other doc
    cases (treat (Keyed.find? key doc)).value with
    | none => rfl
    | some value => exact Keyed.find?_insert_of_ne hother value doc
  value a b hab := by
    rintro other rfl
    have hslot := hab other rfl
    show Keyed.find? other (put other a (treat (Keyed.find? other a)).value)
      = Keyed.find? other (put other b (treat (Keyed.find? other b)).value)
    rw [hslot]
    cases (treat (Keyed.find? other b)).value with
    | none => exact hslot
    | some value => simp [put]
  failure a b hab := by
    show (treat (Keyed.find? key a)).failure = (treat (Keyed.find? key b)).failure
    rw [hab key rfl]

/-- A sequence of steps is local to what its steps are local to. -/
lemma localOn_each {keys : Set String} {step : String → Value → Members → Attempt Members}
    {argument : Members} (h : ∀ entry ∈ argument, LocalOn keys (step entry.1 entry.2)) :
    LocalOn keys (each step argument) := by
  induction argument with
  | nil => exact localOn_done keys
  | cons entry rest ih =>
      have hrest := ih fun other hother => h other (List.mem_cons_of_mem _ hother)
      exact (h entry List.mem_cons_self).andThen hrest

/-! ## Commands -/

/-- The keys of the members that a verb may write. -/
def verbTargets (versionKey : String) (verb : Verb) : Value → List String
  | .object argument =>
    (match verb with
      | .set => settable versionKey argument
      | _ => argument).map Prod.fst
  | _ => []

/-- The keys of the members that a command may write at the root: its field keys, and the keys in the
arguments of its verbs, except the protected ones in those of `$set`. -/
def rootTargets (versionKey : String) : Members → List String
  | [] => []
  | (key, argument) :: rest =>
    (match UpdateKey.ofKey key with
      | .verb verb => verbTargets versionKey verb argument
      | .field => [key]
      | _ => []) ++ rootTargets versionKey rest

lemma localOn_verb (versionKey : String) (verb : Verb) (path : String) (argument : Members) :
    LocalOn {key | key ∈ verbTargets versionKey verb (.object argument)}
      (each (verbStep versionKey verb path) argument) := by
  refine localOn_each fun entry hentry => ?_
  obtain ⟨key, value⟩ := entry
  have hslot : LocalOn {key} (verbStep versionKey verb path key value) := localOn_atSlot key _
  cases verb with
  | set =>
      by_cases hkey : isProtected versionKey key = true
      · -- a protected member is left as it is
        have hdone : verbStep versionKey .set path key value = .done := by
          funext doc
          simp [verbStep, verbSlot, atSlot, hkey, put, Attempt.done, Attempt.map]
        rw [hdone]
        exact localOn_done _
      · refine hslot.mono (Set.singleton_subset_iff.2 ?_)
        exact List.mem_map.2 ⟨(key, value), by simpa [settable, hkey] using hentry, rfl⟩
  | _ =>
      refine hslot.mono (Set.singleton_subset_iff.2 ?_)
      exact List.mem_map.2 ⟨(key, value), hentry, rfl⟩

/-- **A command is local to its root targets**: it changes no other member, and what it does to them,
and whether it fails, depends on no other member. -/
theorem localOn_command (versionKey path : String) (command : Members) :
    LocalOn {key | key ∈ rootTargets versionKey command}
      (each (commandStep versionKey path) command) := by
  induction command with
  | nil => exact localOn_done _
  | cons entry rest ih =>
      obtain ⟨key, argument⟩ := entry
      have hrest : LocalOn {k | k ∈ rootTargets versionKey ((key, argument) :: rest)}
          (each (commandStep versionKey path) rest) :=
        ih.mono fun k hk => List.mem_append_right _ hk
      refine LocalOn.andThen ?_ hrest
      unfold commandStep rootTargets
      cases hkey : UpdateKey.ofKey key with
      | verb verb =>
          cases argument with
          | object argument =>
              exact (localOn_verb versionKey verb path argument).mono
                fun k hk => List.mem_append_left _ hk
          | _ => exact localOn_failed _ _
      | unknownVerb => exact localOn_done _
      | field =>
          exact (localOn_atSlot key _).mono
            (Set.singleton_subset_iff.2 (List.mem_append_left _ List.mem_cons_self))
      | _ => exact localOn_failed _ _

/-! ## One member -/

/-- Whenever the first change succeeds, so does the second, with the same member under a key. -/
def SameAt (key : String) (change part : Members → Attempt Members) : Prop :=
  ∀ a b, Keyed.find? key a = Keyed.find? key b → (change a).failure = none →
    (part b).failure = none ∧
      Keyed.find? key (change a).value = Keyed.find? key (part b).value

section SameAt

variable {key : String} {keys : Set String} {change next part nextPart : Members → Attempt Members}

lemma LocalOn.sameAt (h : LocalOn {key} change) : SameAt key change change := by
  intro a b hab hdone
  have hagree : AgreeOn {key} a b := by
    rintro other rfl
    exact hab
  exact ⟨h.failure a b hagree ▸ hdone, h.value a b hagree key rfl⟩

lemma LocalOn.sameAt_done (h : LocalOn keys change) (hkey : key ∉ keys) :
    SameAt key change .done :=
  fun a _ hab _ => ⟨rfl, (h.elsewhere a key hkey).trans hab⟩

lemma SameAt.andThen (hchange : SameAt key change part) (hnext : SameAt key next nextPart) :
    SameAt key (fun doc => (change doc).andThen next) (fun doc => (part doc).andThen nextPart) := by
  intro a b hab hdone
  have hfirst : (change a).failure = none := by
    by_contra hfailure
    obtain ⟨error, herror⟩ := Option.ne_none_iff_exists'.1 hfailure
    simp [Attempt.andThen, herror] at hdone
  obtain ⟨hpart, hvalue⟩ := hchange a b hab hfirst
  simp only [Attempt.andThen, hfirst, hpart] at hdone ⊢
  exact hnext _ _ hvalue hdone

end SameAt

/-- The entries of an object argument under one key. -/
def entriesAt (key : String) : Value → Value
  | .object members => .object (members.filter fun entry => entry.1 = key)
  | value => value

/-- The parts of a command that name a key at the root: as a field key, or in the argument of a verb,
cut down to that key. -/
def partsNaming (key : String) : Members → Members
  | [] => []
  | (k, argument) :: rest =>
    (match UpdateKey.ofKey k with
      | .verb _ => [(k, entriesAt key argument)]
      | .field => if k = key then [(k, argument)] else []
      | _ => []) ++ partsNaming key rest

lemma sameAt_each_filter (key : String) {step : String → Value → Members → Attempt Members}
    (hstep : ∀ k value, LocalOn {k} (step k value)) (argument : Members) :
    SameAt key (each step argument) (each step (argument.filter fun entry => entry.1 = key)) := by
  induction argument with
  | nil => exact fun _ _ hab _ => ⟨rfl, hab⟩
  | cons entry rest ih =>
      obtain ⟨k, value⟩ := entry
      by_cases hk : k = key
      · subst hk
        rw [List.filter_cons_of_pos (by simp)]
        exact (hstep k value).sameAt.andThen ih
      · rw [List.filter_cons_of_neg (by simpa using hk)]
        exact ((hstep k value).sameAt_done (Ne.symm hk)).andThen ih

/-- A command does to a member what its parts that name the member do. -/
lemma sameAt_partsNaming (versionKey path key : String) (command : Members) :
    SameAt key (each (commandStep versionKey path) command)
      (each (commandStep versionKey path) (partsNaming key command)) := by
  induction command with
  | nil => exact fun _ _ hab _ => ⟨rfl, hab⟩
  | cons entry rest ih =>
      obtain ⟨k, argument⟩ := entry
      have hfails : ∀ error : UpdateError, ∀ part : Members → Attempt Members,
          SameAt key (fun doc => .failed doc error) part :=
        fun _ _ _ _ _ hdone => absurd hdone (by simp [Attempt.failed])
      rw [partsNaming]
      cases hk : UpdateKey.ofKey k with
      | verb verb =>
          refine SameAt.andThen ?_ ih
          cases argument with
          | object argument =>
              rw [entriesAt, commandStep_verb hk, commandStep_verb hk]
              exact sameAt_each_filter key (fun k value => localOn_atSlot k _) argument
          | _ =>
              unfold commandStep
              simp only [hk]
              exact hfails _ _
      | field =>
          have hstep : LocalOn {k} (commandStep versionKey path k argument) := by
            rw [commandStep_field hk]
            exact localOn_atSlot k _
          by_cases hkey : k = key
          · subst hkey
            simp only [if_true]
            exact hstep.sameAt.andThen ih
          · simp only [if_neg hkey]
            exact (hstep.sameAt_done (Ne.symm hkey)).andThen ih
      | unknownVerb =>
          have hsame : SameAt key (commandStep versionKey path k argument) .done := by
            rw [commandStep_unknownVerb hk]
            exact fun _ _ hab _ => ⟨rfl, hab⟩
          exact hsame.andThen ih
      | _ =>
          have hsame : SameAt key (commandStep versionKey path k argument) .done := by
            unfold commandStep
            simp only [hk]
            exact hfails _ _
          exact hsame.andThen ih

/-! ## Whole commands -/

/-- A command leaves a value that is no object as it is: it skips its unknown verbs, and fails at
anything else. -/
lemma walk_of_not_object (versionKey path : String) (command : Members) {doc : Value}
    (hdoc : doc.isObject = false) : (walk versionKey path command doc).value = doc := by
  have honObject : ∀ change, (onObject path change doc).value = doc := by
    intro change
    cases doc with
    | object members => exact absurd hdoc (by simp [Value.isObject])
    | _ => rfl
  induction command with
  | nil => rw [walk]; rfl
  | cons entry rest ih =>
      obtain ⟨key, argument⟩ := entry
      have hstep : ∀ attempt : Attempt Value, attempt.value = doc →
          (attempt.andThen (walk versionKey path rest)).value = doc := by
        rintro ⟨value, _ | error⟩ rfl
        · exact ih
        · rfl
      rw [walk]
      refine hstep _ ?_
      cases UpdateKey.ofKey key with
      | verb verb =>
          cases argument with
          | object argument => exact honObject _
          | _ => rfl
      | field =>
          cases argument with
          | object argument => rw [walkField]; exact honObject _
          | _ =>
              rw [walkField]
              · rfl
              · simp
      | _ => rfl

/-- **What a command makes of a member is what the parts that name it make of it.** -/
theorem walk_get? (versionKey path key : String) (command : Members) (doc : Value)
    (h : (walk versionKey path command doc).failure = none) :
    (walk versionKey path command doc).value.get? key
      = (walk versionKey path (partsNaming key command) doc).value.get? key := by
  cases doc with
  | object members =>
      rw [walk_object] at h
      rw [walk_object, walk_object]
      exact (sameAt_partsNaming versionKey path key command members members rfl h).2
  | _ => rw [walk_of_not_object _ _ _ rfl, walk_of_not_object _ _ _ rfl]

/-- A member that a command does not name is left as it is, even when the command fails. -/
theorem walk_get?_of_not_target {versionKey key : String} {command : Members}
    (hkey : key ∉ rootTargets versionKey command) (path : String) (doc : Value) :
    (walk versionKey path command doc).value.get? key = doc.get? key := by
  cases doc with
  | object members =>
      rw [walk_object]
      exact (localOn_command versionKey path command).elsewhere members key hkey
  | _ => rw [walk_of_not_object _ _ _ rfl]

/-! ## Steps under different keys -/

section Each

variable {treat : String → Value → Option Value → Attempt (Option Value)} {argument doc : Members}

/-- A step leaves the members under other keys for the steps behind it. -/
lemma find?_atSlot_of_ne {key other : String} (h : other ≠ key)
    (change : Option Value → Attempt (Option Value)) (doc : Members) :
    Keyed.find? other (atSlot key change doc).value = Keyed.find? other doc :=
  (localOn_atSlot key change).elsewhere doc other h

/-- A member after the steps was there before, or the step under its key wrote it. -/
lemma mem_each (hargument : (argument.map Prod.fst).Nodup) {entry : String × Value}
    (h : entry ∈ (each (fun key value => atSlot key (treat key value)) argument doc).value) :
    entry ∈ doc ∨ ∃ value, (entry.1, value) ∈ argument ∧
      (treat entry.1 value (Keyed.find? entry.1 doc)).value = some entry.2 := by
  induction argument generalizing doc with
  | nil => exact Or.inl h
  | cons first rest ih =>
      obtain ⟨key, value⟩ := first
      obtain ⟨hnew, hrest⟩ := List.nodup_cons.1 hargument
      have hfirst : entry ∈ (atSlot key (treat key value) doc).value →
          entry ∈ doc ∨ ∃ value', (entry.1, value') ∈ (key, value) :: rest ∧
            (treat entry.1 value' (Keyed.find? entry.1 doc)).value = some entry.2 := by
        intro hmem
        unfold atSlot at hmem
        cases hafter : (treat key value (Keyed.find? key doc)).value with
        | none =>
            rw [Attempt.map, hafter] at hmem
            exact Or.inl hmem
        | some after =>
            rw [Attempt.map, hafter] at hmem
            rcases Keyed.mem_insert hmem with rfl | hdoc
            · exact Or.inr ⟨value, List.mem_cons_self, hafter⟩
            · exact Or.inl hdoc
      rw [each, Attempt.andThen] at h
      cases hfailure : (atSlot key (treat key value) doc).failure with
      | some error =>
          rw [hfailure] at h
          exact hfirst h
      | none =>
          rw [hfailure] at h
          rcases ih hrest h with hbefore | ⟨value', hvalue', hafter⟩
          · exact hfirst hbefore
          · have hne : entry.1 ≠ key := by
              rintro rfl
              exact hnew (List.mem_map.2 ⟨_, hvalue', rfl⟩)
            rw [find?_atSlot_of_ne hne] at hafter
            exact Or.inr ⟨value', List.mem_cons_of_mem _ hvalue', hafter⟩

/-- When all steps succeed, each did what it does to the member as it was, and that stays. -/
lemma each_written (hargument : (argument.map Prod.fst).Nodup)
    (h : (each (fun key value => atSlot key (treat key value)) argument doc).failure = none)
    {key : String} {value : Value} (hentry : (key, value) ∈ argument) :
    (treat key value (Keyed.find? key doc)).failure = none ∧
      ∀ after, (treat key value (Keyed.find? key doc)).value = some after →
        (key, after) ∈ (each (fun key value => atSlot key (treat key value)) argument doc).value := by
  induction argument generalizing doc with
  | nil => simp at hentry
  | cons first rest ih =>
      obtain ⟨k, v⟩ := first
      obtain ⟨hnew, hrest⟩ := List.nodup_cons.1 hargument
      cases hfailure : (atSlot k (treat k v) doc).failure with
      | some error => simp [each, Attempt.andThen, hfailure] at h
      | none =>
          simp only [each, Attempt.andThen, hfailure] at h ⊢
          rcases List.mem_cons.1 hentry with hhead | htail
          · obtain ⟨rfl, rfl⟩ := Prod.mk.inj hhead
            refine ⟨hfailure, fun after hafter => Keyed.mem_of_find? ?_⟩
            have hlocal : LocalOn {other | other ∈ rest.map Prod.fst}
                (each (fun key value => atSlot key (treat key value)) rest) :=
              localOn_each fun entry hentry => (localOn_atSlot entry.1 _).mono
                (by simpa using ⟨entry.2, hentry⟩)
            rw [hlocal.elsewhere _ key hnew, atSlot, Attempt.map, hafter]
            exact Keyed.find?_insert_self key after doc
          · have hne : key ≠ k := by
              rintro rfl
              exact hnew (List.mem_map.2 ⟨_, htail, rfl⟩)
            have hlater := ih hrest h htail
            rwa [find?_atSlot_of_ne hne] at hlater

end Each

end DocumentAccess.Update
