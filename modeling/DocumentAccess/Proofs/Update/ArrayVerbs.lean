import DocumentAccess.Proofs.Update.Misreading
import Mathlib.Data.List.Induction

/-!
# The array verbs

`$push`, `$addToSet` and `$pull` change the items of an array.  Their argument is a list that stands for
its items, or any other value that stands for itself; only an object with a predicate in it says
something else.  Values are compared up to an equivalence, so nothing here may use that equal values are
the same.

* `Update.fresh` — the values that `$addToSet` appends (`Update.extend_true`).
* `Update.contains_extend`, `Update.without_extend` — what an extended list contains, and what is left
  of it.
* `Update.under` — a command, or the argument of a verb, below a chain of keys.
* `Update.replaceAt` — a value with what a chain of keys leads to replaced.
* `Update.apply_commandAt` — a verb changes the items of the array that a chain leads to.
* **`Update.array_verbs`** — the laws of the three verbs.
-/

namespace DocumentAccess.Update

open Value

/-! ## Lists -/

/-- No two of the items are equal. -/
def DuplicateFree (items : List Value) : Prop :=
  items.Pairwise fun a b => (a == b) = false

/-- The values, in order, that occur neither among the items nor earlier among themselves. -/
def fresh (items values : List Value) : List Value :=
  (values.zipIdx.filter fun entry =>
    !(items ++ values.take entry.2).contains entry.1).map Prod.fst

section Lists

variable {items values : List Value} {value : Value}

lemma extend_false (items values : List Value) : extend false items values = items ++ values := by
  induction values generalizing items with
  | nil => simp [extend]
  | cons value rest ih => simp [extend, ih]

lemma extend_append (unique : Bool) (items values more : List Value) :
    extend unique items (values ++ more) = extend unique (extend unique items values) more := by
  induction values generalizing items with
  | nil => rfl
  | cons value rest ih => exact ih _

/-- A value that a list contains makes no difference at its end. -/
lemma contains_append_of_contains (h : items.contains value = true) (v : Value) :
    (items ++ [value]).contains v = items.contains v := by
  by_cases hv : (v == value) = true
  · simp [List.contains_congr hv, h]
  · simp [hv]

/-- However a list is extended, afterwards it contains the values too. -/
lemma contains_extend (unique : Bool) (items values : List Value) (v : Value) :
    (extend unique items values).contains v = (items.contains v || values.contains v) := by
  induction values generalizing items with
  | nil => simp [extend]
  | cons value rest ih =>
      rw [extend, ih, List.contains_cons, ← Bool.or_assoc]
      congr 1
      by_cases hknown : (unique && items.contains value) = true
      · rw [if_pos hknown, ← contains_append_of_contains (Bool.and_eq_true_iff.1 hknown).2 v]
        simp
      · simp [hknown]

/-- Whether a value is fresh depends on what is before it only. -/
lemma fresh_concat (items values : List Value) (value : Value) :
    fresh items (values ++ [value])
      = fresh items values ++ if (items ++ values).contains value then [] else [value] := by
  have hbefore : ∀ entry ∈ values.zipIdx,
      (!(items ++ (values ++ [value]).take entry.2).contains entry.1)
        = !(items ++ values.take entry.2).contains entry.1 := by
    intro entry hentry
    rw [List.take_append_of_le_length (List.snd_lt_of_mem_zipIdx hentry).le]
  have hlast : (values ++ [value]).take values.length = values := List.take_left
  rw [fresh, List.zipIdx_append, List.filter_append, List.map_append, List.filter_congr hbefore,
    List.zipIdx_singleton, Nat.zero_add, List.filter_singleton, hlast, fresh]
  congr 1
  cases (items ++ values).contains value <;> rfl

/-- Only the fresh values are appended: what is in the list so far equals an item or an earlier value. -/
lemma extend_true (items values : List Value) :
    extend true items values = items ++ fresh items values := by
  induction values using List.reverseRecOn with
  | nil => simp [extend, fresh]
  | append_singleton values value ih =>
      have hknown : (extend true items values).contains value = (items ++ values).contains value := by
        rw [contains_extend, List.contains_append]
      rw [extend_append, extend, extend, Bool.true_and, hknown, fresh_concat, ih]
      split <;> simp

/-- A value that is appended equals none of the items, so no duplicates come in. -/
lemma DuplicateFree.extend (h : DuplicateFree items) (values : List Value) :
    DuplicateFree (extend true items values) := by
  induction values generalizing items with
  | nil => exact h
  | cons value rest ih =>
      rw [Update.extend]
      by_cases hknown : items.contains value = true
      · simpa [hknown] using ih h
      · have hnew : DuplicateFree (items ++ [value]) := by
          refine List.pairwise_append.2 ⟨h, List.pairwise_singleton _ _, fun item hitem v hv => ?_⟩
          obtain rfl := List.mem_singleton.1 hv
          rw [← Bool.not_eq_true]
          intro hequal
          exact hknown (List.contains_iff_exists_mem_beq.2 ⟨item, hitem, BEq.symm hequal⟩)
        simpa [hknown] using ih hnew

lemma extend_eq_self (h : ∀ v ∈ values, items.contains v = true) :
    extend true items values = items := by
  induction values with
  | nil => rfl
  | cons value rest ih =>
      obtain ⟨hvalue, hrest⟩ := List.forall_mem_cons.1 h
      rw [extend, hvalue]
      exact ih hrest

lemma extend_extend (items values : List Value) :
    extend true (extend true items values) values = extend true items values := by
  refine extend_eq_self fun v hv => ?_
  have hself : values.contains v = true := List.elem_eq_true_of_mem hv
  rw [contains_extend, hself, Bool.or_true]

lemma without_without (values items : List Value) :
    without values (without values items) = without values items := by
  simp [without]

/-- What is appended and removed again leaves what would be left without it. -/
lemma without_extend (unique : Bool) {more : List Value} (h : ∀ v ∈ more, values.contains v = true)
    (items : List Value) : without values (extend unique items more) = without values items := by
  induction more generalizing items with
  | nil => rfl
  | cons value rest ih =>
      obtain ⟨hvalue, hrest⟩ := List.forall_mem_cons.1 h
      rw [extend, ih hrest]
      split
      · rfl
      · simp [without, hvalue]

end Lists

/-! ## Chains of keys -/

/-- A command, or the argument of a verb, put under a chain of keys. -/
def under : List String → Members → Members
  | [], inner => inner
  | key :: keys, inner => [(key, .object (under keys inner))]

/-- The value with what a chain of keys leads to replaced. -/
def replaceAt (new : Value) : List String → Value → Value
  | [], _ => new
  | key :: keys, .object members =>
    (Keyed.find? key members).elim (.object members) fun child =>
      .object (Keyed.insert key (replaceAt new keys child) members)
  | _ :: _, value => value

section Chains

variable {keys : List String} {key : String} {doc old new : Value}

lemma replaceAt_object {members : Members} {child : Value} (h : Keyed.find? key members = some child)
    (new : Value) (keys : List String) :
    replaceAt new (key :: keys) (.object members)
      = .object (Keyed.insert key (replaceAt new keys child) members) := by
  simp [replaceAt, h]

/-- What replaces a value is found in its place. -/
lemma lookup_replaceAt (h : lookup keys doc = some old) (new : Value) :
    lookup keys (replaceAt new keys doc) = some new := by
  induction keys generalizing doc with
  | nil => rfl
  | cons key keys ih =>
      obtain ⟨members, child, rfl, hchild, hrest⟩ := lookup_cons_eq_some h
      rw [replaceAt_object hchild]
      show (Keyed.find? key (Keyed.insert key _ members)).bind (lookup keys) = _
      rw [Keyed.find?_insert_self, Option.bind_some, ih hrest]

/-- Of two values put in one place the last stays. -/
lemma replaceAt_replaceAt (h : lookup keys doc = some old) (new other : Value) :
    replaceAt new keys (replaceAt other keys doc) = replaceAt new keys doc := by
  induction keys generalizing doc with
  | nil => rfl
  | cons key keys ih =>
      obtain ⟨members, child, rfl, hchild, hrest⟩ := lookup_cons_eq_some h
      rw [replaceAt_object hchild, replaceAt_object hchild,
        replaceAt_object (Keyed.find?_insert_self _ _ _), Keyed.insert_insert_self, ih hrest]

end Chains

/-! ## Commands -/

/-- The command that applies a verb to the member under a key: below a chain of field keys it has the
verb, and below a chain of keys in the argument of the verb the value for the member. -/
def commandAt (outer : List String) (verbKey : String) (inner : List String) (key : String)
    (value : Value) : Value :=
  .object (under outer [(verbKey, .object (under inner [(key, value)]))])

section Commands

variable {versionKey : String} {verb : Verb} {outer inner : List String} {verbKey key : String}
  {doc value : Value} {items : List Value}

/-- A verb that goes on inside objects, and changes the items of an array for a direct value. -/
structure ChangesItems (versionKey : String) (verb : Verb) (value : Value)
    (change : List Value → List Value) : Prop where
  descends : verb ≠ .set ∧ verb ≠ .inc
  items : ∀ path key items, verbSlot versionKey verb path key value (some (.array items))
    = .done (some (.array (change items)))

lemma changesItems_append (unique : Bool) (hvalue : value.get? whereKey = none) :
    ChangesItems versionKey (appendVerb unique) value fun items =>
      extend unique items (asValues value) := by
  refine ⟨appendVerb_ne unique, fun path key items => ?_⟩
  rw [verbSlot_appendVerb]
  cases value with
  | object argument =>
      simp only [appendSlot, address_eq_direct_iff.2 hvalue]
      rfl
  | _ => rfl

lemma changesItems_pull (hvalue : value.get? whereKey = none) :
    ChangesItems versionKey .pull value (without (asValues value)) := by
  refine ⟨by simp, fun path key items => ?_⟩
  cases value with
  | object argument =>
      simp only [verbSlot, pullSlot, address_eq_direct_iff.2 hvalue]
      rfl
  | _ => rfl

variable {change : List Value → List Value}

/-- In the argument of a verb a chain leads through objects, which the verb goes into, to the array. -/
lemma applyVerb_under (hchange : ChangesItems versionKey verb value change)
    (hitems : lookup (inner ++ [key]) doc = some (.array items)) (path : String) :
    applyVerb versionKey verb path (.object (under inner [(key, value)])) doc
      = .done (replaceAt (.array (change items)) (inner ++ [key]) doc) := by
  induction inner generalizing doc path with
  | nil =>
      obtain ⟨members, child, rfl, hchild, hrest⟩ := lookup_cons_eq_some hitems
      obtain rfl : child = .array items := by simpa [lookup] using hrest
      rw [under, applyVerb_single, atSlot, hchild, hchange.items, List.nil_append,
        replaceAt_object hchild]
      rfl
  | cons outermost inner ih =>
      obtain ⟨members, child, rfl, hchild, hrest⟩ := lookup_cons_eq_some hitems
      have hobject : ∀ items, child ≠ .array items := by
        rintro items rfl
        cases inner <;> simp [lookup, get?] at hrest
      rw [under, applyVerb_single, atSlot, hchild, verbSlot_descends hchange.descends hobject,
        ih hrest, List.cons_append, replaceAt_object hchild]
      rfl

/-- Below a chain of field keys a command does what it does to the value there. -/
lemma walk_under {command : Members} {new old : Value} {keys : List String}
    (hcommand : ∀ path target, lookup keys target = some old →
      walk versionKey path command target = .done (replaceAt new keys target))
    (houter : ∀ key ∈ outer, UpdateKey.ofKey key = .field)
    (hdoc : lookup (outer ++ keys) doc = some old) (path : String) :
    walk versionKey path (under outer command) doc = .done (replaceAt new (outer ++ keys) doc) := by
  induction outer generalizing doc path with
  | nil => exact hcommand path doc hdoc
  | cons key outer ih =>
      obtain ⟨hkey, houter⟩ := List.forall_mem_cons.1 houter
      obtain ⟨members, child, rfl, hchild, hrest⟩ := lookup_cons_eq_some hdoc
      rw [under, walk_object, each, commandStep_field hkey, atSlot, hchild, fieldSlot,
        Option.getD_some, ih houter hrest, List.cons_append, replaceAt_object hchild]
      rfl

lemma verbCount_under (houter : ∀ key ∈ outer, UpdateKey.ofKey key = .field) (command : Members) :
    verbCount (under outer command) = verbCount command := by
  induction outer with
  | nil => rfl
  | cons key outer ih =>
      obtain ⟨hkey, houter⟩ := List.forall_mem_cons.1 houter
      simp [under, verbCount, hkey, verbCountAt, ih houter]

/-- **A verb that changes items changes those of the array that the chain leads to**, and nothing else. -/
theorem apply_commandAt (hchange : ChangesItems versionKey verb value change)
    (hkey : UpdateKey.ofKey verbKey = .verb verb)
    (houter : ∀ key ∈ outer, UpdateKey.ofKey key = .field)
    (hitems : lookup (outer ++ (inner ++ [key])) doc = some (.array items)) :
    apply versionKey (commandAt outer verbKey inner key value) doc
      = .done (replaceAt (.array (change items)) (outer ++ (inner ++ [key])) doc) := by
  have hcount : verbCount (under outer [(verbKey, .object (under inner [(key, value)]))]) = 1 := by
    rw [verbCount_under houter]
    simp [verbCount, hkey]
  rw [commandAt, apply, if_neg (by omega)]
  refine walk_under (fun path target htarget => ?_) houter hitems ""
  simp only [walk, hkey, applyVerb_under hchange htarget]
  rfl

/-- One command after another about the same array changes its items twice. -/
lemma apply_commandAt_andThen {next : Verb} {nextKey : String} {change' : List Value → List Value}
    (hchange : ChangesItems versionKey verb value change)
    (hnext : ChangesItems versionKey next value change')
    (hkey : UpdateKey.ofKey verbKey = .verb verb) (hnextKey : UpdateKey.ofKey nextKey = .verb next)
    (houter : ∀ key ∈ outer, UpdateKey.ofKey key = .field)
    (hitems : lookup (outer ++ (inner ++ [key])) doc = some (.array items)) :
    (apply versionKey (commandAt outer verbKey inner key value) doc).andThen
        (apply versionKey (commandAt outer nextKey inner key value))
      = .done (replaceAt (.array (change' (change items))) (outer ++ (inner ++ [key])) doc) := by
  rw [apply_commandAt hchange hkey houter hitems, Attempt.done_andThen,
    apply_commandAt hnext hnextKey houter (lookup_replaceAt hitems _), replaceAt_replaceAt hitems]

end Commands

/-- **The laws of the array verbs.**  `$push` appends the values, and `$addToSet` those that are fresh, so
that the array contains all of them, has no new duplicates, and is not changed by adding them again.
`$pull` leaves the items that equal none of the values; pulling them again changes nothing, and pulling
what was pushed or added leaves what pulling alone leaves. -/
theorem array_verbs (versionKey : String) {spelling : Verb → String}
    (hspelling : ∀ verb, UpdateKey.ofKey (spelling verb) = .verb verb)
    {outer inner : List String} {key : String} {doc value : Value} {items : List Value}
    (houter : ∀ key ∈ outer, UpdateKey.ofKey key = .field)
    (hitems : lookup (outer ++ (inner ++ [key])) doc = some (.array items))
    (hvalue : value.get? whereKey = none) :
    let run verb := apply versionKey (commandAt outer (spelling verb) inner key value)
    let holding items := Attempt.done (replaceAt (.array items) (outer ++ (inner ++ [key])) doc)
    let values := asValues value
    run .push doc = holding (items ++ values) ∧
    run .addToSet doc = holding (items ++ fresh items values) ∧
    (DuplicateFree items → DuplicateFree (items ++ fresh items values)) ∧
    (∀ v ∈ values, (items ++ fresh items values).contains v = true) ∧
    (run .addToSet doc).andThen (run .addToSet) = run .addToSet doc ∧
    run .pull doc = holding (items.filter fun item => !values.contains item) ∧
    (run .pull doc).andThen (run .pull) = run .pull doc ∧
    (run .push doc).andThen (run .pull) = run .pull doc ∧
    (run .addToSet doc).andThen (run .pull) = run .pull doc := by
  intro run holding values
  have hpush : ChangesItems versionKey .push value _ := changesItems_append false hvalue
  have hadd : ChangesItems versionKey .addToSet value _ := changesItems_append true hvalue
  have hpull : ChangesItems versionKey .pull value _ := changesItems_pull hvalue
  have hpushed : run .push doc = _ := apply_commandAt hpush (hspelling _) houter hitems
  have hadded : run .addToSet doc = _ := apply_commandAt hadd (hspelling _) houter hitems
  have hpulled : run .pull doc = _ := apply_commandAt hpull (hspelling _) houter hitems
  have hthen : ∀ {first next : Verb} {change change' : List Value → List Value},
      ChangesItems versionKey first value change → ChangesItems versionKey next value change' →
      (run first doc).andThen (run next) = holding (change' (change items)) :=
    fun hfirst hnext => apply_commandAt_andThen hfirst hnext (hspelling _) (hspelling _) houter hitems
  have hself : ∀ v ∈ values, values.contains v = true := fun _ => List.elem_eq_true_of_mem
  refine ⟨?_, ?_, fun hfree => ?_, fun v hv => ?_, ?_, hpulled, ?_, ?_, ?_⟩
  · rw [hpushed, extend_false]
  · rw [hadded, extend_true]
  · rw [← extend_true]
    exact hfree.extend values
  · rw [← extend_true, contains_extend, hself v hv, Bool.or_true]
  · rw [hthen hadd hadd, extend_extend, hadded]
  · rw [hthen hpull hpull, without_without, hpulled]
  · rw [hthen hpush hpull, without_extend false hself, hpulled]
  · rw [hthen hadd hpull, without_extend true hself, hpulled]

/-- A profile with an array of what was seen, two levels down. -/
def seenProfile (seen : List Value) : Value :=
  .object [("profile", .object [("tags", .object [("seen", .array seen)])])]

def zero : Value := .number (.float ⟨false, 0⟩)
def negativeZero : Value := .number (.float ⟨true, 0⟩)

/-- The two zeros are one value, and the integer is another; of a repeated text one is added. -/
theorem array_verbs_seen :
    apply "__v" (commandAt ["profile"] "$addToSet" ["tags"] "seen"
        (.array [negativeZero, .ofNat 0, .string "new", .string "new"]))
        (seenProfile [.string "old", zero])
      = .done (seenProfile [.string "old", zero, .ofNat 0, .string "new"]) ∧
    apply "__v" (commandAt ["profile"] "$pull" ["tags"] "seen"
        (.array [negativeZero, .ofNat 0, .string "new", .string "new"]))
        (seenProfile [.string "old", zero])
      = .done (seenProfile [.string "old"]) := by
  have hspelling : ∀ verb : Verb, UpdateKey.ofKey verb.native = .verb verb := by
    rintro (_ | _ | _ | _ | _) <;> decide
  obtain ⟨-, hadded, -, -, -, hpulled, -⟩ := array_verbs "__v" hspelling
    (show ∀ key ∈ ["profile"], UpdateKey.ofKey key = .field by decide)
    (show lookup (["profile"] ++ (["tags"] ++ ["seen"])) (seenProfile [.string "old", zero])
      = some (.array [.string "old", zero]) from rfl)
    (show (Value.array [negativeZero, .ofNat 0, .string "new", .string "new"]).get? whereKey = none
      from rfl)
  exact ⟨hadded, hpulled⟩

end DocumentAccess.Update
