import DocumentAccess.Proofs.Update.Locality
import DocumentAccess.Proofs.Update.Verbs

/-!
# Addressed elements

An addressed argument speaks about one element of the array in a field: the first that satisfies a
predicate, or the one at a position.  The verb then changes this element and no other.  Where the
predicate selects nothing the document should stay as it is; it does, except where an appending verb
finds no array at all, and takes the addressing keys for names of fields.

* `Update.FirstMatch` — the first element that satisfies a predicate, and its position.
* **`Update.addressed_changes_one`** — what an addressed verb makes of the array.
* `Update.TakesForFields` — where a verb takes the addressing keys for names of fields.
* **`Update.unmatched_untouched_iff`** — only there a predicate that selects nothing changes something.
-/

namespace DocumentAccess.Update

open Value

/-! ## Chains of keys -/

section Chains

variable {keys : List String} {key : String} {value found : Value}

@[simp] lemma lookup_cons_object (key : String) (keys : List String) (members : Members) :
    lookup (key :: keys) (.object members) = (Keyed.find? key members).bind (lookup keys) := rfl

/-- A chain leads through objects. -/
lemma lookup_cons_eq_some (h : lookup (key :: keys) value = some found) :
    ∃ members child, value = .object members ∧ Keyed.find? key members = some child ∧
      lookup keys child = some found := by
  obtain ⟨child, hchild, hrest⟩ := Option.bind_eq_some_iff.1 h
  cases value with
  | object members => exact ⟨members, child, rfl, hchild, hrest⟩
  | _ => simp [get?] at hchild

lemma lookup_append (keys more : List String) (value : Value) :
    lookup (keys ++ more) value = (lookup keys value).bind (lookup more) := by
  induction keys generalizing value with
  | nil => rfl
  | cons key keys ih =>
      show (value.get? key).bind (lookup (keys ++ more)) = _
      rw [funext ih, ← Option.bind_assoc]
      rfl

end Chains

/-! ## Predicates -/

/-- The element has an equal value at each dotted path of the predicate. -/
def Satisfies (predicate : Members) (element : Value) : Prop :=
  ∀ entry ∈ predicate, ∃ value,
    lookup (Path.segments entry.1) element = some value ∧ (value == entry.2) = true

lemma hasValue_iff {element expected : Value} {path : String} :
    hasValue element path expected = true ↔
      ∃ value, lookup (Path.segments path) element = some value ∧ (value == expected) = true := by
  rw [hasValue]
  cases lookup (Path.segments path) element <;> simp

lemma holds_iff {predicate : Members} {element : Value} :
    holds predicate element = true ↔ Satisfies predicate element := by
  simp only [holds, List.all_eq_true, hasValue_iff, Satisfies]

/-- The element at a position is the first one that satisfies the predicate. -/
structure FirstMatch (predicate : Members) (items : List Value) (position : Nat) (element : Value) :
    Prop where
  found : items[position]? = some element
  satisfies : Satisfies predicate element
  least : ∀ before < position, ∀ other, items[before]? = some other → ¬ Satisfies predicate other

/-- The search for the first match ends at its element, and goes on behind any other. -/
@[elab_as_elim]
lemma FirstMatch.inductionOn {predicate : Members} {element : Value}
    {motive : ∀ items position, FirstMatch predicate items position element → Prop}
    (head : ∀ rest h, holds predicate element = true → motive (element :: rest) 0 h)
    (tail : ∀ item rest position h hrest, holds predicate item = false →
      motive rest position hrest → motive (item :: rest) (position + 1) h)
    (items : List Value) (position : Nat) (h : FirstMatch predicate items position element) :
    motive items position h := by
  induction items generalizing position with
  | nil => simpa using h.found
  | cons item rest ih =>
      cases position with
      | zero =>
          obtain rfl : item = element := by simpa using h.found
          exact head rest h (holds_iff.2 h.satisfies)
      | succ position =>
          have hrest : FirstMatch predicate rest position element := by
            refine ⟨by simpa using h.found, h.satisfies, fun before hbefore other hother => ?_⟩
            exact h.least (before + 1) (by omega) other (by simpa using hother)
          refine tail item rest position h hrest ?_ (ih position hrest)
          rw [← Bool.not_eq_true, holds_iff]
          exact h.least 0 (by omega) item (by simp)

section FirstMatch

variable {predicate : Members} {items : List Value} {position : Nat} {element : Value}

/-- The first match is changed, and no other element. -/
lemma onFirst_eq_set (h : FirstMatch predicate items position element)
    (change : Value → Attempt Value) :
    Attempt.onFirst (holds predicate) change items
      = (change element).map fun after => items.set position after := by
  induction items, position, h using FirstMatch.inductionOn with
  | head rest h hholds => simp [Attempt.onFirst, hholds]
  | tail item rest position h hrest hitem ih => simp [Attempt.onFirst, hitem, ih, Attempt.map]

lemma eraseFirst_eq_eraseIdx (h : FirstMatch predicate items position element) :
    eraseFirst (holds predicate) items = items.eraseIdx position := by
  induction items, position, h using FirstMatch.inductionOn with
  | head rest h hholds => simp [eraseFirst, hholds]
  | tail item rest position h hrest hitem ih => simp [eraseFirst, hitem, ih]

/-- Without a match nothing is changed. -/
lemma onFirst_eq_done (h : ∀ item ∈ items, ¬ Satisfies predicate item)
    (change : Value → Attempt Value) :
    Attempt.onFirst (holds predicate) change items = .done items := by
  induction items with
  | nil => rfl
  | cons item rest ih =>
      obtain ⟨hitem, hrest⟩ := List.forall_mem_cons.1 h
      rw [← holds_iff, Bool.not_eq_true] at hitem
      simp [Attempt.onFirst, hitem, ih hrest]

/-- A change of the first match fails only where the change of the element does. -/
lemma onFirst_done (test : Value → Bool) (change : Value → Value) (items : List Value) :
    (Attempt.onFirst test (fun item => .done (change item)) items).failure = none := by
  induction items with
  | nil => rfl
  | cons item rest ih =>
      rw [Attempt.onFirst]
      split
      · rfl
      · exact ih

/-- The element at a position is changed, and no other one; beyond the end nothing is. -/
lemma onIndex_eq_set (change : Value → Attempt Value) (position : Nat) (items : List Value) :
    Attempt.onIndex change position items
      = (items[position]?).elim (.done items) fun element =>
          (change element).map fun after => items.set position after := by
  induction items generalizing position with
  | nil => cases position <;> rfl
  | cons item rest ih =>
      cases position with
      | zero => rfl
      | succ position =>
          rw [Attempt.onIndex, ih, List.getElem?_cons_succ]
          cases rest[position]? <;> rfl

end FirstMatch

/-! ## Addressed arguments -/

/-- The argument that gives a payload to the element that a predicate selects. -/
def addressing (predicate payload : Members) : Value :=
  .object [(doKey, .object payload), (whereKey, .object predicate)]

/-- What an addressed verb does to the element: `$set` merges the payload in, without the members that
a command may not set; any other verb is applied to the element with the payload for its argument. -/
def elementChange (versionKey : String) (verb : Verb) (path : String) (payload : Members)
    (element : Value) : Attempt Value :=
  match verb with
  | .set => .done (merge element (.object (settable versionKey payload)))
  | verb => applyVerb versionKey verb path (.object payload) element

/-- What `$inc` does to the element at a position: it adds a number, or is applied to the element with
the payload for its argument. -/
def indexedChange (versionKey path : String) (payload element : Value) : Attempt Value :=
  match payload with
  | .number delta => addTo path delta element
  | .object payload => applyVerb versionKey .inc path (.object payload) element
  | _ => .failed element (.invalidArgument (some .inc) path .payloadKind)

section Addressed

variable {versionKey path key : String} {verb : Verb} {predicate payload : Members}
  {items : List Value} {doc : Members}

@[simp] lemma ofMembers_addressing :
    Address.ofMembers [(doKey, .object payload), (whereKey, .object predicate)]
      = .matching predicate (some (.object payload)) := by
  simp [Address.ofMembers, Keyed.find?, doKey, whereKey]

@[simp] lemma contains_indexKey_addressing :
    Keyed.contains indexKey [(doKey, Value.object payload), (whereKey, .object predicate)]
      = false := by
  simp [Keyed.contains, indexKey, doKey, whereKey]

/-- An argument with one member is one step. -/
lemma applyVerb_single (value : Value) :
    applyVerb versionKey verb path (.object [(key, value)]) (.object doc)
      = (atSlot key (verbSlot versionKey verb path key value) doc).map .object := by
  rw [applyVerb_object, each]
  rcases hstep : verbStep versionKey verb path key value doc with ⟨after, _ | error⟩ <;>
    rw [← verbStep, hstep] <;> rfl

lemma payloadStep_of_find? {step : Members → Members → Attempt Members} {argument : Members}
    (hdo : Keyed.find? doKey argument = some (.object payload)) :
    payloadStep step argument = step payload := by
  funext doc
  simp [payloadStep, hdo]

/-- `$inc` with a predicate goes into the first match in an array. -/
lemma incSlot_matching {argument : Members}
    (haddress : Address.ofMembers argument = .matching predicate (some (.object payload)))
    (hindex : Keyed.contains indexKey argument = false) (path : String) (slot : Option Value) :
    incSlot path (.object argument) slot
      = inArray (Attempt.onFirst (holds predicate) (onObject path (inc path payload))) slot := by
  simp only [incSlot, hindex, haddress, funext (incPayload_eq _ argument),
    payloadStep_of_find? (Address.of_matching haddress).2]
  rfl

/-- In an array, an addressed verb changes the first match. -/
lemma verbSlot_matching {argument : Members}
    (haddress : Address.ofMembers argument = .matching predicate (some (.object payload)))
    (hset : verb = .set → isProtected versionKey key = false)
    (hinc : verb = .inc → Keyed.contains indexKey argument = false) :
    verbSlot versionKey verb path key (.object argument) (some (.array items))
      = (Attempt.onFirst (holds predicate)
          (elementChange versionKey verb (Path.join path key) payload) items).map
            fun items => some (.array items) := by
  have hdo := (Address.of_matching haddress).2
  cases verb with
  | set =>
      have hdone := onFirst_done (holds predicate)
        (fun element => merge element (.object (settable versionKey payload))) items
      simp only [verbSlot, hset rfl, setSlot, haddress]
      exact congrArg (Attempt.mk _) hdone.symm
  | inc => exact incSlot_matching haddress (hinc rfl) _ _
  | pull =>
      simp only [verbSlot, pullSlot, haddress, funext (pullPayload_eq _ argument),
        payloadStep_of_find? hdo]
      rfl
  | _ =>
      simp only [verbSlot, appendSlot, haddress, funext (appendPayload_eq _ _ argument),
        payloadStep_of_find? hdo]
      rfl

lemma verbSlot_addressing (hkey : verb = .set → isProtected versionKey key = false) :
    verbSlot versionKey verb path key (addressing predicate payload) (some (.array items))
      = (Attempt.onFirst (holds predicate)
          (elementChange versionKey verb (Path.join path key) payload) items).map
            fun items => some (.array items) :=
  verbSlot_matching ofMembers_addressing hkey fun _ => contains_indexKey_addressing

/-- `$inc` with a position looks for the element there. -/
lemma incSlot_indexed (versionKey path : String) {argument : Members} {payload index : Value}
    (hindex : Keyed.find? indexKey argument = some index)
    (hwhere : Keyed.contains whereKey argument = false)
    (hdo : Keyed.find? doKey argument = some payload) (slot : Option Value) :
    incSlot path (.object argument) slot
      = match index.natural? with
        | none => .failed none (.invalidArgument (some .inc) path .indexKind)
        | some position =>
          inArray (Attempt.onIndex (indexedChange versionKey path payload) position) slot := by
  have hcontains : Keyed.contains indexKey argument = true := by
    simpa [Keyed.contains] using ⟨_, Keyed.mem_of_find? hindex⟩
  have hchange : incIndexed path argument = indexedChange versionKey path payload := by
    funext element
    rw [incIndexed_eq, hdo]
    cases payload <;> rfl
  simp only [incSlot, hcontains, hwhere, hindex, hdo, Option.bind_some, hchange]
  cases index.natural? <;> rfl

/-- A member that is there may be inserted again. -/
lemma insert_of_find? {value : Value} (hdoc : Keyed.Sorted doc) (h : Keyed.find? key doc = some value) :
    Keyed.insert key value doc = doc := by
  refine (hdoc.insert key value).ext hdoc fun other => ?_
  by_cases hother : other = key
  · rw [hother, Keyed.find?_insert_self, h]
  · exact Keyed.find?_insert_of_ne hother value doc

end Addressed

/-- **An addressed verb changes one element**, the first that satisfies the predicate, also when the
change of this element fails; only under a protected key `$set` changes nothing.  `$pull` with a
predicate alone removes the element.  An increment by position changes the element there, if there is
one. -/
theorem addressed_changes_one (versionKey path key : String) {doc : Members} {items : List Value}
    (hdoc : Keyed.Sorted doc) (hitems : Keyed.find? key doc = some (.array items)) :
    (∀ predicate position element, FirstMatch predicate items position element →
      (∀ verb payload,
        applyVerb versionKey verb path (.object [(key, addressing predicate payload)]) (.object doc)
          = if verb = .set ∧ isProtected versionKey key = true then .done (.object doc)
            else (elementChange versionKey verb (Path.join path key) payload element).map fun after =>
              .object (Keyed.insert key (.array (items.set position after)) doc)) ∧
      applyVerb versionKey .pull path (.object [(key, .object [(whereKey, .object predicate)])])
          (.object doc)
        = .done (.object (Keyed.insert key (.array (items.eraseIdx position)) doc))) ∧
    ∀ index payload,
      applyVerb versionKey .inc path
          (.object [(key, .object [(doKey, payload), (indexKey, index)])]) (.object doc)
        = match index.natural? with
          | none => .failed (.object doc) (.invalidArgument (some .inc) (Path.join path key) .indexKind)
          | some position =>
            (items[position]?).elim (.done (.object doc)) fun element =>
              (indexedChange versionKey (Path.join path key) payload element).map fun after =>
                .object (Keyed.insert key (.array (items.set position after)) doc) := by
  refine ⟨fun predicate position element hfirst => ⟨fun verb payload => ?_, ?_⟩,
    fun index payload => ?_⟩
  · rw [applyVerb_single, atSlot, hitems]
    by_cases hprotected : verb = .set ∧ isProtected versionKey key = true
    · obtain ⟨rfl, hkey⟩ := hprotected
      simp [verbSlot, hkey, Attempt.done, Attempt.map, put]
    · have hkey : verb = .set → isProtected versionKey key = false := by
        intro hset
        rw [← Bool.not_eq_true]
        exact fun hkey => hprotected ⟨hset, hkey⟩
      rw [if_neg hprotected, verbSlot_addressing hkey, onFirst_eq_set hfirst]
      rfl
  · have haddress : Address.ofMembers [(whereKey, Value.object predicate)]
        = .matching predicate none := by
      simp [Address.ofMembers, Keyed.find?, doKey, whereKey]
    rw [applyVerb_single, atSlot, hitems]
    simp only [verbSlot, pullSlot, haddress, eraseFirst_eq_eraseIdx hfirst]
    rfl
  · have hindex : Keyed.find? indexKey [(doKey, payload), (indexKey, index)] = some index := by
      simp [Keyed.find?, indexKey, doKey]
    have hwhere : Keyed.contains whereKey [(doKey, payload), (indexKey, index)] = false := by
      simp [Keyed.contains, indexKey, doKey, whereKey]
    have hdo : Keyed.find? doKey [(doKey, payload), (indexKey, index)] = some payload :=
      Keyed.find?_cons_self doKey payload _
    rw [applyVerb_single, atSlot, hitems, verbSlot, incSlot_indexed versionKey _ hindex hwhere hdo]
    cases index.natural? with
    | none => rfl
    | some position =>
        dsimp only
        rw [inArray, onIndex_eq_set]
        cases items[position]? with
        | none => simp [Attempt.done, Attempt.map, put, insert_of_find? hdoc hitems]
        | some element => rfl

/-- The items of an order: one is no object, and two are tea. -/
def teaItems : List Value :=
  [.ofNat 7, .object [("article", .string "tea"), ("count", .ofNat 1)],
    .object [("article", .string "tea"), ("count", .string "some")]]

/-- The first tea is counted up or removed; counting the other up fails, and leaves all as it was. -/
theorem addressed_changes_one_tea :
    applyVerb "__v" .inc ""
        (.object [("items", addressing [("article", .string "tea")] [("count", .ofNat 2)])])
        (.object [("items", .array teaItems)])
      = .done (.object [("items", .array (teaItems.set 1
          (.object [("article", .string "tea"), ("count", .ofNat 3)])))]) ∧
    applyVerb "__v" .pull ""
        (.object [("items", .object [(whereKey, .object [("article", .string "tea")])])])
        (.object [("items", .array teaItems)])
      = .done (.object [("items", .array (teaItems.eraseIdx 1))]) ∧
    applyVerb "__v" .inc ""
        (.object [("items", .object [(doKey, .object [("count", .ofNat 1)]), (indexKey, .ofNat 2)])])
        (.object [("items", .array teaItems)])
      = .failed (.object [("items", .array teaItems)]) (.notNumeric "items.count") := by
  have hdoc : Keyed.Sorted [("items", Value.array teaItems)] := by simp [Keyed.Sorted]
  have htea : FirstMatch [("article", .string "tea")] teaItems 1
      (.object [("article", .string "tea"), ("count", .ofNat 1)]) := by
    refine ⟨rfl, holds_iff.1 (by decide), fun before hbefore other hother => ?_⟩
    obtain rfl : before = 0 := by omega
    obtain rfl : Value.ofNat 7 = other := by simpa [teaItems] using hother
    rw [← holds_iff]
    decide
  obtain ⟨hfirst, hindexed⟩ := addressed_changes_one "__v" "" "items" hdoc rfl
  obtain ⟨hverbs, hpull⟩ := hfirst _ 1 _ htea
  exact ⟨hverbs .inc _, hpull, hindexed _ _⟩

/-- Under the identifier `$set` changes no element. -/
theorem addressed_set_leaves_identifier :
    FirstMatch [("a", .ofNat 1)] [.object [("a", .ofNat 1)]] 0 (.object [("a", .ofNat 1)]) ∧
    (applyVerb "__v" .set "" (.object [("_id", addressing [("a", .ofNat 1)] [("b", .ofNat 2)])])
        (.object [("_id", .array [.object [("a", .ofNat 1)]])])).value
      ≠ .object [("_id", .array [merge (.object [("a", .ofNat 1)])
          (.object (settable "__v" [("b", .ofNat 2)]))])] := by
  refine ⟨⟨rfl, holds_iff.1 (by decide), by simp⟩, ?_⟩
  show Value.object [("_id", .array [.object [("a", .ofNat 1)]])]
    ≠ .object [("_id", .array [.object [("a", .ofNat 1), ("b", .ofNat 2)]])]
  simp

/-! ## Nothing selected -/

/-- The member is no array with an element that satisfies the predicate. -/
def SelectsNothing (predicate : Members) (slot : Option Value) : Prop :=
  ∀ items, slot = some (.array items) → ∀ item ∈ items, ¬ Satisfies predicate item

/-- A verb takes the addressing keys for names of fields: `$push` and `$addToSet` make a missing member
an object with these fields, and they and `$pull` change these fields of an object. -/
def TakesForFields (versionKey : String) (verb : Verb) (path : String) (argument : Value) :
    Option Value → Prop
  | none => verb = .push ∨ verb = .addToSet
  | some (.object child) => (verb = .push ∨ verb = .addToSet ∨ verb = .pull) ∧
      (applyVerb versionKey verb path argument (.object child)).value ≠ .object child
  | some _ => False

/-- A step writes nothing but what was there. -/
def WritesBack (outcome : Attempt (Option Value)) (slot : Option Value) : Prop :=
  ∀ after, outcome.value = some after → slot = some after

section Unmatched

variable {versionKey path key : String} {verb : Verb} {predicate payload doc : Members}

lemma put_eq_self_iff (hdoc : Keyed.Sorted doc) {after : Option Value} :
    put key doc after = doc ↔ ∀ value, after = some value → Keyed.find? key doc = some value := by
  cases after with
  | none => simp [put]
  | some value =>
      constructor
      · rintro hput _ ⟨⟩
        rw [put] at hput
        rw [← hput, Keyed.find?_insert_self]
      · intro hfound
        exact insert_of_find? hdoc (hfound value rfl)

lemma untouched_iff_writesBack (hdoc : Keyed.Sorted doc) (value : Value) :
    (applyVerb versionKey verb path (.object [(key, value)]) (.object doc)).value = .object doc ↔
      WritesBack (verbSlot versionKey verb path key value (Keyed.find? key doc))
        (Keyed.find? key doc) := by
  rw [applyVerb_single]
  show Value.object (put key doc _) = .object doc ↔ _
  rw [Value.object.injEq, put_eq_self_iff hdoc]
  rfl

/-! ### Appending to what is missing -/

/-- Appending to a missing member makes one, if it succeeds inside. -/
lemma appendSlot_none (unique : Bool) (path : String) {value : Value}
    (h : ∀ argument, value = .object argument → (append unique path argument []).failure = none) :
    ∃ child, appendSlot unique path value none = .done (some child) := by
  cases value with
  | object argument =>
      rw [appendSlot]
      rcases happend : append unique path argument [] with ⟨child, _ | error⟩
      · exact ⟨.object child, rfl⟩
      · have hdone := h argument rfl
        simp [happend] at hdone
  | _ => exact ⟨_, rfl⟩

/-- Appending to an object without any of the fields succeeds. -/
lemma append_succeeds (unique : Bool) {value : Value} (hvalue : value.WellOrdered) :
    ∀ argument, value = .object argument → ∀ path doc,
      (∀ entry ∈ argument, Keyed.find? entry.1 doc = none) →
      (append unique path argument doc).failure = none := by
  induction value using Value.inductionOn with
  | object members ih =>
      obtain ⟨hsorted, hmembers⟩ := wellOrdered_object.1 hvalue
      rintro _ ⟨⟩
      clear hvalue
      intro path
      induction members with
      | nil =>
          intro doc _
          rw [append]
          rfl
      | cons entry rest ihrest =>
          obtain ⟨key, value⟩ := entry
          obtain ⟨hhead, htail⟩ := List.pairwise_cons.1 hsorted
          intro doc hfree
          obtain ⟨hkey, hrest⟩ := List.forall_mem_cons.1 hfree
          obtain ⟨child, hchild⟩ := appendSlot_none unique (Path.join path key)
            fun argument hargument => ih (key, value) List.mem_cons_self
              (hmembers (key, value) List.mem_cons_self) argument hargument (Path.join path key) []
              (by simp)
          have hstep : appendField unique (Path.join path key) key value doc
              = .done (Keyed.insert key child doc) := by
            rw [appendField_eq_atSlot, atSlot, hkey, hchild]
            rfl
          rw [append, hstep, Attempt.done_andThen]
          refine ihrest (fun other hother => ih other (List.mem_cons_of_mem _ hother)) htail
            (fun other hother => hmembers other (List.mem_cons_of_mem _ hother)) _
            fun other hother => ?_
          rw [Keyed.find?_insert_of_ne (Ordered.ne_of_before (hhead other hother)).symm]
          exact hrest other hother
  | _ => exact fun argument hargument => by simp at hargument

/-- Appending a value to a missing member makes one. -/
lemma appendSlot_missing (unique : Bool) (path : String) {value : Value} (h : value.WellOrdered) :
    ∃ child, appendSlot unique path value none = .done (some child) :=
  appendSlot_none unique path fun argument hargument =>
    append_succeeds unique h argument hargument path [] (by simp)

/-! ### What the verbs write -/

lemma writesBack_set {slot : Option Value} (h : SelectsNothing predicate slot) :
    WritesBack (verbSlot versionKey .set path key (addressing predicate payload) slot) slot := by
  intro after hafter
  by_cases hkey : isProtected versionKey key = true
  · simp [verbSlot, hkey, Attempt.done] at hafter
  · rw [Bool.not_eq_true] at hkey
    cases slot with
    | none => simp [verbSlot, hkey, setSlot, addressing, Attempt.done] at hafter
    | some existing =>
        cases existing with
        | array items =>
            rw [verbSlot_addressing fun _ => hkey, onFirst_eq_done (h items rfl)] at hafter
            exact hafter
        | _ => simpa [verbSlot, hkey, setSlot, addressing, Attempt.done, mergeFirst] using hafter

lemma writesBack_inc {slot : Option Value} (h : SelectsNothing predicate slot) :
    WritesBack (verbSlot versionKey .inc path key (addressing predicate payload) slot) slot := by
  intro after hafter
  cases slot with
  | none => simp [verbSlot, incSlot, addressing, inArray, Attempt.done] at hafter
  | some existing =>
      cases existing with
      | array items =>
          rw [verbSlot_addressing (by simp), onFirst_eq_done (h items rfl)] at hafter
          exact hafter
      | _ => simp [verbSlot, incSlot, addressing, inArray, Attempt.done] at hafter

/-- Outside arrays `$push`, `$addToSet` and `$pull` go on inside the value, and take the addressing for
their argument. -/
lemma verbSlot_descends (hverb : verb ≠ .set ∧ verb ≠ .inc) {value : Value}
    (h : ∀ items, value ≠ .array items) (argument : Members) :
    verbSlot versionKey verb path key (.object argument) (some value)
      = (applyVerb versionKey verb (Path.join path key) (.object argument) value).map some := by
  cases verb <;> cases value <;> simp [verbSlot, appendSlot, pullSlot, applyVerb] at h hverb ⊢

lemma verb_of_takesForFields {argument : Value} {slot : Option Value}
    (h : TakesForFields versionKey verb path argument slot) :
    verb = .push ∨ verb = .addToSet ∨ verb = .pull := by
  rcases slot with _ | value
  · rcases h with h | h <;> simp [h]
  · cases value with
    | object child => exact h.1
    | _ => exact False.elim h

/-- Where nothing is selected, a verb writes something new only by taking the addressing for fields. -/
lemma writesBack_iff (hargument : (addressing predicate payload).WellOrdered) {slot : Option Value}
    (h : SelectsNothing predicate slot) :
    WritesBack (verbSlot versionKey verb path key (addressing predicate payload) slot) slot ↔
      ¬ TakesForFields versionKey verb (Path.join path key) (addressing predicate payload) slot := by
  by_cases hverb : verb = .push ∨ verb = .addToSet ∨ verb = .pull
  · have hother : verb ≠ .set ∧ verb ≠ .inc := by
      rcases hverb with rfl | rfl | rfl <;> simp
    cases slot with
    | none =>
        obtain ⟨pushed, hpushed⟩ := appendSlot_missing false (Path.join path key) hargument
        obtain ⟨added, hadded⟩ := appendSlot_missing true (Path.join path key) hargument
        rcases hverb with rfl | rfl | rfl
        · simp [WritesBack, verbSlot, hpushed, TakesForFields, Attempt.done]
        · simp [WritesBack, verbSlot, hadded, TakesForFields, Attempt.done]
        · simp [WritesBack, verbSlot, pullSlot, addressing, TakesForFields, Attempt.done]
    | some existing =>
        cases existing with
        | array items =>
            rw [verbSlot_addressing fun hset => absurd hset hother.1, onFirst_eq_done (h items rfl)]
            simp [WritesBack, TakesForFields, Attempt.done, Attempt.map]
        | object child =>
            rw [addressing, verbSlot_descends hother (by simp)]
            simp [WritesBack, TakesForFields, Attempt.map, hverb, eq_comm]
        | _ =>
            rw [addressing, verbSlot_descends hother (by simp)]
            rcases hverb with rfl | rfl | rfl <;>
              simp [WritesBack, TakesForFields, Attempt.map, applyVerb, onObject, Attempt.failed]
  · refine iff_of_true ?_ fun htakes => hverb (verb_of_takesForFields htakes)
    cases verb with
    | set => exact writesBack_set h
    | inc => exact writesBack_inc h
    | _ => simp at hverb

/-- Appending with the addressing for its argument makes the fields of the addressing. -/
lemma append_ne_self (hargument : (addressing predicate payload).WellOrdered) {child : Members}
    (hdo : Keyed.find? doKey child = none) (unique : Bool) (path : String) :
    (append unique path [(doKey, .object payload), (whereKey, .object predicate)] child).value
      ≠ child := by
  have hpayload : (Value.object payload).WellOrdered :=
    (wellOrdered_object.1 hargument).2 (doKey, .object payload) List.mem_cons_self
  obtain ⟨made, hmade⟩ := appendSlot_missing unique (Path.join path doKey) hpayload
  have hstep : appendField unique (Path.join path doKey) doKey (.object payload) child
      = .done (Keyed.insert doKey made child) := by
    rw [appendField_eq_atSlot, atSlot, hdo, hmade]
    rfl
  have hlocal := (localOn_verb "" (appendVerb unique) path
    [(whereKey, .object predicate)]).elsewhere (Keyed.insert doKey made child)
  intro hsame
  rw [append, hstep, Attempt.done_andThen, append_eq_each ""] at hsame
  have hfound := hlocal doKey (by cases unique <;> simp [verbTargets, appendVerb, doKey, whereKey])
  rw [hsame, hdo, Keyed.find?_insert_self] at hfound
  simp at hfound

/-- Pulling with the addressing for its argument changes nothing where its fields are missing. -/
lemma pull_eq_self (path : String) (predicate payload : Members) {child : Members}
    (hdo : Keyed.find? doKey child = none) (hwhere : Keyed.find? whereKey child = none) :
    pull path [(doKey, .object payload), (whereKey, .object predicate)] child = .done child := by
  simp [pull, pullField, hdo, hwhere]

/-- In an object without the fields of the addressing, appending changes something, and pulling
nothing. -/
lemma takesForFields_iff (hargument : (addressing predicate payload).WellOrdered)
    {slot : Option Value} (hfields : ∀ child, slot = some (.object child) →
      Keyed.find? doKey child = none ∧ Keyed.find? whereKey child = none) :
    TakesForFields versionKey verb path (addressing predicate payload) slot ↔
      (verb = .push ∨ verb = .addToSet) ∧ ∀ value, slot = some value → value.isObject = true := by
  cases slot with
  | none => simp [TakesForFields]
  | some existing =>
      cases existing with
      | object child =>
          obtain ⟨hdo, hwhere⟩ := hfields child rfl
          have hpull := pull_eq_self path predicate payload hdo hwhere
          have happend := fun unique => append_ne_self hargument hdo unique path
          cases verb <;>
            simp [TakesForFields, applyVerb, addressing, onObject, Attempt.map, Attempt.done, isObject,
              hpull, happend]
      | _ => simp [TakesForFields, isObject]

end Unmatched

/-- **A predicate that selects nothing leaves the document as it is**, unless the verb takes the
addressing keys for names of fields.  Where these fields are not there already, that is so exactly when
`$push` or `$addToSet` finds no member under the key, or an object. -/
theorem unmatched_untouched_iff {versionKey path key : String} {verb : Verb}
    {predicate payload doc : Members} (hdoc : Keyed.Sorted doc)
    (hargument : (addressing predicate payload).WellOrdered)
    (h : SelectsNothing predicate (Keyed.find? key doc)) :
    ((applyVerb versionKey verb path (.object [(key, addressing predicate payload)])
        (.object doc)).value = .object doc ↔
      ¬ TakesForFields versionKey verb (Path.join path key) (addressing predicate payload)
        (Keyed.find? key doc)) ∧
    ((∀ child, Keyed.find? key doc = some (.object child) →
        Keyed.find? doKey child = none ∧ Keyed.find? whereKey child = none) →
      (TakesForFields versionKey verb (Path.join path key) (addressing predicate payload)
          (Keyed.find? key doc) ↔
        (verb = .push ∨ verb = .addToSet) ∧
          ∀ value, Keyed.find? key doc = some value → value.isObject = true)) :=
  ⟨(untouched_iff_writesBack hdoc _).trans (writesBack_iff hargument h),
    takesForFields_iff hargument⟩

/-- Tags for the milk in an order. -/
def milkTags : Value :=
  addressing [("article", .string "milk")] [("tags", .string "new")]

/-- In an order without milk nothing is tagged; in one without items, something is. -/
theorem unmatched_untouched_milk :
    (applyVerb "__v" .push "" (.object [("items", milkTags)])
        (.object [("items", .array teaItems)])).value = .object [("items", .array teaItems)] ∧
    (applyVerb "__v" .push "" (.object [("items", milkTags)]) (.object [])).value ≠ .object [] := by
  have hmilk : milkTags.WellOrdered := by
    have hkeys : Ordered.before doKey whereKey = true := by decide
    simp [milkTags, addressing, WellOrdered, WellOrderedMembers, Keyed.Sorted, hkeys]
  have htea : SelectsNothing [("article", .string "milk")]
      (Keyed.find? "items" [("items", .array teaItems)]) := by
    rintro _ ⟨⟩
    simp only [← holds_iff]
    decide
  have hnone : SelectsNothing [("article", .string "milk")] (Keyed.find? "items" []) := by
    rintro _ ⟨⟩
  obtain ⟨huntouched, hfields⟩ := unmatched_untouched_iff (by simp [Keyed.Sorted]) hmilk htea
  obtain ⟨hchanged, hmissing⟩ := unmatched_untouched_iff (by simp [Keyed.Sorted]) hmilk hnone
  constructor
  · refine huntouched.2 fun htakes => ?_
    have hobject := ((hfields (by simp [Keyed.find?])).1 htakes).2 _ rfl
    simp [isObject] at hobject
  · exact fun hsame => hchanged.1 hsame ((hmissing (by simp [Keyed.find?])).2 (by simp [Keyed.find?]))

/-- The addressing is stored where `$push` finds no member, or an object, and `$pull` finds fields with
its keys. -/
theorem addressing_taken_for_fields :
    (applyVerb "__v" .push "" (.object [("items", milkTags)]) (.object [])).value
      = .object [("items", .object [(doKey, .object [("tags", .array [.string "new"])]),
          (whereKey, .object [("article", .array [.string "milk"])])])] ∧
    (applyVerb "__v" .addToSet "" (.object [("items", milkTags)])
        (.object [("items", .object [])])).value ≠ .object [("items", .object [])] ∧
    (applyVerb "__v" .pull "" (.object [("items", milkTags)])
        (.object [("items", .object [(doKey, .object [("tags", .array [.string "new"])])])])).value
      ≠ .object [("items", .object [(doKey, .object [("tags", .array [.string "new"])])])] := by
  refine ⟨rfl, ?_, ?_⟩
  · show Value.object [("items", .object [(doKey, .object [("tags", .array [.string "new"])]),
        (whereKey, .object [("article", .array [.string "milk"])])])] ≠ _
    simp
  · show Value.object [("items", .object [(doKey, .object [("tags", .array [])])])] ≠ _
    simp

end DocumentAccess.Update
