import DocumentAccess.Proofs.Numbers
import DocumentAccess.Proofs.Update.Misreading

/-!
# The additions of an increment

`$inc` adds its deltas to numbers that it finds directly in a field, inside of objects, in the element
that a predicate selects, or at a position of an array.  All of them it finds as they were before it
began, so an increment is told by its additions: which number at which place, and which delta.

* `Update.Leg`, `Update.follow` — places in a value, through members and items.
* `Update.Additions` — the additions that an increment comes to, for each form of argument.
* `Update.additions_performed` — it performs them, and succeeds when all these numbers have sums.
* **`Update.inc_additions`** — integers have; their sum is exact when they and it are signed words, and
  a double otherwise.
* `Update.counter_loses_precision` — an unsigned word above all signed ones is not counted down exactly.
-/

namespace DocumentAccess.Update

open Value Number

/-! ## Places -/

/-- A member of an object, or an item of an array. -/
inductive Leg where
  | member (key : String)
  | item (position : Nat)

/-- The value that legs lead to. -/
def follow : List Leg → Value → Option Value
  | [], value => some value
  | .member key :: legs, value => (value.get? key).bind (follow legs)
  | .item position :: legs, .array items => items[position]?.bind (follow legs)
  | .item _ :: _, _ => none

/-- A number at a place, and the delta for it. -/
structure Addition where
  place : List Leg
  current : Number
  delta : Number

/-- The same addition seen from around a member or an item. -/
def Addition.below (leg : Leg) (addition : Addition) : Addition :=
  { addition with place := leg :: addition.place }

/-! ## What an increment comes to -/

/-- An argument addresses a position, and has a payload for the item there. -/
structure Indexes (argument : Members) (position : Nat) (payload : Value) : Prop where
  position : (Keyed.find? indexKey argument).bind natural? = some position
  noPredicate : Keyed.contains whereKey argument = false
  payload : Keyed.find? doKey argument = some payload

/-- What an increment is applied to: the members of an object, or one member that may be missing. -/
inductive Target where
  | object (argument doc : Members)
  | slot (delta : Value) (slot : Option Value)

/-- The additions that an increment comes to, and that nothing but a missing sum can keep it from. -/
inductive Additions : Target → List Addition → Prop
  | nil {doc : Members} : Additions (.object [] doc) []
  | cons {key : String} {delta : Value} {rest doc : Members} {first others : List Addition}
      (hfirst : Additions (.slot delta (Keyed.find? key doc)) first)
      (hrest : Additions (.object rest doc) others) :
      Additions (.object ((key, delta) :: rest) doc) (first.map (Addition.below (.member key)) ++ others)
  /-- A delta is added to a number; a missing one counts as zero. -/
  | number {delta current : Number} {slot : Option Value}
      (hcurrent : slot.getD (.ofNat 0) = .number current) :
      Additions (.slot (.number delta) slot) [⟨[], current, delta⟩]
  /-- Without addressing, an object goes into an object; a missing one is made. -/
  | direct {fields members : Members} {slot : Option Value} {additions : List Addition}
      (hdirect : Direct .inc (.object fields)) (hmembers : slot.getD (.object []) = .object members)
      (h : Additions (.object fields members) additions) :
      Additions (.slot (.object fields) slot) additions
  /-- A predicate selects the first element that satisfies it. -/
  | matching {argument predicate payload members : Members} {items : List Value} {position : Nat}
      {additions : List Addition} (hindex : Keyed.contains indexKey argument = false)
      (haddress : Address.ofMembers argument = .matching predicate (some (.object payload)))
      (hfirst : FirstMatch predicate items position (.object members))
      (h : Additions (.object payload members) additions) :
      Additions (.slot (.object argument) (some (.array items)))
        (additions.map (Addition.below (.item position)))
  /-- A predicate that selects nothing. -/
  | unmatched {argument predicate payload : Members} {slot : Option Value}
      (hindex : Keyed.contains indexKey argument = false)
      (haddress : Address.ofMembers argument = .matching predicate (some (.object payload)))
      (hnone : SelectsNothing predicate slot) : Additions (.slot (.object argument) slot) []
  /-- A number for the item at a position. -/
  | indexed {argument : Members} {items : List Value} {position : Nat} {delta current : Number}
      (hindexes : Indexes argument position (.number delta))
      (hitem : items[position]? = some (.number current)) :
      Additions (.slot (.object argument) (some (.array items))) [⟨[.item position], current, delta⟩]
  /-- An object for the item at a position. -/
  | inside {argument payload members : Members} {items : List Value} {position : Nat}
      {additions : List Addition} (hindexes : Indexes argument position (.object payload))
      (hitem : items[position]? = some (.object members))
      (h : Additions (.object payload members) additions) :
      Additions (.slot (.object argument) (some (.array items)))
        (additions.map (Addition.below (.item position)))
  /-- A position where there is no item. -/
  | beyond {argument : Members} {payload : Value} {slot : Option Value} {position : Nat}
      (hindexes : Indexes argument position payload)
      (hnone : ∀ items, slot = some (.array items) → items[position]? = none) :
      Additions (.slot (.object argument) slot) []

/-! ## Performing additions -/

/-- The sum of an addition is found at its place. -/
def Addition.Written (addition : Addition) (value : Value) : Prop :=
  ∃ sum, addition.current.add addition.delta = some sum ∧
    follow addition.place value = some (.number sum)

/-- The argument of an increment is well ordered. -/
def Target.WellOrdered : Target → Prop
  | .object argument _ => (Value.object argument).WellOrdered
  | .slot delta _ => delta.WellOrdered

/-- An increment succeeds and writes the sums of its additions.  That of an object may begin when other
members than its own have changed already. -/
def Target.Performs (additions : List Addition) : Target → Prop
  | .object argument doc => ∀ path current,
      (∀ key ∈ argument.map Prod.fst, Keyed.find? key current = Keyed.find? key doc) →
      ∃ after, inc path argument current = .done after ∧
        (∀ key ∉ argument.map Prod.fst, Keyed.find? key after = Keyed.find? key current) ∧
        ∀ addition ∈ additions, addition.Written (.object after)
  | .slot delta existing => ∀ path, ∃ outcome, incSlot path delta existing = .done outcome ∧
      ∀ addition ∈ additions, ∃ made, outcome = some made ∧ addition.Written made

section Perform

variable {argument payload members : Members} {items : List Value} {position : Nat}
  {slot : Option Value} {additions : List Addition}

lemma Addition.Written.member {addition : Addition} {key : String} {made : Value} {doc : Members}
    (h : addition.Written made) (hfind : Keyed.find? key doc = some made) :
    (addition.below (.member key)).Written (.object doc) := by
  obtain ⟨sum, hsum, hfollow⟩ := h
  refine ⟨sum, hsum, ?_⟩
  show (Keyed.find? key doc).bind (follow addition.place) = _
  rw [hfind, Option.bind_some, hfollow]

lemma Addition.Written.item {addition : Addition} {made : Value} (h : addition.Written made)
    (hitem : items[position]? = some made) :
    (addition.below (.item position)).Written (.array items) := by
  obtain ⟨sum, hsum, hfollow⟩ := h
  refine ⟨sum, hsum, ?_⟩
  show items[position]?.bind (follow addition.place) = _
  rw [hitem, Option.bind_some, hfollow]

lemma addTo_eq_done {current delta sum : Number} (h : current.add delta = some sum) (path : String) :
    addTo path delta (.number current) = .done (.number sum) := by
  rw [addTo, h]

/-- At a position, an increment changes the item there. -/
lemma incSlot_indexes {payload : Value} (h : Indexes argument position payload) (path : String)
    (slot : Option Value) :
    incSlot path (.object argument) slot
      = inArray (Attempt.onIndex (indexedChange "" path payload) position) slot := by
  obtain ⟨index, hindex, hposition⟩ := Option.bind_eq_some_iff.1 h.position
  rw [incSlot_indexed "" path hindex h.noPredicate h.payload]
  simp only [hposition]

/-- A change that leaves the items of an array as they are does not fail. -/
lemma exists_inArray_eq_done {change : List Value → Attempt (List Value)}
    (h : ∀ items, slot = some (.array items) → change items = .done items) :
    ∃ outcome, inArray change slot = .done outcome := by
  unfold inArray
  split
  · next items => exact ⟨some (.array items), by rw [h items rfl, Attempt.map_done]⟩
  · exact ⟨none, rfl⟩

/-- What an item becomes is found at its position. -/
lemma performs_item {element made : Value} (hitem : items[position]? = some element)
    (hwritten : ∀ addition ∈ additions, addition.Written made) :
    ∀ addition ∈ additions.map (Addition.below (.item position)), ∃ array,
      some (Value.array (items.set position made)) = some array ∧ addition.Written array := by
  intro addition haddition
  obtain ⟨inner, hinner, rfl⟩ := List.mem_map.1 haddition
  refine ⟨_, rfl, (hwritten inner hinner).item ?_⟩
  rw [List.getElem?_set_self (List.getElem?_eq_some_iff.1 hitem).1]

/-- An increment for one member and one for other members, one after the other, perform the additions of
both. -/
lemma performs_cons {key : String} {delta : Value} {rest doc : Members} {first others : List Addition}
    (hnew : key ∉ rest.map Prod.fst)
    (hfirst : (Target.slot delta (Keyed.find? key doc)).Performs first)
    (hothers : (Target.object rest doc).Performs others) :
    (Target.object ((key, delta) :: rest) doc).Performs
      (first.map (Addition.below (.member key)) ++ others) := by
  intro path current hcurrent
  obtain ⟨outcome, hdone, hmade⟩ := hfirst (Path.join path key)
  have hfield : incField (Path.join path key) key delta current = .done (put key current outcome) := by
    rw [incField_eq_atSlot, atSlot, hcurrent key List.mem_cons_self, hdone]
    rfl
  -- the members for the rest of the argument are still as they were
  have hother : ∀ other, other ≠ key →
      Keyed.find? other (put key current outcome) = Keyed.find? other current := by
    intro other hne
    cases outcome with
    | none => rfl
    | some made => exact Keyed.find?_insert_of_ne hne made current
  obtain ⟨after, hafter, hkept, hwritten⟩ := hothers path (put key current outcome) fun other hmem => by
    rw [hother other fun he => hnew (he ▸ hmem)]
    exact hcurrent other (List.mem_cons_of_mem _ hmem)
  refine ⟨after, ?_, fun other hmem => ?_, fun addition haddition => ?_⟩
  · rw [inc, hfield, Attempt.done_andThen, hafter]
  · obtain ⟨hne, hrest⟩ := not_or.1 (List.mem_cons.not.1 hmem)
    rw [hkept other hrest, hother other hne]
  · rcases List.mem_append.1 haddition with hmem | hmem
    · obtain ⟨inner, hinner, rfl⟩ := List.mem_map.1 hmem
      obtain ⟨made, rfl, hsum⟩ := hmade inner hinner
      refine hsum.member ?_
      rw [hkept key hnew, put, Keyed.find?_insert_self]
    · exact hwritten addition hmem

/-- **An increment performs its additions**, when all of them have sums. -/
theorem additions_performed {target : Target} (h : Additions target additions)
    (hordered : target.WellOrdered)
    (hsums : ∀ addition ∈ additions, ∃ sum, addition.current.add addition.delta = some sum) :
    target.Performs additions := by
  induction h with
  | nil =>
      intro path current _
      exact ⟨current, rfl, fun key _ => rfl, by simp⟩
  | @cons key delta rest doc first others _ _ ihfirst ihrest =>
      obtain ⟨hsorted, hvalues⟩ := wellOrdered_object.1 hordered
      obtain ⟨hdelta, hrestValues⟩ := List.forall_mem_cons.1 hvalues
      obtain ⟨hnew, -⟩ := List.nodup_cons.1 hsorted.nodup_keys
      have hrest : (Value.object rest).WellOrdered :=
        wellOrdered_object.2 ⟨(List.pairwise_cons.1 hsorted).2, hrestValues⟩
      refine performs_cons hnew (ihfirst hdelta fun addition haddition => ?_)
        (ihrest hrest fun addition haddition => hsums addition (List.mem_append_right _ haddition))
      exact hsums (addition.below (.member key)) (List.mem_append_left _ (List.mem_map_of_mem haddition))
  | @number delta current slot hcurrent =>
      intro path
      obtain ⟨sum, hsum⟩ := hsums _ (List.mem_singleton_self _)
      refine ⟨some (.number sum), ?_, ?_⟩
      · rw [incSlot, addSlot, hcurrent, addTo_eq_done hsum]
        rfl
      · intro addition haddition
        obtain rfl := List.mem_singleton.1 haddition
        exact ⟨_, rfl, sum, hsum, rfl⟩
  | @direct fields members slot additions hdirect hmembers _ ih =>
      intro path
      obtain ⟨after, hafter, -, hwritten⟩ := ih hordered hsums path members fun _ _ => rfl
      refine ⟨some (.object after), ?_, fun addition haddition => ⟨_, rfl, hwritten addition haddition⟩⟩
      rw [incSlot_direct hdirect, hmembers, onObject, hafter]
      rfl
  | @matching argument predicate payload members items position additions hindex haddress hfirst _ ih =>
      intro path
      have hpayload : (Value.object payload).WellOrdered :=
        (wellOrdered_object.1 hordered).2 _ (Keyed.mem_of_find? (Address.of_matching haddress).2)
      obtain ⟨after, hafter, -, hwritten⟩ := ih hpayload (fun addition haddition =>
        hsums (addition.below (.item position)) (List.mem_map_of_mem haddition)) path members fun _ _ => rfl
      refine ⟨_, ?_, performs_item hfirst.found hwritten⟩
      rw [incSlot_matching haddress hindex, inArray, onFirst_eq_set hfirst, onObject, hafter]
      rfl
  | @unmatched argument predicate payload slot hindex haddress hnone =>
      intro path
      obtain ⟨outcome, hdone⟩ := exists_inArray_eq_done fun items hitems =>
        onFirst_eq_done (hnone items hitems) (onObject path (inc path payload))
      exact ⟨outcome, (incSlot_matching haddress hindex path slot).trans hdone, by simp⟩
  | @indexed argument items position delta current hindexes hitem =>
      intro path
      obtain ⟨sum, hsum⟩ := hsums _ (List.mem_singleton_self _)
      have hwritten : ∀ addition ∈ [Addition.mk [] current delta], addition.Written (.number sum) := by
        intro addition haddition
        obtain rfl := List.mem_singleton.1 haddition
        exact ⟨sum, hsum, rfl⟩
      refine ⟨_, ?_, performs_item hitem hwritten⟩
      rw [incSlot_indexes hindexes, inArray, onIndex_eq_set, hitem, Option.elim_some, indexedChange,
        addTo_eq_done hsum]
      rfl
  | @inside argument payload members items position additions hindexes hitem _ ih =>
      intro path
      have hpayload : (Value.object payload).WellOrdered :=
        (wellOrdered_object.1 hordered).2 _ (Keyed.mem_of_find? hindexes.payload)
      obtain ⟨after, hafter, -, hwritten⟩ := ih hpayload (fun addition haddition =>
        hsums (addition.below (.item position)) (List.mem_map_of_mem haddition)) path members fun _ _ => rfl
      refine ⟨_, ?_, performs_item hitem hwritten⟩
      rw [incSlot_indexes hindexes, inArray, onIndex_eq_set, hitem, Option.elim_some, indexedChange]
      show ((((inc path payload members).map Value.object).map _).map _) = _
      rw [hafter]
      rfl
  | @beyond argument payload slot position hindexes hnone =>
      intro path
      have hnothing : ∀ items, slot = some (.array items) →
          Attempt.onIndex (indexedChange "" path payload) position items = .done items := by
        intro items hitems
        rw [onIndex_eq_set, hnone items hitems, Option.elim_none]
      obtain ⟨outcome, hdone⟩ := exists_inArray_eq_done hnothing
      exact ⟨outcome, (incSlot_indexes hindexes path slot).trans hdone, by simp⟩

end Perform

/-! ## Sums of integers -/

/-- What an addition comes to: the exact sum for integers that are signed words together with it, and a
double for all other numbers. -/
structure Addition.IsSum (addition : Addition) (sum : Number) : Prop where
  exact_iff : ∀ c d, addition.current = .int c → addition.delta = .int d →
    (sum = .int (c + d) ↔ IsWord c ∧ IsWord d ∧ IsWord (c + d))
  double_iff : (∃ x, sum = .float x) ↔ ¬ FitsWords addition.current addition.delta

lemma Addition.isSum {addition : Addition} {sum : Number}
    (h : addition.current.add addition.delta = some sum) : addition.IsSum sum := by
  obtain ⟨hexact, hdouble⟩ := add_eq_some h
  refine ⟨fun c d hc hd => ?_, hdouble⟩
  rw [hexact c d hc hd, hc, hd]
  constructor
  · rintro ⟨_, _, ⟨⟩, ⟨⟩, hwords⟩
    exact hwords
  · exact fun hwords => ⟨c, d, rfl, rfl, hwords⟩

/-- An increment has succeeded, and the sum of each addition is found at its place. -/
def AddsUp (additions : List Addition) (outcome : Attempt Value) : Prop :=
  ∃ after, outcome = .done after ∧ ∀ addition ∈ additions, ∃ sum,
    follow addition.place after = some (.number sum) ∧ addition.IsSum sum

/-- **Increments of integers.**  An increment succeeds when each of its additions is one of integers of a
JSON text, or of other numbers that have a sum: in a field, inside of objects, in the element that a
predicate selects or at a position.  The sum is exact if both integers and it are signed words, and a
double in all other cases. -/
theorem inc_additions (versionKey path : String) {argument doc : Members} {additions : List Addition}
    (hordered : (Value.object argument).WellOrdered) (h : Additions (.object argument doc) additions)
    (hsums : ∀ addition ∈ additions, (addition.current.IsInteger ∧ addition.delta.IsInteger) ∨
      ∃ sum, addition.current.add addition.delta = some sum) :
    AddsUp additions (applyVerb versionKey .inc path (.object argument) (.object doc)) ∧
      ∀ key, UpdateKey.ofKey key = .verb .inc →
        AddsUp additions (apply versionKey (.object [(key, .object argument)]) (.object doc)) := by
  have hall : ∀ addition ∈ additions, ∃ sum, addition.current.add addition.delta = some sum :=
    fun addition haddition =>
      (hsums addition haddition).elim (fun hintegers => isSome_add hintegers.1 hintegers.2) id
  have hrun : ∀ path,
      AddsUp additions (applyVerb versionKey .inc path (.object argument) (.object doc)) := by
    intro path
    obtain ⟨after, hafter, -, hwritten⟩ := additions_performed h hordered hall path doc fun _ _ => rfl
    refine ⟨.object after, ?_, fun addition haddition => ?_⟩
    · rw [applyVerb, onObject, hafter, Attempt.map_done]
    · obtain ⟨sum, hsum, hfollow⟩ := hwritten addition haddition
      exact ⟨sum, hfollow, Addition.isSum hsum⟩
  refine ⟨hrun path, fun key hkey => ?_⟩
  rw [apply_verb hkey]
  exact hrun ""

/-- A cart: a count, plays inside of an object, a list of items and one of marks.  The second mark is no
signed word. -/
def cart : Members :=
  [("count", .ofInt 5), ("items", .array [.object [("article", .string "tea"), ("pieces", .ofInt 1)]]),
    ("marks", .array [.ofInt 1, .ofInt 9223372036854775808]), ("stats", .object [("plays", .ofInt 7)])]

def cartIncrement : Members :=
  [("count", .ofInt (-1)), ("items", addressing [("article", .string "tea")] [("pieces", .ofInt 2)]),
    ("marks", .object [(doKey, .ofInt (-1)), (indexKey, .ofInt 1)]), ("stats", .object [("plays", .ofInt 3)])]

def cartAdditions : List Addition :=
  [⟨[.member "count"], .int 5, .int (-1)⟩,
    ⟨[.member "items", .item 0, .member "pieces"], .int 1, .int 2⟩,
    ⟨[.member "marks", .item 1], .int 9223372036854775808, .int (-1)⟩,
    ⟨[.member "stats", .member "plays"], .int 7, .int 3⟩]

/-- The counts are exact, the mark is not. -/
theorem inc_additions_cart :
    AddsUp cartAdditions
      (apply "__v" (.object [("$inc", .object cartIncrement)]) (.object cart)) := by
  have hkeys : Ordered.before "count" "items" = true ∧ Ordered.before "count" "marks" = true ∧
      Ordered.before "count" "stats" = true ∧ Ordered.before "items" "marks" = true ∧
      Ordered.before "items" "stats" = true ∧ Ordered.before "marks" "stats" = true ∧
      Ordered.before doKey whereKey = true ∧ Ordered.before doKey indexKey = true := by decide
  have htea : FirstMatch [("article", .string "tea")]
      [.object [("article", .string "tea"), ("pieces", .ofInt 1)]] 0
      (.object [("article", .string "tea"), ("pieces", .ofInt 1)]) :=
    ⟨rfl, holds_iff.1 (by decide), by simp⟩
  have hdirect : Direct .inc (.object [("plays", .ofInt 3)]) := by
    show ∀ entry ∈ [("plays", Value.ofInt 3)], isAddressing entry.1 = false
    decide
  have hnumber : ∀ c d : Int, Additions (.slot (.ofInt d) (some (.ofInt c))) [⟨[], .int c, .int d⟩] :=
    fun c d => .number rfl
  have hpieces : Additions (.slot (addressing [("article", .string "tea")] [("pieces", .ofInt 2)])
      (some (.array [.object [("article", .string "tea"), ("pieces", .ofInt 1)]])))
      [⟨[.item 0, .member "pieces"], .int 1, .int 2⟩] := by
    show Additions _ (List.map (Addition.below (.item 0))
      (List.map (Addition.below (.member "pieces")) [⟨[], .int 1, .int 2⟩] ++ []))
    exact .matching rfl rfl htea (.cons (hnumber 1 2) .nil)
  have hmarks : Additions (.slot (.object [(doKey, .ofInt (-1)), (indexKey, .ofInt 1)])
      (some (.array [.ofInt 1, .ofInt 9223372036854775808])))
      [⟨[.item 1], .int 9223372036854775808, .int (-1)⟩] :=
    .indexed ⟨rfl, rfl, rfl⟩ rfl
  have hplays : Additions (.slot (.object [("plays", .ofInt 3)]) (some (.object [("plays", .ofInt 7)])))
      [⟨[.member "plays"], .int 7, .int 3⟩] := by
    show Additions _ (List.map (Addition.below (.member "plays")) [⟨[], .int 7, .int 3⟩] ++ [])
    exact .direct hdirect rfl (.cons (hnumber 7 3) .nil)
  have hadditions : Additions (.object cartIncrement cart) cartAdditions := by
    show Additions _ (List.map (Addition.below (.member "count")) [⟨[], .int 5, .int (-1)⟩]
      ++ (List.map (Addition.below (.member "items")) [⟨[.item 0, .member "pieces"], .int 1, .int 2⟩]
      ++ (List.map (Addition.below (.member "marks"))
        [⟨[.item 1], .int 9223372036854775808, .int (-1)⟩]
      ++ (List.map (Addition.below (.member "stats")) [⟨[.member "plays"], .int 7, .int 3⟩] ++ []))))
    exact .cons (hnumber 5 (-1)) (.cons hpieces (.cons hmarks (.cons hplays .nil)))
  have hintegers : ∀ c d : Int, minWord ≤ c ∧ c < wordCount → minWord ≤ d ∧ d < wordCount →
      (Number.int c).IsInteger ∧ (Number.int d).IsInteger :=
    fun c d hc hd => ⟨⟨c, rfl, hc⟩, ⟨d, rfl, hd⟩⟩
  refine (inc_additions "__v" "" ?_ hadditions ?_).2 "$inc" (by decide)
  · simp [cartIncrement, addressing, WellOrdered, WellOrderedMembers, Keyed.Sorted, hkeys, Value.ofInt]
  · simp only [cartAdditions, List.forall_mem_cons, List.not_mem_nil, false_implies, implies_true,
      and_true]
    refine ⟨?_, ?_, ?_, ?_⟩ <;> exact Or.inl (hintegers _ _ (by decide) (by decide))

/-- A counter of 2⁶³, counted down by one, becomes a double, although the sum is a signed word. -/
theorem counter_loses_precision :
    (Number.int 9223372036854775808).IsInteger ∧ (Number.int (-1)).IsInteger ∧
    IsWord (9223372036854775808 + -1) ∧
    ∃ x, apply "__v" (.object [("$inc", .object [("n", .ofInt (-1))])])
        (.object [("n", .ofInt 9223372036854775808)])
      = .done (.object [("n", .number (.float x))]) := by
  have hinteger : (Number.int 9223372036854775808).IsInteger := ⟨_, rfl, by decide, by decide⟩
  have hdelta : (Number.int (-1)).IsInteger := ⟨_, rfl, by decide, by decide⟩
  obtain ⟨sum, hsum⟩ := isSome_add hinteger hdelta
  have hnot : ¬ FitsWords (.int 9223372036854775808) (.int (-1)) := by
    rintro ⟨c, d, ⟨⟩, -, hc, -⟩
    exact absurd hc (by decide)
  obtain ⟨x, rfl⟩ := (add_eq_some hsum).2.2 hnot
  refine ⟨hinteger, hdelta, by decide, x, ?_⟩
  have hadd := addTo_eq_done hsum "n"
  have hinc : UpdateKey.ofKey "$inc" = .verb .inc := by decide
  rw [apply_verb hinc, applyVerb_single]
  show (((addSlot "n" (.int (-1)) (some (.ofInt 9223372036854775808))).map _).map _) = _
  rw [addSlot, Option.getD_some, Value.ofInt, hadd]
  rfl

end DocumentAccess.Update
