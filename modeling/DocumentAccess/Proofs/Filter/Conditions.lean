import DocumentAccess.Proofs.Filter.Scripts

/-!
# Conditions of a native filter

Each member of a filter asks for something in native operators.  The native members of one object go into
one map, so two of them with the same native spelling and different values leave only the later one: a
condition is lost, and the native filter asks for less.

* `Filter.conditions` — what one member asks for, in native operators.
* `Filter.Walks` — the objects that the walk over a filter comes to, and where they stand in the native
  filter; **`Filter.mem_walked_iff`** — they are the ones with the walked members.
* `Filter.Agree` — members of an object that fall on one native key ask for the same.
* **`Filter.toNative_lossless_iff`** — no condition is lost exactly when all walked objects agree.
* `Filter.clash_portable` — only operators disagree, one of them in portable spelling.
-/

namespace DocumentAccess.Filter

/-! ## Conditions -/

/-- What a member of a filter asks for, in native operators. -/
def conditions (entry : String × Value) : Members :=
  match FilterKey.ofKey entry.1 with
  | .field | .native => [(entry.1, toNative entry.2)]
  | .comparison c => [(c.native, toNative entry.2)]
  | .dateComparison c => [(c.native, dateOperand entry.2)]
  | .regex => regexMembers entry.2
  | .logical c => [(c.native, toNativeGroup entry.2)]
  | .elemMatch => [("$elemMatch", toNative entry.2)]
  | .script => []
  | .unrecognized => [entry]

/-- Members that fall on one native key ask for the same there. -/
def Agree (object : Members) : Prop :=
  Keyed.SingleValued (object.flatMap conditions)

/-- A native object has the conditions of the members of an object, and no others. -/
structure Represents (native object : Members) : Prop where
  found : ∀ entry ∈ object, ∀ condition ∈ conditions entry,
    Keyed.find? condition.1 native = some condition.2
  only : ∀ key value, Keyed.find? key native = some value →
    ∃ entry ∈ object, (key, value) ∈ conditions entry

lemma nativeMembers_eq_flatMap (object : Members) :
    nativeMembers object = object.flatMap conditions := by
  induction object with
  | nil => rfl
  | cons entry rest ih =>
      obtain ⟨key, operand⟩ := entry
      rw [nativeMembers, ih, List.flatMap_cons]
      unfold conditions
      cases FilterKey.ofKey key <;> rfl

/-- One map can only hold conditions that agree. -/
lemma Represents.agree {native object : Members} (h : Represents native object) : Agree object := by
  intro a ha b hb hkey
  obtain ⟨entry, hentry, haentry⟩ := List.mem_flatMap.1 ha
  obtain ⟨other, hother, hbother⟩ := List.mem_flatMap.1 hb
  have hfound := h.found entry hentry a haentry
  rw [hkey, h.found other hother b hbother] at hfound
  exact (Option.some.inj hfound).symm

/-- The native object asks for nothing else. -/
lemma exists_condition {object : Members} {key : String} {value : Value}
    (h : Keyed.find? key (Keyed.ofList (nativeMembers object)) = some value) :
    ∃ entry ∈ object, (key, value) ∈ conditions entry := by
  rw [nativeMembers_eq_flatMap] at h
  exact List.mem_flatMap.1 (Keyed.mem_of_find?_ofList h)

lemma represents_iff {object : Members} :
    Represents (Keyed.ofList (nativeMembers object)) object ↔ Agree object := by
  refine ⟨Represents.agree, fun hagree => ⟨fun entry hentry condition hcondition => ?_,
    fun _ _ => exists_condition⟩⟩
  rw [nativeMembers_eq_flatMap]
  exact Keyed.find?_ofList_iff_singleValued.2 hagree condition
    (List.mem_flatMap.2 ⟨entry, hentry, hcondition⟩)

/-! ## Positions -/

/-- A step into a value: to the member under a key, or to an item of a list. -/
inductive Step where
  | key (key : String)
  | item (index : Nat)

/-- The value that steps lead to. -/
def valueAt : List Step → Value → Option Value
  | [], value => some value
  | .key key :: steps, value => (value.get? key).bind (valueAt steps)
  | .item index :: steps, .array items => items[index]?.bind (valueAt steps)
  | .item _ :: _, _ => none

/-- The native spelling of a key whose operand the walk goes into. -/
def walkedAs? (key : String) : Option String :=
  match FilterKey.ofKey key with
  | .field | .native => some key
  | .comparison c => some c.native
  | .logical c => some c.native
  | .elemMatch => some "$elemMatch"
  | .dateComparison _ | .regex | .script | .unrecognized => none

/-- The walk over a filter comes to an object, and these steps lead to its place in the native filter. -/
inductive Walks : Value → List Step → Members → Prop
  | here {object : Members} : Walks (.object object) [] object
  | member {members object : Members} {key native : String} {operand : Value} {steps : List Step}
      (hentry : (key, operand) ∈ members) (hkey : walkedAs? key = some native)
      (h : Walks operand steps object) : Walks (.object members) (.key native :: steps) object
  | item {members object : Members} {key : String} {connective : Logical} {items : List Value}
      {index : Nat} {item : Value} {steps : List Step}
      (hentry : (key, .array items) ∈ members) (hkey : FilterKey.ofKey key = .logical connective)
      (hitem : items[index]? = some item) (h : Walks item steps object) :
      Walks (.object members) (.key connective.native :: .item index :: steps) object

lemma Walks.isObject {filter : Value} {steps : List Step} {object : Members}
    (h : Walks filter steps object) : filter.isObject = true := by
  cases h <;> rfl

/-- The members that the walk meets below a member. -/
def walkedBelow (entry : String × Value) : Members :=
  match FilterKey.ofKey entry.1 with
  | .field | .native | .comparison _ | .elemMatch => walked entry.2
  | .logical _ => walkedGroup entry.2
  | .dateComparison _ | .regex | .script | .unrecognized => []

lemma walkedMembers_eq_flatMap (object : Members) :
    walkedMembers object = object.flatMap fun entry => entry :: walkedBelow entry := by
  induction object with
  | nil => rfl
  | cons entry rest ih =>
      obtain ⟨key, operand⟩ := entry
      rw [walkedMembers, ih, List.flatMap_cons]
      rfl

lemma walkedItems_eq_flatMap (items : List Value) : walkedItems items = items.flatMap walked := by
  induction items with
  | nil => rfl
  | cons item rest ih => rw [walkedItems, ih, List.flatMap_cons]

/-- Below a member, the walk goes into its operand, or into the items of the list of a group. -/
lemma mem_walkedBelow_iff {key : String} {operand : Value} {entry : String × Value} :
    entry ∈ walkedBelow (key, operand) ↔
      (∃ native, walkedAs? key = some native ∧ entry ∈ walked operand) ∨
      ∃ connective items, FilterKey.ofKey key = .logical connective ∧ operand = .array items ∧
        ∃ item ∈ items, entry ∈ walked item := by
  unfold walkedBelow walkedAs?
  cases hkind : FilterKey.ofKey key with
  | logical c => cases operand <;> simp [walkedGroup, walked, walkedItems_eq_flatMap]
  | _ => simp

lemma mem_walked_of_walks {filter : Value} {steps : List Step} {object : Members}
    (h : Walks filter steps object) {entry : String × Value} (hentry : entry ∈ object) :
    entry ∈ walked filter := by
  induction h with
  | here =>
      rw [walked, walkedMembers_eq_flatMap]
      exact List.mem_flatMap.2 ⟨entry, hentry, List.mem_cons_self⟩
  | @member members object key native operand steps hmember hkey h ih =>
      rw [walked, walkedMembers_eq_flatMap]
      refine List.mem_flatMap.2 ⟨_, hmember, List.mem_cons_of_mem _ ?_⟩
      exact mem_walkedBelow_iff.2 (Or.inl ⟨native, hkey, ih hentry⟩)
  | @item members object key connective items index item steps hmember hkey hitem h ih =>
      rw [walked, walkedMembers_eq_flatMap]
      refine List.mem_flatMap.2 ⟨_, hmember, List.mem_cons_of_mem _ ?_⟩
      exact mem_walkedBelow_iff.2
        (Or.inr ⟨connective, items, hkey, rfl, item, List.mem_of_getElem? hitem, ih hentry⟩)

lemma walks_of_mem_walked (filter : Value) :
    (∀ entry ∈ walked filter, ∃ steps object, Walks filter steps object ∧ entry ∈ object) ∧
      ∀ items, filter = .array items → ∀ item ∈ items, ∀ entry ∈ walked item,
        ∃ steps object, Walks item steps object ∧ entry ∈ object := by
  induction filter using Value.inductionOn with
  | object members ih =>
      refine ⟨fun entry hentry => ?_, fun items hitems => by simp at hitems⟩
      rw [walked, walkedMembers_eq_flatMap] at hentry
      obtain ⟨⟨key, operand⟩, hmember, hentry⟩ := List.mem_flatMap.1 hentry
      rcases List.mem_cons.1 hentry with rfl | hbelow
      · exact ⟨[], members, .here, hmember⟩
      · obtain ⟨hinside, hitems⟩ := ih _ hmember
        rcases mem_walkedBelow_iff.1 hbelow with
          ⟨native, hkey, hwalked⟩ | ⟨connective, items, hkey, hlist, item, hitem, hwalked⟩
        · obtain ⟨steps, object, hwalks, hobject⟩ := hinside entry hwalked
          exact ⟨_, object, .member hmember hkey hwalks, hobject⟩
        · obtain rfl : operand = .array items := hlist
          obtain ⟨index, hindex⟩ := List.getElem?_of_mem hitem
          obtain ⟨steps, object, hwalks, hobject⟩ := hitems items rfl item hitem entry hwalked
          exact ⟨_, object, .item hmember hkey hindex hwalks, hobject⟩
  | array items ih =>
      refine ⟨fun entry hentry => by simp [walked] at hentry, ?_⟩
      rintro _ ⟨⟩ item hitem
      exact (ih item hitem).1
  | _ => exact ⟨fun entry hentry => by simp [walked] at hentry, fun items hitems => by simp at hitems⟩

/-- **The walk meets the members of the objects that it comes to.** -/
theorem mem_walked_iff {filter : Value} {entry : String × Value} :
    entry ∈ walked filter ↔ ∃ steps object, Walks filter steps object ∧ entry ∈ object :=
  ⟨(walks_of_mem_walked filter).1 entry, fun ⟨_, _, hwalks, hentry⟩ => mem_walked_of_walks hwalks hentry⟩

/-- What a walked member asks for is its operand in native operators. -/
lemma mem_conditions_of_walkedAs {key native : String} {operand : Value}
    (hkey : walkedAs? key = some native) (hoperand : operand.isObject = true) :
    (native, toNative operand) ∈ conditions (key, operand) := by
  unfold walkedAs? at hkey
  unfold conditions
  cases operand with
  | object members =>
      cases hkind : FilterKey.ofKey key <;> simp_all [toNative, toNativeGroup]
  | _ => simp [Value.isObject] at hoperand

/-- The steps lead to the native object, as long as the objects on the way agree. -/
lemma valueAt_toNative {filter : Value} {steps : List Step} {object : Members}
    (h : Walks filter steps object)
    (hagree : ∀ steps object, Walks filter steps object → Agree object) :
    valueAt steps (toNative filter) = some (.object (Keyed.ofList (nativeMembers object))) := by
  induction h with
  | here => rfl
  | @member members object key native operand steps hentry hkey h ih =>
      have hfound := (represents_iff.2 (hagree [] members .here)).found _ hentry _
        (mem_conditions_of_walkedAs hkey h.isObject)
      rw [toNative, Value.ofMembers, valueAt, Value.get?, hfound, Option.bind_some]
      exact ih fun steps object hwalks => hagree _ _ (.member hentry hkey hwalks)
  | @item members object key connective items index item steps hentry hkey hitem h ih =>
      have hcondition : (connective.native, toNativeGroup (.array items))
          ∈ conditions (key, .array items) := by
        simp [conditions, hkey]
      have hfound := (represents_iff.2 (hagree [] members .here)).found _ hentry _ hcondition
      rw [toNative, Value.ofMembers, valueAt, Value.get?, hfound, Option.bind_some, toNativeGroup,
        toNativeItems_eq_map, valueAt, List.getElem?_map, hitem, Option.map_some, Option.bind_some]
      exact ih fun steps object hwalks => hagree _ _ (.item hentry hkey hitem hwalks)

/-- **No condition is lost exactly when all walked objects agree**: then each of them has a place in the
native filter, with the conditions of its members and no others.  And an object that does not agree asks
for less in native operators, in some reading of what is asked. -/
theorem toNative_lossless_iff (filter : Value) :
    ((∀ steps object, Walks filter steps object → ∃ native,
        valueAt steps (toNative filter) = some (.object native) ∧ Represents native object) ↔
      ∀ steps object, Walks filter steps object → Agree object) ∧
    ∀ object, Agree object ↔ ∀ asks : String × Value → Prop,
      (∀ condition ∈ Keyed.ofList (nativeMembers object), asks condition) →
        ∀ entry ∈ object, ∀ condition ∈ conditions entry, asks condition := by
  refine ⟨⟨fun h steps object hwalks => ?_, fun hagree steps object hwalks => ?_⟩,
    fun object => ⟨fun hagree asks hasks entry hentry condition hcondition => ?_, fun h => ?_⟩⟩
  · obtain ⟨native, -, hnative⟩ := h steps object hwalks
    exact hnative.agree
  · exact ⟨_, valueAt_toNative hwalks hagree, represents_iff.2 (hagree steps object hwalks)⟩
  · have hfound := (represents_iff.2 hagree).found entry hentry condition hcondition
    exact hasks condition (Keyed.mem_of_find? hfound)
  · -- what is asked is to be found in the native object
    have hnodup := (Keyed.sorted_ofList (nativeMembers object)).nodup_keys
    have hfound := h (fun condition =>
        Keyed.find? condition.1 (Keyed.ofList (nativeMembers object)) = some condition.2)
      fun condition hcondition => (Keyed.find?_eq_some_iff hnodup).2 hcondition
    exact Represents.agree ⟨hfound, fun _ _ => exists_condition⟩

/-! ## Lost conditions -/

lemma isOperatorKey_of_native {key : String} (h : (nativeName? key).isSome = true) :
    isOperatorKey key = true := by
  unfold nativeName? at h
  split at h
  · rename_i name hkey
    rw [isOperatorKey, hkey]
    rfl
  · simp at h

lemma isOperatorKey_of_portable {key : String} (h : (portableName? key).isSome = true) :
    isOperatorKey key = true := by
  unfold portableName? at h
  split at h
  · rename_i name hkey
    rw [isOperatorKey, hkey]
    rfl
  · simp at h

/-- Whatever is no field, no native operator and no script has a portable mark. -/
lemma portable_of_kind {key : String} (hfield : FilterKey.ofKey key ≠ .field)
    (hnative : FilterKey.ofKey key ≠ .native) (hscript : FilterKey.ofKey key ≠ .script) :
    (portableName? key).isSome = true := by
  unfold FilterKey.ofKey at hfield hnative hscript
  cases hname : portableName? key with
  | some name => rfl
  | none =>
      rw [hname] at hfield hnative hscript
      by_cases hwhere : key = "$where"
      · simp [hwhere] at hscript
      · by_cases hdollar : (nativeName? key).isSome = true
        · simp [hwhere, hdollar] at hnative
        · simp [hwhere, hdollar] at hfield

/-- A condition stands under the key of its member, or under the native key of a portable operator. -/
lemma condition_key {entry condition : String × Value} (h : condition ∈ conditions entry) :
    condition.1 = entry.1 ∨
      (nativeName? condition.1).isSome = true ∧ (portableName? entry.1).isSome = true := by
  obtain ⟨key, operand⟩ := entry
  unfold conditions at h
  cases hkind : FilterKey.ofKey key with
  | script => simp [hkind] at h
  | field | native | unrecognized =>
      simp only [hkind] at h
      obtain rfl := List.mem_singleton.1 h
      exact Or.inl rfl
  | regex =>
      refine Or.inr ⟨?_, portable_of_kind (by simp [hkind]) (by simp [hkind]) (by simp [hkind])⟩
      have hkeys : condition.1 = "$regex" ∨ condition.1 = "$options" := by
        simp only [hkind, regexMembers] at h
        rcases List.mem_cons.1 h with rfl | h
        · exact Or.inl rfl
        · cases hflags : regexFlags? operand with
          | none => simp [hflags] at h
          | some flags =>
              rw [hflags] at h
              obtain rfl := List.mem_singleton.1 h
              exact Or.inr rfl
      rcases hkeys with hregex | hoptions
      · rw [hregex]
        decide
      · rw [hoptions]
        decide
  | comparison c | dateComparison c | logical c =>
      refine Or.inr ⟨?_, portable_of_kind (by simp [hkind]) (by simp [hkind]) (by simp [hkind])⟩
      simp only [hkind] at h
      obtain rfl := List.mem_singleton.1 h
      show (nativeName? c.native).isSome = true
      cases c <;> decide
  | elemMatch =>
      refine Or.inr ⟨?_, portable_of_kind (by simp [hkind]) (by simp [hkind]) (by simp [hkind])⟩
      simp only [hkind] at h
      obtain rfl := List.mem_singleton.1 h
      show (nativeName? "$elemMatch").isSome = true
      decide

/-- **Only operators ask for something under one native key**, and one of them in portable spelling: no
condition on a field is lost. -/
theorem clash_portable {a b c d : String × Value} (hkey : a.1 ≠ b.1) (hc : c ∈ conditions a)
    (hd : d ∈ conditions b) (hsame : c.1 = d.1) :
    isOperatorKey a.1 = true ∧ isOperatorKey b.1 = true ∧
      ((portableName? a.1).isSome = true ∨ (portableName? b.1).isSome = true) := by
  rcases condition_key hc with hca | ⟨hcNative, ha⟩
  · rcases condition_key hd with hdb | ⟨hdNative, hb⟩
    · exact absurd (hca.symm.trans (hsame.trans hdb)) hkey
    · have haNative : (nativeName? a.1).isSome = true := by rwa [← hca, hsame]
      exact ⟨isOperatorKey_of_native haNative, isOperatorKey_of_portable hb, Or.inr hb⟩
  · rcases condition_key hd with hdb | ⟨hdNative, hb⟩
    · have hbNative : (nativeName? b.1).isSome = true := by rwa [← hdb, ← hsame]
      exact ⟨isOperatorKey_of_portable ha, isOperatorKey_of_native hbNative, Or.inl ha⟩
    · exact ⟨isOperatorKey_of_portable ha, isOperatorKey_of_portable hb, Or.inl ha⟩

/-- A condition of a walked object is not found at the place of that object. -/
structure Loses (filter : Value) (steps : List Step) (condition : String × Value) : Prop where
  asked : ∃ object, Walks filter steps object ∧ ∃ entry ∈ object, condition ∈ conditions entry
  lost : ∀ native, valueAt steps (toNative filter) = some (.object native) →
    Keyed.find? condition.1 native ≠ some condition.2

/-- A filter for the ages from 18 on, and from 0 on. -/
def adults : Value :=
  .object [("age", .object [("$gte", .ofNat 18), ("_$gte", .ofNat 0)])]

/-- A condition is lost to one with the same native spelling: a comparison to its portable form, a date
to a number, one group to another, and the options of a pattern to its flags. -/
theorem toNative_loses_conditions :
    Loses adults [.key "age"] ("$gte", .ofNat 18) ∧
    Loses (.object [("_$dgt", .string "2020-01-01"), ("_$gt", .ofNat 0)]) []
      ("$gt", dateOperand (.string "2020-01-01")) ∧
    Loses (.object [("$or", .array [.object [("a", .ofNat 1)]]), ("_$or", .array [])]) []
      ("$or", .array [.object [("a", .ofNat 1)]]) ∧
    Loses (.object [("$options", .string "x"),
        ("_$regex", .object [("flags", .string "i"), ("value", .string "tea")])]) []
      ("$options", .string "x") := by
  refine ⟨⟨⟨_, .member List.mem_cons_self (by decide) .here, _, List.mem_cons_self, ?_⟩, ?_⟩,
    ⟨⟨_, .here, _, List.mem_cons_self, ?_⟩, ?_⟩, ⟨⟨_, .here, _, List.mem_cons_self, ?_⟩, ?_⟩,
    ⟨⟨_, .here, _, List.mem_cons_self, ?_⟩, ?_⟩⟩
  · exact List.mem_singleton.2 rfl
  · rintro _ ⟨⟩
    show some (Value.ofNat 0) ≠ some (Value.ofNat 18)
    simp [Value.ofNat]
  · exact List.mem_singleton.2 rfl
  · rintro _ ⟨⟩
    show some (Value.ofNat 0) ≠ some (dateOperand (.string "2020-01-01"))
    unfold dateOperand
    split <;> simp [Value.ofNat, Instant.toValue]
  · exact List.mem_singleton.2 rfl
  · rintro _ ⟨⟩
    show some (Value.array []) ≠ some (Value.array [.object [("a", .ofNat 1)]])
    simp
  · exact List.mem_singleton.2 rfl
  · rintro _ ⟨⟩
    show some (Value.string "i") ≠ some (Value.string "x")
    simp

end DocumentAccess.Filter
