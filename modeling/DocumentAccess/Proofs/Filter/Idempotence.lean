import DocumentAccess.Proofs.Filter.Conditions

/-!
# Making a native filter native

What comes out of the translation goes into it again unchanged: its keys are fields, native operators and
unknown portable names, and all of these stay as they are.  Only an operand that is handed on unread
could bring a portable operator in, the pattern of a regular expression or a date operand that is no date.

* `FilterKey.stays` — the keys that the native filter has as they are.
* **`Filter.toNative_eq_self_iff`** — the filters that are native already.
* `Filter.settles` — the operand of a walked member brings no operator in.
* `Filter.Reaches` — the objects that members lead to, walked or not.
* **`Filter.toNative_idempotent`** — a second translation changes nothing, and a native filter is not changed
  at all.
-/

namespace DocumentAccess

/-- Fields, native operators and unknown portable names stay as they are. -/
def FilterKey.stays : FilterKey → Bool
  | .field | .native | .unrecognized => true
  | .comparison _ | .dateComparison _ | .regex | .logical _ | .elemMatch | .script => false

namespace Filter

/-! ## Members that ask for themselves -/

/-- What a member asks for stands under a key that stays. -/
lemma stays_of_mem_conditions {entry condition : String × Value} (h : condition ∈ conditions entry) :
    (FilterKey.ofKey condition.1).stays = true := by
  obtain ⟨key, operand⟩ := entry
  unfold conditions at h
  cases hkind : FilterKey.ofKey key with
  | field | native | unrecognized =>
      simp only [hkind] at h
      rw [List.mem_singleton.1 h]
      show (FilterKey.ofKey key).stays = true
      rw [hkind]
      rfl
  | script => simp [hkind] at h
  | comparison c | dateComparison c | logical c =>
      simp only [hkind] at h
      rw [List.mem_singleton.1 h]
      show (FilterKey.ofKey c.native).stays = true
      cases c <;> decide
  | elemMatch =>
      simp only [hkind] at h
      rw [List.mem_singleton.1 h]
      show (FilterKey.ofKey "$elemMatch").stays = true
      decide
  | regex =>
      simp only [hkind, regexMembers] at h
      rcases List.mem_cons.1 h with rfl | hoptions
      · show (FilterKey.ofKey "$regex").stays = true
        decide
      · cases hflags : regexFlags? operand with
        | none => simp [hflags] at hoptions
        | some flags =>
            rw [hflags] at hoptions
            rw [List.mem_singleton.1 hoptions]
            show (FilterKey.ofKey "$options").stays = true
            decide

/-- A member whose key stays asks for its operand in native operators, or for the operand itself. -/
lemma conditions_of_stays {key : String} (hkey : (FilterKey.ofKey key).stays = true)
    (operand : Value) :
    conditions (key, operand) = [(key, toNative operand)] ∧ walkedAs? key = some key ∨
      conditions (key, operand) = [(key, operand)] ∧ walkedAs? key = none := by
  unfold conditions walkedAs?
  cases hkind : FilterKey.ofKey key with
  | field | native => exact Or.inl ⟨rfl, rfl⟩
  | unrecognized => exact Or.inr ⟨rfl, rfl⟩
  | _ => simp [hkind, FilterKey.stays] at hkey

/-- A member whose key stays asks for itself if its operand is native, or if that is a literal. -/
lemma conditions_eq_self {key : String} {operand : Value}
    (hkey : (FilterKey.ofKey key).stays = true)
    (hoperand : FilterKey.ofKey key = .unrecognized ∨ toNative operand = operand) :
    conditions (key, operand) = [(key, operand)] := by
  rcases conditions_of_stays hkey operand with ⟨h, hwalked⟩ | ⟨h, -⟩
  · have hknown : FilterKey.ofKey key ≠ .unrecognized := by
      intro hkind
      simp [walkedAs?, hkind] at hwalked
    rw [h, hoperand.resolve_left hknown]
  · exact h

/-- An object whose members ask for themselves is native. -/
lemma toNative_object_eq_self {members : Members} (hsorted : Keyed.Sorted members)
    (h : ∀ entry ∈ members, conditions entry = [entry]) :
    toNative (.object members) = .object members := by
  have hnative : nativeMembers members = members := by
    rw [nativeMembers_eq_flatMap, List.flatMap_congr h, List.flatMap_singleton']
  rw [toNative, hnative, Value.ofMembers, hsorted.ofList_eq]

/-! ## Native filters -/

/-- The walk over an object meets its members, and below each of them what the walk meets there. -/
lemma forall_walked_iff {P : String × Value → Prop} {members : Members} :
    (∀ entry ∈ walked (.object members), P entry) ↔
      ∀ entry ∈ members, P entry ∧ ∀ other ∈ walkedBelow entry, P other := by
  rw [walked, walkedMembers_eq_flatMap, List.forall_mem_flatMap]
  exact forall₂_congr fun entry _ => List.forall_mem_cons

/-- The walk goes into the operand of a member with a key that stays, or into nothing. -/
lemma mem_walkedBelow_of_stays {key : String} {operand : Value} {entry : String × Value}
    (hkey : (FilterKey.ofKey key).stays = true) (h : entry ∈ walkedBelow (key, operand)) :
    walkedAs? key = some key ∧ entry ∈ walked operand := by
  rcases mem_walkedBelow_iff.1 h with ⟨native, hwalked, hentry⟩ | ⟨connective, _, hlogical, -⟩
  · rcases conditions_of_stays hkey operand with ⟨-, hself⟩ | ⟨-, hnone⟩
    · exact ⟨hself, hentry⟩
    · rw [hnone] at hwalked
      exact absurd hwalked (by simp)
  · rw [hlogical] at hkey
    exact absurd hkey (by simp [FilterKey.stays])

/-- In an object that is native, every member has a key that stays, and an operand that is walked is
native. -/
lemma native_members {members : Members} (h : toNative (.object members) = .object members) :
    ∀ entry ∈ members, (FilterKey.ofKey entry.1).stays = true ∧
      (walkedAs? entry.1 = some entry.1 → toNative entry.2 = entry.2) := by
  have hmembers : Keyed.ofList (nativeMembers members) = members := by
    simpa [toNative, Value.ofMembers] using h
  have hsorted : Keyed.Sorted members := hmembers ▸ Keyed.sorted_ofList _
  have hfound : ∀ entry ∈ members, Keyed.find? entry.1 members = some entry.2 :=
    fun entry hentry => (Keyed.find?_eq_some_iff hsorted.nodup_keys).2 hentry
  have hasked : ∀ entry ∈ members, ∃ other ∈ members, entry ∈ conditions other :=
    fun entry hentry => exists_condition (hmembers.symm ▸ hfound entry hentry)
  have hstays : ∀ entry ∈ members, (FilterKey.ofKey entry.1).stays = true := by
    intro entry hentry
    obtain ⟨other, -, hcondition⟩ := hasked entry hentry
    exact stays_of_mem_conditions hcondition
  refine fun entry hentry => ⟨hstays entry hentry, fun hwalked => ?_⟩
  obtain ⟨⟨key, operand⟩, hother, hcondition⟩ := hasked entry hentry
  rcases conditions_of_stays (hstays _ hother) operand with ⟨hself, -⟩ | ⟨hself, hnone⟩
  · obtain rfl := List.mem_singleton.1 (hself ▸ hcondition)
    -- no two members have one key, so the member that asks for this one is the same
    have hsame : operand = toNative operand :=
      Option.some.inj ((hfound _ hother).symm.trans (hfound _ hentry))
    rw [← hsame, ← hsame]
  · obtain rfl := List.mem_singleton.1 (hself ▸ hcondition)
    rw [hnone] at hwalked
    exact absurd hwalked (by simp)

/-- All keys that the walk over a native filter meets stay. -/
lemma stays_of_toNative_eq_self {filter : Value} (h : toNative filter = filter) :
    ∀ entry ∈ walked filter, (FilterKey.ofKey entry.1).stays = true := by
  induction filter using Value.inductionOn with
  | object members ih =>
      refine forall_walked_iff.2 fun entry hentry => ?_
      obtain ⟨hkey, hnative⟩ := native_members h entry hentry
      refine ⟨hkey, fun other hbelow => ?_⟩
      obtain ⟨hwalked, hother⟩ := mem_walkedBelow_of_stays hkey hbelow
      exact ih entry hentry (hnative hwalked) other hother
  | _ => exact fun entry hentry => by simp [walked] at hentry

/-- A filter in which all walked keys stay is native. -/
lemma toNative_eq_self {filter : Value} (hordered : filter.WellOrdered)
    (h : ∀ entry ∈ walked filter, (FilterKey.ofKey entry.1).stays = true) :
    toNative filter = filter := by
  induction filter using Value.inductionOn with
  | object members ih =>
      obtain ⟨hsorted, hvalues⟩ := Value.wellOrdered_object.1 hordered
      refine toNative_object_eq_self hsorted ?_
      rintro ⟨key, operand⟩ hentry
      obtain ⟨hkey, hbelow⟩ := forall_walked_iff.1 h _ hentry
      rcases conditions_of_stays hkey operand with ⟨hself, hwalk⟩ | ⟨hself, -⟩
      · have hwalked : ∀ other ∈ walked operand, (FilterKey.ofKey other.1).stays = true :=
          fun other hother => hbelow other (mem_walkedBelow_iff.2 (Or.inl ⟨key, hwalk, hother⟩))
        rw [hself, ih _ hentry (hvalues _ hentry) hwalked]
      · exact hself
  | _ => rfl

/-- **A filter is native already exactly when no walked member has a script or a known portable operator
for its key.** -/
theorem toNative_eq_self_iff {filter : Value} (hordered : filter.WellOrdered) :
    toNative filter = filter ↔
      ∀ entry ∈ walked filter, (FilterKey.ofKey entry.1).stays = true :=
  ⟨stays_of_toNative_eq_self, toNative_eq_self hordered⟩

/-- Where all walked keys stay, nothing is counted. -/
lemma complexity_eq_zero {filter : Value}
    (h : ∀ entry ∈ walked filter, (FilterKey.ofKey entry.1).stays = true) :
    complexity filter = Complexity.zero := by
  rw [complexity]
  generalize walked filter = entries at h
  induction entries with
  | nil => rfl
  | cons entry rest ih =>
      obtain ⟨hentry, hrest⟩ := List.forall_mem_cons.1 h
      have hcount : Complexity.ofMember entry = Complexity.zero := by
        unfold Complexity.ofMember
        cases hkind : FilterKey.ofKey entry.1 with
        | field | native | unrecognized => rfl
        | _ => simp [hkind, FilterKey.stays] at hentry
      rw [List.foldl_cons, hcount]
      exact ih hrest

/-! ## The translation once and twice -/

/-- What a member hands on unread is no object: a pattern, and a date operand that is no date. -/
def settles (entry : String × Value) : Bool :=
  match FilterKey.ofKey entry.1 with
  | .regex => !(regexPattern entry.2).isObject
  | .dateComparison _ => (Instant.ofValue? entry.2).isSome || !entry.2.isObject
  | _ => true

lemma toNative_of_not_object {value : Value} (h : value.isObject = false) : toNative value = value := by
  cases value with
  | object members => simp [Value.isObject] at h
  | _ => rfl

/-- A date operand is native when it is a date or no object. -/
lemma toNative_dateOperand {operand : Value}
    (h : ((Instant.ofValue? operand).isSome || !operand.isObject) = true) :
    toNative (dateOperand operand) = dateOperand operand := by
  unfold dateOperand
  cases hdate : Instant.ofValue? operand with
  | none =>
      refine toNative_of_not_object ?_
      simpa [hdate] using h
  | some instant => rfl

/-- The items of a group are not walked a second time, and its only filter is a filter. -/
lemma toNative_toNativeGroup {operand : Value}
    (h : operand.isObject = true → toNative (toNative operand) = toNative operand) :
    toNative (toNativeGroup operand) = toNativeGroup operand := by
  cases operand with
  | object members => exact h rfl
  | _ => rfl

/-- What a settled member asks for is native, if its operand is once the walk went over it. -/
lemma toNative_of_mem_conditions {entry condition : String × Value} (hsettles : settles entry = true)
    (hoperand : (∃ native, walkedAs? entry.1 = some native) →
      toNative (toNative entry.2) = toNative entry.2)
    (h : condition ∈ conditions entry) :
    FilterKey.ofKey condition.1 = .unrecognized ∨ toNative condition.2 = condition.2 := by
  obtain ⟨key, operand⟩ := entry
  unfold conditions at h
  unfold settles at hsettles
  unfold walkedAs? at hoperand
  cases hkind : FilterKey.ofKey key with
  | field | native | comparison | elemMatch =>
      simp only [hkind] at h hoperand
      rw [List.mem_singleton.1 h]
      exact Or.inr (hoperand ⟨_, rfl⟩)
  | logical c =>
      simp only [hkind] at h hoperand
      rw [List.mem_singleton.1 h]
      exact Or.inr (toNative_toNativeGroup fun _ => hoperand ⟨_, rfl⟩)
  | dateComparison c =>
      simp only [hkind] at h hsettles
      rw [List.mem_singleton.1 h]
      exact Or.inr (toNative_dateOperand hsettles)
  | regex =>
      simp only [hkind, regexMembers] at h hsettles
      rcases List.mem_cons.1 h with rfl | hoptions
      · exact Or.inr (toNative_of_not_object (by simpa using hsettles))
      · cases hflags : regexFlags? operand with
        | none => simp [hflags] at hoptions
        | some flags =>
            rw [hflags] at hoptions
            rw [List.mem_singleton.1 hoptions]
            exact Or.inr rfl
  | script => simp [hkind] at h
  | unrecognized =>
      simp only [hkind] at h
      rw [List.mem_singleton.1 h]
      exact Or.inl hkind

/-- **A second translation changes nothing** where all walked members are settled. -/
theorem toNative_toNative {filter : Value} (h : ∀ entry ∈ walked filter, settles entry = true) :
    toNative (toNative filter) = toNative filter := by
  induction filter using Value.inductionOn with
  | object members ih =>
      refine toNative_object_eq_self (Keyed.sorted_ofList _) ?_
      rintro ⟨key, value⟩ hcondition
      obtain ⟨entry, hentry, hasks⟩ := exists_condition
        ((Keyed.find?_eq_some_iff (Keyed.sorted_ofList _).nodup_keys).2 hcondition)
      obtain ⟨hsettles, hbelow⟩ := forall_walked_iff.1 h entry hentry
      refine conditions_eq_self (stays_of_mem_conditions hasks)
        (toNative_of_mem_conditions hsettles ?_ hasks)
      rintro ⟨native, hkey⟩
      refine ih entry hentry fun other hother => ?_
      exact hbelow other (mem_walkedBelow_iff.2 (Or.inl ⟨native, hkey, hother⟩))
  | _ => rfl

/-- An object that members lead to from the root, each under its key. -/
inductive Reaches : Value → Members → Prop
  | here {object : Members} : Reaches (.object object) object
  | member {members object : Members} {entry : String × Value} (hentry : entry ∈ members)
      (h : Reaches entry.2 object) : Reaches (.object members) object

/-- Where the keys of all reachable objects stay, the walk meets no other keys. -/
lemma stays_of_reaches {filter : Value}
    (h : ∀ object, Reaches filter object → ∀ entry ∈ object,
      (FilterKey.ofKey entry.1).stays = true) :
    ∀ entry ∈ walked filter, (FilterKey.ofKey entry.1).stays = true := by
  induction filter using Value.inductionOn with
  | object members ih =>
      refine forall_walked_iff.2 fun entry hentry => ?_
      have hkey := h members .here entry hentry
      refine ⟨hkey, fun other hbelow => ?_⟩
      refine ih entry hentry (fun object hreaches => h object (.member hentry hreaches)) other ?_
      exact (mem_walkedBelow_of_stays hkey hbelow).2
  | _ => exact fun entry hentry => by simp [walked] at hentry

/-- **Translating is idempotent, and leaves native filters alone.**  If no walked member hands an object on
unread, a second translation changes nothing and finds nothing to count.  If no object that members lead to
has a script or a known portable operator among its keys, that is so of the first. -/
theorem toNative_idempotent (filter : Value) :
    ((∀ entry ∈ walked filter, settles entry = true) →
        toNative (toNative filter) = toNative filter ∧
          complexity (toNative filter) = Complexity.zero) ∧
      (filter.WellOrdered →
        (∀ object, Reaches filter object → ∀ entry ∈ object,
          (FilterKey.ofKey entry.1).stays = true) →
        toNative filter = filter ∧ complexity filter = Complexity.zero) := by
  refine ⟨fun hsettles => ?_, fun hordered hreaches => ?_⟩
  · have htwice := toNative_toNative hsettles
    exact ⟨htwice, complexity_eq_zero (stays_of_toNative_eq_self htwice)⟩
  · have hstays := stays_of_reaches hreaches
    exact ⟨(toNative_eq_self_iff hordered).2 hstays, complexity_eq_zero hstays⟩

/-- A filter with a key of each kind; two of its scripts are walked. -/
def guests : Value :=
  .object [("$where", .string "sleep(1000)"), ("_$near", .object [("_$gt", .ofNat 1)]),
    ("_$or", .array [.object [("age", .object [("_$gte", .ofNat 18)])],
      .object [("_$where", .string "this.paid")]]),
    ("bags", .object [("_$elemMatch", .object [("weight", .object [("$lt", .ofNat 20)])])]),
    ("born", .object [("_$dlt", .ofNat 0)]),
    ("name", .object [("_$regex", .object [("flags", .string "i"), ("value", .string "^jo")])])]

/-- The same filter in native operators. -/
def nativeGuests : Value :=
  .object [("$or", .array [.object [("age", .object [("$gte", .ofNat 18)])], .object []]),
    ("_$near", .object [("_$gt", .ofNat 1)]),
    ("bags", .object [("$elemMatch", .object [("weight", .object [("$lt", .ofNat 20)])])]),
    ("born", .object [("$lt", .object [("$date", .string "1970-01-01T00:00:00.000Z")])]),
    ("name", .object [("$options", .string "i"), ("$regex", .string "^jo")])]

/-- A filter without a known portable operator. -/
def nearby : Value :=
  .object [("_$near", .object [("$within", .ofNat 9)]), ("age", .object [("$gte", .ofNat 18)])]

theorem toNative_idempotent_guests :
    (∀ entry ∈ walked guests, settles entry = true) ∧
      toNative guests = nativeGuests ∧ complexity guests = ⟨1, 3, 1, 1, 2⟩ ∧
      toNative (toNative guests) = toNative guests ∧
      complexity (toNative guests) = Complexity.zero ∧
      nearby.WellOrdered ∧
      (∀ object, Reaches nearby object → ∀ entry ∈ object, (FilterKey.ofKey entry.1).stays = true) ∧
      toNative nearby = nearby ∧ complexity nearby = Complexity.zero := by
  have hsettles : ∀ entry ∈ walked guests, settles entry = true := by decide
  have htwice := (toNative_idempotent guests).1 hsettles
  have hordered : nearby.WellOrdered :=
    ⟨List.Pairwise.cons (by decide) (List.pairwise_singleton _ _),
      ⟨List.pairwise_singleton _ _, trivial, trivial⟩,
      ⟨List.pairwise_singleton _ _, trivial, trivial⟩, trivial⟩
  have hreaches : ∀ object, Reaches nearby object → ∀ entry ∈ object,
      (FilterKey.ofKey entry.1).stays = true := by
    intro object h
    cases h with
    | here => decide
    | member hentry h =>
        rcases List.mem_pair.1 hentry with rfl | rfl
        all_goals cases h with
          | here => decide
          | member hentry h =>
              obtain rfl := List.mem_singleton.1 hentry
              cases h
  have hnative := (toNative_idempotent nearby).2 hordered hreaches
  exact ⟨hsettles, rfl, by decide, htwice.1, htwice.2, hordered, hreaches, hnative.1, hnative.2⟩

end Filter

end DocumentAccess
