import DocumentAccess.Proofs.Update.Naming
import DocumentAccess.Proofs.Update.Places

/-!
# Exposed paths

The verbs of a command and its names follow the same keys, so that what is written along a path is mostly
named there.  They part in these places (`Update.Gap`):

* `key` — a key at the path has a value that names nothing, such as an object with an identifier only;
* `field` — a field of the command at the path has a command that names nothing, such as an empty one;
* `mixed` — an object has a drill wrapper beside keys that a verb reads, too;
* `list` — a `$set` replaces what holds a leaf at the path by a list of objects that is not empty;
* `object` — a `$set` replaces a list that holds a leaf at the path by an object with fields.

A path is exposed when there is such a gap on it and the command names nothing on it.

* `Update.Exposed` — there is a gap on a path on which nothing is named.
* **`Update.named_of_place`** — where nothing is mixed, what names something at its place is named.
* `Update.named_of_end` — so is what the command for a field at the end of a path names.
* **`Update.gap_of_written`** — a path that is written and not named has a gap.
-/

namespace DocumentAccess.Update

/-! ## Gaps -/

/-- The spot at the end of a path. -/
def Spot.ended : Spot :=
  ⟨true, some []⟩

/-- A drill wrapper stands beside keys that a verb reads: fields, or the addressing keys of a payload
that is not in this wrapper. -/
def isMixed : Value → Bool
  | .object members =>
    match members.find? fun member => isDrillWrapper member.1 with
    | some wrapper => members.any fun member =>
        !isOperatorKey member.1 || (wrapper.1 ≠ doKey && (member.1 = doKey || member.1 = whereKey))
    | none => false
  | _ => false

/-- Where a verb may write along a path and the names do not follow. -/
inductive Gap (versionKey : String) (command : Members) (doc : Value) (path : String) : Prop where
  | key {value : Value} (h : ⟨some [], value⟩ ∈ commandPlaces (some (Path.segments path)) command)
      (hbare : namesValue .ended value = false)
  | field {inner : Members} (h : inner ∈ commandEnds (some (Path.segments path)) command)
      (hbare : namesCommand .ended inner = false)
  | mixed {place : Place} (h : place ∈ commandPlaces (some (Path.segments path)) command)
      (hmixed : isMixed place.value = true)
  | list {route : Route} {items : List Value}
      (h : ⟨route, .array items⟩ ∈ commandSettings versionKey (some (Path.segments path)) command)
      (halone : standsAlone (.array items) = false) (hleaf : doc.valuesAt path ≠ [])
  | object {route : Route} {members : Members}
      (h : ⟨route, .object members⟩ ∈ commandSettings versionKey (some (Path.segments path)) command)
      (halone : standsAlone (.object members) = false)
      (hleaf : ∃ leaf ∈ doc.leavesAt (some (Path.segments path)), route ∈ leaf.lists)

/-- The leaves of a document at a path may be changed by a command that names nothing on the path. -/
structure Exposed (versionKey : String) (command : Members) (doc : Value) (path : String) : Prop where
  gap : Gap versionKey command doc path
  unnamed : ¬ Named command path

/-- What is set directly is not exposed, in whatever document. -/
example (versionKey : String) (doc : Value) :
    ¬ Exposed versionKey [("$set", .object [("title", .ofNat 1)])] doc "title" :=
  fun h => h.unnamed (by decide)

/-! ## Plain paths -/

/-- No segment is empty, an operator or the identifier. -/
def IsPlain (path : List String) : Prop :=
  ∀ segment ∈ path, segment ≠ "" ∧ isOperatorKey segment = false ∧ segment ≠ Path.identifier

instance (path : List String) : Decidable (IsPlain path) :=
  inferInstanceAs (Decidable (∀ segment ∈ path, _))

lemma IsPlain.ne_empty {path : String} (h : IsPlain (Path.segments path)) : path ≠ "" := by
  rintro rfl
  exact (h "" (by decide)).1 rfl

section Plain

variable {path : List String} {key : String}

/-- A plain path does not lead below an operator. -/
lemma IsPlain.below_operator (h : IsPlain path) (hkey : isOperatorKey key = true) :
    Route.below key (some path) = none := by
  by_contra hne
  obtain ⟨rest, hrest⟩ := Option.ne_none_iff_exists'.1 hne
  obtain rfl := Route.below_eq_some_iff.1 hrest
  obtain ⟨head, tail, hruns⟩ := Path.exists_splitDots_eq_cons key.toList
  have hhead := (h (String.ofList head) (List.mem_append_left _ (by
    rw [Path.segments, hruns]
    exact List.mem_cons_self))).2.1
  rw [isOperatorKey, String.toList_ofList, ← Path.startsOperator_head hruns] at hhead
  exact absurd hkey (by rw [isOperatorKey, hhead]; decide)

/-- A key that leads along a plain path leads the names along it, too. -/
structure LeadsNames (above : Bool) (path : List String) (key : String) (rest : List String) : Prop where
  named : key ≠ Path.identifier
  plain : IsPlain rest
  into : (⟨above, some path⟩ : Spot).into key = ⟨true, some rest⟩

lemma IsPlain.leadsNames {rest : List String} (h : IsPlain path)
    (hbelow : Route.below key (some path) = some rest) (above : Bool) :
    LeadsNames above path key rest := by
  obtain rfl := Route.below_eq_some_iff.1 hbelow
  have hkey : IsPlain (Path.segments key) := fun segment hsegment =>
    h segment (List.mem_append_left _ hsegment)
  have hkept : ((Path.segments key).filter fun segment => !isOperatorKey segment)
      = Path.segments key :=
    List.filter_eq_self.2 fun segment hsegment => by simp [(hkey segment hsegment).2.1]
  obtain ⟨head, tail, hsegments⟩ := List.exists_cons_of_ne_nil (Path.segments_ne_nil key)
  have hempty : head.isEmpty = false := by
    simpa [String.isEmpty_iff] using (hkey head (hsegments ▸ List.mem_cons_self)).1
  have hfields : Path.fields key = Path.segments key := by
    rw [Path.fields, hkept, hsegments, List.dropWhile_cons_of_neg (by simp [hempty])]
  have hadded : (⟨above, some (Path.segments key ++ rest)⟩ : Spot).added key = Path.segments key := by
    cases above
    · exact hfields
    · exact hkept
  refine ⟨?_, fun segment hsegment => h segment (List.mem_append_right _ hsegment), ?_⟩
  · rintro rfl
    exact absurd rfl (hkey Path.identifier (by decide)).2.2
  · simp [Spot.into, hadded, beyond, Path.segments_ne_nil]

end Plain

/-! ## Places and names -/

/-- What stands at a place names something there. -/
def Place.names (place : Place) : Bool :=
  standsAlone place.value || namesValue ⟨true, place.route⟩ place.value

section Names

variable {members : Members} {path : List String}

/-- What stands alone names the spot where it stands. -/
lemma namesValue_of_standsAlone {value : Value} (h : standsAlone value = true) (path : List String) :
    namesValue ⟨true, some path⟩ value = true := by
  cases value with
  | object members => simp [namesValue, h, Spot.isReached]
  | array items => simp [namesValue, h, Spot.isReached]
  | _ => rfl

lemma namesValue_of_names {value : Value} (h : (⟨some path, value⟩ : Place).names = true) :
    namesValue ⟨true, some path⟩ value = true :=
  (Bool.or_eq_true_iff.1 h).elim (namesValue_of_standsAlone · path) id

/-- With nothing mixed, all that stands beside a drill wrapper are operators, and a payload is in it. -/
lemma beside_of_not_isMixed {wrapper : String × Value} (h : isMixed (.object members) = false)
    (hwrapper : (members.find? fun member => isDrillWrapper member.1) = some wrapper) :
    ∀ member ∈ members, isOperatorKey member.1 = true ∧
      (member.1 = doKey ∨ member.1 = whereKey → wrapper.1 = doKey) := by
  simp only [isMixed, hwrapper, List.any_eq_false] at h
  intro member hmember
  have hbeside := h member hmember
  simp only [Bool.or_eq_true, Bool.not_eq_true', Bool.and_eq_true, decide_eq_true_eq, not_or,
    Bool.not_eq_false, not_and] at hbeside
  obtain ⟨hoperator, haddress⟩ := hbeside
  refine ⟨hoperator, fun hkey => by_contra fun hne => ?_⟩
  obtain ⟨hdo, hwhere⟩ := haddress hne
  exact hkey.elim hdo hwhere

/-- The first drill wrapper is the payload when it stands at `_$do_`. -/
lemma find?_doKey_of_wrapper {wrapper : String × Value}
    (hwrapper : (members.find? fun member => isDrillWrapper member.1) = some wrapper)
    (hkey : wrapper.1 = doKey) : Keyed.find? doKey members = some wrapper.2 := by
  induction members with
  | nil => exact absurd hwrapper (by simp)
  | cons entry rest ih =>
      by_cases hdrills : isDrillWrapper entry.1 = true
      · rw [List.find?_cons_of_pos (by simpa using hdrills)] at hwrapper
        obtain rfl := Option.some.inj hwrapper
        rw [← hkey]
        exact Keyed.find?_cons_self _ _ _
      · have hne : entry.1 ≠ doKey := by
          intro hdo
          exact hdrills (by rw [hdo]; decide)
        rw [List.find?_cons_of_neg (by simpa using hdrills)] at hwrapper
        rw [Keyed.find?_cons_of_ne hne]
        exact ih hwrapper

/-- Where nothing is mixed, what names something at its place is named: in a value as a whole, and, when
it is an object, in its members. -/
structure NamesPlaces (value : Value) : Prop where
  whole : ∀ path, IsPlain path → (∀ place ∈ placesAt (some path) value, isMixed place.value = false) →
    ∀ place ∈ placesAt (some path) value, place.names = true →
      namesValue ⟨true, some path⟩ value = true
  inside : ∀ members, value = .object members → ∀ above path, IsPlain path →
    (∀ place ∈ placesOfMembers (some path) members, isMixed place.value = false) →
      ∀ place ∈ placesOfMembers (some path) members, place.names = true →
        namesMembers ⟨above, some path⟩ members = true

lemma namesPlaces_members (h : ∀ entry ∈ members, NamesPlaces entry.2) (hplain : IsPlain path)
    (hunmixed : ∀ place ∈ placesOfMembers (some path) members, isMixed place.value = false)
    {place : Place} (hplace : place ∈ placesOfMembers (some path) members)
    (hnames : place.names = true) (above : Bool) :
    namesMembers ⟨above, some path⟩ members = true := by
  rw [placesOfMembers_eq_flatMap] at hunmixed hplace
  obtain ⟨⟨key, value⟩, hentry, hplace⟩ := List.mem_flatMap.1 hplace
  have hvalue := fun other hother => hunmixed other (List.mem_flatMap.2 ⟨_, hentry, hother⟩)
  cases hbelow : Route.below key (some path) with
  | none => simp [hbelow, placesAt_none] at hplace
  | some rest =>
      rw [hbelow] at hplace hvalue
      have hleads := hplain.leadsNames hbelow above
      rw [namesMembers_eq_any]
      refine List.any_eq_true.2 ⟨_, hentry, ?_⟩
      rw [hleads.into, (h _ hentry).whole rest hleads.plain hvalue place hplace hnames]
      simp [hleads.named]

/-- A payload is read in the drill wrapper where it stands. -/
lemma namesDrilled_of_payload (h : ∀ entry ∈ members, NamesPlaces entry.2) (hplain : IsPlain path)
    (hself : isMixed (.object members) = false)
    (hunmixed : ∀ place ∈ placesOfPayload (some path) members, isMixed place.value = false)
    {place : Place} (hplace : place ∈ placesOfPayload (some path) members)
    (hnames : place.names = true) : namesDrilled ⟨true, some path⟩ members = some true := by
  rw [placesOfPayload_eq] at hunmixed hplace
  cases hdo : Keyed.find? doKey members with
  | none => simp [hdo] at hplace
  | some payload =>
      have hmem := Keyed.mem_of_find? hdo
      have hdrills : isDrillWrapper doKey = true := by decide
      cases hwrapper : members.find? fun member => isDrillWrapper member.1 with
      | none => exact absurd hdrills (List.find?_eq_none.1 hwrapper _ hmem)
      | some wrapper =>
          have hkey := (beside_of_not_isMixed hself hwrapper _ hmem).2 (Or.inl rfl)
          obtain rfl : payload = wrapper.2 :=
            Option.some.inj (hdo.symm.trans (find?_doKey_of_wrapper hwrapper hkey))
          rw [namesDrilled_eq_find?, hwrapper, Option.map_some]
          cases hvalue : wrapper.2 with
          | object inner =>
              rw [hdo, Option.elim_some, hvalue] at hunmixed hplace
              rw [hvalue] at hmem
              exact congrArg some
                ((h _ hmem).inside inner rfl true path hplain hunmixed place hplace hnames)
          | _ => rfl

lemma namesPlaces_object (h : ∀ entry ∈ members, NamesPlaces entry.2) (hplain : IsPlain path)
    (hunmixed : ∀ place ∈ placesAt (some path) (.object members), isMixed place.value = false)
    {place : Place} (hplace : place ∈ placesAt (some path) (.object members))
    (hnames : place.names = true) : namesValue ⟨true, some path⟩ (.object members) = true := by
  by_cases halone : standsAlone (.object members) = true
  · exact namesValue_of_standsAlone halone path
  have hself : isMixed (.object members) = false :=
    hunmixed ⟨some path, .object members⟩ (by simp [placesAt, here])
  rw [placesAt] at hunmixed hplace
  rcases List.mem_append.1 hplace with hplace | hinside
  · rcases List.mem_append.1 hplace with hhere | hpayload
    · obtain rfl : place = ⟨some path, .object members⟩ := by simpa [here] using hhere
      exact namesValue_of_names hnames
    · rw [namesValue, if_neg halone, namesDrilled_of_payload h hplain hself (fun other hother =>
        hunmixed other (List.mem_append_left _ (List.mem_append_right _ hother))) hpayload hnames]
      rfl
  · rw [namesValue, if_neg halone, namesDrilled_eq_find?]
    cases hwrapper : members.find? fun member => isDrillWrapper member.1 with
    | none =>
        exact namesPlaces_members h hplain
          (fun other hother => hunmixed other (List.mem_append_right _ hother)) hinside hnames true
    | some wrapper =>
        -- beside a wrapper there are only operators, and a plain path does not lead below them
        rw [placesOfMembers_eq_flatMap] at hinside
        obtain ⟨entry, hentry, hinside⟩ := List.mem_flatMap.1 hinside
        have hoperator := (beside_of_not_isMixed hself hwrapper entry hentry).1
        rw [hplain.below_operator hoperator, placesAt_none] at hinside
        exact absurd hinside List.not_mem_nil

lemma namesPlaces_array {items : List Value} (h : ∀ item ∈ items, NamesPlaces item)
    (hplain : IsPlain path)
    (hunmixed : ∀ place ∈ placesAt (some path) (.array items), isMixed place.value = false)
    {place : Place} (hplace : place ∈ placesAt (some path) (.array items))
    (hnames : place.names = true) : namesValue ⟨true, some path⟩ (.array items) = true := by
  rw [placesAt] at hunmixed hplace
  rcases List.mem_append.1 hplace with hhere | hinside
  · obtain rfl : place = ⟨some path, .array items⟩ := by simpa [here] using hhere
    exact namesValue_of_names hnames
  · rw [placesOfItems_eq_flatMap] at hunmixed hinside
    obtain ⟨item, hitem, hinside⟩ := List.mem_flatMap.1 hinside
    rw [namesValue, Bool.or_eq_true, namesItems_eq_any]
    cases item with
    | object members =>
        refine Or.inr (List.any_eq_true.2 ⟨_, hitem, ?_⟩)
        have hmembers := fun other hother =>
          hunmixed other (List.mem_append_right _ (List.mem_flatMap.2 ⟨_, hitem, hother⟩))
        exact (h _ hitem).inside members rfl true path hplain hmembers place hinside hnames
    | _ => exact absurd hinside List.not_mem_nil

lemma namesPlaces (value : Value) : NamesPlaces value := by
  induction value using Value.inductionOn with
  | object members ih =>
      refine ⟨fun path hplain hunmixed place hplace hnames =>
        namesPlaces_object ih hplain hunmixed hplace hnames, ?_⟩
      rintro others hothers above path hplain hunmixed place hplace hnames
      obtain rfl : members = others := by simpa using hothers
      exact namesPlaces_members ih hplain hunmixed hplace hnames above
  | array items ih =>
      exact ⟨fun path hplain hunmixed place hplace hnames =>
        namesPlaces_array ih hplain hunmixed hplace hnames,
        fun members hmembers => absurd hmembers (by simp)⟩
  | _ => exact ⟨fun _ _ _ _ _ _ => rfl, fun members hmembers => absurd hmembers (by simp)⟩

/-- What is named below a field is named above it. -/
lemma IsPlain.namesStep_field {key : String} {argument : Value} {rest : List String}
    (hplain : IsPlain path) (hkey : UpdateKey.ofKey key = .field)
    (hbelow : Route.below key (some path) = some rest)
    (hargument : namesField ⟨true, some rest⟩ argument = true) (above : Bool) :
    namesStep ⟨above, some path⟩ (key, argument) = true := by
  have hleads := hplain.leadsNames hbelow above
  simp [namesStep, hkey, hleads.named, hleads.into, hargument]

/-- **Where nothing is mixed, what names something at its place is named.** -/
theorem named_of_place (command : Value) : ∀ (above : Bool) (path : List String), IsPlain path →
    (∀ place ∈ fieldPlaces (some path) command, isMixed place.value = false) →
      ∀ place ∈ fieldPlaces (some path) command, place.names = true →
        namesField ⟨above, some path⟩ command = true := by
  induction command using Value.inductionOn with
  | object command ih =>
      intro above path hplain hunmixed place hplace hnames
      rw [fieldPlaces, commandPlaces_eq_flatMap] at hunmixed hplace
      obtain ⟨⟨key, argument⟩, hentry, hplace⟩ := List.mem_flatMap.1 hplace
      have hstep := fun other hother => hunmixed other (List.mem_flatMap.2 ⟨_, hentry, hother⟩)
      rw [namesField, namesCommand_eq_any]
      refine List.any_eq_true.2 ⟨_, hentry, ?_⟩
      unfold stepPlaces at hplace hstep
      cases hkey : UpdateKey.ofKey key with
      | verb verb =>
          simp only [hkey] at hplace hstep
          simp only [namesStep, hkey]
          cases argument with
          | object argument =>
              exact (namesPlaces (.object argument)).inside argument rfl above path hplain hstep place
                hplace hnames
          | _ => exact absurd hplace List.not_mem_nil
      | field =>
          simp only [hkey] at hplace hstep
          cases hbelow : Route.below key (some path) with
          | none => simp [hbelow, fieldPlaces_none] at hplace
          | some rest =>
              rw [hbelow] at hplace hstep
              have hrest := (hplain.leadsNames hbelow above).plain
              exact hplain.namesStep_field hkey hbelow
                (ih _ hentry true rest hrest hstep place hplace hnames) above
      | _ => simp [hkey] at hplace
  | _ => exact fun _ _ _ _ place hplace => absurd hplace List.not_mem_nil

/-- What the command for a field at the end of a path names is named. -/
def NamesEnds (command : Value) : Prop :=
  ∀ path, IsPlain path → ∀ inner ∈ fieldEnds (some path) command, namesCommand .ended inner = true →
    namesField ⟨true, some path⟩ command = true

lemma namesCommand_of_end (h : ∀ entry ∈ members, NamesEnds entry.2) (hplain : IsPlain path)
    {inner : Members} (hinner : inner ∈ commandEnds (some path) members)
    (hnames : namesCommand .ended inner = true) (above : Bool) :
    namesCommand ⟨above, some path⟩ members = true := by
  rw [commandEnds_eq_flatMap] at hinner
  obtain ⟨⟨key, argument⟩, hentry, hinner⟩ := List.mem_flatMap.1 hinner
  rw [namesCommand_eq_any]
  refine List.any_eq_true.2 ⟨_, hentry, ?_⟩
  unfold stepEnds at hinner
  cases hkey : UpdateKey.ofKey key with
  | field =>
      simp only [hkey] at hinner
      cases hbelow : Route.below key (some path) with
      | none => simp [hbelow, fieldEnds_none] at hinner
      | some rest =>
          rw [hbelow] at hinner
          have hrest := (hplain.leadsNames hbelow above).plain
          exact hplain.namesStep_field hkey hbelow (h _ hentry rest hrest inner hinner hnames) above
  | _ => simp [hkey] at hinner

lemma namesEnds (command : Value) : NamesEnds command := by
  induction command using Value.inductionOn with
  | object command ih =>
      intro path hplain inner hinner hnames
      rcases List.mem_append.1 hinner with hown | hinside
      · by_cases hend : path = []
        · obtain rfl : inner = command := by simpa [hend] using hown
          rw [hend]
          exact hnames
        · simp [hend] at hown
      · exact namesCommand_of_end ih hplain hinside hnames true
  | _ => exact fun _ _ _ hinner => absurd hinner List.not_mem_nil

/-- What a field at the end of a path names is named. -/
theorem named_of_end {inner : Members} (hplain : IsPlain path)
    (hinner : inner ∈ commandEnds (some path) members) (hnames : namesCommand .ended inner = true) :
    namesCommand ⟨false, some path⟩ members = true :=
  namesCommand_of_end (fun entry _ => namesEnds entry.2) hplain hinner hnames false

end Names

/-! ## Gaps of written paths -/

section Settings

variable {versionKey : String} {route : Route}

/-- The places where a value is merged in are places on the path. -/
lemma mergedPlaces_subset (value : Value) :
    ∀ route, mergedPlaces route value ⊆ placesAt route value := by
  induction value using Value.inductionOn with
  | object patches ih =>
      intro route place hplace
      rw [mergedPlaces, mergedPlacesOfMembers_eq_flatMap] at hplace
      rw [placesAt, placesOfMembers_eq_flatMap]
      rcases List.mem_append.1 hplace with hhere | hinside
      · exact List.mem_append_left _ (List.mem_append_left _ hhere)
      · obtain ⟨entry, hentry, hinside⟩ := List.mem_flatMap.1 hinside
        exact List.mem_append_right _ (List.mem_flatMap.2 ⟨entry, hentry, ih entry hentry _ hinside⟩)
  | array items =>
      intro route
      rw [placesAt]
      exact List.subset_append_left _ _
  | _ => exact fun _ => List.Subset.refl _

lemma settablePlaces_subset (payload : Members) :
    mergedPlacesOfMembers route (settable versionKey payload) ⊆ placesOfMembers route payload := by
  intro place hplace
  rw [mergedPlacesOfMembers_eq_flatMap] at hplace
  obtain ⟨entry, hentry, hplace⟩ := List.mem_flatMap.1 hplace
  rw [placesOfMembers_eq_flatMap]
  exact List.mem_flatMap.2 ⟨entry, (List.mem_filter.1 hentry).1, mergedPlaces_subset _ _ hplace⟩

lemma settingPlaces_subset (value : Value) :
    settingPlaces versionKey route value ⊆ placesAt route value := by
  intro place hplace
  cases value with
  | object argument =>
      unfold settingPlaces at hplace
      dsimp only at hplace
      cases haddress : Address.ofMembers argument with
      | direct =>
          rw [haddress] at hplace
          exact mergedPlaces_subset _ _ hplace
      | matching predicate payload =>
          rcases payload with _ | payload
          · simp [haddress] at hplace
          · cases payload with
            | object payload =>
                rw [haddress] at hplace
                rw [placesAt]
                rcases List.mem_append.1 hplace with hwhole | hinside
                · by_cases hempty : predicate.isEmpty = true
                  · rw [if_pos hempty] at hwhole
                    exact List.mem_append_left _ (List.mem_append_left _ hwhole)
                  · simp [hempty] at hwhole
                · refine List.mem_append_left _ (List.mem_append_right _ ?_)
                  rw [placesOfPayload_eq, (Address.of_matching haddress).2]
                  exact settablePlaces_subset payload hinside
            | _ => simp [haddress] at hplace
      | refused => simp [haddress] at hplace
  | _ => exact mergedPlaces_subset _ _ hplace

/-- The places of `$set` are places on the path. -/
lemma fieldSettings_subset (command : Value) :
    ∀ route, fieldSettings versionKey route command ⊆ fieldPlaces route command := by
  induction command using Value.inductionOn with
  | object command ih =>
      intro route place hplace
      rw [fieldSettings, commandSettings_eq_flatMap] at hplace
      rw [fieldPlaces, commandPlaces_eq_flatMap]
      obtain ⟨⟨key, argument⟩, hentry, hplace⟩ := List.mem_flatMap.1 hplace
      refine List.mem_flatMap.2 ⟨_, hentry, ?_⟩
      unfold stepSettings at hplace
      unfold stepPlaces
      cases hkey : UpdateKey.ofKey key with
      | verb verb =>
          cases verb with
          | set =>
              simp only [hkey] at hplace
              cases argument with
              | object argument =>
                  obtain ⟨member, hmember, hplace⟩ := List.mem_flatMap.1 hplace
                  simp only [argumentPlaces, placesOfMembers_eq_flatMap]
                  exact List.mem_flatMap.2
                    ⟨member, (List.mem_filter.1 hmember).1, settingPlaces_subset _ hplace⟩
              | _ => exact absurd hplace List.not_mem_nil
          | _ => simp [hkey] at hplace
      | field =>
          simp only [hkey] at hplace
          exact ih _ hentry _ hplace
      | _ => simp [hkey] at hplace
  | _ => exact fun _ => List.nil_subset _

end Settings

/-- A value that no path leads on through stands alone. -/
lemma standsAlone_of_isClosed {value : Value} (h : isClosed value = true) :
    standsAlone value = true := by
  cases value with
  | object members => exact absurd h (by simp [isClosed])
  | array items => exact Bool.or_eq_true_iff.2 (Or.inr h)
  | _ => rfl

/-- A removal is a predicate without a payload. -/
lemma mem_of_isRemoval {members : Members} (h : isRemoval (.object members) = true) :
    Keyed.find? doKey members = none ∧ ∃ predicate, (whereKey, .object predicate) ∈ members := by
  unfold isRemoval at h
  cases haddress : Address.ofMembers members with
  | matching predicate payload =>
      obtain ⟨hwhere, hdo⟩ := Address.of_matching haddress
      cases payload with
      | none => exact ⟨hdo, predicate, Keyed.mem_of_find? hwhere⟩
      | some payload => simp [haddress] at h
  | _ => simp [haddress] at h

/-- A removal stands alone, except beside a drill wrapper. -/
lemma standsAlone_of_isRemoval {value : Value} (h : isRemoval value = true)
    (hmixed : isMixed value = false) : standsAlone value = true := by
  cases value with
  | object members =>
      obtain ⟨hdo, predicate, hmem⟩ := mem_of_isRemoval h
      unfold standsAlone
      cases hwrapper : members.find? fun member => isDrillWrapper member.1 with
      | none =>
          have hany : (members.any fun member => isOperatorKey member.1) = true :=
            List.any_eq_true.2 ⟨_, hmem, show isOperatorKey whereKey = true by decide⟩
          simp [hwrapper, hany]
      | some wrapper =>
          -- the payload would be in the wrapper, and there is none
          have hkey := (beside_of_not_isMixed hmixed hwrapper _ hmem).2 (Or.inr rfl)
          exact absurd hkey
            (Keyed.find?_eq_none_iff.1 hdo wrapper (List.mem_of_find?_eq_some hwrapper))
  | _ => exact absurd h (by simp [isRemoval])

/-- **A path that is written and not named has a gap.** -/
theorem gap_of_written {versionKey path : String} {command : Members} {doc : Value}
    (hplain : IsPlain (Path.segments path)) (hwritten : Written versionKey command doc path)
    (hunnamed : ¬ Named command path) : Gap versionKey command doc path := by
  by_contra hgap
  have hmixed : ∀ place ∈ commandPlaces (some (Path.segments path)) command,
      isMixed place.value = false := fun place hplace =>
    Bool.eq_false_iff.2 fun hmixed => hgap (.mixed hplace hmixed)
  have hnone : ∀ place ∈ commandPlaces (some (Path.segments path)) command, place.names = false :=
    fun place hplace => Bool.eq_false_iff.2 fun hnames =>
      hunnamed (named_of_place (.object command) false _ hplain hmixed place hplace hnames)
  have halone : ∀ place ∈ commandPlaces (some (Path.segments path)) command,
      standsAlone place.value = false := fun place hplace =>
    (Bool.or_eq_false_iff.1 (hnone place hplace)).1
  have hsetting : ∀ place ∈ commandSettings versionKey (some (Path.segments path)) command,
      standsAlone place.value = false := fun place hplace =>
    halone place (fieldSettings_subset (.object command) _ hplace)
  cases hwritten with
  | key hplace => exact hgap (.key hplace (Bool.or_eq_false_iff.1 (hnone _ hplace)).2)
  | field hinner =>
      exact hgap (.field hinner
        (Bool.eq_false_iff.2 fun hnames => hunnamed (named_of_end hplain hinner hnames)))
  | value hplace hclosed =>
      exact absurd (standsAlone_of_isClosed hclosed) (by simp [halone _ hplace])
  | removal hplace hremoval =>
      exact absurd (standsAlone_of_isRemoval hremoval (hmixed _ hplace)) (by simp [halone _ hplace])
  | list hplace hleaf => exact hgap (.list hplace (hsetting _ hplace) hleaf)
  | object hplace hleaf => exact hgap (.object hplace (hsetting _ hplace) hleaf)

end DocumentAccess.Update
