import DocumentAccess.Filter.Native
import DocumentAccess.Proofs.Filter.Touched

/-!
# Named fields and touched paths

A filter *names* a field wherever a key that is no operator has nothing but operators beneath it.  The
paths that are checked for a filter should cover every field that it names.  They do, except for the
fields that the walk over the filter does not look at:

* what stands beside an element match, or another drill wrapper, at one level;
* what stands below an operator at a place that has no path of its own, if an object with operators or a
  wrapper without an object is met there;
* what stands below an operator with a dot in its name;
* a field whose value touches nothing, such as a list of empty objects.

* `Filter.named` — the fields that a filter names.
* `Filter.overlooked` — the named fields in one of these positions.
* **`Filter.covered_of_named`** — any other named field is covered.
* **`Filter.namedFields_covered_iff`** — so a filter is covered exactly when its overlooked fields are.
-/

namespace DocumentAccess.Filter

/-! ## Named fields -/

mutual

/-- Some key in the value is no operator. -/
def hasField : Value → Bool
  | .object members => hasFieldMember members
  | .array items => hasFieldItem items
  | _ => false

def hasFieldMember : List (String × Value) → Bool
  | [] => false
  | (key, value) :: rest => !isOperatorKey key || hasField value || hasFieldMember rest

def hasFieldItem : List Value → Bool
  | [] => false
  | .object members :: rest => hasFieldMember members || hasFieldItem rest
  | _ :: rest => hasFieldItem rest

end

/-- A dot in a key. -/
def hasDot (key : String) : Bool :=
  key.toList.contains '.'

/-- A field key without dots that has nothing but operators beneath it. -/
def isInnermost (key : String) (value : Value) : Bool :=
  key ≠ "" && !hasDot key && !isOperatorKey key && !hasField value

/-- The context below a key: only fields extend it. -/
def contextBelow (context key : String) : String :=
  if isOperatorKey key then context else Path.join context key

mutual

/-- The innermost fields among the members of an object and below them. -/
def named (context : String) : List (String × Value) → List String
  | [] => []
  | (key, value) :: rest =>
    (if key = Path.identifier then []
      else (if isInnermost key value then [Path.join context key] else [])
        ++ namedAt (contextBelow context key) value) ++ named context rest

def namedAt (context : String) : Value → List String
  | .object members => named context members
  | .array items => namedItems context items
  | _ => []

def namedItems (context : String) : List Value → List String
  | [] => []
  | .object members :: rest => named context members ++ namedItems context rest
  | _ :: rest => namedItems context rest

end

/-! ## Overlooked fields -/

mutual

/-- The walk touches the path of a value in which all keys are operators. -/
def touchesPath : Value → Bool
  | .array items =>
    items.isEmpty || items.any (fun item => !item.isObject) || touchesPathItem items
  | .object members => members.isEmpty || (touchesPathDrilled members).getD true
  | _ => true

def touchesPathMember : List (String × Value) → Bool
  | [] => false
  | (key, value) :: rest =>
    (isOperatorKey key && !hasDot key && touchesPath value) || touchesPathMember rest

def touchesPathItem : List Value → Bool
  | [] => false
  | .object members :: rest => touchesPathMember members || touchesPathItem rest
  | _ :: rest => touchesPathItem rest

def touchesPathDrilled : List (String × Value) → Option Bool
  | [] => none
  | (key, value) :: rest =>
    if isDrillWrapper key then
      some (match value with
        | .object members => touchesPathMember members
        | _ => true)
    else touchesPathDrilled rest

end

mutual

/-- The named fields that the walk does not look at, among the members of an object and below them. -/
def overlooked (context : String) : List (String × Value) → List String
  | [] => []
  | (key, value) :: rest =>
    (if key = Path.identifier then []
      else if isOperatorKey key && hasDot key then namedAt context value
      else (if isInnermost key value && !touchesPath value then [Path.join context key] else [])
        ++ overlookedAt (contextBelow context key) value) ++ overlooked context rest

def overlookedAt (context : String) : Value → List String
  | .array items => overlookedItems context items
  | .object members =>
    match overlookedBeside context members with
    | some fields => fields
    | none =>
      if members.any fun member => isOperatorKey member.1 then
        if Path.sanitize context = "" then named context members else []
      else overlooked context members
  | _ => []

def overlookedItems (context : String) : List Value → List String
  | [] => []
  | .object members :: rest => overlooked context members ++ overlookedItems context rest
  | _ :: rest => overlookedItems context rest

/-- What is overlooked in and beside the first drill wrapper, if there is one. -/
def overlookedBeside (context : String) : List (String × Value) → Option (List String)
  | [] => none
  | (key, value) :: rest =>
    if isDrillWrapper key then
      some ((match value with
          | .object members => overlooked context members
          | _ => if Path.sanitize context = "" then namedAt context value else [])
        ++ named context rest)
    else (overlookedBeside context rest).map fun fields => named context [(key, value)] ++ fields

end

/-! ## Coverage -/

/-- A touched path covers all that has the fields of the path in front. -/
lemma covered_of_touched {touched : List String} {path context field : String} (hpath : path ∈ touched)
    (hfields : Path.fields path = Path.fields context) (hcontext : Path.sanitize context ≠ "")
    (hfield : Path.fields context <+: Path.fields field) : TouchedOn touched (Path.fields field) := by
  have hne : Path.fields context ≠ [] := fun h => hcontext (Path.sanitize_eq_empty_iff.2 h)
  exact ⟨path, hpath, hfields ▸ hne, hfields ▸ hfield⟩

lemma not_mem_of_hasDot {key : String} (h : hasDot key = false) : '.' ∉ key.toList := by
  simpa [hasDot] using h

lemma isInnermost_spec {key : String} {value : Value} (h : isInnermost key value = true) :
    key ≠ "" ∧ '.' ∉ key.toList ∧ isOperatorKey key = false ∧ hasField value = false := by
  simp only [isInnermost, Bool.and_eq_true, Bool.not_eq_true', decide_eq_true_eq] at h
  exact ⟨h.1.1.1, not_mem_of_hasDot h.1.1.2, h.1.2, h.2⟩

lemma isInnermost_operator {key : String} (h : isOperatorKey key = true) (value : Value) :
    isInnermost key value = false := by
  simp [isInnermost, h]

/-! ### Named fields extend their context -/

lemma fields_prefix_contextBelow (context key : String) :
    Path.fields context <+: Path.fields (contextBelow context key) := by
  unfold contextBelow
  by_cases hkey : isOperatorKey key = true
  · simp only [if_pos hkey, List.prefix_refl]
  · rw [if_neg hkey]
    exact Path.fields_prefix_join context key

/-- What is named in a value has the fields of the context in front. -/
def NamesBelow (value : Value) : Prop :=
  ∀ context, ∀ field ∈ namedAt context value, Path.fields context <+: Path.fields field

lemma named_prefix {members : Members} (h : ∀ entry ∈ members, NamesBelow entry.2) (context : String) :
    ∀ field ∈ named context members, Path.fields context <+: Path.fields field := by
  induction members with
  | nil => exact fun field hfield => absurd hfield List.not_mem_nil
  | cons entry rest ih =>
      obtain ⟨key, value⟩ := entry
      intro field hfield
      rw [named] at hfield
      rcases List.mem_append.1 hfield with hfield | hfield
      · by_cases hkey : key = Path.identifier
        · simp [hkey] at hfield
        · rw [if_neg hkey] at hfield
          rcases List.mem_append.1 hfield with hfield | hfield
          · obtain ⟨-, rfl⟩ : isInnermost key value = true ∧ field = Path.join context key := by
              simpa using hfield
            exact Path.fields_prefix_join context key
          · exact (fields_prefix_contextBelow context key).trans
              (h (key, value) List.mem_cons_self _ field hfield)
      · exact ih (fun entry hentry => h entry (List.mem_cons_of_mem _ hentry)) field hfield

lemma namesBelow (value : Value) : NamesBelow value := by
  induction value using Value.inductionOn with
  | object members ih =>
      intro context
      rw [namedAt]
      exact named_prefix ih context
  | array items ih =>
      intro context
      rw [namedAt]
      induction items with
      | nil => exact fun field hfield => absurd hfield List.not_mem_nil
      | cons item rest ihrest =>
          have hrest := ihrest fun other hother => ih other (List.mem_cons_of_mem _ hother)
          cases item with
          | object members =>
              intro field hfield
              rw [namedItems] at hfield
              rcases List.mem_append.1 hfield with hfield | hfield
              · exact ih (.object members) List.mem_cons_self context field
                  (by rwa [namedAt])
              · exact hrest field hfield
          | _ => simpa only [namedItems] using hrest
  | _ => exact fun context field hfield => absurd hfield (by simp [namedAt])

/-! ### Values with operators only -/

/-- If all keys of a value are operators and the walk touches its path, then it does so under that
path, or under one that the operators leave with the same fields. -/
structure TouchesBelow (value : Value) : Prop where
  whole : hasField value = false → touchesPath value = true →
    ∀ path, ∃ reached ∈ touchedAt path value, Path.fields reached = Path.fields path
  inside : ∀ members, value = .object members → hasFieldMember members = false →
    touchesPathMember members = true →
    ∀ path, ∃ reached ∈ touched path members, Path.fields reached = Path.fields path

lemma touched_of_touchesPathMember {members : Members}
    (h : ∀ entry ∈ members, TouchesBelow entry.2) (hfield : hasFieldMember members = false)
    (htouches : touchesPathMember members = true) (path : String) :
    ∃ reached ∈ touched path members, Path.fields reached = Path.fields path := by
  induction members with
  | nil => simp [touchesPathMember] at htouches
  | cons entry rest ih =>
      obtain ⟨key, value⟩ := entry
      simp only [hasFieldMember, Bool.or_eq_false_iff, Bool.not_eq_false'] at hfield
      rw [touchesPathMember, Bool.or_eq_true] at htouches
      rcases htouches with hhead | hrest
      · simp only [Bool.and_eq_true, Bool.not_eq_true'] at hhead
        obtain ⟨reached, hmem, hreached⟩ := (h (key, value) List.mem_cons_self).whole hfield.1.2
          hhead.2 (Path.join path key)
        have hkey := ne_identifier_of_isOperatorKey hfield.1.1
        refine ⟨reached, ?_, hreached.trans ?_⟩
        · rw [touched, if_neg hkey]
          exact List.mem_append_left _ hmem
        · exact Path.fields_join_operator hfield.1.1 (not_mem_of_hasDot hhead.1.2) path
      · obtain ⟨reached, hmem, hreached⟩ :=
          ih (fun entry hentry => h entry (List.mem_cons_of_mem _ hentry)) hfield.2 hrest
        refine ⟨reached, ?_, hreached⟩
        rw [touched]
        exact List.mem_append_right _ hmem

lemma touched_of_touchesPathItem {items : List Value} (h : ∀ item ∈ items, TouchesBelow item)
    (hfield : hasFieldItem items = false) (htouches : touchesPathItem items = true) (path : String) :
    ∃ reached ∈ touchedItems path items, Path.fields reached = Path.fields path := by
  induction items with
  | nil => simp [touchesPathItem] at htouches
  | cons item rest ih =>
      have hrest := ih fun other hother => h other (List.mem_cons_of_mem _ hother)
      cases item with
      | object members =>
          simp only [hasFieldItem, Bool.or_eq_false_iff] at hfield
          rw [touchesPathItem, Bool.or_eq_true] at htouches
          rw [touchedItems]
          rcases htouches with hhead | htail
          · obtain ⟨reached, hmem, hreached⟩ :=
              (h _ List.mem_cons_self).inside members rfl hfield.1 hhead path
            exact ⟨reached, List.mem_append_left _ hmem, hreached⟩
          · obtain ⟨reached, hmem, hreached⟩ := hrest hfield.2 htail
            exact ⟨reached, List.mem_append_right _ hmem, hreached⟩
      | _ =>
          simp only [hasFieldItem] at hfield
          simp only [touchesPathItem] at htouches
          simpa only [touchedItems] using hrest hfield htouches

lemma touchesPathDrilled_cons {key : String} (value : Value) (rest : Members)
    (h : ¬ isDrillWrapper key = true) :
    touchesPathDrilled ((key, value) :: rest) = touchesPathDrilled rest := by
  cases value <;> simp [touchesPathDrilled, h]

/-- The first drill wrapper among members is found by the walk and by `touchesPath` alike. -/
lemma touched_of_touchesPathDrilled {members : Members}
    (h : ∀ entry ∈ members, TouchesBelow entry.2) (hfield : hasFieldMember members = false)
    {touches : Bool} (hdrilled : touchesPathDrilled members = some touches) (path : String) :
    ∃ paths, drilled path members = some paths ∧
      (touches = true → ∃ reached ∈ paths, Path.fields reached = Path.fields path) := by
  induction members with
  | nil => simp [touchesPathDrilled] at hdrilled
  | cons entry rest ih =>
      obtain ⟨key, value⟩ := entry
      simp only [hasFieldMember, Bool.or_eq_false_iff] at hfield
      by_cases hkey : isDrillWrapper key = true
      · cases value with
        | object members =>
            have hinside : hasFieldMember members = false := by simpa [hasField] using hfield.1.2
            obtain rfl : touchesPathMember members = touches := by
              simpa [touchesPathDrilled, hkey] using hdrilled
            refine ⟨_, drilled_object path rest hkey members, fun htouches => ?_⟩
            exact (h _ List.mem_cons_self).inside members rfl hinside htouches path
        | _ =>
            exact ⟨_, drilled_of_not_object path rest hkey rfl,
              fun _ => ⟨path, List.mem_singleton_self path, rfl⟩⟩
      · rw [touchesPathDrilled_cons value rest hkey] at hdrilled
        rw [drilled_cons value path rest hkey]
        exact ih (fun entry hentry => h entry (List.mem_cons_of_mem _ hentry)) hfield.2 hdrilled

lemma touchesPathDrilled_eq_none {members : Members} (h : touchesPathDrilled members = none)
    (path : String) : drilled path members = none := by
  induction members with
  | nil => rfl
  | cons entry rest ih =>
      obtain ⟨key, value⟩ := entry
      by_cases hkey : isDrillWrapper key = true
      · cases value <;> simp [touchesPathDrilled, hkey] at h
      · rw [touchesPathDrilled_cons value rest hkey] at h
        rw [drilled_cons value path rest hkey]
        exact ih h

lemma touchesBelow (value : Value) : TouchesBelow value := by
  induction value using Value.inductionOn with
  | object members ih =>
      refine ⟨fun hfield htouches path => ?_, ?_⟩
      · rw [hasField] at hfield
        rw [touchesPath, Bool.or_eq_true] at htouches
        rw [touchedAt]
        by_cases hempty : members.isEmpty = true
        · rw [if_pos hempty]
          exact ⟨path, List.mem_singleton_self path, rfl⟩
        · rw [if_neg hempty]
          have htouches := htouches.resolve_left hempty
          cases hdrilled : touchesPathDrilled members with
          | some touches =>
              obtain ⟨paths, hpaths, hreached⟩ :=
                touched_of_touchesPathDrilled ih hfield hdrilled path
              rw [hpaths]
              exact hreached (by simpa [hdrilled] using htouches)
          | none =>
              rw [touchesPathDrilled_eq_none hdrilled path]
              -- there is some member, and all members have operator keys
              obtain ⟨⟨key, inner⟩, rest, rfl⟩ := List.exists_cons_of_ne_nil
                (fun hnil => hempty (List.isEmpty_iff.2 hnil))
              simp only [hasFieldMember, Bool.or_eq_false_iff, Bool.not_eq_false'] at hfield
              exact ⟨path, by simp [hfield.1.1], rfl⟩
      · rintro others hothers hfield htouches
        obtain rfl : members = others := by simpa using hothers
        exact touched_of_touchesPathMember ih hfield htouches
  | array items ih =>
      refine ⟨fun hfield htouches path => ?_, fun members hmembers => absurd hmembers (by simp)⟩
      rw [hasField] at hfield
      rw [touchesPath, Bool.or_eq_true] at htouches
      rw [touchedAt]
      rcases htouches with hself | hitem
      · exact ⟨path, List.mem_append_left _ (by simp only [hself, if_true]; exact List.mem_cons_self),
          rfl⟩
      · obtain ⟨reached, hmem, hreached⟩ := touched_of_touchesPathItem ih hfield hitem path
        exact ⟨reached, List.mem_append_right _ hmem, hreached⟩
  | _ =>
      exact ⟨fun _ _ path => ⟨path, by simp [touchedAt], rfl⟩,
        fun members hmembers => absurd hmembers (by simp)⟩

/-! ### The walk and the names -/

/-- Of the named fields, those that no touched path covers are overlooked. -/
structure Seen (touched named overlooked : List String) : Prop where
  subset : overlooked ⊆ named
  covered : ∀ field ∈ named, TouchedOn touched (Path.fields field) ∨ field ∈ overlooked

namespace Seen

variable {touched touched' named named' overlooked overlooked' : List String}

lemma append (h : Seen touched named overlooked) (h' : Seen touched' named' overlooked') :
    Seen (touched ++ touched') (named ++ named') (overlooked ++ overlooked') where
  subset := List.append_subset.2
    ⟨List.Subset.trans h.subset (List.subset_append_left _ _),
      List.Subset.trans h'.subset (List.subset_append_right _ _)⟩
  covered field hfield := by
    rcases List.mem_append.1 hfield with hfield | hfield
    · rcases h.covered field hfield with hcovered | hover
      · exact Or.inl (hcovered.mono (List.subset_append_left _ _))
      · exact Or.inr (List.mem_append_left _ hover)
    · rcases h'.covered field hfield with hcovered | hover
      · exact Or.inl (hcovered.mono (List.subset_append_right _ _))
      · exact Or.inr (List.mem_append_right _ hover)

lemma mono (h : Seen touched named overlooked) (hsub : touched ⊆ touched') :
    Seen touched' named overlooked where
  subset := h.subset
  covered field hfield := (h.covered field hfield).imp_left fun hcovered => hcovered.mono hsub

/-- Nothing needs to be covered where all names are overlooked. -/
lemma all (touched named : List String) : Seen touched named named :=
  ⟨List.Subset.refl _, fun _ hfield => Or.inr hfield⟩

lemma nil (touched : List String) : Seen touched [] [] :=
  all touched []

lemma of_covered (h : ∀ field ∈ named, TouchedOn touched (Path.fields field)) : Seen touched named [] :=
  ⟨List.nil_subset _, fun field hfield => Or.inl (h field hfield)⟩

end Seen

/-- What a value names below a context is seen by the walk over it, under any path with the fields of
the context: as a whole, and, when it is an object, member by member. -/
structure SeenIn (value : Value) : Prop where
  whole : ∀ path context, Path.fields path = Path.fields context →
    Seen (touchedAt path value) (namedAt context value) (overlookedAt context value)
  inside : ∀ members, value = .object members → ∀ path context,
    Path.fields path = Path.fields context →
      Seen (touched path members) (named context members) (overlooked context members)

/-- A touched path covers all that is named below a context with its fields, if it has any. -/
lemma seen_of_touched {reached : List String} {path context : String} (hpath : path ∈ reached)
    (h : Path.fields path = Path.fields context) (value : Value) :
    Seen reached (namedAt context value)
      (if Path.sanitize context = "" then namedAt context value else []) := by
  by_cases hcontext : Path.sanitize context = ""
  · rw [if_pos hcontext]
    exact Seen.all _ _
  · rw [if_neg hcontext]
    exact Seen.of_covered fun field hfield =>
      covered_of_touched hpath h hcontext (namesBelow value context field hfield)

/-- The innermost field at a key is covered if the walk touches the path of its value. -/
lemma seen_innermost {key : String} {value : Value} {path context : String}
    (h : Path.fields path = Path.fields context) :
    Seen (touchedAt (Path.join path key) value)
      (if isInnermost key value then [Path.join context key] else [])
      (if isInnermost key value && !touchesPath value then [Path.join context key] else []) := by
  by_cases hkey : isInnermost key value = true
  · by_cases htouches : touchesPath value = true
    · simp only [hkey, htouches, if_true, Bool.not_true, Bool.and_false, Bool.false_eq_true, if_false]
      obtain ⟨hne, hdot, hoperator, hfield⟩ := isInnermost_spec hkey
      obtain ⟨reached, hmem, hreached⟩ :=
        (touchesBelow value).whole hfield htouches (Path.join path key)
      have hfields : Path.fields reached = Path.fields (Path.join context key) :=
        hreached.trans (Path.fields_join_congr h key)
      refine Seen.of_covered fun field hmemfield => ?_
      obtain rfl := List.mem_singleton.1 hmemfield
      refine ⟨reached, hmem, ?_, hfields ▸ List.prefix_rfl⟩
      rw [hfields, Path.fields_join_field hoperator hdot hne]
      simp
    · simp only [hkey, htouches, if_true, Bool.not_false, Bool.and_true]
      exact Seen.all _ _
  · simp only [hkey, Bool.false_eq_true, if_false, Bool.false_and]
    exact Seen.nil _

lemma fields_join_contextBelow {key path context : String}
    (hkey : isOperatorKey key = true → hasDot key = false)
    (h : Path.fields path = Path.fields context) :
    Path.fields (Path.join path key) = Path.fields (contextBelow context key) := by
  unfold contextBelow
  by_cases hoperator : isOperatorKey key = true
  · rw [if_pos hoperator, Path.fields_join_operator hoperator (not_mem_of_hasDot (hkey hoperator)), h]
  · rw [if_neg hoperator, Path.fields_join_congr h]

lemma seen_members {members : Members} (h : ∀ entry ∈ members, SeenIn entry.2) {path context : String}
    (hfields : Path.fields path = Path.fields context) :
    Seen (touched path members) (named context members) (overlooked context members) := by
  induction members with
  | nil => exact Seen.nil _
  | cons entry rest ih =>
      obtain ⟨key, value⟩ := entry
      rw [touched, named, overlooked]
      refine Seen.append ?_ (ih fun entry hentry => h entry (List.mem_cons_of_mem _ hentry))
      by_cases hidentifier : key = Path.identifier
      · simp only [if_pos hidentifier]
        exact Seen.nil _
      · simp only [if_neg hidentifier]
        by_cases hdotted : (isOperatorKey key && hasDot key) = true
        · obtain ⟨hoperator, -⟩ := Bool.and_eq_true_iff.1 hdotted
          rw [if_pos hdotted, isInnermost_operator hoperator, contextBelow, if_pos hoperator]
          simpa using Seen.all _ (namedAt context value)
        · rw [if_neg hdotted]
          have hkey : isOperatorKey key = true → hasDot key = false := by
            simpa using hdotted
          have hvalue := (h (key, value) List.mem_cons_self).whole _ _
            (fields_join_contextBelow hkey hfields)
          exact ((seen_innermost hfields).append hvalue).mono
            (List.append_subset.2 ⟨List.Subset.refl _, List.Subset.refl _⟩)

lemma seen_items {items : List Value} (h : ∀ item ∈ items, SeenIn item) {path context : String}
    (hfields : Path.fields path = Path.fields context) :
    Seen (touchedItems path items) (namedItems context items) (overlookedItems context items) := by
  induction items with
  | nil => exact Seen.nil _
  | cons item rest ih =>
      have hrest := ih fun other hother => h other (List.mem_cons_of_mem _ hother)
      cases item with
      | object members =>
          rw [touchedItems, namedItems, overlookedItems]
          exact ((h _ List.mem_cons_self).inside members rfl path context hfields).append hrest
      | _ => simpa only [touchedItems, namedItems, overlookedItems] using hrest

/-- Of an object with a drill wrapper, what is named beside the wrapper is overlooked. -/
lemma seen_drilled {members : Members} (h : ∀ entry ∈ members, SeenIn entry.2)
    {path context : String} (hfields : Path.fields path = Path.fields context) {paths : List String}
    (hdrilled : drilled path members = some paths) :
    ∃ fields, overlookedBeside context members = some fields ∧
      Seen paths (named context members) fields := by
  induction members generalizing paths with
  | nil => simp [drilled] at hdrilled
  | cons entry rest ih =>
      obtain ⟨key, value⟩ := entry
      by_cases hkey : isDrillWrapper key = true
      · have hoperator := isOperatorKey_of_isDrillWrapper hkey
        have hidentifier := ne_identifier_of_isOperatorKey hoperator
        have hnamed : named context ((key, value) :: rest)
            = namedAt context value ++ named context rest := by
          simp [named, hidentifier, isInnermost_operator hoperator, contextBelow, hoperator]
        rw [hnamed]
        have hbeside : Seen paths (named context rest) (named context rest) := Seen.all _ _
        cases value with
        | object members =>
            rw [drilled_object path rest hkey] at hdrilled
            obtain rfl := Option.some.inj hdrilled
            refine ⟨_, by simp only [overlookedBeside, if_pos hkey]; rfl, ?_⟩
            have hinside := (h _ List.mem_cons_self).inside members rfl path context hfields
            simpa only [namedAt] using
              (hinside.append hbeside).mono (List.append_subset.2 ⟨fun _ hm => hm, fun _ hm => hm⟩)
        | _ =>
            rw [drilled_of_not_object path rest hkey rfl] at hdrilled
            obtain rfl := Option.some.inj hdrilled
            refine ⟨_, by simp only [overlookedBeside, if_pos hkey]; rfl, ?_⟩
            exact ((seen_of_touched (List.mem_singleton_self path) hfields _).append hbeside).mono
              (List.append_subset.2 ⟨fun _ hm => hm, fun _ hm => hm⟩)
      · rw [drilled_cons value path rest hkey] at hdrilled
        obtain ⟨fields, hfieldsEq, hseen⟩ :=
          ih (fun entry hentry => h entry (List.mem_cons_of_mem _ hentry)) hdrilled
        have hbeside : overlookedBeside context ((key, value) :: rest)
            = some (named context [(key, value)] ++ fields) := by
          cases value <;> simp [overlookedBeside, hkey, hfieldsEq]
        have hnamed : named context ((key, value) :: rest)
            = named context [(key, value)] ++ named context rest := by
          simp [named]
        rw [hnamed]
        exact ⟨_, hbeside, ((Seen.all paths _).append hseen).mono
          (List.append_subset.2 ⟨fun _ hm => hm, fun _ hm => hm⟩)⟩

lemma overlookedBeside_eq_none {members : Members} {path : String}
    (h : drilled path members = none) (context : String) :
    overlookedBeside context members = none := by
  induction members with
  | nil => rfl
  | cons entry rest ih =>
      obtain ⟨key, value⟩ := entry
      by_cases hkey : isDrillWrapper key = true
      · cases value <;> simp [drilled, hkey] at h
      · rw [drilled_cons value path rest hkey] at h
        cases value <;> simp [overlookedBeside, hkey, ih h]

lemma seenIn (value : Value) : SeenIn value := by
  induction value using Value.inductionOn with
  | object members ih =>
      refine ⟨fun path context hfields => ?_, ?_⟩
      · rw [touchedAt, overlookedAt]
        by_cases hempty : members.isEmpty = true
        · obtain rfl := List.isEmpty_iff.1 hempty
          simpa [namedAt, named, overlookedBeside, overlooked] using Seen.nil _
        · rw [if_neg hempty]
          cases hdrilled : drilled path members with
          | some paths =>
              obtain ⟨fields, hbeside, hseen⟩ := seen_drilled ih hfields hdrilled
              simpa only [hbeside, namedAt] using hseen
          | none =>
              simp only [overlookedBeside_eq_none hdrilled context]
              by_cases hoperator : (members.any fun member => isOperatorKey member.1) = true
              · simp only [if_pos hoperator]
                simpa only [namedAt] using
                  seen_of_touched (List.mem_singleton_self path) hfields (.object members)
              · simp only [if_neg hoperator, namedAt]
                exact seen_members ih hfields
      · rintro others hothers path context hfields
        obtain rfl : members = others := by simpa using hothers
        exact seen_members ih hfields
  | array items ih =>
      refine ⟨fun path context hfields => ?_, fun members hmembers => absurd hmembers (by simp)⟩
      rw [touchedAt, namedAt, overlookedAt]
      exact (seen_items ih hfields).mono (List.subset_append_right _ _)
  | _ =>
      exact ⟨fun path context _ => Seen.nil _, fun members hmembers => absurd hmembers (by simp)⟩

/-! ## Filters -/

/-- The innermost fields of a filter. -/
def namedFields : Value → List String
  | .object members => named "" members
  | _ => []

/-- The innermost fields of a filter that the walk over it does not look at. -/
def overlookedFields : Value → List String
  | .object members => overlooked "" members
  | _ => []

/-- The paths of a filter have the field, or a dotted ancestor of it, among them. -/
def CoveredBy (paths : List String) (field : String) : Prop :=
  ∃ path ∈ paths, Path.segments path <+: Path.segments (Path.sanitize field)

instance (paths : List String) (field : String) : Decidable (CoveredBy paths field) :=
  inferInstanceAs (Decidable (∃ path ∈ paths, _))

/-- What covers a field among the touched paths still does so after they are sanitized. -/
lemma coveredBy_paths {members : Members} {field : String}
    (h : TouchedOn (touched "" members) (Path.fields field)) :
    CoveredBy (paths (.object members)) field := by
  have hfield : Path.fields field ≠ [] := by
    obtain ⟨path, -, hne, hprefix⟩ := h
    exact fun hnil => hne (List.prefix_nil.1 (hnil ▸ hprefix))
  obtain ⟨path, hpath, hsegments⟩ := h.collect
  exact ⟨path, hpath, by rwa [Path.segments_sanitize hfield]⟩

/-- **Every field that a filter names is covered by its paths, unless it is overlooked.** -/
theorem covered_of_named (filter : Value) :
    ∀ field ∈ namedFields filter,
      CoveredBy (paths filter) field ∨ field ∈ overlookedFields filter := by
  intro field hfield
  cases filter with
  | object members =>
      exact (((seenIn (.object members)).inside members rfl "" "" rfl).covered field hfield).imp_left
        coveredBy_paths
  | _ => exact absurd hfield List.not_mem_nil

/-- Only named fields are overlooked. -/
lemma overlookedFields_subset (filter : Value) :
    overlookedFields filter ⊆ namedFields filter := by
  cases filter with
  | object members => exact ((seenIn (.object members)).inside members rfl "" "" rfl).subset
  | _ => exact List.Subset.refl _

/-- **The paths of a native filter cover all fields that it names exactly when they cover those that
the walk overlooks**; they then do so because of what some other part of the filter touches. -/
theorem namedFields_covered_iff (members : Members) :
    (∀ field ∈ namedFields (toNative (.object members)),
        CoveredBy (paths (toNative (.object members))) field) ↔
      ∀ field ∈ overlookedFields (toNative (.object members)),
        CoveredBy (paths (toNative (.object members))) field := by
  refine ⟨fun h field hfield => h field (overlookedFields_subset _ hfield), fun h field hfield => ?_⟩
  rcases covered_of_named _ field hfield with hcovered | hover
  · exact hcovered
  · exact h field hover

/-- The paths of a translated filter do not cover a field that it names. -/
def Misses (filter : Value) : Prop :=
  ∃ field ∈ namedFields (toNative filter), ¬ CoveredBy (paths (toNative filter)) field

instance (filter : Value) : Decidable (Misses filter) :=
  inferInstanceAs (Decidable (∃ field ∈ namedFields (toNative filter), _))

/-- A field can be overlooked in each of the ways: beside an element match, in an object of operators
under a logical group, in a list of empty objects, and below an operator with a dot. -/
theorem namedFields_not_covered :
    Misses (.object [("items", .object [("$elemMatch", .object [("_id", .ofNat 1)]),
      ("$not", .object [("$elemMatch", .object [("secret", .ofNat 1)])])])]) ∧
    Misses (.object [("$and", .object [("$or", .array [.object [("secret", .ofNat 1)]])])]) ∧
    Misses (.object [("secret", .array [.object []])]) ∧
    Misses (.object [("$x.y", .object [("secret", .ofNat 1)])]) := by
  decide

end DocumentAccess.Filter
