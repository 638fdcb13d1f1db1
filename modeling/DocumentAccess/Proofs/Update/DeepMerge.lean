import DocumentAccess.Proofs.Update.Misreading

/-!
# `$set` as a deep merge

A direct `$set` merges its argument into the document: objects member by member, and any other value in
place of what was there.  So the argument is told by its ends, the values that are not taken apart any
further, and each key sequence of the new document has either such a value or its old one.

* `Update.find?_mergeMembers`, `Update.lookup_merge` — what is found in a merged object, one key and a
  sequence of keys deep.
* `Update.merge_merge` — merging twice changes nothing more.
* `Update.Writes` — the ends of an argument, and the key sequences that lead to them.
* `Update.DeepMerge` — what `$set` makes of a document, in terms of the ends of its argument.
* **`Update.set_deepMerge`** — it does so, succeeds, and changes nothing when applied again.
-/

namespace DocumentAccess.Update

open Value

/-! ## Merged objects -/

section Merge

variable {key : String} {members patches : Members} {target patch : Value}

/-- What is no object replaces what it is merged into. -/
lemma merge_of_not_object (h : patch.isObject = false) (target : Value) :
    merge target patch = patch := by
  cases patch with
  | object patches => simp [isObject] at h
  | _ => rfl

/-- What an object is merged into is replaced when it is none. -/
lemma merge_into_not_object (h : target.isObject = false) (patch : Value) :
    merge target patch = patch := by
  cases patch with
  | object patches =>
      cases target with
      | object members => simp [isObject] at h
      | _ => rfl
  | _ => rfl

lemma mergeMembers_cons (key : String) (patch : Value) (rest members : Members) :
    mergeMembers members ((key, patch) :: rest)
      = mergeMembers (Keyed.insert key (merged patch (Keyed.find? key members)) members) rest := by
  rw [mergeMembers]
  cases Keyed.find? key members <;> rfl

lemma sorted_mergeMembers (h : Keyed.Sorted members) (patches : Members) :
    Keyed.Sorted (mergeMembers members patches) := by
  induction patches generalizing members with
  | nil => exact h
  | cons entry rest ih =>
      obtain ⟨key, patch⟩ := entry
      rw [mergeMembers_cons]
      exact ih (h.insert key _)

/-- A member that a patch is for becomes what the patch makes of it, and the others stay. -/
lemma find?_mergeMembers (h : (patches.map Prod.fst).Nodup) (key : String) (members : Members) :
    Keyed.find? key (mergeMembers members patches)
      = (Keyed.find? key patches).elim (Keyed.find? key members) fun patch =>
          some (merged patch (Keyed.find? key members)) := by
  induction patches generalizing members with
  | nil => rfl
  | cons entry rest ih =>
      obtain ⟨k, patch⟩ := entry
      obtain ⟨hnew, hrest⟩ := List.nodup_cons.1 h
      rw [mergeMembers_cons, ih hrest]
      by_cases hk : k = key
      · subst hk
        rw [Keyed.find?_eq_none_of_not_mem hnew, Keyed.find?_cons_self, Option.elim_none,
          Option.elim_some, Keyed.find?_insert_self]
      · rw [Keyed.find?_cons_of_ne hk, Keyed.find?_insert_of_ne (Ne.symm hk)]

/-- Where a patch leads to a value, this value is merged into what was there. -/
lemma lookup_merge {keys : List String} {value : Value} (hpatch : patch.WellOrdered)
    (h : lookup keys patch = some value) (target : Value) :
    lookup keys (merge target patch) = some (merged value (lookup keys target)) := by
  induction keys generalizing target patch with
  | nil =>
      obtain rfl : patch = value := by simpa [lookup] using h
      rfl
  | cons key keys ih =>
      obtain ⟨patches, inner, rfl, hinner, hrest⟩ := lookup_cons_eq_some h
      obtain ⟨hsorted, hvalues⟩ := wellOrdered_object.1 hpatch
      cases target with
      | object members =>
          rw [merge, lookup_cons_object, lookup_cons_object, find?_mergeMembers hsorted.nodup_keys, hinner,
            Option.elim_some, Option.bind_some]
          cases Keyed.find? key members with
          | none => exact hrest
          | some child => exact ih (hvalues _ (Keyed.mem_of_find? hinner)) hrest child
      | _ => exact h

/-- Where a patch does not lead, and has nothing on the way that is put in place of an object, the
merged value leads to what was there. -/
lemma lookup_merge_of_none {keys : List String} (hpatch : patch.WellOrdered)
    (h : lookup keys patch = none)
    (hway : ∀ before, before <+: keys → ∀ value, lookup before patch = some value →
      value.isObject = true) (target : Value) :
    lookup keys (merge target patch) = lookup keys target := by
  induction keys generalizing target patch with
  | nil => simp [lookup] at h
  | cons key keys ih =>
      obtain ⟨patches, rfl⟩ : ∃ patches, patch = .object patches := by
        have hobject := hway [] List.nil_prefix patch rfl
        cases patch with
        | object patches => exact ⟨patches, rfl⟩
        | _ => simp [isObject] at hobject
      obtain ⟨hsorted, hvalues⟩ := wellOrdered_object.1 hpatch
      cases target with
      | object members =>
          rw [merge, lookup_cons_object, lookup_cons_object, find?_mergeMembers hsorted.nodup_keys]
          cases hinner : Keyed.find? key patches with
          | none => rfl
          | some inner =>
              have hrest : lookup keys inner = none := by simpa [hinner] using h
              rw [Option.elim_some, Option.bind_some]
              cases Keyed.find? key members with
              | none => exact hrest
              | some child =>
                  refine ih (hvalues _ (Keyed.mem_of_find? hinner)) hrest (fun before hbefore => ?_) child
                  have hobject := hway (key :: before) ((List.prefix_cons_inj key).2 hbefore)
                  simpa [hinner] using hobject
      | _ =>
          rw [merge_into_not_object rfl, h]
          rfl

/-- What a merged value leads to comes from the patch or was there before. -/
lemma exists_lookup_of_merge {keys : List String} {value : Value} (hpatch : patch.WellOrdered)
    (h : lookup keys (merge target patch) = some value) :
    (∃ inner, lookup keys patch = some inner) ∨ ∃ old, lookup keys target = some old := by
  induction keys generalizing target patch with
  | nil => exact Or.inl ⟨patch, rfl⟩
  | cons key keys ih =>
      cases patch with
      | object patches =>
          cases target with
          | object members =>
              obtain ⟨hsorted, hvalues⟩ := wellOrdered_object.1 hpatch
              rw [merge, lookup_cons_object, find?_mergeMembers hsorted.nodup_keys] at h
              rw [lookup_cons_object, lookup_cons_object]
              cases hinner : Keyed.find? key patches with
              | none =>
                  rw [hinner] at h
                  exact Or.inr ⟨value, h⟩
              | some inner =>
                  rw [hinner, Option.elim_some, Option.bind_some] at h
                  cases hchild : Keyed.find? key members with
                  | none =>
                      rw [hchild] at h
                      exact Or.inl ⟨value, h⟩
                  | some child =>
                      rw [hchild] at h
                      exact ih (hvalues _ (Keyed.mem_of_find? hinner)) h
          | _ => exact Or.inl ⟨value, h⟩
      | _ => exact Or.inl ⟨value, h⟩

/-- A patch that is merged into itself changes nothing. -/
lemma merge_self (hpatch : patch.WellOrdered) : merge patch patch = patch := by
  induction patch using Value.inductionOn with
  | object patches ih =>
      obtain ⟨hsorted, hvalues⟩ := wellOrdered_object.1 hpatch
      rw [merge]
      refine congrArg Value.object ((sorted_mergeMembers hsorted _).ext hsorted fun key => ?_)
      rw [find?_mergeMembers hsorted.nodup_keys]
      cases hfind : Keyed.find? key patches with
      | none => rfl
      | some inner =>
          have hmem := Keyed.mem_of_find? hfind
          exact congrArg some (ih _ hmem (hvalues _ hmem))
  | _ => rfl

/-- **Merging a second time changes nothing more.** -/
theorem merge_merge (hpatch : patch.WellOrdered) (htarget : target.WellOrdered) :
    merge (merge target patch) patch = merge target patch := by
  induction patch using Value.inductionOn generalizing target with
  | object patches ih =>
      obtain ⟨hsorted, hvalues⟩ := wellOrdered_object.1 hpatch
      cases target with
      | object members =>
          obtain ⟨hmembers, hchildren⟩ := wellOrdered_object.1 htarget
          have hmerged := sorted_mergeMembers hmembers patches
          rw [merge, merge]
          refine congrArg Value.object ((sorted_mergeMembers hmerged _).ext hmerged fun key => ?_)
          rw [find?_mergeMembers hsorted.nodup_keys key (mergeMembers members patches),
            find?_mergeMembers hsorted.nodup_keys]
          cases hfind : Keyed.find? key patches with
          | none => rfl
          | some inner =>
              have hmem := Keyed.mem_of_find? hfind
              rw [Option.elim_some, Option.elim_some]
              refine congrArg some ?_
              cases hchild : Keyed.find? key members with
              | none => exact merge_self (hvalues _ hmem)
              | some child =>
                  exact ih _ hmem (hvalues _ hmem) (hchildren _ (Keyed.mem_of_find? hchild))
      | _ => exact merge_self hpatch
  | _ => rfl

end Merge

/-! ## The argument of `$set` -/

/-- An argument has an end at a key sequence: a value that is not taken apart any further, below a member
that a command may set. -/
structure Writes (versionKey : String) (argument : Members) (keys : List String) (value : Value) :
    Prop where
  leads : lookup keys (.object argument) = some value
  whole : ∀ entry rest, value ≠ .object (entry :: rest)
  free : ∀ key ∈ keys.head?, isProtected versionKey key = false

section Argument

variable {versionKey path key : String} {argument doc : Members} {keys : List String} {value : Value}

lemma find?_settable (versionKey key : String) (argument : Members) :
    Keyed.find? key (settable versionKey argument)
      = if isProtected versionKey key then none else Keyed.find? key argument := by
  induction argument with
  | nil => simp [settable]
  | cons entry rest ih =>
      obtain ⟨k, value⟩ := entry
      rw [settable, List.filter_cons]
      by_cases hprotected : isProtected versionKey k = true
      · rw [if_neg (by simpa using hprotected)]
        by_cases hk : k = key
        · subst hk
          simpa [hprotected, settable] using ih
        · rw [Keyed.find?_cons_of_ne hk]
          exact ih
      · rw [if_pos (by simpa using hprotected)]
        by_cases hk : k = key
        · subst hk
          rw [if_neg hprotected, Keyed.find?_cons_self, Keyed.find?_cons_self]
        · rw [Keyed.find?_cons_of_ne hk, Keyed.find?_cons_of_ne hk]
          exact ih

/-- Below a member that may be set, an argument leads where its settable part does. -/
lemma lookup_settable (hkey : isProtected versionKey key = false) (keys : List String) :
    lookup (key :: keys) (.object (settable versionKey argument))
      = lookup (key :: keys) (.object argument) := by
  rw [lookup_cons_object, lookup_cons_object, find?_settable, hkey]
  rfl

lemma not_isProtected_of_lookup
    (h : lookup (key :: keys) (.object (settable versionKey argument)) = some value) :
    isProtected versionKey key = false := by
  rw [← Bool.not_eq_true]
  intro hprotected
  rw [lookup_cons_object, find?_settable, if_pos hprotected] at h
  simp at h

/-- Without predicates in it, `$set` merges the settable part of its argument. -/
lemma set_eq_mergeMembers (h : ∀ entry ∈ argument, entry.2.get? whereKey = none) (path : String)
    (doc : Members) :
    set versionKey path argument doc = .done (mergeMembers doc (settable versionKey argument)) := by
  induction argument generalizing doc with
  | nil => rfl
  | cons entry rest ih =>
      obtain ⟨key, value⟩ := entry
      obtain ⟨hvalue, hrest⟩ := List.forall_mem_cons.1 h
      rw [set]
      by_cases hprotected : isProtected versionKey key = true
      · rw [if_pos hprotected, Attempt.done_andThen, ih hrest]
        simp [settable, hprotected]
      · have hstep : setMember versionKey (Path.join path key) key value doc
            = .done (Keyed.insert key (merged value (Keyed.find? key doc)) doc) := by
          rw [setMember_eq_atSlot, atSlot]
          cases value with
          | object fields =>
              rw [setSlot, address_eq_direct_iff.2 hvalue]
              rfl
          | _ => rfl
        rw [if_neg hprotected, hstep, Attempt.done_andThen, ih hrest, ← mergeMembers_cons]
        simp [settable, hprotected]

/-- Every value has an end inside. -/
lemma exists_whole (value : Value) :
    ∃ keys last, lookup keys value = some last ∧ ∀ entry rest, last ≠ .object (entry :: rest) := by
  induction value using Value.inductionOn with
  | object members ih =>
      cases members with
      | nil => exact ⟨[], .object [], rfl, by simp⟩
      | cons entry rest =>
          obtain ⟨keys, last, hlast, hwhole⟩ := ih entry List.mem_cons_self
          refine ⟨entry.1 :: keys, last, ?_, hwhole⟩
          rw [lookup_cons_object, Keyed.find?_cons_self, Option.bind_some, hlast]
  | _ => exact ⟨[], _, rfl, by simp⟩

/-- Wherever the settable part of an argument leads, there is an end at or below. -/
lemma exists_writes (hkey : isProtected versionKey key = false)
    (h : lookup (key :: keys) (.object argument) = some value) :
    ∃ written last, Writes versionKey argument written last ∧ key :: keys <+: written := by
  obtain ⟨more, last, hlast, hwhole⟩ := exists_whole value
  refine ⟨key :: keys ++ more, last, ⟨?_, hwhole, ?_⟩, List.prefix_append _ _⟩
  · rw [lookup_append, h, Option.bind_some, hlast]
  · simpa using hkey

end Argument

/-- What `$set` makes of a document, told by the ends of its argument. -/
structure DeepMerge (versionKey : String) (argument doc after : Members) : Prop where
  /-- The identifier and the version counter are as before, or missing as before. -/
  reserved : ∀ key, isProtected versionKey key = true → Keyed.find? key after = Keyed.find? key doc
  /-- What is no object is found where the argument has it. -/
  value : ∀ keys value, Writes versionKey argument keys value → value.isObject = false →
    lookup keys (.object after) = some value
  /-- An empty object leaves an object as it was, and takes the place of anything else. -/
  emptyObject : ∀ keys, Writes versionKey argument keys (.object []) →
    lookup keys (.object after) = some (match lookup keys (.object doc) with
      | some (.object members) => .object members
      | _ => .object [])
  /-- Key sequences that neither lead to an end nor pass one lead where they led. -/
  elsewhere : ∀ keys, (∀ written value, Writes versionKey argument written value →
    ¬ keys <+: written ∧ ¬ written <+: keys) → lookup keys (.object after) = lookup keys (.object doc)
  /-- No member appears that is not on the way to an end. -/
  appears : ∀ keys value, lookup keys (.object after) = some value →
    (∃ old, lookup keys (.object doc) = some old) ∨
      ∃ written last, Writes versionKey argument written last ∧ keys <+: written

section DeepMerge

variable {versionKey : String} {argument : Members} {keys : List String} {value : Value}

/-- What an end is merged into. -/
lemma Writes.lookup_merge (h : Writes versionKey argument keys value)
    (hargument : (Value.object argument).WellOrdered) (doc : Value) :
    lookup keys (merge doc (.object (settable versionKey argument)))
      = some (merged value (lookup keys doc)) := by
  cases keys with
  | nil =>
      obtain rfl : Value.object argument = value := by simpa [lookup] using h.leads
      cases argument with
      | nil => rfl
      | cons entry rest => exact absurd rfl (h.whole entry rest)
  | cons key keys =>
      have hkey : isProtected versionKey key = false := h.free key rfl
      exact Update.lookup_merge (wellOrdered_settable hargument versionKey)
        ((lookup_settable hkey keys).trans h.leads) doc

/-- Wherever the settable part of an argument leads, there is an end at or below, but at the root of an
argument with nothing to set. -/
lemma exists_writes_of_settable (hargument : Keyed.Sorted argument)
    (h : lookup keys (.object (settable versionKey argument)) = some value) :
    settable versionKey argument = [] ∨
      ∃ written last, Writes versionKey argument written last ∧ keys <+: written := by
  cases keys with
  | nil =>
      cases hsettable : settable versionKey argument with
      | nil => exact Or.inl rfl
      | cons entry rest =>
          obtain ⟨key, inner⟩ := entry
          have hmem : (key, inner) ∈ settable versionKey argument := hsettable ▸ List.mem_cons_self
          obtain ⟨hentry, hkey⟩ := List.mem_filter.1 hmem
          have hlead : lookup [key] (.object argument) = some inner := by
            rw [lookup_cons_object, (Keyed.find?_eq_some_iff hargument.nodup_keys).2 hentry]
            rfl
          obtain ⟨written, last, hwrites, -⟩ := exists_writes (by simpa using hkey) hlead
          exact Or.inr ⟨written, last, hwrites, List.nil_prefix⟩
  | cons key keys =>
      have hkey := not_isProtected_of_lookup h
      exact Or.inr (exists_writes hkey ((lookup_settable hkey keys).symm.trans h))

/-- Merging the settable part of an argument does what `$set` is to do. -/
lemma deepMerge_mergeMembers (versionKey : String)
    (hargument : (Value.object argument).WellOrdered) (doc : Members) :
    DeepMerge versionKey argument doc (mergeMembers doc (settable versionKey argument)) := by
  have hpatch := wellOrdered_settable hargument versionKey
  have hsorted := (wellOrdered_object.1 hargument).1
  have hmerge : Value.object (mergeMembers doc (settable versionKey argument))
      = merge (.object doc) (.object (settable versionKey argument)) := by rw [merge]
  refine ⟨fun key hkey => ?_, ?_, ?_, ?_, ?_⟩
  · rw [find?_mergeMembers (wellOrdered_object.1 hpatch).1.nodup_keys, find?_settable, if_pos hkey,
      Option.elim_none]
  · intro keys value hwrites hvalue
    rw [hmerge, hwrites.lookup_merge hargument]
    cases lookup keys (.object doc) with
    | none => rfl
    | some old => exact congrArg some (merge_of_not_object hvalue old)
  · intro keys hwrites
    rw [hmerge, hwrites.lookup_merge hargument]
    cases lookup keys (.object doc) with
    | none => rfl
    | some old => cases old <;> rfl
  · intro keys hkeys
    rw [hmerge]
    cases hlead : lookup keys (.object (settable versionKey argument)) with
    | some inner =>
        rcases exists_writes_of_settable hsorted hlead with hnothing | ⟨written, last, hwrites, hbelow⟩
        · rw [hnothing]
          rfl
        · exact absurd hbelow (hkeys written last hwrites).1
    | none =>
        refine lookup_merge_of_none hpatch hlead (fun before hbefore value hvalue => ?_) _
        by_contra hobject
        cases before with
        | nil =>
            obtain rfl := Option.some.inj hvalue
            exact hobject rfl
        | cons key before =>
            have hkey := not_isProtected_of_lookup hvalue
            refine (hkeys (key :: before) value ⟨?_, ?_, ?_⟩).2 hbefore
            · exact (lookup_settable hkey before).symm.trans hvalue
            · rintro entry rest rfl
              exact hobject rfl
            · simpa using hkey
  · intro keys value hvalue
    rw [hmerge] at hvalue
    rcases exists_lookup_of_merge hpatch hvalue with ⟨inner, hinner⟩ | hold
    · rcases exists_writes_of_settable hsorted hinner with hnothing | happears
      · refine Or.inl ⟨value, ?_⟩
        rw [hnothing] at hvalue
        exact hvalue
      · exact Or.inr happears
    · exact Or.inl hold

end DeepMerge

/-- **`$set` is a deep merge.**  Without predicates in its argument it succeeds, at the root or inside of a
document; it writes the ends of its argument, leaves everything else as it was, the identifier and the
version counter among it, and changes nothing when it is applied again. -/
theorem set_deepMerge (versionKey : String) {argument doc : Members}
    (hargument : (Value.object argument).WellOrdered) (hdoc : (Value.object doc).WellOrdered)
    (hdirect : ∀ entry ∈ argument, entry.2.get? whereKey = none) :
    ∃ after, DeepMerge versionKey argument doc after ∧
      (∀ path, applyVerb versionKey .set path (.object argument) (.object doc)
          = .done (.object after) ∧
        applyVerb versionKey .set path (.object argument) (.object after) = .done (.object after)) ∧
      ∀ key, UpdateKey.ofKey key = .verb .set →
        apply versionKey (.object [(key, .object argument)]) (.object doc) = .done (.object after) ∧
        apply versionKey (.object [(key, .object argument)]) (.object after)
          = .done (.object after) := by
  have hpatch := wellOrdered_settable hargument versionKey
  have hset : ∀ path doc, applyVerb versionKey .set path (.object argument) (.object doc)
      = .done (.object (mergeMembers doc (settable versionKey argument))) := by
    intro path doc
    rw [applyVerb, onObject, set_eq_mergeMembers hdirect]
    rfl
  have htwice : mergeMembers (mergeMembers doc (settable versionKey argument))
      (settable versionKey argument) = mergeMembers doc (settable versionKey argument) := by
    have hmerged := merge_merge hpatch hdoc
    simpa only [merge, Value.object.injEq] using hmerged
  refine ⟨_, deepMerge_mergeMembers versionKey hargument doc, fun path => ?_, fun key hkey => ?_⟩
  · rw [hset, hset, htwice]
    exact ⟨rfl, rfl⟩
  · rw [apply_verb hkey, apply_verb hkey, hset, hset, htwice]
    exact ⟨rfl, rfl⟩

/-- An article, and an argument of `$set` that has an object for a count, an empty object for a missing
member and for one that is there, a list, and another identifier. -/
def article : Members :=
  [("_id", .ofNat 1), ("meta", .object [("likes", .ofNat 2), ("views", .ofNat 1)]),
    ("notes", .object [("first", .string "old")]), ("tags", .string "none")]

def articlePatch : Members :=
  [("_id", .ofNat 9), ("meta", .object [("views", .object [("total", .ofNat 7)])]),
    ("notes", .object []), ("owner", .object []), ("tags", .array [.string "new"])]

def mergedArticle : Members :=
  [("_id", .ofNat 1),
    ("meta", .object [("likes", .ofNat 2), ("views", .object [("total", .ofNat 7)])]),
    ("notes", .object [("first", .string "old")]), ("owner", .object []),
    ("tags", .array [.string "new"])]

/-- The likes, the notes and the identifier stay as they were. -/
theorem set_deepMerge_article :
    DeepMerge "__v" articlePatch article mergedArticle ∧
    apply "__v" (.object [("$set", .object articlePatch)]) (.object mergedArticle)
      = .done (.object mergedArticle) := by
  have hkeys : Ordered.before "_id" "meta" = true ∧ Ordered.before "_id" "notes" = true ∧
      Ordered.before "_id" "owner" = true ∧ Ordered.before "_id" "tags" = true ∧
      Ordered.before "meta" "notes" = true ∧ Ordered.before "meta" "owner" = true ∧
      Ordered.before "meta" "tags" = true ∧ Ordered.before "notes" "owner" = true ∧
      Ordered.before "notes" "tags" = true ∧ Ordered.before "owner" "tags" = true ∧
      Ordered.before "likes" "views" = true := by decide
  have hargument : (Value.object articlePatch).WellOrdered := by
    simp [articlePatch, WellOrdered, WellOrderedMembers, WellOrderedItems, Keyed.Sorted, hkeys, ofNat]
  have hdoc : (Value.object article).WellOrdered := by
    simp [article, WellOrdered, WellOrderedMembers, Keyed.Sorted, hkeys, ofNat]
  have hdirect : ∀ entry ∈ articlePatch, entry.2.get? whereKey = none := by
    simp [articlePatch, get?, Keyed.find?, ofNat, whereKey]
  obtain ⟨after, hmerged, -, happly⟩ := set_deepMerge "__v" hargument hdoc hdirect
  obtain ⟨hdone, hagain⟩ := happly "$set" (by decide)
  have hafter : Attempt.done (Value.object mergedArticle) = .done (.object after) := hdone
  obtain rfl : mergedArticle = after := Value.object.inj (congrArg Attempt.value hafter)
  exact ⟨hmerged, hagain⟩

end DocumentAccess.Update
