import DocumentAccess.Access.Compile
import DocumentAccess.Proofs.Schema.Codec

/-!
# Schemas written and read again

A schema is written in one form and read in several: types by name or by number, trees as objects or as
lists, rules with members that mean nothing.  What is written is read as the schema that it was
written from, provided that every rule in it says something; and the rules of a schema that was read
always do.

* `Keyed.find?_present` — look-ups among entries of which some have no value.
* `AccessRule.Proper` — some level is declared, and what is declared are levels.
* `AccessRule.proper_of_ofValue?`, `AccessRule.ofValue?_toValue` — the same for one rule.
* `Field.rules`, `Schema.rules` — the rules in a field and in a schema.
* `Field.ofValue?_toValue` — a field with proper rules is read as it was.
* `Field.IsRead`, `Field.proper_of_isRead` — the fields that are read have proper rules.
* **`Schema.ofValue?_toValue_iff`** — which schemas are read as they were written.
-/

namespace DocumentAccess

/-! ## Entries without a value -/

namespace Keyed

variable {α β : Type} {f : α → β} {entries : List (String × Option α)}

/-- The entries that have a value, with what becomes of it. -/
def present (f : α → β) (entries : List (String × Option α)) : List (String × β) :=
  entries.filterMap fun (name, value) => value.map fun value => (name, f value)

lemma keys_present_sublist : ((present f entries).map Prod.fst).Sublist (entries.map Prod.fst) := by
  induction entries with
  | nil => exact List.Sublist.refl _
  | cons entry rest ih =>
      obtain ⟨name, _ | value⟩ := entry
      · exact ih.cons name
      · exact ih.cons_cons name

/-- Of entries with different keys, those that have a value are found with what becomes of it. -/
lemma find?_present (h : (entries.map Prod.fst).Nodup) (key : String) :
    find? key (present f entries) = ((find? key entries).bind id).map f := by
  induction entries with
  | nil => rfl
  | cons entry rest ih =>
      obtain ⟨name, value⟩ := entry
      obtain ⟨hnew, hrest⟩ := List.nodup_cons.1 h
      by_cases hname : name = key
      · subst hname
        rw [find?_cons_self]
        cases value with
        | some value => exact find?_cons_self ..
        | none => exact find?_eq_none_of_not_mem fun hmem => hnew (keys_present_sublist.subset hmem)
      · rw [find?_cons_of_ne hname, ← ih hrest]
        cases value with
        | some value => exact find?_cons_of_ne hname ..
        | none => rfl

end Keyed

/-! ## Rules -/

namespace AccessRule

/-- What may be declared, by name. -/
def named (acl : AccessRule) : List (String × Option Nat) :=
  [("create", acl.create), ("read", acl.read), ("update", acl.update), ("delete", acl.delete),
    ("write", acl.write)]

/-- The declared levels. -/
def levels (acl : AccessRule) : List Nat :=
  acl.named.filterMap Prod.snd

/-- Some level is declared, and what is declared are levels. -/
structure Proper (acl : AccessRule) : Prop where
  nonEmpty : acl.isEmpty = false
  bounded : ∀ level ∈ acl.levels, level < Levels.count

lemma level?_ofNat {level : Nat} (h : level < Levels.count) :
    Levels.level? (.ofNat level) = some level := by
  have hword : level < Number.wordCount := Nat.lt_trans h (by decide)
  simp [Levels.level?, Value.ofNat, Value.natural?, Number.natural?, hword, h]

lemma lt_of_declared {members : Members} {name : String} {level : Nat}
    (h : declared members name = some level) : level < Levels.count := by
  obtain ⟨value, -, hlevel⟩ := Option.bind_eq_some_iff.1 h
  obtain ⟨n, -, hn⟩ := Option.bind_eq_some_iff.1 hlevel
  split at hn
  next hlt => exact Option.some.inj hn ▸ hlt
  next => exact absurd hn (by simp)

/-- A rule that is kept unless it is empty is proper, if it declares levels. -/
lemma proper_of_nonEmpty? {acl rule : AccessRule} (h : acl.nonEmpty? = some rule)
    (hlevels : ∀ level ∈ acl.levels, level < Levels.count) : rule.Proper := by
  rw [nonEmpty?] at h
  split at h
  · exact absurd h (by simp)
  next hempty =>
    obtain rfl := Option.some.inj h
    exact ⟨by simpa using hempty, hlevels⟩

/-- **A rule that was read is proper.** -/
lemma proper_of_ofValue? {value : Value} {acl : AccessRule} (h : ofValue? value = some acl) :
    acl.Proper := by
  cases value with
  | object members =>
      refine proper_of_nonEmpty? h ?_
      simp only [levels, named, List.mem_filterMap, List.mem_cons, List.not_mem_nil, or_false]
      rintro level ⟨_, rfl | rfl | rfl | rfl | rfl, hlevel⟩ <;> exact lt_of_declared hlevel
  | _ => simp [ofValue?] at h

lemma nodup_named (acl : AccessRule) : (acl.named.map Prod.fst).Nodup := by
  simp [named]

lemma toValue_eq (acl : AccessRule) :
    acl.toValue = .object (Keyed.ofList (Keyed.present Value.ofNat acl.named)) := rfl

/-- What a proper rule declares is read as the level that it is. -/
lemma declared_toValue {acl : AccessRule} (h : acl.Proper) (name : String) (level : Option Nat)
    (hmem : (name, level) ∈ acl.named) :
    declared (Keyed.ofList (Keyed.present Value.ofNat acl.named)) name = level := by
  rw [declared, Keyed.find?_ofList (acl.nodup_named.sublist Keyed.keys_present_sublist),
    Keyed.find?_present acl.nodup_named, (Keyed.find?_eq_some_iff acl.nodup_named).2 hmem]
  cases level with
  | none => rfl
  | some level => exact level?_ofNat (h.bounded level (List.mem_filterMap.2 ⟨_, hmem, rfl⟩))

/-- **A proper rule is read as it was written.** -/
lemma ofValue?_toValue {acl : AccessRule} (h : acl.Proper) : ofValue? acl.toValue = some acl := by
  rw [toValue_eq, ofValue?, declared_toValue h "create" acl.create (by simp [named]),
    declared_toValue h "read" acl.read (by simp [named]),
    declared_toValue h "update" acl.update (by simp [named]),
    declared_toValue h "delete" acl.delete (by simp [named]),
    declared_toValue h "write" acl.write (by simp [named]), nonEmpty?, h.nonEmpty]
  rfl

end AccessRule

namespace Field

variable {fields : Fields} {acl : Option AccessRule} {virtuals : List String} {hasId : Bool}

mutual

/-- The rules in a field: its own, and those of the fields inside. -/
def rules : Field → List AccessRule
  | .leaf _ acl => acl.toList
  | .array element acl => acl.toList ++ rules element
  | .object fields acl => acl.toList ++ rulesOf fields
  | .documents fields _ _ acl => acl.toList ++ rulesOf fields

def rulesOf : List (String × Field) → List AccessRule
  | [] => []
  | (_, field) :: rest => rules field ++ rulesOf rest

end

lemma rulesOf_eq_flatMap (fields : Fields) :
    rulesOf fields = fields.flatMap fun entry => entry.2.rules := by
  induction fields with
  | nil => rfl
  | cons entry rest ih => rw [rulesOf, ih, List.flatMap_cons]

/-- The rules of fields are those of each of them. -/
lemma mem_rulesOf {entry : String × Field} (hentry : entry ∈ fields) {acl : AccessRule}
    (hacl : acl ∈ entry.2.rules) : acl ∈ rulesOf fields := by
  rw [rulesOf_eq_flatMap]
  exact List.mem_flatMap.2 ⟨entry, hentry, hacl⟩

/-! ## What is written -/

/-- The member that a rule is written as. -/
def ruleMember (acl : Option AccessRule) : Members :=
  match acl with
  | some acl => [("acl", acl.toValue)]
  | none => []

/-- The members of a field that is written are found again. -/
structure Written (members : Members) (type : String) (part : Members) (acl : Option AccessRule) :
    Prop where
  type : Keyed.find? "type" members = some (.string type)
  part : ∀ entry ∈ part, Keyed.find? entry.1 members = some entry.2
  acl : Keyed.find? "acl" members = acl.map AccessRule.toValue

lemma exists_written (type : String) (part : Members) (acl : Option AccessRule)
    (hpart : ("type" :: part.map Prod.fst ++ ["acl"]).Nodup) :
    ∃ written, members type part acl = .object written ∧ Written written type part acl := by
  have hrule : ((ruleMember acl).map Prod.fst).Sublist ["acl"] := by
    cases acl <;> simp [ruleMember]
  have hkeys : ((("type", Value.string type) :: part ++ ruleMember acl).map Prod.fst).Nodup := by
    rw [List.map_append]
    exact hpart.sublist (hrule.append_left _)
  refine ⟨Keyed.ofList (("type", .string type) :: part ++ ruleMember acl), rfl, ?_, ?_, ?_⟩
  · rw [Keyed.find?_ofList hkeys]
    exact Keyed.find?_cons_self ..
  · intro entry hentry
    rw [Keyed.find?_ofList hkeys, Keyed.find?_eq_some_iff hkeys]
    exact List.mem_append_left _ (List.mem_cons_of_mem _ hentry)
  · rw [Keyed.find?_ofList_append hkeys fun hmem =>
      (List.nodup_append.1 hpart).2.2 "acl" hmem "acl" List.mem_cons_self rfl]
    cases acl <;> rfl

/-- Written rules are read as they were, a missing one included. -/
lemma rule_written {acl : Option AccessRule} (h : ∀ rule ∈ acl.toList, rule.Proper) :
    (acl.map AccessRule.toValue).bind AccessRule.ofValue? = acl := by
  cases acl with
  | none => rfl
  | some acl => exact AccessRule.ofValue?_toValue (h acl (by simp))

lemma strings?_ofStrings (texts : List String) : strings? (.ofStrings texts) = some texts := by
  show (texts.map Value.string).mapM Value.string? = some texts
  induction texts with
  | nil => rfl
  | cons text rest ih => simp [Value.string?, ih]

/-- The members of a tree have different keys, also among members with others. -/
lemma nodup_treeMembers {before : Members} (fields : Members) (virtuals : List String) (hasId : Bool)
    (hbefore : (before.map Prod.fst ++ ["fields", "id", "virtuals"]).Nodup) :
    ((before ++ Tree.members fields virtuals hasId).map Prod.fst).Nodup := by
  rw [List.map_append]
  refine hbefore.sublist (List.Sublist.append_left ?_ _)
  cases virtuals <;> simp [Tree.members]

/-- A tree that is written, also among other members, is read as it was when its fields are. -/
lemma tree?_written (before : Members)
    (hbefore : (before.map Prod.fst ++ ["fields", "id", "virtuals"]).Nodup)
    (hfields : entries? (fieldsToMembers fields) = some fields) :
    tree? (Value.ofMembers (before ++ Tree.members (fieldsToMembers fields) virtuals hasId))
      = some ⟨fields, virtuals, hasId⟩ := by
  have hkeys := nodup_treeMembers (fieldsToMembers fields) virtuals hasId hbefore
  have hfind : ∀ key ∈ ["fields", "id", "virtuals"],
      Keyed.find? key (Keyed.ofList
          (before ++ Tree.members (fieldsToMembers fields) virtuals hasId))
        = Keyed.find? key (Tree.members (fieldsToMembers fields) virtuals hasId) := by
    intro key hkey
    exact Keyed.find?_ofList_append hkeys fun hmem =>
      (List.nodup_append.1 hbefore).2.2 key hmem key hkey rfl
  rw [Value.ofMembers, tree?, fieldsMember?_eq, hfind "fields" (by simp), hfind "id" (by simp),
    hfind "virtuals" (by simp)]
  cases virtuals with
  | nil => simp [Tree.members, Keyed.find?, fields?, hfields, Tree.ofParts?, Record.field?, bool?]
  | cons path rest =>
      simp [Tree.members, Keyed.find?, fields?, hfields, Tree.ofParts?, Record.field?, bool?,
        strings?_ofStrings]

/-- Fields that are read as they were written are read together. -/
lemma entries?_written (h : ∀ entry ∈ fields, ofValue? (toValue entry.2) = some entry.2) :
    entries? (fieldsToMembers fields) = some fields := by
  induction fields with
  | nil => rfl
  | cons entry rest ih =>
      obtain ⟨name, field⟩ := entry
      obtain ⟨hfield, hrest⟩ := List.forall_mem_cons.1 h
      rw [fieldsToMembers, entries?, hfield, ih hrest]

/-- **A field with proper rules is read as it was written.** -/
theorem ofValue?_toValue (field : Field) :
    (∀ rule ∈ field.rules, rule.Proper) → ofValue? field.toValue = some field := by
  induction field using Field.inductionOn with
  | leaf type acl =>
      intro h
      have hrule := rule_written h
      cases type with
      | reference target =>
          obtain ⟨written, hwritten, hmembers⟩ :=
            exists_written "reference" [("target", .string target)] acl (by simp)
          rw [toValue, hwritten, ofValue?, hmembers.acl, hrule, hmembers.type]
          show ((Keyed.find? "target" written).bind Value.string?).map _ = _
          rw [hmembers.part ("target", .string target) List.mem_cons_self]
          rfl
      | _ =>
          rw [toValue]
          · obtain ⟨written, hwritten, hmembers⟩ := exists_written _ [] acl (by simp)
            rw [hwritten, ofValue?, hmembers.acl, hrule, hmembers.type]
            rfl
          · simp
  | array element acl ih =>
      intro h
      obtain ⟨hacl, helement⟩ := List.forall_mem_append.1 h
      obtain ⟨written, hwritten, hmembers⟩ :=
        exists_written "array" [("element", toValue element)] acl (by simp)
      have hpart : elementMember? written = some element := by
        rw [elementMember?_eq, hmembers.part _ List.mem_cons_self]
        exact ih helement
      rw [toValue, hwritten, ofValue?, hmembers.acl, rule_written hacl, hmembers.type]
      show (elementMember? written).map _ = _
      rw [hpart]
      rfl
  | object fields acl ih =>
      intro h
      obtain ⟨hacl, hinside⟩ := List.forall_mem_append.1 h
      obtain ⟨written, hwritten, hmembers⟩ :=
        exists_written "object" [("fields", .object (fieldsToMembers fields))] acl (by simp)
      have hpart : fieldsMember? written = some fields := by
        rw [fieldsMember?_eq, hmembers.part _ List.mem_cons_self]
        exact entries?_written fun entry hentry =>
          ih entry hentry fun rule hrule => hinside rule (mem_rulesOf hentry hrule)
      rw [toValue, hwritten, ofValue?, hmembers.acl, rule_written hacl, hmembers.type]
      show (fieldsMember? written).map _ = _
      rw [hpart]
      rfl
  | documents fields virtuals hasId acl ih =>
      intro h
      obtain ⟨hacl, hinside⟩ := List.forall_mem_append.1 h
      obtain ⟨written, hwritten, hmembers⟩ := exists_written "document_array"
        [("schema", Value.ofMembers (Tree.members (fieldsToMembers fields) virtuals hasId))] acl
        (by simp)
      have hpart : treeMember? written = some ⟨fields, virtuals, hasId⟩ := by
        rw [treeMember?_eq, hmembers.part _ List.mem_cons_self]
        have hfields := entries?_written fun entry hentry =>
          ih entry hentry fun rule hrule => hinside rule (mem_rulesOf hentry hrule)
        exact tree?_written [] (by simp) hfields
      rw [toValue, hwritten, ofValue?, hmembers.acl, rule_written hacl, hmembers.type]
      show (treeMember? written).map _ = _
      rw [hpart]
      rfl

/-! ## What is read -/

/-- A field that some value is read as. -/
def IsRead (field : Field) : Prop :=
  ∃ value, ofValue? value = some field

lemma isRead_of_fields? {value : Value} (h : fields? value = some fields) :
    ∀ entry ∈ fields, entry.2.IsRead := by
  cases value with
  | object members =>
      intro entry hentry
      obtain ⟨member, -, hread⟩ := (of_entries? h).2 entry hentry
      exact ⟨member.2, hread⟩
  | _ => simp [fields?] at h

lemma isRead_of_fieldsMember? {members : Members} (h : fieldsMember? members = some fields) :
    ∀ entry ∈ fields, entry.2.IsRead := by
  obtain ⟨value, -, hfields⟩ := find?_of_elim (fieldsMember?_eq members ▸ h)
  exact isRead_of_fields? hfields

/-- A tree is read from its fields, whether it is given as an object or as a list. -/
lemma isRead_of_tree? {value : Value} {tree : Tree} (h : tree? value = some tree) :
    ∀ entry ∈ tree.fields, entry.2.IsRead := by
  have hparts : ∃ fields virtuals hasId, Tree.ofParts? fields virtuals hasId = some tree ∧
      ∀ entry ∈ fields, entry.2.IsRead := by
    unfold tree? at h
    split at h
    · obtain ⟨fields, hfields, hparts⟩ := Option.bind_eq_some_iff.1 h
      exact ⟨fields, _, _, hparts, isRead_of_fieldsMember? hfields⟩
    all_goals first
      | obtain ⟨fields, hfields, hparts⟩ := Option.bind_eq_some_iff.1 h
        exact ⟨fields, _, _, hparts, isRead_of_fields? hfields⟩
      | exact absurd h (by simp)
  obtain ⟨fields, virtuals, hasId, hparts, hread⟩ := hparts
  rw [fields_of_ofParts? hparts]
  exact hread

/-- The fields directly inside a field. -/
def inside : Field → List Field
  | .leaf _ _ => []
  | .array element _ => [element]
  | .object fields _ => fields.map Prod.snd
  | .documents fields _ _ _ => fields.map Prod.snd

/-- A field that was read has a rule that was read, if it has one, and the fields inside were read. -/
lemma IsRead.parts {field : Field} (h : field.IsRead) :
    (∀ rule ∈ field.acl.toList, rule.Proper) ∧ ∀ inner ∈ field.inside, inner.IsRead := by
  obtain ⟨value, h⟩ := h
  cases value with
  | object members =>
      have hrule : ∀ rule ∈ ((Keyed.find? "acl" members).bind AccessRule.ofValue?).toList,
          rule.Proper := by
        intro rule hrule
        obtain ⟨raw, -, hraw⟩ := Option.bind_eq_some_iff.1 (Option.mem_toList.1 hrule)
        exact AccessRule.proper_of_ofValue? hraw
      simp only [ofValue?] at h
      split at h
      · cases h
        exact ⟨hrule, by simp [inside]⟩
      · obtain ⟨target, -, rfl⟩ := Option.map_eq_some_iff.1 h
        exact ⟨hrule, by simp [inside]⟩
      · obtain ⟨fields, hread, rfl⟩ := Option.map_eq_some_iff.1 h
        exact ⟨hrule, List.forall_mem_map.2 (isRead_of_fieldsMember? hread)⟩
      · obtain ⟨element, hread, rfl⟩ := Option.map_eq_some_iff.1 h
        obtain ⟨value, -, hvalue⟩ := find?_of_elim (elementMember?_eq members ▸ hread)
        exact ⟨hrule, by simpa [inside] using ⟨value, hvalue⟩⟩
      · obtain ⟨tree, hread, rfl⟩ := Option.map_eq_some_iff.1 h
        obtain ⟨value, -, hvalue⟩ := find?_of_elim (treeMember?_eq members ▸ hread)
        exact ⟨hrule, List.forall_mem_map.2 (isRead_of_tree? hvalue)⟩
      · exact absurd h (by simp)
  | _ => simp [ofValue?] at h

/-- Fields have proper rules when each of them does. -/
lemma proper_rulesOf (h : ∀ entry ∈ fields, ∀ rule ∈ entry.2.rules, rule.Proper) :
    ∀ rule ∈ rulesOf fields, rule.Proper := by
  rw [rulesOf_eq_flatMap]
  intro rule hrule
  obtain ⟨entry, hentry, hrule⟩ := List.mem_flatMap.1 hrule
  exact h entry hentry rule hrule

/-- **A field that was read has proper rules.** -/
theorem proper_of_isRead (field : Field) : field.IsRead → ∀ rule ∈ field.rules, rule.Proper := by
  induction field using Field.inductionOn with
  | leaf type acl => exact fun h => h.parts.1
  | array element acl ih =>
      intro h
      exact List.forall_mem_append.2 ⟨h.parts.1, ih (h.parts.2 element (by simp [inside]))⟩
  | object fields acl ih | documents fields virtuals hasId acl ih =>
      intro h
      refine List.forall_mem_append.2 ⟨h.parts.1, proper_rulesOf fun entry hentry => ?_⟩
      exact ih entry hentry (h.parts.2 entry.2 (List.mem_map_of_mem hentry))

end Field

/-! ## Schemas -/

namespace Schema

/-- The rules in a schema. -/
def rules (schema : Schema) : List AccessRule :=
  Field.rulesOf schema.tree.fields

/-- The members of a schema before those of its tree. -/
def head (schema : Schema) : Members :=
  [("name", .string schema.name), ("version_key", .string schema.versionKey)]

lemma toValue_eq (schema : Schema) :
    schema.toValue = .object (Keyed.ofList (schema.head ++ schema.tree.toMembers)) := rfl

lemma nodup_head (schema : Schema) :
    (schema.head.map Prod.fst ++ ["fields", "id", "virtuals"]).Nodup := by
  simp [head]

lemma find?_head (schema : Schema) {entry : String × Value} (hentry : entry ∈ schema.head) :
    Keyed.find? entry.1 (Keyed.ofList (schema.head ++ schema.tree.toMembers)) = some entry.2 := by
  have hkeys := Field.nodup_treeMembers (Field.fieldsToMembers schema.tree.fields)
    schema.tree.virtuals schema.tree.hasId schema.nodup_head
  rw [Tree.toMembers, Keyed.find?_ofList hkeys, Keyed.find?_eq_some_iff hkeys]
  exact List.mem_append_left _ hentry

/-- A schema with proper rules is read as it was written. -/
lemma ofValue?_toValue {schema : Schema} (h : ∀ rule ∈ schema.rules, rule.Proper) :
    ofValue? schema.toValue = some schema := by
  have hfields := Field.entries?_written fun entry hentry =>
    Field.ofValue?_toValue entry.2 fun rule hrule => h rule (Field.mem_rulesOf hentry hrule)
  have htree : Tree.ofValue? (.object (Keyed.ofList (schema.head ++ schema.tree.toMembers)))
      = some schema.tree := Field.tree?_written _ schema.nodup_head hfields
  have hname := schema.find?_head List.mem_cons_self
  have hversionKey := schema.find?_head (List.mem_cons_of_mem _ List.mem_cons_self)
  simp only at hname hversionKey
  simp [toValue_eq, ofValue?, hname, hversionKey, htree, Record.field?, Value.string?]

/-- The rules of a schema that was read are proper. -/
lemma proper_of_ofValue? {value : Value} {schema : Schema} (h : ofValue? value = some schema) :
    ∀ rule ∈ schema.rules, rule.Proper := by
  cases value with
  | object members =>
      simp only [ofValue?, Option.bind_eq_bind, Option.bind_eq_some_iff, Option.some.injEq] at h
      obtain ⟨_, _, _, _, tree, htree, rfl⟩ := h
      exact Field.proper_rulesOf fun entry hentry =>
        entry.2.proper_of_isRead (Field.isRead_of_tree? htree entry hentry)
  | _ => simp [ofValue?] at h

/-- A written schema names its version counter, so it takes no other. -/
lemma withVersionKey_toValue (versionKey : String) (schema : Schema) :
    withVersionKey versionKey schema.toValue = schema.toValue := by
  have hfind := schema.find?_head (List.mem_cons_of_mem _ List.mem_cons_self)
  have hcontains : Keyed.contains "version_key"
      (Keyed.ofList (schema.head ++ schema.tree.toMembers)) = true :=
    List.any_eq_true.2 ⟨_, Keyed.mem_of_find? hfind, beq_self_eq_true _⟩
  rw [toValue_eq, withVersionKey, if_pos hcontains]

/-- **A schema is read as it was written just when its rules are proper**, which they are if they were
read or set.  So whatever a schema was read from, writing it and reading that again gives the same
schema, with the same index, and no other version counter. -/
theorem ofValue?_toValue_iff :
    (∀ schema : Schema,
      ofValue? schema.toValue = some schema ↔ ∀ rule ∈ schema.rules, rule.Proper) ∧
    (∀ value schema, ofValue? value = some schema →
      (∀ rule ∈ schema.rules, rule.Proper) ∧
      ∃ again, ofValue? schema.toValue = some again ∧ again = schema ∧
        ∀ defaults, again.compile defaults = schema.compile defaults) ∧
    (∀ versionKey text schema, Schema.read versionKey text = .ok schema → ∀ other,
      ofValue? (withVersionKey other schema.toValue) = some schema) ∧
    ∀ (field : Field) (acl : AccessRule), (∀ level ∈ acl.levels, level < Levels.count) →
      ∀ rule ∈ (field.withAcl acl).acl.toList, rule.Proper := by
  refine ⟨fun schema => ⟨proper_of_ofValue?, ofValue?_toValue⟩, fun value schema h => ?_,
    fun versionKey text schema h other => ?_, fun field acl hlevels rule hrule => ?_⟩
  · have hproper := proper_of_ofValue? h
    exact ⟨hproper, schema, ofValue?_toValue hproper, rfl, fun defaults => rfl⟩
  · rw [Schema.read] at h
    split at h
    · exact absurd h (by simp)
    · split at h
      · next hread =>
        obtain rfl := Except.ok.inj h
        rw [withVersionKey_toValue]
        exact ofValue?_toValue (proper_of_ofValue? hread)
      · exact absurd h (by simp)
  · have hacl : (field.withAcl acl).acl = acl.nonEmpty? := by
      cases field <;> rfl
    rw [hacl] at hrule
    exact AccessRule.proper_of_nonEmpty? (Option.mem_toList.1 hrule) hlevels

/-- A schema of notes that names no version counter, gives some types by number and a tree as a list,
and whose rule has members that mean nothing. -/
def looseNotes : Value :=
  .object [
    ("fields", .object [
      ("items", .object [("schema", .array [.object [("price", .object [("type", .ofNat 1)])]]),
        ("type", .string "document_array")]),
      ("tags", .object [("acl", .object [("junk", .bool true), ("read", .ofNat 2),
        ("write", .string "x")]), ("element", .object [("type", .string "string")]),
        ("type", .ofNat 8)])]),
    ("name", .string "notes")]

/-- The schema that they are read as. -/
def notesSchema : Schema :=
  ⟨"notes", defaultVersionKey,
    ⟨[("items", .documents [("price", .leaf .number none)] [] true none),
      ("tags", .array (.leaf .string none) (some ⟨none, some 2, none, none, none⟩))], [], true⟩⟩

theorem ofValue?_toValue_notes :
    ofValue? looseNotes = some notesSchema ∧ ofValue? notesSchema.toValue = some notesSchema := by
  have hread : ofValue? looseNotes = some notesSchema := rfl
  exact ⟨hread, (ofValue?_toValue_iff.1 notesSchema).2 (ofValue?_toValue_iff.2.1 _ _ hread).1⟩

end Schema

end DocumentAccess
