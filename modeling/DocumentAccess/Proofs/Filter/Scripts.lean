import DocumentAccess.Filter.Native
import DocumentAccess.Proofs.Values

/-!
# Scripts in native filters

A store runs what stands under `$where` at a *query position* of its filter: among the members of the
filter itself, of an object under any member of a query position, or of an object in the list of a
logical group.  Making a filter native drops every script that its walk meets, and nothing else gets
the script of a caller to the store — except the parts of a filter that are copied as literals.

* `Filter.hasScript` — some query position of a value has a script key.
* `Filter.literals` — the literals that a native filter keeps at query positions: items of a list
  under a group in native spelling, patterns of regular expressions, date operands that are no dates.
* **`Filter.toNative_scriptFree_iff`** — the native filter is free of scripts exactly when those
  literals are.
* `Filter.toNative_keeps_script` — each of the three kinds of literal does carry a script through.
-/

namespace DocumentAccess.Filter

/-! ## Query positions -/

/-- The keys of a script, in either spelling. -/
def isScriptKey (key : String) : Bool :=
  key = "$where" || key = "_$where"

/-- The keys of a logical group, in either spelling. -/
def isGroupKey (key : String) : Bool :=
  ["$and", "$or", "$nor", "$not", "_$and", "_$or", "_$nor", "_$not"].contains key

/-- What stands under a portable mark in front of an unknown name is a literal. -/
def isLiteralKey (key : String) : Bool :=
  FilterKey.ofKey key = .unrecognized

mutual

/-- Some query position of the value has a script. -/
def hasScript : Value → Bool
  | .object members => hasScriptMember members
  | _ => false

def hasScriptMember : List (String × Value) → Bool
  | [] => false
  | (key, value) :: rest =>
    isScriptKey key || hasScriptUnder key value || hasScriptMember rest

/-- Some query position in the value of a member has a script. -/
def hasScriptUnder (key : String) : Value → Bool
  | .object members => !isLiteralKey key && hasScriptMember members
  | .array items => isGroupKey key && hasScriptItem items
  | _ => false

def hasScriptItem : List Value → Bool
  | [] => false
  | item :: rest => hasScript item || hasScriptItem rest

end

/-! ## Literals -/

/-- The items of the list under a group in native spelling: they are not walked. -/
def groupItems (key : String) : Value → List Value
  | .array items => if isGroupKey key then items else []
  | _ => []

/-- A date operand that is no date. -/
def dateLiteral (operand : Value) : List Value :=
  match Instant.ofValue? operand with
  | some _ => []
  | none => [operand]

mutual

/-- The literals that the native filter keeps at query positions.  Of several members with one native
key only the last counts, because only that one stays. -/
def literals : Value → List Value
  | .object members => (Keyed.ofList (literalMembers members)).flatMap Prod.snd
  | _ => []

/-- The literals under each native key. -/
def literalMembers : List (String × Value) → List (String × List Value)
  | [] => []
  | (key, operand) :: rest =>
    (match FilterKey.ofKey key with
      | .field | .native => [(key, groupItems key operand ++ literals operand)]
      | .comparison c => [(c.native, literals operand)]
      | .dateComparison c => [(c.native, dateLiteral operand)]
      | .regex => (regexMembers operand).map fun member => (member.1, [member.2])
      | .logical c => [(c.native, literalsOfGroup operand)]
      | .elemMatch => [("$elemMatch", literals operand)]
      | .script => []
      | .unrecognized => [(key, [])]) ++ literalMembers rest

def literalsOfGroup : Value → List Value
  | .array items => literalsOfItems items
  | .object members => (Keyed.ofList (literalMembers members)).flatMap Prod.snd
  | _ => []

def literalsOfItems : List Value → List Value
  | [] => []
  | item :: rest => literals item ++ literalsOfItems rest

end

/-! ## Where scripts and literals meet -/

lemma hasScriptMember_eq_any (members : Members) :
    hasScriptMember members
      = members.any fun entry => isScriptKey entry.1 || hasScriptUnder entry.1 entry.2 := by
  induction members with
  | nil => rfl
  | cons entry rest ih =>
      obtain ⟨key, value⟩ := entry
      rw [hasScriptMember, ih, List.any_cons]

lemma hasScriptItem_eq_any (items : List Value) : hasScriptItem items = items.any hasScript := by
  induction items with
  | nil => rfl
  | cons item rest ih => rw [hasScriptItem, ih, List.any_cons]

lemma literalsOfItems_eq_flatMap (items : List Value) :
    literalsOfItems items = items.flatMap literals := by
  induction items with
  | nil => rfl
  | cons item rest ih => rw [literalsOfItems, ih, List.flatMap_cons]

lemma toNativeItems_eq_map (items : List Value) : toNativeItems items = items.map toNative := by
  induction items with
  | nil => rfl
  | cons item rest ih => rw [toNativeItems, ih, List.map_cons]

/-- Under a key that is neither a group nor a literal, only objects are walked. -/
lemma hasScriptUnder_of_plain {key : String} (hliteral : isLiteralKey key = false)
    (hgroup : isGroupKey key = false) (value : Value) :
    hasScriptUnder key value = hasScript value := by
  cases value <;> simp [hasScriptUnder, hasScript, hliteral, hgroup]

/-- A key that is no script to the walk has neither spelling of one. -/
lemma isScriptKey_eq_false {key : String} (h : FilterKey.ofKey key ≠ .script) :
    isScriptKey key = false := by
  by_contra hkey
  simp only [isScriptKey, Bool.not_eq_false, Bool.or_eq_true, decide_eq_true_eq] at hkey
  rcases hkey with rfl | rfl
  · exact h (by decide)
  · exact h (by decide)

/-- Every spelling of a group is known to the walk. -/
lemma isGroupKey_of_unrecognized {key : String} (h : FilterKey.ofKey key = .unrecognized) :
    isGroupKey key = false := by
  by_contra hkey
  simp only [isGroupKey, Bool.not_eq_false, List.contains_cons, List.contains_nil, Bool.or_eq_true,
    beq_iff_eq, Bool.false_eq_true, or_false] at hkey
  rcases hkey with rfl | rfl | rfl | rfl | rfl | rfl | rfl | rfl
  all_goals exact absurd h (by decide)

lemma isScriptKey_native (c : Comparison) : isScriptKey c.native = false := by
  cases c <;> decide

lemma hasScriptUnder_comparison (c : Comparison) (value : Value) :
    hasScriptUnder c.native value = hasScript value :=
  hasScriptUnder_of_plain (by cases c <;> decide) (by cases c <;> decide) value

/-- The object that names an instant is no script. -/
lemma hasScript_instant (instant : Instant) : hasScript instant.toValue = false := by
  rfl

/-! ## The correspondence

A member of the native filter and the literals under its key are compared one by one; several members
with one native key are left to `Keyed.forall₂_ofList`. -/

/-- A native member has a script exactly when one of the literals under its key does. -/
def Corresponds (member : String × Value) (kept : String × List Value) : Prop :=
  member.1 = kept.1 ∧
    (isScriptKey member.1 || hasScriptUnder member.1 member.2) = kept.2.any hasScript

lemma any_eq_of_corresponds {members : Members} {kept : List (String × List Value)}
    (h : List.Forall₂ Corresponds members kept) :
    hasScriptMember members = (kept.flatMap Prod.snd).any hasScript := by
  rw [hasScriptMember_eq_any, List.any_flatMap]
  induction h with
  | nil => rfl
  | cons hhead _ ih => rw [List.any_cons, List.any_cons, hhead.2, ih]

/-- What is said of the operand of a member: as a filter, and as the operand of a group. -/
structure OperandCorresponds (operand : Value) : Prop where
  filter : hasScript (toNative operand) = (literals operand).any hasScript
  group : ∀ c : Logical,
    hasScriptUnder c.native (toNativeGroup operand) = (literalsOfGroup operand).any hasScript

lemma corresponds_copied {key : String} (hliteral : isLiteralKey key = false)
    (hscript : isScriptKey key = false) {operand : Value} (h : OperandCorresponds operand) :
    Corresponds (key, toNative operand) (key, groupItems key operand ++ literals operand) := by
  refine ⟨rfl, ?_⟩
  show (isScriptKey key || hasScriptUnder key (toNative operand)) = _
  rw [hscript, Bool.false_or, List.any_append, ← h.filter]
  cases operand with
  | array items =>
      by_cases hgroup : isGroupKey key = true
      · simp [toNative, hasScriptUnder, hasScript, groupItems, hgroup, hasScriptItem_eq_any]
      · simp [toNative, hasScriptUnder, hasScript, groupItems, hgroup]
  | object members =>
      simp [toNative, Value.ofMembers, hasScriptUnder, hasScript, groupItems, hliteral]
  | _ => simp [toNative, hasScriptUnder, hasScript, groupItems]

lemma corresponds_date (c : Comparison) (operand : Value) :
    Corresponds (c.native, dateOperand operand) (c.native, dateLiteral operand) := by
  refine ⟨rfl, ?_⟩
  show (isScriptKey c.native || hasScriptUnder c.native (dateOperand operand)) = _
  rw [isScriptKey_native, Bool.false_or, hasScriptUnder_comparison, dateOperand, dateLiteral]
  cases Instant.ofValue? operand with
  | none => simp
  | some instant => simp [hasScript_instant]

lemma corresponds_regex (operand : Value) :
    List.Forall₂ Corresponds (regexMembers operand)
      ((regexMembers operand).map fun member => (member.1, [member.2])) := by
  have hpattern : Corresponds ("$regex", regexPattern operand)
      ("$regex", [regexPattern operand]) := by
    refine ⟨rfl, ?_⟩
    show (isScriptKey "$regex" || hasScriptUnder "$regex" (regexPattern operand)) = _
    rw [hasScriptUnder_of_plain (by decide) (by decide), show isScriptKey "$regex" = false by decide]
    simp
  unfold regexMembers
  cases regexFlags? operand with
  | none => exact List.Forall₂.cons hpattern List.Forall₂.nil
  | some flags =>
      refine List.Forall₂.cons hpattern (List.Forall₂.cons ⟨rfl, ?_⟩ List.Forall₂.nil)
      show (isScriptKey "$options" || hasScriptUnder "$options" (.string flags)) = _
      rw [show isScriptKey "$options" = false by decide]
      simp [hasScriptUnder, hasScript]

/-- The members of an object, translated, correspond to the literals that they keep. -/
lemma corresponds_members {members : Members}
    (h : ∀ entry ∈ members, OperandCorresponds entry.2) :
    List.Forall₂ Corresponds (nativeMembers members) (literalMembers members) := by
  induction members with
  | nil => exact List.Forall₂.nil
  | cons entry rest ih =>
      obtain ⟨key, operand⟩ := entry
      have hoperand : OperandCorresponds operand := h (key, operand) List.mem_cons_self
      have hrest := ih fun entry hentry => h entry (List.mem_cons_of_mem _ hentry)
      rw [nativeMembers, literalMembers]
      refine List.rel_append ?_ hrest
      cases hkey : FilterKey.ofKey key with
      | field | native =>
          refine List.Forall₂.cons (corresponds_copied ?_ ?_ hoperand) List.Forall₂.nil
          · simp [isLiteralKey, hkey]
          · exact isScriptKey_eq_false (by simp [hkey])
      | comparison c =>
          refine List.Forall₂.cons ⟨rfl, ?_⟩ List.Forall₂.nil
          show (isScriptKey c.native || hasScriptUnder c.native (toNative operand)) = _
          rw [isScriptKey_native, Bool.false_or, hasScriptUnder_comparison, hoperand.filter]
      | dateComparison c => exact List.Forall₂.cons (corresponds_date c operand) List.Forall₂.nil
      | regex => exact corresponds_regex operand
      | logical c =>
          refine List.Forall₂.cons ⟨rfl, ?_⟩ List.Forall₂.nil
          show (isScriptKey c.native || hasScriptUnder c.native (toNativeGroup operand)) = _
          rw [show isScriptKey c.native = false by cases c <;> decide, Bool.false_or,
            hoperand.group]
      | elemMatch =>
          refine List.Forall₂.cons ⟨rfl, ?_⟩ List.Forall₂.nil
          show (isScriptKey "$elemMatch" || hasScriptUnder "$elemMatch" (toNative operand)) = _
          rw [hasScriptUnder_of_plain (by decide) (by decide),
            show isScriptKey "$elemMatch" = false by decide, Bool.false_or, hoperand.filter]
      | script => exact List.Forall₂.nil
      | unrecognized =>
          refine List.Forall₂.cons ⟨rfl, ?_⟩ List.Forall₂.nil
          show (isScriptKey key || hasScriptUnder key operand) = _
          rw [isScriptKey_eq_false (by simp [hkey])]
          have hliteral : isLiteralKey key = true := by simp [isLiteralKey, hkey]
          cases operand with
          | object members => simp [hasScriptUnder, hliteral]
          | array items => simp [hasScriptUnder, isGroupKey_of_unrecognized hkey]
          | _ => simp [hasScriptUnder]

/-- What holds of the members of an object holds of their values taken as filters. -/
lemma hasScript_ofMembers {members : Members}
    (h : ∀ entry ∈ members, OperandCorresponds entry.2) :
    hasScript (Value.ofMembers (nativeMembers members))
      = ((Keyed.ofList (literalMembers members)).flatMap Prod.snd).any hasScript :=
  any_eq_of_corresponds (Keyed.forall₂_ofList (fun _ _ hR => hR.1) (corresponds_members h))

lemma operandCorresponds (operand : Value) : OperandCorresponds operand := by
  induction operand using Value.inductionOn with
  | array items ih =>
      refine ⟨by simp [toNative, literals, hasScript], fun c => ?_⟩
      have hgroup : isGroupKey c.native = true := by cases c <;> decide
      rw [toNativeGroup, literalsOfGroup, hasScriptUnder, hgroup, Bool.true_and,
        hasScriptItem_eq_any, toNativeItems_eq_map, literalsOfItems_eq_flatMap, List.any_map,
        List.any_flatMap]
      rw [Bool.eq_iff_iff, List.any_eq_true, List.any_eq_true]
      refine exists_congr fun item => and_congr_right fun hitem => ?_
      rw [Function.comp_apply, (ih item hitem).filter]
  | object members ih =>
      refine ⟨by rw [toNative, literals, hasScript_ofMembers ih], fun c => ?_⟩
      have hliteral : isLiteralKey c.native = false := by cases c <;> decide
      rw [toNativeGroup, literalsOfGroup, ← hasScript_ofMembers ih]
      simp [Value.ofMembers, hasScriptUnder, hasScript, hliteral]
  | _ => exact ⟨by simp [toNative, literals, hasScript],
      fun c => by simp [toNativeGroup, literalsOfGroup, hasScriptUnder]⟩

/-! ## Scripts in the native filter -/

/-- A native filter has a script exactly when one of the literals that it keeps does. -/
lemma hasScript_toNative (filter : Value) :
    hasScript (toNative filter) = (literals filter).any hasScript :=
  (operandCorresponds filter).filter

/-- **A native filter is free of scripts exactly when the literals that it keeps at query positions
are**: every script that the walk meets is dropped, whatever its spelling and depth. -/
theorem toNative_scriptFree_iff (filter : Value) :
    hasScript (toNative filter) = false ↔ ∀ literal ∈ literals filter, hasScript literal = false := by
  rw [hasScript_toNative]
  simp

/-- Each kind of literal does carry a script through: the list of a group in native spelling, the
pattern of a regular expression, and a date operand that is no date. -/
theorem toNative_keeps_script :
    let script := Value.object [("$where", .string "sleep(1000)")]
    hasScript (toNative (.object [("$or", .array [script])])) = true ∧
      hasScript (toNative
        (.object [("a", .object [("_$regex", .object [("value", script)])])])) = true ∧
      hasScript (toNative (.object [("a", .object [("_$dgt", script)])])) = true := by
  decide

end DocumentAccess.Filter
