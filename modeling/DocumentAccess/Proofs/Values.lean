import DocumentAccess.Proofs.Keyed
import DocumentAccess.Value

/-!
# Induction on values

A value is built from lists of values and lists of members, so its recursor speaks about all three.
`Value.inductionOn` is the principle that the proofs use instead: a list or an object may assume
the statement of everything directly inside it.

Equality of values is not identity, since the two zeros are equal, but it is an equivalence relation.
-/

namespace DocumentAccess.Value

/-- Induction on values: a list has the statement for its items, an object for its members. -/
@[elab_as_elim]
theorem inductionOn {motive : Value → Prop} (null : motive .null) (bool : ∀ b, motive (.bool b))
    (number : ∀ n, motive (.number n)) (string : ∀ s, motive (.string s))
    (array : ∀ items, (∀ item ∈ items, motive item) → motive (.array items))
    (object : ∀ members, (∀ entry ∈ members, motive entry.2) → motive (.object members))
    (v : Value) : motive v :=
  @Value.rec motive (fun items => ∀ item ∈ items, motive item)
    (fun members => ∀ entry ∈ members, motive entry.2) (fun entry => motive entry.2)
    null bool number string array object
    (fun _ h => absurd h List.not_mem_nil)
    (fun _ _ hhead hrest item h => (List.mem_cons.1 h).elim (fun e => e ▸ hhead) (hrest item))
    (fun _ h => absurd h List.not_mem_nil)
    (fun _ _ hhead hrest entry h => (List.mem_cons.1 h).elim (fun e => e ▸ hhead) (hrest entry))
    (fun _ _ h => h) v

/-- A list is well ordered when its items are. -/
lemma wellOrderedItems_iff {items : List Value} :
    WellOrderedItems items ↔ ∀ item ∈ items, item.WellOrdered := by
  induction items with
  | nil => simp [WellOrderedItems]
  | cons item rest ih => simp [WellOrderedItems, ih]

/-- Members are well ordered inside when their values are. -/
lemma wellOrderedMembers_iff {members : Members} :
    WellOrderedMembers members ↔ ∀ entry ∈ members, entry.2.WellOrdered := by
  induction members with
  | nil => simp [WellOrderedMembers]
  | cons entry rest ih => simp [WellOrderedMembers, ih]

lemma wellOrdered_array {items : List Value} :
    (array items).WellOrdered ↔ ∀ item ∈ items, item.WellOrdered := by
  rw [WellOrdered, wellOrderedItems_iff]

lemma wellOrdered_object {members : Members} :
    (object members).WellOrdered ↔
      Keyed.Sorted members ∧ ∀ entry ∈ members, entry.2.WellOrdered := by
  rw [WellOrdered, wellOrderedMembers_iff]

/-! ## Equality -/

/-- Lists are equal item by item. -/
lemma beqItems_iff {as bs : List Value} :
    beqItems as bs = true ↔ List.Forall₂ (fun a b => (a == b) = true) as bs := by
  induction as generalizing bs with
  | nil => cases bs <;> simp [beqItems]
  | cons a as ih =>
      cases bs with
      | nil => simp [beqItems]
      | cons b bs =>
          rw [beqItems, Bool.and_eq_true, ih, List.forall₂_cons]
          exact Iff.rfl

/-- Objects are equal member by member. -/
lemma beqMembers_iff {as bs : Members} :
    beqMembers as bs = true ↔
      List.Forall₂ (fun a b => a.1 = b.1 ∧ (a.2 == b.2) = true) as bs := by
  induction as generalizing bs with
  | nil => cases bs <;> simp [beqMembers]
  | cons a as ih =>
      cases bs with
      | nil => simp [beqMembers]
      | cons b bs =>
          rw [beqMembers, Bool.and_eq_true, Bool.and_eq_true, ih, List.forall₂_cons, beq_iff_eq]
          exact Iff.rfl

lemma beq_self (a : Value) : (a == a) = true := by
  induction a using inductionOn with
  | array items ih => exact beqItems_iff.2 (List.forall₂_same.2 ih)
  | object members ih =>
      exact beqMembers_iff.2 (List.forall₂_same.2 fun entry hentry => ⟨rfl, ih entry hentry⟩)
  | number n => exact (BEq.rfl : (n == n) = true)
  | _ => simp [BEq.beq, beq]

/-- Equal values equal the same values. -/
lemma beq_congr {a b : Value} (hab : (a == b) = true) (c : Value) : (a == c) = (b == c) := by
  induction a using inductionOn generalizing b c with
  | array as ih =>
      cases b with
      | array bs =>
          cases c with
          | array cs =>
              show beqItems as cs = beqItems bs cs
              induction beqItems_iff.1 hab generalizing cs with
              | nil => rfl
              | cons hhead hrest ihrest =>
                  obtain ⟨ihhead, ih⟩ := List.forall_mem_cons.1 ih
                  cases cs with
                  | nil => rfl
                  | cons c cs =>
                      exact congrArg₂ (· && ·) (ihhead hhead c) (ihrest ih (beqItems_iff.2 hrest) cs)
          | _ => rfl
      | _ => simp [BEq.beq, beq] at hab
  | object as ih =>
      cases b with
      | object bs =>
          cases c with
          | object cs =>
              show beqMembers as cs = beqMembers bs cs
              induction beqMembers_iff.1 hab generalizing cs with
              | nil => rfl
              | cons hhead hrest ihrest =>
                  obtain ⟨ihhead, ih⟩ := List.forall_mem_cons.1 ih
                  cases cs with
                  | nil => rfl
                  | cons c cs =>
                      rw [beqMembers, beqMembers, hhead.1, ihrest ih (beqMembers_iff.2 hrest) cs]
                      exact congrArg (_ && · && _) (ihhead hhead.2 c.2)
          | _ => rfl
      | _ => simp [BEq.beq, beq] at hab
  | number m =>
      cases b with
      | number n =>
          cases c with
          | number k => exact BEq.congr_left (a := m) hab
          | _ => rfl
      | _ => simp [BEq.beq, beq] at hab
  | null =>
      cases b with
      | null => rfl
      | _ => simp [BEq.beq, beq] at hab
  | bool x =>
      cases b with
      | bool y => rw [show x = y by simpa [BEq.beq, beq] using hab]
      | _ => simp [BEq.beq, beq] at hab
  | string x =>
      cases b with
      | string y => rw [show x = y by simpa [BEq.beq, beq] using hab]
      | _ => simp [BEq.beq, beq] at hab

instance : EquivBEq Value where
  rfl := beq_self _
  symm {a _} hab := (beq_congr hab a).symm.trans (beq_self a)
  trans {_ _ c} hab hbc := (beq_congr hab c).trans hbc

end DocumentAccess.Value
