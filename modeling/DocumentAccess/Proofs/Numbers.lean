import DocumentAccess.Number.Basic
import Mathlib.Tactic.Common
import Mathlib.Tactic.Ring

/-!
# Sums of numbers

The integers of a JSON text are those of a signed or of an unsigned 64-bit word.  Two of them always
have a sum; it is an integer when both and the sum itself are signed words, and a double otherwise.

* `Binary64.nearest_le` — rounding at most doubles a natural number, so nothing of the size of
  a word overflows.
* `Number.IsWord`, `Number.IsInteger` — signed words, and the integers of a JSON text.
* `Number.FitsWords` — two signed words whose sum is one.
* **`Number.isSome_add`**, **`Number.add_eq_some`** — integers have a sum, and which one.
-/

namespace DocumentAccess

namespace Binary64

lemma roundHalfEven_le (num den : Nat) : roundHalfEven num den ≤ num / den + 1 := by
  dsimp only [roundHalfEven]
  have hbit : num / den % 2 < 2 := Nat.mod_lt _ (by decide)
  split
  · omega
  · split <;> omega

/-- The distance between neighbouring doubles is no greater than they are. -/
lemma spacing_le {units : Nat} (h : units ≠ 0) : spacing units ≤ units := by
  calc spacing units ≤ 2 ^ Nat.log2 units := Nat.pow_le_pow_right (by decide) (Nat.sub_le _ _)
    _ ≤ units := Nat.log2_self_le h

/-- Rounding at most doubles a natural number. -/
lemma nearest_le (num : Nat) (h : 2 * num < overflow) :
    ∃ units, nearest num 1 = some units ∧ units ≤ 2 * num := by
  have hunits : roundHalfEven num (1 * spacing (num / 1)) * spacing (num / 1) ≤ 2 * num := by
    rw [Nat.div_one, Nat.one_mul]
    by_cases hzero : num = 0
    · subst hzero
      decide
    · calc roundHalfEven num (spacing num) * spacing num
          ≤ (num / spacing num + 1) * spacing num := Nat.mul_le_mul_right _ (roundHalfEven_le _ _)
        _ = num / spacing num * spacing num + spacing num := by ring
        _ ≤ num + num := Nat.add_le_add (Nat.div_mul_le_self _ _) (spacing_le hzero)
        _ = 2 * num := by ring
  refine ⟨_, ?_, hunits⟩
  rw [nearest, if_pos (Nat.lt_of_le_of_lt hunits h)]

end Binary64

namespace Number

/-- An integer that a signed 64-bit word holds. -/
def IsWord (n : Int) : Prop :=
  minWord ≤ n ∧ n ≤ maxWord

instance : DecidablePred IsWord := fun n => inferInstanceAs (Decidable (minWord ≤ n ∧ n ≤ maxWord))

/-- An integer of a JSON text: one that a signed or an unsigned 64-bit word holds. -/
def IsInteger (n : Number) : Prop :=
  ∃ i : Int, n = .int i ∧ minWord ≤ i ∧ i < wordCount

/-- Two signed words whose sum is one. -/
def FitsWords (a b : Number) : Prop :=
  ∃ c d, a = .int c ∧ b = .int d ∧ IsWord c ∧ IsWord d ∧ IsWord (c + d)

lemma word?_int (n : Int) : word? (.int n) = if IsWord n then some n else none := rfl

/-- The sum of integers is an integer when it and both operands are words. -/
lemma addWords?_int (c d : Int) :
    addWords? (.int c) (.int d)
      = if IsWord c ∧ IsWord d ∧ IsWord (c + d) then some (c + d) else none := by
  rw [addWords?, word?_int, word?_int]
  by_cases hc : IsWord c
  · by_cases hd : IsWord d
    · simp only [hc, hd, true_and, if_true]
      rfl
    · simp only [hc, hd, false_and, and_false, if_true, if_false]
  · simp only [hc, false_and, if_false]

lemma add_words {c d : Int} (hc : IsWord c) (hd : IsWord d) (hsum : IsWord (c + d)) :
    add (.int c) (.int d) = some (.int (c + d)) := by
  rw [add, addWords?_int, if_pos ⟨hc, hd, hsum⟩]

lemma addWords?_eq_none {a b : Number} (h : ¬ FitsWords a b) : addWords? a b = none := by
  cases a with
  | int c =>
      cases b with
      | int d => exact (addWords?_int c d).trans (if_neg fun hwords => h ⟨c, d, rfl, rfl, hwords⟩)
      | float y =>
          rw [addWords?]
          cases word? (.int c) <;> rfl
  | float x => rfl

/-- **What a sum is.**  It is an integer for signed words whose sum is one, and else a double. -/
theorem add_eq_some {a b n : Number} (h : a.add b = some n) :
    (∀ c d, a = .int c → b = .int d → (n = .int (c + d) ↔ FitsWords a b)) ∧
      ((∃ x, n = .float x) ↔ ¬ FitsWords a b) := by
  by_cases hfits : FitsWords a b
  · obtain ⟨c, d, rfl, rfl, hc, hd, hsum⟩ := id hfits
    rw [add_words hc hd hsum] at h
    obtain rfl := Option.some.inj h
    refine ⟨?_, by simp [hfits]⟩
    rintro _ _ ⟨⟩ ⟨⟩
    simp [hfits]
  · have hfloat : ∃ x, n = .float x := by
      rw [add, addWords?_eq_none hfits] at h
      dsimp only at h
      split at h
      · obtain ⟨x, -, rfl⟩ := Option.map_eq_some_iff.1 h
        exact ⟨x, rfl⟩
      · simp at h
    obtain ⟨x, rfl⟩ := hfloat
    exact ⟨by simp [hfits], by simp [hfits]⟩

/-- The double nearest to an integer of a JSON text is not much larger. -/
lemma toBinary64?_of_isInteger {n : Number} (h : n.IsInteger) :
    ∃ x, n.toBinary64? = some x ∧ x.units ≤ 2 * (wordCount * Binary64.one) := by
  obtain ⟨i, rfl, hleast, hgreatest⟩ := h
  have habs : i.natAbs ≤ wordCount := by
    simp only [minWord, wordCount] at *
    omega
  have hsize : i.natAbs * Binary64.one ≤ wordCount * Binary64.one := Nat.mul_le_mul_right _ habs
  have hbound : 2 * (wordCount * Binary64.one) < Binary64.overflow := by decide +kernel
  obtain ⟨units, hunits, hle⟩ := Binary64.nearest_le (i.natAbs * Binary64.one) (by omega)
  refine ⟨⟨decide (i < 0), units⟩, ?_, by dsimp only; omega⟩
  rw [toBinary64?, Binary64.ofInt?, hunits]
  rfl

/-- **The integers of a JSON text have sums**: none of them overflows. -/
theorem isSome_add {a b : Number} (ha : a.IsInteger) (hb : b.IsInteger) : ∃ n, a.add b = some n := by
  by_cases hfits : FitsWords a b
  · obtain ⟨c, d, rfl, rfl, hc, hd, hsum⟩ := hfits
    exact ⟨_, add_words hc hd hsum⟩
  · obtain ⟨x, hx, hxunits⟩ := toBinary64?_of_isInteger ha
    obtain ⟨y, hy, hyunits⟩ := toBinary64?_of_isInteger hb
    have hsigned : ∀ z : Binary64, z.signed.natAbs = z.units := by
      intro z
      rw [Binary64.signed]
      split <;> simp
    have hsum : (x.signed + y.signed).natAbs ≤ x.units + y.units := by
      rw [← hsigned x, ← hsigned y]
      exact Int.natAbs_add_le _ _
    have hbound : 2 * (2 * (2 * (wordCount * Binary64.one))) < Binary64.overflow := by decide +kernel
    obtain ⟨units, hunits, -⟩ := Binary64.nearest_le (x.signed + y.signed).natAbs (by omega)
    rw [add, addWords?_eq_none hfits, hx, hy]
    dsimp only
    rw [Binary64.add, hunits]
    exact ⟨_, rfl⟩

end Number

end DocumentAccess
