/-!
# What comes first

Sets and maps are kept ascending, because answers show their order.  Numbers ascend by size; texts
ascend code point by code point, a text before every longer one that begins with it.

* `Ordered.before` — whether one value comes before another; of two different values one does.
* `charsBefore` — the order of texts, on their characters.
-/

namespace DocumentAccess

/-- A strict order that tells of any two different values which comes first. -/
class Ordered (α : Type) where
  before : α → α → Bool
  irrefl : ∀ a, before a a = false
  trans : ∀ {a b c}, before a b = true → before b c = true → before a c = true
  connected : ∀ {a b}, before a b = false → before b a = false → a = b

namespace Ordered

variable {α : Type} [Ordered α] {a b : α}

/-- Only one of two values comes first. -/
theorem asymm (h : before a b = true) : before b a = false := by
  cases hba : before b a with
  | false => rfl
  | true => exact absurd (trans h hba) (by simp [irrefl])

/-- A value that comes before another differs from it. -/
theorem ne_of_before (h : before a b = true) : a ≠ b := by
  rintro rfl
  simp [irrefl] at h

/-- Of two different values one comes first. -/
theorem before_of_not_before (hne : a ≠ b) (h : before a b = false) : before b a = true := by
  cases hba : before b a with
  | true => rfl
  | false => exact absurd (connected h hba) hne

end Ordered

/-! ## Numbers -/

instance : Ordered Nat where
  before := Nat.blt
  irrefl a := by
    rw [← Bool.not_eq_true, Nat.blt_eq]
    exact Nat.lt_irrefl a
  trans {a b c} hab hbc := by
    rw [Nat.blt_eq] at *
    exact Nat.lt_trans hab hbc
  connected {a b} hab hba := by
    rw [← Bool.not_eq_true, Nat.blt_eq] at *
    exact Nat.le_antisymm (Nat.not_lt.1 hba) (Nat.not_lt.1 hab)

/-! ## Texts -/

/-- Compares two texts at the first place where they differ: the one that ends there comes first, or
else the one with the smaller code point. -/
def charsBefore : List Char → List Char → Bool
  | _, [] => false
  | [], _ :: _ => true
  | a :: as, b :: bs => if a = b then charsBefore as bs else Nat.blt a.toNat b.toNat

theorem charsBefore_irrefl : ∀ as : List Char, charsBefore as as = false
  | [] => rfl
  | a :: as => by simp [charsBefore, charsBefore_irrefl as]

theorem charsBefore_trans :
    ∀ {as bs cs : List Char}, charsBefore as bs = true → charsBefore bs cs = true →
      charsBefore as cs = true
  | _, [], _, h, _ => by simp [charsBefore] at h
  | _, _ :: _, [], _, h => by simp [charsBefore] at h
  | [], _ :: _, _ :: _, _, _ => rfl
  | a :: as, b :: bs, c :: cs, hab, hbc => by
    by_cases h : a = b
    · subst h
      by_cases h' : a = c
      · subst h'
        simp only [charsBefore, if_true] at *
        exact charsBefore_trans hab hbc
      · simpa [charsBefore, h'] using hbc
    · by_cases h' : b = c
      · subst h'
        simpa [charsBefore, h] using hab
      · have hlt : a.toNat < c.toNat := by
          simp only [charsBefore, h, h', if_false, Nat.blt_eq] at hab hbc
          exact Nat.lt_trans hab hbc
        have hne : a ≠ c := by
          rintro rfl
          exact Nat.lt_irrefl _ hlt
        simp only [charsBefore, hne, if_false, Nat.blt_eq]
        exact hlt

theorem charsBefore_connected :
    ∀ {as bs : List Char}, charsBefore as bs = false → charsBefore bs as = false → as = bs
  | [], [], _, _ => rfl
  | [], _ :: _, h, _ => by simp [charsBefore] at h
  | _ :: _, [], _, h => by simp [charsBefore] at h
  | a :: as, b :: bs, hab, hba => by
    by_cases h : a = b
    · subst h
      simp only [charsBefore, if_true] at hab hba
      rw [charsBefore_connected hab hba]
    · have h' : b ≠ a := Ne.symm h
      simp only [charsBefore, h, h', if_false] at hab hba
      rw [← Bool.not_eq_true, Nat.blt_eq, Nat.not_lt] at hab hba
      exact absurd (Char.toNat_inj.1 (Nat.le_antisymm hba hab)) h

instance : Ordered String where
  before a b := charsBefore a.toList b.toList
  irrefl a := charsBefore_irrefl a.toList
  trans := charsBefore_trans
  connected hab hba := String.toList_inj.1 (charsBefore_connected hab hba)

end DocumentAccess
