import DocumentAccess.Ordered

/-!
# Ascending lists without repetition

Touched paths and granted levels are reported as sets: ascending, each once.

* `Ascending.insert` — puts a value at its place; a value already there stays alone.
* `Ascending.ofList` — the set of a list's members.
-/

namespace DocumentAccess.Ascending

variable {α : Type} [Ordered α] [DecidableEq α]

/-- Puts a value in front of the first greater one, unless it is met before that. -/
def insert (a : α) : List α → List α
  | [] => [a]
  | b :: rest =>
    if a = b then b :: rest
    else if Ordered.before a b then a :: b :: rest
    else b :: insert a rest

/-- The members of a list, ascending, each once. -/
def ofList (members : List α) : List α :=
  members.foldr insert []

@[simp] theorem mem_insert {a b : α} {set : List α} : b ∈ insert a set ↔ b = a ∨ b ∈ set := by
  induction set with
  | nil => simp [insert]
  | cons c rest ih =>
    by_cases h : a = c
    · subst h; simp [insert]
    · by_cases hlt : Ordered.before a c = true
      · simp [insert, h, hlt]
      · simp only [insert, h, hlt, Bool.false_eq_true, if_false, List.mem_cons, ih]
        constructor
        · rintro (h | h | h) <;> simp [h]
        · rintro (h | h | h) <;> simp [h]

/-- Nothing is lost and nothing is added. -/
@[simp] theorem mem_ofList {a : α} {members : List α} : a ∈ ofList members ↔ a ∈ members := by
  induction members with
  | nil => simp [ofList]
  | cons b rest ih =>
    have step : ofList (b :: rest) = insert b (ofList rest) := rfl
    rw [step, mem_insert, ih, List.mem_cons]

end DocumentAccess.Ascending
