import DocumentAccess.Ascending
import Mathlib.Data.List.Nodup
import Mathlib.Tactic.Common

/-!
# Ascending lists are told by their members

A list that is built by insertion ascends strictly, and two strictly ascending lists with the same
members are the same list.  So what is reported as a set may be compared by membership only.

* `Ascending.Strict` — each member comes before all those behind it.
* `Ascending.strict_ofList` — lists built by insertion are strict.
* **`Ascending.Strict.ext`** — strict lists with the same members are equal.
-/

namespace DocumentAccess.Ascending

variable {α : Type} [Ordered α]

/-- Each member comes before all those behind it. -/
def Strict (set : List α) : Prop :=
  set.Pairwise fun a b => Ordered.before a b = true

lemma Strict.nodup {set : List α} (h : Strict set) : set.Nodup :=
  h.imp Ordered.ne_of_before

/-- **Strictly ascending lists with the same members are equal.** -/
theorem Strict.ext {a b : List α} (ha : Strict a) (hb : Strict b) (h : ∀ c, c ∈ a ↔ c ∈ b) :
    a = b := by
  have hperm : a.Perm b := (List.perm_ext_iff_of_nodup ha.nodup hb.nodup).2 h
  refine hperm.eq_of_pairwise (fun x y _ _ hxy hyx => ?_) ha hb
  exact absurd hyx (by simp [Ordered.asymm hxy])

variable [DecidableEq α]

/-- Insertion keeps a list strictly ascending. -/
lemma Strict.insert {set : List α} (h : Strict set) (a : α) : Strict (Ascending.insert a set) := by
  induction set with
  | nil => simp [Ascending.insert, Strict]
  | cons b rest ih =>
      obtain ⟨hhead, hrest⟩ := List.pairwise_cons.1 h
      rw [Ascending.insert]
      split_ifs with heq hbefore
      · exact h
      · refine List.pairwise_cons.2 ⟨?_, h⟩
        intro c hc
        rcases List.mem_cons.1 hc with rfl | hc
        · exact hbefore
        · exact Ordered.trans hbefore (hhead c hc)
      · refine List.pairwise_cons.2 ⟨?_, ih hrest⟩
        intro c hc
        rcases mem_insert.1 hc with rfl | hc
        · exact Ordered.before_of_not_before heq (by simpa using hbefore)
        · exact hhead c hc

/-- Lists that are built by insertion are strictly ascending. -/
lemma strict_ofList (members : List α) : Strict (ofList members) := by
  induction members with
  | nil => exact List.Pairwise.nil
  | cons a rest ih => exact ih.insert a

/-- The set of the members of several lists, from the sets of the lists. -/
lemma ofList_flatMap_ofList {β : Type} (parts : List β) (members : β → List α) :
    ofList (parts.flatMap fun part => ofList (members part)) = ofList (parts.flatMap members) := by
  refine (strict_ofList _).ext (strict_ofList _) fun c => ?_
  simp only [mem_ofList, List.mem_flatMap]

end DocumentAccess.Ascending
