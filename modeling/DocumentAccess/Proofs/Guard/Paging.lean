import DocumentAccess.Proofs.Guard.Identity
import DocumentAccess.Proofs.Plan.Checks

/-!
# Page sizes

The settings of a guard name the largest page that a request may ask for.  To a store, a limit of 0 is no
bound, so a query is held to that page size only if its limit is not 0 either.

* `FindQuery.bound?`, `FindQuery.AsksAtMost` — how many documents a query asks for.
* `ReadPlan.findQuery_of_build` — the page size of a plan.
* **`Guard.read_bounded_iff`** — which reads ask for no more than the largest page.
* `Pagination.current_eq_zero_iff` — pages are numbered from 1, as far as words can number them.
-/

namespace DocumentAccess

/-! ## Queries -/

namespace FindQuery

/-- How many documents a query asks for, unless it asks for all. -/
def bound? (query : FindQuery) : Option Nat :=
  if query.limit = 0 then none else some query.limit

/-- The query asks for no more than so many documents. -/
def AsksAtMost (query : FindQuery) (greatest : Nat) : Prop :=
  ∃ bound, query.bound? = some bound ∧ bound ≤ greatest

lemma asksAtMost_iff {query : FindQuery} {greatest : Nat} :
    query.AsksAtMost greatest ↔ query.limit ≠ 0 ∧ query.limit ≤ greatest := by
  rw [AsksAtMost, bound?]
  split
  next hzero => simp [hzero]
  next hpositive => simp [hpositive]

end FindQuery

/-! ## Plans -/

namespace ReadPlan

variable {catalog : Catalog} {settings : Settings} {model : String} {request : ReadRequest}
  {levels : Levels} {plan : ReadPlan}

/-- The page size of a plan is that of its request, and at most the largest one. -/
lemma limit_of_build (h : build catalog settings model request levels = .ok plan) :
    plan.limit = limitOf settings request ∧ limitOf settings request ≤ settings.readLimit := by
  obtain ⟨index, entries, hindex, -, rfl⟩ := build_ok h
  refine ⟨rfl, Nat.not_lt.1 fun hlimit => ?_⟩
  rw [build, hindex] at h
  simp only [if_pos hlimit] at h
  exact absurd h (by simp)

/-- What a plan asks of the store is held to the largest page, unless its page size is 0. -/
lemma findQuery_of_build (h : build catalog settings model request levels = .ok plan) :
    plan.findQuery.limit ≤ settings.readLimit ∧
      (plan.findQuery.AsksAtMost settings.readLimit ↔ limitOf settings request ≠ 0) := by
  obtain ⟨hlimit, hle⟩ := limit_of_build h
  have hquery : plan.findQuery.limit = limitOf settings request := hlimit
  rw [FindQuery.asksAtMost_iff, hquery]
  exact ⟨hle, and_iff_left hle⟩

end ReadPlan

/-! ## Reads -/

namespace Guard

/-- **Which reads ask for no more than the largest page.**  No plan, and no query that a read sends to a
store, has a limit above it.  They ask for no more documents than that unless the page size of the request is
0: then all are asked for. -/
theorem read_bounded_iff (guard : Guard) (model : String) (request : ReadRequest) (levels : Levels) :
    (∀ plan, ReadPlan.build guard.catalog guard.settings model request levels = .ok plan →
      plan.findQuery.limit ≤ guard.settings.readLimit ∧
      (plan.findQuery.AsksAtMost guard.settings.readLimit ↔
        ReadPlan.limitOf guard.settings request ≠ 0)) ∧
    ∀ (σ : Type) (store : Store σ) (state : σ),
      ∀ call ∈ (guard.read store state model request levels).calls,
        ∃ query, call = .find model query ∧ query.limit ≤ guard.settings.readLimit ∧
          (query.AsksAtMost guard.settings.readLimit ↔
            ReadPlan.limitOf guard.settings request ≠ 0) := by
  refine ⟨fun plan hplan => ReadPlan.findQuery_of_build hplan, fun σ store state call hcall => ?_⟩
  rw [read, withReadPlan] at hcall
  cases hplan : ReadPlan.build guard.catalog guard.settings model request levels with
  | error refusal => simp [hplan, Run.refused] at hcall
  | ok plan =>
      cases hrefusal : plan.refusal? with
      | some refusal => simp [hplan, hrefusal, Run.refused] at hcall
      | none =>
          simp only [hplan, hrefusal, List.mem_singleton] at hcall
          exact ⟨plan.findQuery, hcall, ReadPlan.findQuery_of_build hplan⟩

/-- Reads all notes for a caller without any level; the request may name a page size. -/
def readNotes (guard : Guard) (limit : Option Nat) : Run MemoryStore (List Value) :=
  guard.read MemoryStore.store notesStore "notes" ⟨.null, none, none, none, none, limit⟩ (.uniform 0)

/-- The guard over notes with a page size of 0 for requests that name none. -/
def unpagedGuard : Guard :=
  { notesGuard with settings := { notesGuard.settings with limit := 0 } }

/-- A read for which the page size 0 is asked, and one that names no page size under accepted settings
whose own is 0, both ask for all documents. -/
theorem read_unbounded :
    (notesGuard.settings.fault? = none ∧ unpagedGuard.settings.fault? = none) ∧
      ∃ query : FindQuery, query.limit = 0 ∧ query.bound? = none ∧ ¬ query.AsksAtMost 500 ∧
        notesGuard.settings.readLimit = 500 ∧ unpagedGuard.settings.readLimit = 500 ∧
        (readNotes notesGuard (some 0)).calls = [.find "notes" query] ∧
        (readNotes unpagedGuard none).calls = [.find "notes" query] := by
  refine ⟨⟨by decide, by decide⟩, ⟨.object [], "_id __v", "_id", 0, 0, []⟩, rfl, rfl, ?_, rfl, rfl,
    rfl, rfl⟩
  rw [FindQuery.asksAtMost_iff]
  exact fun h => h.1 rfl

end Guard

/-! ## Numbers of pages -/

namespace Pagination

lemma ceilDiv_one (n : Nat) : ceilDiv n 1 = n := by
  simp [ceilDiv, Nat.mod_one]

/-- With two documents or more on each, there are at most half as many pages, and one. -/
lemma ceilDiv_le (n : Nat) {d : Nat} (h : 2 ≤ d) : ceilDiv n d ≤ n / 2 + 1 := by
  have hle : n / d ≤ n / 2 := Nat.div_le_div_left h (by decide)
  unfold ceilDiv
  split <;> omega

/-- **Pages are numbered from 1**, except for the page behind as many documents as a word can count, with
one document on each page. -/
theorem current_eq_zero_iff {count skip limit : Nat} (hskip : skip < Number.wordCount) :
    (Pagination.of count skip limit).current = 0 ↔ limit = 1 ∧ skip + 1 = Number.wordCount := by
  have hone : (Pagination.of count skip 1).current = (skip + 1) % Number.wordCount := by
    simp [Pagination.of, ceilDiv_one]
  unfold Number.wordCount at *
  rcases Nat.lt_trichotomy limit 1 with hzero | rfl | hmore
  · obtain rfl : limit = 0 := by omega
    simp [Pagination.of]
  · rw [hone]
    omega
  · have hpages := ceilDiv_le skip hmore
    simp only [Pagination.of, Number.wordCount, if_neg (show limit ≠ 0 by omega)]
    omega

end Pagination

end DocumentAccess
