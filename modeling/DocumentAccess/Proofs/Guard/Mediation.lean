import DocumentAccess.Proofs.Guard.Identity
import DocumentAccess.Proofs.Plan.Checks

/-!
# The guard stands in between

Each operation ends in one of two ways.  Either it is refused whatever the store is, which is then neither
asked nor changed; or the caller may do what the store is asked to do, and what comes of it is the
answer of the store.

* `Guard.Unasked` — an operation is refused whatever the store is.
* `Store.Saves`, `SavesInOrder` — documents are saved in order, up to the first failure.
* `Guard.Mediates` — what the store is asked, and after which checks.
* `Guard.FailsAtomically` — a refusal that does not come from the store leaves it as it was.
* **`Guard.mediates`** — every guard does both.
-/

namespace DocumentAccess

variable {σ : Type}

/-! ## Saving -/

/-- A store saves documents one after the other; each save starts from the state that the one before it
left. -/
inductive Store.Saves (store : Store σ) (model : String) : σ → List Value → List Value → σ → Prop
  | nil {state : σ} : Saves store model state [] [] state
  | cons {before middle after : σ} {document kept : Value} {documents saved : List Value} :
      store.save before model document = (.ok kept, middle) →
      Saves store model middle documents saved after →
      Saves store model before (document :: documents) (kept :: saved) after

/-- Documents are saved in order: all of them, or exactly those before the first that fails. -/
inductive SavesInOrder (store : Store σ) (model : String) (state : σ) (documents : List Value) :
    Except Refusal (List Value) → σ → List StoreCall → Prop
  | all {saved : List Value} {final : σ} :
      store.Saves model state documents saved final →
      SavesInOrder store model state documents (.ok saved) final (documents.map (.save model))
  | upTo {earlier later saved : List Value} {document : Value} {middle final : σ} {message : String} :
      documents = earlier ++ document :: later →
      store.Saves model state earlier saved middle →
      store.save middle model document = (.error message, final) →
      SavesInOrder store model state documents (.error (.store message)) final
        ((earlier ++ [document]).map (.save model))

/-- A document that is saved comes before the others. -/
lemma SavesInOrder.cons {store : Store σ} {model : String} {before middle final : σ}
    {document kept : Value} {rest : List Value} {answer : Except Refusal (List Value)}
    {calls : List StoreCall} (hsave : store.save before model document = (.ok kept, middle))
    (h : SavesInOrder store model middle rest answer final calls) :
    SavesInOrder store model before (document :: rest) (answer.map (kept :: ·)) final
      (.save model document :: calls) := by
  cases h with
  | all hsaves => exact .all (.cons hsave hsaves)
  | upTo hsplit hsaves hfails =>
      exact .upTo (by rw [hsplit, List.cons_append]) (.cons hsave hsaves) hfails

namespace Guard

/-- **Saving documents saves them in order.** -/
theorem savesInOrder_saveAll (store : Store σ) (model : String) (documents : List Value) (state : σ) :
    SavesInOrder store model state documents (saveAll store model documents state).1
      (saveAll store model documents state).2.1 (saveAll store model documents state).2.2 := by
  induction documents generalizing state with
  | nil => exact .all .nil
  | cons document rest ih =>
      rw [saveAll]
      rcases hsave : store.save state model document with ⟨_ | kept, middle⟩
      · exact .upTo (List.nil_append _).symm .nil hsave
      · exact (ih middle).cons hsave

/-- A save that fails is a failure of the store. -/
lemma refusal_of_savesInOrder {store : Store σ} {model : String} {state final : σ}
    {documents : List Value} {answer : Except Refusal (List Value)} {calls : List StoreCall}
    {refusal : Refusal} (h : SavesInOrder store model state documents answer final calls)
    (hanswer : answer = .error refusal) : ∃ message, refusal = .store message := by
  cases h with
  | all _ => exact absurd hanswer (by simp)
  | upTo _ _ _ => exact ⟨_, (Except.error.inj hanswer).symm⟩

end Guard

/-! ## Asked and unasked -/

/-- The refusal is a failure of the store. -/
def Refusal.IsStore (refusal : Refusal) : Prop :=
  ∃ message, refusal = .store message

/-- Whatever the store is, the operation is refused before it is asked. -/
def Guard.Unasked {α : Type} (run : Store σ → Run σ α) (state : σ) : Prop :=
  ∃ refusal notices, ¬ refusal.IsStore ∧ ∀ store, run store = .refused refusal state notices

/-- How an update goes on that has passed its checks. -/
inductive Guard.Updates (guard : Guard) (store : Store σ) (state : σ) (model : String)
    (command : Value) (query : FindQuery) : Run σ (List Value) → Prop
  /-- The store fails to find. -/
  | unfound {message : String} {notices : List Notice} :
      store.find state model query = .error message →
      Updates guard store state model command query
        ⟨.error (.store message), state, [.find model query], notices⟩
  /-- The command fails on a document that was found. -/
  | malformed {documents : List Value} {document : Value} {error : UpdateError}
      {notices : List Notice} :
      store.find state model query = .ok documents → document ∈ documents →
      (Update.apply (guard.versionKey model) command document).failure = some error →
      Updates guard store state model command query
        ⟨.error (.malformedCommand error), state, [.find model query], notices⟩
  /-- The command goes through on all documents that were found; what came of them is saved. -/
  | applied {documents updated : List Value} {answer : Except Refusal (List Value)} {final : σ}
      {saves : List StoreCall} {notices : List Notice} :
      store.find state model query = .ok documents →
      List.Forall₂
        (fun before after =>
          Update.apply (guard.versionKey model) command before = .done after)
        documents updated →
      SavesInOrder store model state updated answer final saves →
      Updates guard store state model command query
        ⟨answer, final, .find model query :: saves, notices⟩

/-- Each operation is refused unasked, or the caller may do what the store is asked to do. -/
structure Guard.Mediates (guard : Guard) (σ : Type) : Prop where
  read (state : σ) (model : String) (request : ReadRequest) (levels : Levels) :
    Unasked (fun store => guard.read store state model request levels) state ∨
      ∃ index query, guard.catalog.index model = .ok index ∧ index.MayRead query.filter levels ∧
        ∀ store, ∃ notices, guard.read store state model request levels
          = ⟨Run.ofStore (store.find state model query), state, [.find model query], notices⟩
  count (state : σ) (model : String) (request : ReadRequest) (levels : Levels) :
    Unasked (fun store => guard.count store state model request levels) state ∨
      ∃ index filter pages, guard.catalog.index model = .ok index ∧ index.MayRead filter levels ∧
        ∀ store, ∃ notices, guard.count store state model request levels
          = ⟨(Run.ofStore (store.count state model filter)).map pages, state,
              [.count model filter], notices⟩
  create (state : σ) (model : String) (documents : List Value) (levels : Levels) :
    Unasked (fun store => guard.create store state model documents levels) state ∨
      ∃ index, guard.catalog.index model = .ok index ∧ index.create ≤ levels.create ∧
        ∀ store,
          SavesInOrder store model state documents
            (guard.create store state model documents levels).answer
            (guard.create store state model documents levels).state
            (guard.create store state model documents levels).calls
  update (state : σ) (model : String) (find command : Value) (levels : Levels) :
    Unasked (fun store => guard.update store state model find command levels) state ∨
      ∃ index query, guard.catalog.index model = .ok index ∧ index.MayRead query.filter levels ∧
        index.MayUpdate command levels ∧
        ∀ store, guard.Updates store state model command query
          (guard.update store state model find command levels)
  delete (state : σ) (model : String) (find : Value) (levels : Levels) :
    Unasked (fun store => guard.delete store state model find levels) state ∨
      ∃ index filter, guard.catalog.index model = .ok index ∧ index.delete ≤ levels.delete ∧
        index.MayRead filter levels ∧
        ∀ store, ∃ notices, guard.delete store state model find levels
          = ⟨Run.ofStore (store.remove state model filter).1, (store.remove state model filter).2,
              [.remove model filter], notices⟩

/-- A run that is refused, but not by the store, leaves the store as it was. -/
def Run.IsAtomic {α : Type} (run : Run σ α) (state : σ) : Prop :=
  ∀ refusal, run.answer = .error refusal → ¬ refusal.IsStore → run.state = state

/-- Each operation that is refused, but not by the store, leaves the store as it was. -/
structure Guard.FailsAtomically (guard : Guard) (σ : Type) : Prop where
  read (store : Store σ) (state : σ) (model : String) (request : ReadRequest) (levels : Levels) :
    (guard.read store state model request levels).IsAtomic state
  count (store : Store σ) (state : σ) (model : String) (request : ReadRequest) (levels : Levels) :
    (guard.count store state model request levels).IsAtomic state
  create (store : Store σ) (state : σ) (model : String) (documents : List Value)
      (levels : Levels) :
    (guard.create store state model documents levels).IsAtomic state
  update (store : Store σ) (state : σ) (model : String) (find command : Value) (levels : Levels) :
    (guard.update store state model find command levels).IsAtomic state
  delete (store : Store σ) (state : σ) (model : String) (find : Value) (levels : Levels) :
    (guard.delete store state model find levels).IsAtomic state

/-! ## Operations -/

namespace Guard

variable {guard : Guard} {store : Store σ} {state : σ} {model : String} {levels : Levels}

/-- A run that is refused unasked is atomic. -/
lemma Unasked.isAtomic {α : Type} {run : Store σ → Run σ α} (h : Unasked run state)
    (store : Store σ) : (run store).IsAtomic state := by
  obtain ⟨refusal, notices, -, hrun⟩ := h
  intro _ _ _
  rw [hrun store]
  rfl

/-- The failure of a store is a refusal by the store. -/
lemma isStore_of_ofStore {α : Type} {answer : Except String α} {refusal : Refusal}
    (h : Run.ofStore answer = .error refusal) : refusal.IsStore := by
  cases answer with
  | ok _ => exact absurd h (by simp [Run.ofStore])
  | error message => exact ⟨message, (Except.error.inj h).symm⟩

/-- A read is refused before it is carried out, or its filter may be read. -/
lemma withReadPlan_cases {α : Type} (guard : Guard) (state : σ) (model : String) (request : ReadRequest)
    (levels : Levels) :
    (∃ refusal notices, ¬ refusal.IsStore ∧ ∀ carryOut : ReadPlan → List Notice → Run σ α,
        guard.withReadPlan state model request levels carryOut = .refused refusal state notices) ∨
      ∃ plan index notices, guard.catalog.index model = .ok index ∧
        index.MayRead plan.filter levels ∧ ∀ carryOut : ReadPlan → List Notice → Run σ α,
          guard.withReadPlan state model request levels carryOut = carryOut plan notices := by
  simp only [withReadPlan]
  cases hplan : ReadPlan.build guard.catalog guard.settings model request levels with
  | error refusal =>
      exact Or.inl ⟨refusal, _, fun ⟨message, h⟩ => ReadPlan.build_error hplan message h, fun _ => rfl⟩
  | ok plan =>
      cases hrefusal : plan.refusal? with
      | some refusal =>
          exact Or.inl ⟨refusal, _, fun ⟨message, h⟩ => ReadPlan.refusal?_ne_store hrefusal message h,
            fun _ => by simp only [hrefusal]; rfl⟩
      | none =>
          obtain ⟨index, hindex, hread⟩ := ReadPlan.mayRead hplan hrefusal
          exact Or.inr ⟨plan, index, _, hindex, hread, fun _ => by simp only [hrefusal]; rfl⟩

/-- A command that was not applied to all documents fails on one of them. -/
lemma applyAll_error {versionKey : String} {command : Value} {documents : List Value}
    {error : UpdateError} (h : (applyAll versionKey command documents).1 = .error error) :
    ∃ document ∈ documents, (Update.apply versionKey command document).failure = some error := by
  induction documents with
  | nil => exact absurd h (by simp [applyAll])
  | cons document rest ih =>
      rw [applyAll] at h
      cases hfailure : (Update.apply versionKey command document).failure with
      | some other =>
          obtain rfl : other = error := by simpa [hfailure] using h
          exact ⟨document, List.mem_cons_self, hfailure⟩
      | none =>
          cases hrest : (applyAll versionKey command rest).1 with
          | error other =>
              obtain rfl : other = error := by simpa [hfailure, hrest, Except.map] using h
              obtain ⟨failing, hmem, hfails⟩ := ih hrest
              exact ⟨failing, List.mem_cons_of_mem _ hmem, hfails⟩
          | ok others => simp [hfailure, hrest, Except.map] at h

/-- An update that has passed its checks finds, applies its command to everything found, and saves. -/
lemma updates_of_plan {find command : Value} {plan : UpdatePlan}
    (hplan : UpdatePlan.build guard.catalog model find command levels = .ok plan)
    (hrefusal : plan.refusal? = none) (store : Store σ) :
    guard.Updates store state model command (.matching plan.filter)
      (guard.update store state model find command levels) := by
  have hcommand := (build_ok hplan).1
  rw [update]
  simp only [hplan, hrefusal, hcommand]
  cases hfind : store.find state model (.matching plan.filter) with
  | error message => exact .unfound hfind
  | ok documents =>
      rcases happly : applyAll (guard.versionKey model) command documents with ⟨error | updated, applied⟩
      · obtain ⟨document, hmem, hfails⟩ := applyAll_error (congrArg Prod.fst happly)
        simp only [happly]
        exact .malformed hfind hmem hfails
      · simp only [happly]
        exact .applied hfind (applyAll_ok (congrArg Prod.fst happly))
          (savesInOrder_saveAll store model updated state)

/-- An update that has passed its checks is atomic: it is refused by the store, or before anything is
saved. -/
lemma Updates.isAtomic {command : Value} {query : FindQuery} {run : Run σ (List Value)}
    (h : guard.Updates store state model command query run) : run.IsAtomic state := by
  intro refusal hanswer hstore
  cases h with
  | unfound _ => rfl
  | malformed _ _ _ => rfl
  | applied _ _ hsaves => exact absurd (refusal_of_savesInOrder hsaves hanswer) hstore

/-- Creating asks the store only if the level suffices. -/
lemma create_cases (guard : Guard) (state : σ) (model : String) (documents : List Value)
    (levels : Levels) :
    Unasked (fun store => guard.create store state model documents levels) state ∨
      ∃ index, guard.catalog.index model = .ok index ∧ index.create ≤ levels.create ∧
        ∀ store,
          SavesInOrder store model state documents
            (guard.create store state model documents levels).answer
            (guard.create store state model documents levels).state
            (guard.create store state model documents levels).calls := by
  simp only [create]
  cases hindex : guard.catalog.index model with
  | error error => exact Or.inl ⟨_, _, by simp [Refusal.IsStore], fun _ => rfl⟩
  | ok index =>
      by_cases hlevel : index.canCreate levels.create = true
      · simp only [if_pos hlevel]
        exact Or.inr ⟨index, rfl, of_decide_eq_true hlevel,
          fun store => savesInOrder_saveAll store model documents state⟩
      · simp only [if_neg hlevel]
        exact Or.inl ⟨_, _, by simp [Refusal.IsStore], fun _ => rfl⟩

/-- Updating asks the store only if filter and command are allowed. -/
lemma update_cases (guard : Guard) (state : σ) (model : String) (find command : Value)
    (levels : Levels) :
    Unasked (fun store => guard.update store state model find command levels) state ∨
      ∃ index query, guard.catalog.index model = .ok index ∧ index.MayRead query.filter levels ∧
        index.MayUpdate command levels ∧
        ∀ store, guard.Updates store state model command query
          (guard.update store state model find command levels) := by
  cases hplan : UpdatePlan.build guard.catalog model find command levels with
  | error refusal =>
      refine Or.inl ⟨refusal, UpdatePlan.notices guard.catalog model find,
        fun ⟨message, h⟩ => UpdatePlan.build_error hplan message h, fun store => ?_⟩
      simp only [update, hplan]
  | ok plan =>
      cases hrefusal : plan.refusal? with
      | some refusal =>
          refine Or.inl ⟨refusal, UpdatePlan.notices guard.catalog model find,
            fun ⟨message, h⟩ => UpdatePlan.refusal?_ne_store hrefusal message h, fun store => ?_⟩
          simp only [update, hplan, hrefusal]
      | none =>
          obtain ⟨index, hindex, hread, hupdate⟩ := UpdatePlan.mayUpdate hplan hrefusal
          exact Or.inr ⟨index, .matching plan.filter, hindex, hread, hupdate,
            updates_of_plan hplan hrefusal⟩

/-- Deleting asks the store only if the level suffices and the filter may be read. -/
lemma delete_cases (guard : Guard) (state : σ) (model : String) (find : Value) (levels : Levels) :
    Unasked (fun store => guard.delete store state model find levels) state ∨
      ∃ index filter, guard.catalog.index model = .ok index ∧ index.delete ≤ levels.delete ∧
        index.MayRead filter levels ∧
        ∀ store, ∃ notices, guard.delete store state model find levels
          = ⟨Run.ofStore (store.remove state model filter).1, (store.remove state model filter).2,
              [.remove model filter], notices⟩ := by
  simp only [delete]
  cases hindex : guard.catalog.index model with
  | error error => exact Or.inl ⟨_, _, by simp [Refusal.IsStore], fun _ => rfl⟩
  | ok index =>
      by_cases hlevel : index.canDelete levels.delete = true
      · simp only [if_pos hlevel]
        cases hdenied : index.denied (Filter.paths (Filter.toNative (Filter.normalize find))) .read
            levels.read with
        | nil =>
            exact Or.inr ⟨index, Filter.toNative (Filter.normalize find), rfl,
              of_decide_eq_true hlevel, AccessIndex.denied_eq_nil_iff.1 hdenied, fun _ => ⟨_, rfl⟩⟩
        | cons path rest => exact Or.inl ⟨_, _, by simp [Refusal.IsStore], fun _ => rfl⟩
      · simp only [if_neg hlevel]
        exact Or.inl ⟨_, _, by simp [Refusal.IsStore], fun _ => rfl⟩

/-- Every operation of a guard is refused unasked or may be carried out. -/
lemma mediates_all (guard : Guard) (σ : Type) : guard.Mediates σ where
  read state model request levels := by
    rcases withReadPlan_cases guard state model request levels with
      ⟨refusal, notices, hstore, hrun⟩ | ⟨plan, index, notices, hindex, hread, hrun⟩
    · exact Or.inl ⟨refusal, notices, hstore, fun _ => hrun _⟩
    · exact Or.inr ⟨index, plan.findQuery, hindex, hread, fun _ => ⟨notices, hrun _⟩⟩
  count state model request levels := by
    rcases withReadPlan_cases guard state model request levels with
      ⟨refusal, notices, hstore, hrun⟩ | ⟨plan, index, notices, hindex, hread, hrun⟩
    · exact Or.inl ⟨refusal, notices, hstore, fun _ => hrun _⟩
    · exact Or.inr ⟨index, plan.filter, fun n => Pagination.of n plan.skip plan.limit, hindex, hread,
        fun _ => ⟨notices, hrun _⟩⟩
  create := create_cases guard
  update := update_cases guard
  delete := delete_cases guard

/-- What the checks let through changes the store only by saves and removals that the store answers
itself. -/
lemma Mediates.failsAtomically (h : guard.Mediates σ) : guard.FailsAtomically σ where
  read store state model request levels := by
    rcases h.read state model request levels with hunasked | ⟨index, query, -, -, hrun⟩
    · exact hunasked.isAtomic store
    · obtain ⟨notices, hrun⟩ := hrun store
      rw [hrun]
      exact fun _ _ _ => rfl
  count store state model request levels := by
    rcases h.count state model request levels with hunasked | ⟨index, filter, pages, -, -, hrun⟩
    · exact hunasked.isAtomic store
    · obtain ⟨notices, hrun⟩ := hrun store
      rw [hrun]
      exact fun _ _ _ => rfl
  create store state model documents levels := by
    rcases h.create state model documents levels with hunasked | ⟨index, -, -, hsaves⟩
    · exact hunasked.isAtomic store
    · intro refusal hanswer hstore
      exact absurd (refusal_of_savesInOrder (hsaves store) hanswer) hstore
  update store state model find command levels := by
    rcases h.update state model find command levels with hunasked | ⟨index, query, -, -, -, hrun⟩
    · exact hunasked.isAtomic store
    · exact (hrun store).isAtomic
  delete store state model find levels := by
    rcases h.delete state model find levels with hunasked | ⟨index, filter, -, -, -, hrun⟩
    · exact hunasked.isAtomic store
    · obtain ⟨notices, hrun⟩ := hrun store
      rw [hrun]
      intro refusal hanswer hstore
      exact absurd (isStore_of_ofStore hanswer) hstore

/-- **Every guard stands in between**: its operations ask a store only for what the caller may do, and
when they fail for another cause than the store, the store is as it was. -/
theorem mediates (guard : Guard) (σ : Type) : guard.Mediates σ ∧ guard.FailsAtomically σ :=
  ⟨mediates_all guard σ, (mediates_all guard σ).failsAtomically⟩

/-- A guard over notes whose title may be updated from level 1 on. -/
def titledGuard : Guard :=
  let schema : Schema := ⟨"notes", defaultVersionKey,
    ⟨[("title", .leaf .string (some ⟨none, some 0, some 1, none, none⟩))], [], false⟩⟩
  { notesGuard with catalog := { Catalog.empty .restrictive with
      entries := [("notes", ⟨schema, schema.compile .restrictive⟩)] } }

/-- A title set for all notes, by a caller with the same level for every action. -/
def retitleNotes (level : Nat) : Run MemoryStore (List Value) :=
  titledGuard.update MemoryStore.store notesStore "notes" .null
    (.object [("$set", .object [("title", .string "tea")])]) (.uniform level)

/-- From level 1 on the note is found and saved with its title; below, the store is not asked. -/
example : (retitleNotes 1).answer
      = .ok [.object [("__v", .ofNat 0), ("_id", .ofNat 1), ("title", .string "tea")]] ∧
    (retitleNotes 1).calls = [.find "notes" (updateQuery .null),
      .save "notes" (.object [("__v", .ofNat 0), ("_id", .ofNat 1), ("title", .string "tea")])] ∧
    (retitleNotes 0).answer = .error (.accessDenied .update "notes" ["title"]) ∧
    (retitleNotes 0).calls = [] :=
  ⟨rfl, rfl, rfl, rfl⟩

end Guard

end DocumentAccess
