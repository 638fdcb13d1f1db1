import DocumentAccess.Guard.Basic
import DocumentAccess.Guard.Memory
import DocumentAccess.Proofs.Update.Locality
import Mathlib.Data.List.Forall2

/-!
# The identity of updated documents

An update saves one document for each that it found.  Identifier and version counter of a saved
document are what the parts of the command that name them made of those of the document it came from;
a `$set` never counts as naming them, but any other verb and any field key does.

* `Guard.update_ok` — what an update that is answered has done.
* **`Guard.update_identity`** — identifier and version counter of the saved documents.
* `Guard.update_changes_identity` — an increment at the identifier goes through.
-/

namespace DocumentAccess.Guard

variable {σ : Type}

/-! ## Answered updates -/

/-- A command that was applied to all documents was applied to each of them in full. -/
lemma applyAll_ok {versionKey : String} {command : Value} {documents updated : List Value}
    (h : (applyAll versionKey command documents).1 = .ok updated) :
    List.Forall₂ (fun before after => Update.apply versionKey command before = .done after)
      documents updated := by
  induction documents generalizing updated with
  | nil =>
      obtain rfl : [] = updated := by simpa [applyAll] using h
      exact List.Forall₂.nil
  | cons document rest ih =>
      rw [applyAll] at h
      cases hfailure : (Update.apply versionKey command document).failure with
      | some error => simp [hfailure] at h
      | none =>
          cases hrest : (applyAll versionKey command rest).1 with
          | error error => simp [hfailure, hrest, Except.map] at h
          | ok others =>
              obtain rfl : (Update.apply versionKey command document).value :: others = updated := by
                simpa [hfailure, hrest, Except.map] using h
              refine List.Forall₂.cons ?_ (ih hrest)
              rw [Attempt.done, ← hfailure]

/-- Documents that were all saved were saved in order. -/
lemma saveAll_ok {store : Store σ} {model : String} {documents saved : List Value} {state : σ}
    (h : (saveAll store model documents state).1 = .ok saved) :
    (saveAll store model documents state).2.2 = documents.map (.save model) := by
  induction documents generalizing saved state with
  | nil => rfl
  | cons document rest ih =>
      rw [saveAll] at h ⊢
      rcases hsave : store.save state model document with ⟨_ | first, next⟩
      · simp [hsave] at h
      · simp only [hsave] at h ⊢
        cases hrest : (saveAll store model rest next).1 with
        | error refusal => simp [hrest, Except.map] at h
        | ok others => simp [ih hrest]

/-- What an update asks its store to find. -/
def updateQuery (find : Value) : FindQuery :=
  .matching (Filter.toNative (Filter.normalize find))

/-- The plan of an update has its command, and the query for its documents. -/
lemma build_ok {catalog : Catalog} {model : String} {find command : Value} {levels : Levels}
    {plan : UpdatePlan} (h : UpdatePlan.build catalog model find command levels = .ok plan) :
    plan.command = command ∧ FindQuery.matching plan.filter = updateQuery find := by
  unfold UpdatePlan.build at h
  cases hindex : catalog.index model with
  | error error => simp [hindex] at h
  | ok index =>
      obtain rfl : UpdatePlan.assemble model find command levels index = plan := by
        simpa [hindex] using h
      exact ⟨rfl, rfl⟩

/-- **What an update that is answered has done**: its command went through on every document that the
store found, and what came of them was saved in order. -/
theorem update_ok {guard : Guard} {store : Store σ} {state : σ} {model : String}
    {find command : Value} {levels : Levels} {saved : List Value}
    (h : (guard.update store state model find command levels).answer = .ok saved) :
    ∃ documents updated,
      store.find state model (updateQuery find) = .ok documents ∧
      (guard.update store state model find command levels).calls
        = .find model (updateQuery find) :: updated.map (.save model) ∧
      List.Forall₂
        (fun before after =>
          Update.apply (guard.versionKey model) command before = .done after)
        documents updated := by
  rw [update] at h ⊢
  cases hplan : UpdatePlan.build guard.catalog model find command levels with
  | error refusal => simp [hplan, Run.refused] at h
  | ok plan =>
      obtain ⟨hcommand, hquery⟩ := build_ok hplan
      simp only [hplan] at h ⊢
      cases hrefusal : plan.refusal? with
      | some refusal => simp [hrefusal, Run.refused] at h
      | none =>
          simp only [hrefusal] at h ⊢
          rw [hquery] at h ⊢
          cases hfind : store.find state model (updateQuery find) with
          | error message => simp [hfind] at h
          | ok documents =>
              simp only [hfind, hcommand] at h ⊢
              rcases happly : applyAll (guard.versionKey model) command documents
                with ⟨_ | updated, applied⟩
              · simp [happly] at h
              · simp only [happly] at h ⊢
                refine ⟨documents, updated, rfl, ?_, applyAll_ok (by rw [happly])⟩
                rw [saveAll_ok h]

/-! ## Identifier and version counter -/

/-- A command that went through is an object, and was walked. -/
lemma apply_done {versionKey : String} {command before after : Value}
    (h : Update.apply versionKey command before = .done after) :
    ∃ parts, command = .object parts ∧ Update.walk versionKey "" parts before = .done after := by
  cases command with
  | object parts =>
      refine ⟨parts, rfl, ?_⟩
      rw [Update.apply] at h
      by_cases hverbs : Update.verbCount parts = 0
      · simp [hverbs, Attempt.failed, Attempt.done] at h
      · rwa [if_neg hverbs] at h
  | _ => simp [Update.apply, Attempt.failed, Attempt.done] at h

/-- Identifier and version counter after a command are what the parts of the command that name them
make of those before it; what nothing but a `$set` names is as it was. -/
def IdentityFrom (versionKey : String) (command before after : Value) : Prop :=
  ∃ parts, command = .object parts ∧
    ∀ key, Update.isProtected versionKey key = true →
      after.get? key
        = (Update.walk versionKey "" (Update.partsNaming key parts) before).value.get? key ∧
      (key ∉ Update.rootTargets versionKey parts → after.get? key = before.get? key)

lemma identityFrom_of_done {versionKey : String} {command before after : Value}
    (h : Update.apply versionKey command before = .done after) :
    IdentityFrom versionKey command before after := by
  obtain ⟨parts, hparts, hwalk⟩ := apply_done h
  refine ⟨parts, hparts, fun key _ => ⟨?_, fun hkey => ?_⟩⟩
  · have hkept := Update.walk_get? versionKey "" key parts before (by rw [hwalk]; rfl)
    rwa [hwalk] at hkept
  · have hkept := Update.walk_get?_of_not_target hkey "" before
    rwa [hwalk] at hkept

/-- **Identifier and version counter of saved documents.**  In a document that an update saves they
are what the parts of the command that name them make of those in the document it was computed from;
so the identity of a document is kept exactly when those parts keep it. -/
theorem update_identity {guard : Guard} {store : Store σ} {state : σ} {model : String}
    {find command : Value} {levels : Levels} {saved : List Value}
    (h : (guard.update store state model find command levels).answer = .ok saved) :
    ∃ documents updated,
      store.find state model (updateQuery find) = .ok documents ∧
      (guard.update store state model find command levels).calls
        = .find model (updateQuery find) :: updated.map (.save model) ∧
      List.Forall₂ (IdentityFrom (guard.versionKey model) command) documents updated := by
  obtain ⟨documents, updated, hfind, hcalls, hupdated⟩ := update_ok h
  exact ⟨documents, updated, hfind, hcalls, hupdated.imp fun _ _ => identityFrom_of_done⟩

/-- A guard over one model without fields of its own. -/
def notesGuard : Guard :=
  let schema : Schema := ⟨"notes", defaultVersionKey, ⟨[], [], false⟩⟩
  { catalog := { Catalog.empty .restrictive with
      entries := [("notes", ⟨schema, schema.compile .restrictive⟩)] }
    settings := .standard "schemas" }

/-- One note in memory, with the identifier 1 and the version counter 0. -/
def notesStore : MemoryStore :=
  ⟨[("notes", [.object [("__v", .ofNat 0), ("_id", .ofNat 1)]])], ⟨none, none, none, none, none⟩, 0⟩

/-- An increment of the identifier, sent to the notes. -/
def renumberNotes : Run MemoryStore (List Value) :=
  notesGuard.update MemoryStore.store notesStore "notes" .null
    (.object [("$inc", .object [("__v", .ofNat 5), ("_id", .ofNat 1)])]) (.uniform 0)

theorem update_identity_notes :
    renumberNotes.answer = .ok [.object [("__v", .ofNat 5), ("_id", .ofNat 2)]] ∧
      ∃ documents updated,
        MemoryStore.store.find notesStore "notes" (updateQuery .null) = .ok documents ∧
        renumberNotes.calls = .find "notes" (updateQuery .null) :: updated.map (.save "notes") ∧
        List.Forall₂
          (IdentityFrom (notesGuard.versionKey "notes")
            (.object [("$inc", .object [("__v", .ofNat 5), ("_id", .ofNat 1)])]))
          documents updated := by
  have h : renumberNotes.answer = .ok [.object [("__v", .ofNat 5), ("_id", .ofNat 2)]] := rfl
  exact ⟨h, update_identity h⟩

/-- A caller without any level turns the only note, with the identifier 1, into a note with the
identifier 2 and another version counter. -/
theorem update_changes_identity :
    MemoryStore.store.find notesStore "notes" (updateQuery .null)
        = .ok [.object [("__v", .ofNat 0), ("_id", .ofNat 1)]] ∧
      renumberNotes.answer = .ok [.object [("__v", .ofNat 5), ("_id", .ofNat 2)]] ∧
      renumberNotes.calls = [.find "notes" (updateQuery .null),
        .save "notes" (.object [("__v", .ofNat 5), ("_id", .ofNat 2)])] :=
  ⟨rfl, rfl, rfl⟩

end DocumentAccess.Guard
