import DocumentAccess.Plan.Read
import DocumentAccess.Plan.Update
import DocumentAccess.Update.Command

/-!
# The guard of a document store

A guard stands between callers and a store.  Each operation first plans and checks, and reaches for the
store only when nothing is denied.

* `Guard` — the catalog and the settings.
* `Run` — what an operation answers, the store after it, how the store was used, and what was reported.
* `Guard.read`, `count`, `create`, `update`, `delete` — the operations.
* `Pagination` — how many pages there are, and on which of them a read starts.
* `Guard.ofSettings` — the guard over the schemas that settings point to.
-/

namespace DocumentAccess

/-! ## Pages -/

structure Pagination where
  count : Nat
  pages : Nat
  current : Nat
  deriving DecidableEq

namespace Pagination

/-- The quotient rounded up. -/
def ceilDiv (n d : Nat) : Nat :=
  if n % d = 0 then n / d else n / d + 1

/-- Pages of `limit` documents, one at least; a limit of 0 means a single page.  All numbers are words,
and the page after the last that a word can number wraps around. -/
def of (count skip limit : Nat) : Pagination :=
  if limit = 0 then ⟨count, 1, 1⟩
  else
    let pages := ceilDiv count limit
    ⟨count, if pages = 0 then 1 else pages, (ceilDiv skip limit + 1) % Number.wordCount⟩

def toValue (pagination : Pagination) : Value :=
  Value.ofMembers
    [("count", .ofNat pagination.count), ("pages", .ofNat pagination.pages),
      ("current", .ofNat pagination.current)]

end Pagination

/-! ## Runs -/

/-- What an operation answers, the state of the store after it, the uses of the store in order, and
what was reported. -/
structure Run (σ α : Type) where
  answer : Except Refusal α
  state : σ
  calls : List StoreCall
  notices : List Notice

namespace Run

variable {σ α β : Type}

/-- An operation that ends before it reaches for the store; a denial is reported. -/
def refused (refusal : Refusal) (state : σ) (notices : List Notice) : Run σ α :=
  ⟨.error refusal, state, [], notices ++ refusal.notices⟩

/-- The answer of a store, with its failure as a refusal. -/
def ofStore (answer : Except String α) : Except Refusal α :=
  match answer with
  | .ok a => .ok a
  | .error message => .error (.store message)

end Run

structure Guard where
  catalog : Catalog
  settings : Settings

namespace Guard

variable {σ : Type}

/-! ## Reading -/

/-- Plans a read and hands it on to be carried out, unless it is denied. -/
def withReadPlan {α : Type} (guard : Guard) (state : σ) (model : String) (request : ReadRequest)
    (levels : Levels) (carryOut : ReadPlan → List Notice → Run σ α) : Run σ α :=
  let notices := ReadPlan.notices guard.catalog guard.settings model request levels
  match ReadPlan.build guard.catalog guard.settings model request levels with
  | .error refusal => .refused refusal state notices
  | .ok plan =>
    match plan.refusal? with
    | some refusal => .refused refusal state notices
    | none => carryOut plan notices

/-- The documents that a request asks for. -/
def read (guard : Guard) (store : Store σ) (state : σ) (model : String) (request : ReadRequest)
    (levels : Levels) : Run σ (List Value) :=
  guard.withReadPlan state model request levels fun plan notices =>
    ⟨Run.ofStore (store.find state model plan.findQuery), state, [.find model plan.findQuery],
      notices⟩

/-- The number of documents that a request asks for, in pages. -/
def count (guard : Guard) (store : Store σ) (state : σ) (model : String) (request : ReadRequest)
    (levels : Levels) : Run σ Pagination :=
  guard.withReadPlan state model request levels fun plan notices =>
    ⟨(Run.ofStore (store.count state model plan.filter)).map fun n =>
        Pagination.of n plan.skip plan.limit,
      state, [.count model plan.filter], notices⟩

/-! ## Writing -/

/-- Saves documents in order up to the first failure. -/
def saveAll (store : Store σ) (model : String) :
    List Value → σ → Except Refusal (List Value) × σ × List StoreCall
  | [], state => (.ok [], state, [])
  | document :: rest, state =>
    match store.save state model document with
    | (.error message, state) => (.error (.store message), state, [.save model document])
    | (.ok saved, state) =>
      let (answer, state, calls) := saveAll store model rest state
      (answer.map (saved :: ·), state, .save model document :: calls)

/-- Saves new documents, if the caller's level suffices. -/
def create (guard : Guard) (store : Store σ) (state : σ) (model : String) (documents : List Value)
    (levels : Levels) : Run σ (List Value) :=
  match guard.catalog.index model with
  | .error error => .refused (.schema error) state []
  | .ok index =>
    if index.canCreate levels.create then
      let (answer, state, calls) := saveAll store model documents state
      ⟨answer, state, calls, []⟩
    else .refused (.accessDenied .create model []) state []

/-- Applies a command to each document in order, up to the first failure, with what is reported. -/
def applyAll (versionKey : String) (command : Value) :
    List Value → Except UpdateError (List Value) × List Notice
  | [] => (.ok [], [])
  | document :: rest =>
    let attempt := Update.apply versionKey command document
    match attempt.failure with
    | some error => (.error error, Update.notices command attempt)
    | none =>
      let (updated, notices) := applyAll versionKey command rest
      (updated.map (attempt.value :: ·), Update.notices command attempt ++ notices)

/-- The version counter of a model. -/
def versionKey (guard : Guard) (model : String) : String :=
  match guard.catalog.schema? model with
  | some schema => schema.versionKey
  | none => guard.settings.versionKey

/-- Applies a command to the documents that match a filter.  Nothing is saved before the command has
been applied to all of them. -/
def update (guard : Guard) (store : Store σ) (state : σ) (model : String) (find command : Value)
    (levels : Levels) : Run σ (List Value) :=
  let notices := UpdatePlan.notices guard.catalog model find
  match UpdatePlan.build guard.catalog model find command levels with
  | .error refusal => .refused refusal state notices
  | .ok plan =>
    match plan.refusal? with
    | some refusal => .refused refusal state notices
    | none =>
      let query := FindQuery.matching plan.filter
      match store.find state model query with
      | .error message => ⟨.error (.store message), state, [.find model query], notices⟩
      | .ok documents =>
        match applyAll (guard.versionKey model) plan.command documents with
        | (.error error, applied) =>
          ⟨.error (.malformedCommand error), state, [.find model query], notices ++ applied⟩
        | (.ok updated, applied) =>
          let (answer, state, calls) := saveAll store model updated state
          ⟨answer, state, .find model query :: calls, notices ++ applied⟩

/-- Removes the documents that match a filter, if the caller's level suffices and the filter may be
read. -/
def delete (guard : Guard) (store : Store σ) (state : σ) (model : String) (find : Value)
    (levels : Levels) : Run σ Nat :=
  match guard.catalog.index model with
  | .error error => .refused (.schema error) state []
  | .ok index =>
    if index.canDelete levels.delete then
      let portable := Filter.normalize find
      let filter := Filter.toNative portable
      let notices := Filter.notices portable
      match index.denied (Filter.paths filter) .read levels.read with
      | [] =>
        let (answer, state) := store.remove state model filter
        ⟨Run.ofStore answer, state, [.remove model filter], notices⟩
      | denied => .refused (.accessDenied .read model denied) state notices
    else .refused (.accessDenied .delete model []) state []

/-! ## Opening -/

/-- The guard over the schemas that settings point to, and the journal of loading them. -/
def ofSettings (files : Files) (settings : Settings) : Except Refusal Guard × Journal :=
  match settings.severity with
  | .error error => (.error (.settings error), [])
  | .ok severity =>
    let loading := settings.catalog.loadAll files
    let journal := .minimum severity :: Journal.ofNotices loading.notices
    match loading.failure with
    | some error => (.error (.schema error), journal)
    | none => (.ok ⟨loading.catalog, settings⟩, journal)

end Guard

end DocumentAccess
