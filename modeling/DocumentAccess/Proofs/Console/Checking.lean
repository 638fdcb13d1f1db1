import DocumentAccess.Console.Requests
import DocumentAccess.Proofs.Guard.Mediation

/-!
# The dry run

A check plans a request without asking a store.  A guard over the same catalog and settings plans the same
request again, each operation in its own way, and comes to the same decisions about the same filter.

* `Run.IsDenied`, `Run.DecidedBy` — access is denied, and it is so just when a flag says so.
* **`Guard.read_decidedBy`**, `Guard.update_decidedBy`, `Guard.delete_decidedBy`,
  `Guard.create_decidedBy` — what decides about an operation.
* `Console.Foretells` — flags and a filter that foretell what a guard does.
* **`Console.checkRequest_foretells`** — the answer to a check does.
-/

namespace DocumentAccess

variable {σ : Type}

/-! ## Decisions -/

/-- The filter that is handed to the store. -/
def StoreCall.filter? : StoreCall → Option Value
  | .find _ query => some query.filter
  | .count _ filter => some filter
  | .remove _ filter => some filter
  | .save _ _ => none

/-- Access is denied. -/
def Refusal.IsDenial (refusal : Refusal) : Prop :=
  ∃ action model paths, refusal = .accessDenied action model paths

namespace Run

variable {α : Type} {run : Run σ α} {filters : List Value}

/-- The operation is refused because access is denied. -/
def IsDenied (run : Run σ α) : Prop :=
  ∃ refusal, run.answer = .error refusal ∧ refusal.IsDenial

/-- The filters that were handed to the store, in order. -/
def handed (run : Run σ α) : List Value :=
  run.calls.filterMap StoreCall.filter?

/-- Access is denied just when it is not permitted, and if it is not denied, these filters are handed to
the store. -/
structure DecidedBy (run : Run σ α) (permitted : Bool) (filters : List Value) : Prop where
  denied_iff : run.IsDenied ↔ ¬ permitted = true
  handed_eq : ¬ run.IsDenied → run.handed = filters

lemma decidedBy_false (h : run.IsDenied) : run.DecidedBy false filters where
  denied_iff := iff_of_true h (by decide)
  handed_eq := fun hpermitted => absurd h hpermitted

lemma decidedBy_true (h : ¬ run.IsDenied) (hfilters : run.handed = filters) :
    run.DecidedBy true filters where
  denied_iff := iff_of_false h (by decide)
  handed_eq := fun _ => hfilters

/-- A failure of the store is not a denial. -/
lemma not_isDenied_of_isStore (h : ∀ refusal, run.answer = .error refusal → refusal.IsStore) :
    ¬ run.IsDenied := by
  rintro ⟨_, hanswer, _, _, _, rfl⟩
  obtain ⟨message, hstore⟩ := h _ hanswer
  exact absurd hstore (by simp)

end Run

/-- Of two checks, the first that fails gives a denial. -/
lemma Refusal.isDenial_of_checks {first second : Bool} {a b refusal : Refusal} (ha : a.IsDenial)
    (hb : b.IsDenial)
    (h : (if first then some a else if second then some b else none) = some refusal) :
    refusal.IsDenial := by
  cases first with
  | true => exact Option.some.inj h ▸ ha
  | false =>
      cases second with
      | true => exact Option.some.inj h ▸ hb
      | false => exact absurd h (by simp)

lemma ReadPlan.isDenial_of_refusal? {plan : ReadPlan} {refusal : Refusal}
    (h : plan.refusal? = some refusal) : refusal.IsDenial :=
  Refusal.isDenial_of_checks ⟨_, _, _, rfl⟩ ⟨_, _, _, rfl⟩ h

lemma UpdatePlan.isDenial_of_refusal? {plan : UpdatePlan} {refusal : Refusal}
    (h : plan.refusal? = some refusal) : refusal.IsDenial :=
  Refusal.isDenial_of_checks ⟨_, _, _, rfl⟩ ⟨_, _, _, rfl⟩ h

/-! ## Operations -/

namespace Guard

variable {guard : Guard} {model : String} {levels : Levels}

/-- Saving hands no filter to the store. -/
lemma handed_of_savesInOrder {store : Store σ} {state final : σ} {documents : List Value}
    {answer : Except Refusal (List Value)} {calls : List StoreCall}
    (h : SavesInOrder store model state documents answer final calls) :
    calls.filterMap StoreCall.filter? = [] := by
  have hsaves : ∀ saved : List Value,
      (saved.map (StoreCall.save model)).filterMap StoreCall.filter? = [] := by
    intro saved
    rw [List.filterMap_map]
    exact List.filterMap_eq_nil_iff.2 fun _ _ => rfl
  cases h with
  | all _ => exact hsaves _
  | upTo _ _ _ => exact hsaves _

/-- **The flags of its plan decide about a read.** -/
theorem read_decidedBy {request : ReadRequest} {plan : ReadPlan}
    (hplan : ReadPlan.build guard.catalog guard.settings model request levels = .ok plan)
    (store : Store σ) (state : σ) :
    (guard.read store state model request levels).DecidedBy
      (plan.valid.read && plan.valid.populate) [plan.filter] := by
  rw [read, withReadPlan]
  simp only [hplan]
  cases hrefusal : plan.refusal? with
  | some refusal =>
      have hflags : (plan.valid.read && plan.valid.populate) = false := by
        rw [← Bool.not_eq_true, Bool.and_eq_true, ← ReadPlan.refusal?_eq_none_iff, hrefusal]
        exact Option.some_ne_none refusal
      rw [hflags]
      exact Run.decidedBy_false ⟨refusal, rfl, ReadPlan.isDenial_of_refusal? hrefusal⟩
  | none =>
      rw [Bool.and_eq_true_iff.2 (ReadPlan.refusal?_eq_none_iff.1 hrefusal)]
      exact Run.decidedBy_true (Run.not_isDenied_of_isStore fun _ => isStore_of_ofStore) rfl

/-- An update that has passed its checks is not denied, and only finding takes a filter. -/
lemma Updates.decidedBy {store : Store σ} {state : σ} {command : Value} {query : FindQuery}
    {run : Run σ (List Value)} (h : guard.Updates store state model command query run) :
    run.DecidedBy true [query.filter] := by
  cases h with
  | unfound _ =>
      refine Run.decidedBy_true (Run.not_isDenied_of_isStore fun refusal hanswer => ?_) rfl
      exact ⟨_, (Except.error.inj hanswer).symm⟩
  | malformed _ _ _ =>
      refine Run.decidedBy_true ?_ rfl
      rintro ⟨_, hanswer, _, _, _, rfl⟩
      exact absurd hanswer (by simp)
  | applied _ _ hsaves =>
      refine Run.decidedBy_true
        (Run.not_isDenied_of_isStore fun _ => refusal_of_savesInOrder hsaves) ?_
      exact congrArg (query.filter :: ·) (handed_of_savesInOrder hsaves)

/-- What its plan allows decides about an update. -/
theorem update_decidedBy {find command : Value} {plan : UpdatePlan}
    (hplan : UpdatePlan.build guard.catalog model find command levels = .ok plan)
    (store : Store σ) (state : σ) :
    (guard.update store state model find command levels).DecidedBy
      (plan.readAllowed && plan.updateAllowed) [plan.filter] := by
  have hallowed : (plan.readAllowed && plan.updateAllowed) = true ↔ plan.refusal? = none := by
    rw [UpdatePlan.refusal?_eq_none_iff, Bool.and_eq_true, UpdatePlan.readAllowed,
      UpdatePlan.updateAllowed, List.isEmpty_iff, List.isEmpty_iff]
  cases hrefusal : plan.refusal? with
  | some refusal =>
      have hflags : (plan.readAllowed && plan.updateAllowed) = false := by
        rw [← Bool.not_eq_true, hallowed, hrefusal]
        exact Option.some_ne_none refusal
      rw [hflags, update]
      simp only [hplan, hrefusal]
      exact Run.decidedBy_false ⟨refusal, rfl, UpdatePlan.isDenial_of_refusal? hrefusal⟩
  | none =>
      rw [hallowed.2 hrefusal]
      exact (updates_of_plan hplan hrefusal store).decidedBy

/-- The thresholds of the index and the paths of the filter decide about a removal. -/
theorem delete_decidedBy {index : AccessIndex} (hindex : guard.catalog.index model = .ok index)
    (find : Value) (store : Store σ) (state : σ) :
    (guard.delete store state model find levels).DecidedBy
      (index.canDelete levels.delete &&
        (index.denied (Filter.paths (Filter.toNative (Filter.normalize find))) .read
          levels.read).isEmpty)
      [Filter.toNative (Filter.normalize find)] := by
  rw [delete]
  simp only [hindex]
  cases hlevel : index.canDelete levels.delete with
  | false => exact Run.decidedBy_false ⟨_, rfl, _, _, _, rfl⟩
  | true =>
      cases hdenied : index.denied (Filter.paths (Filter.toNative (Filter.normalize find))) .read
          levels.read with
      | cons path rest => exact Run.decidedBy_false ⟨_, rfl, _, _, _, rfl⟩
      | nil =>
          exact Run.decidedBy_true (Run.not_isDenied_of_isStore fun _ => isStore_of_ofStore) rfl

/-- The threshold of the index decides about new documents. -/
theorem create_decidedBy {index : AccessIndex} (hindex : guard.catalog.index model = .ok index)
    (documents : List Value) (store : Store σ) (state : σ) :
    (guard.create store state model documents levels).DecidedBy (index.canCreate levels.create) [] := by
  rw [create]
  simp only [hindex]
  cases hlevel : index.canCreate levels.create with
  | false => exact Run.decidedBy_false ⟨_, rfl, _, _, _, rfl⟩
  | true =>
      have hsaves := savesInOrder_saveAll store model documents state
      exact Run.decidedBy_true
        (Run.not_isDenied_of_isStore fun _ => refusal_of_savesInOrder hsaves)
        (handed_of_savesInOrder hsaves)

end Guard

/-! ## The answer -/

namespace Console

variable {catalog : Catalog} {settings : Settings} {model : String}

/-- The plans of a check: one of the read, and one of the update if there is one. -/
lemma checkPlans_ok {request : CheckRequest} {plan : ReadPlan} {update : Option UpdatePlan}
    (h : checkPlans catalog settings model request = .ok (plan, update)) :
    ReadPlan.build catalog settings model request.read request.levels = .ok plan ∧
      ∀ command, request.update = some command → ∃ updatePlan, update = some updatePlan ∧
        UpdatePlan.build catalog model request.read.find command request.levels
          = .ok updatePlan := by
  rw [checkPlans] at h
  cases hplan : ReadPlan.build catalog settings model request.read request.levels with
  | error refusal => simp [hplan] at h
  | ok built =>
      simp only [hplan] at h
      cases hupdate : request.update with
      | none =>
          simp only [hupdate, Except.ok.injEq, Prod.mk.injEq] at h
          exact ⟨congrArg Except.ok h.1, fun _ hcommand => absurd hcommand (by simp)⟩
      | some command =>
          cases hbuilt : UpdatePlan.build catalog model request.read.find command
              request.levels with
          | error refusal => simp [hupdate, hbuilt] at h
          | ok updatePlan =>
              simp only [hupdate, hbuilt, Except.ok.injEq, Prod.mk.injEq] at h
              refine ⟨congrArg Except.ok h.1, fun asked hasked => ⟨updatePlan, h.2.symm, ?_⟩⟩
              obtain rfl := Option.some.inj hasked
              exact hbuilt

/-- An answered check read a request and planned it against the schemas of the settings. -/
lemma checkRequest_ok {files : Files} {raw answer : Value}
    (h : (checkRequest files settings model raw).answer = .ok answer) :
    ∃ request plan update, CheckRequest.ofValue? raw = some request ∧
      checkPlans (settings.catalog.loadAll files).catalog settings model request
        = .ok (plan, update) ∧
      answer = checkAnswer plan update := by
  rw [checkRequest] at h
  cases hrequest : CheckRequest.ofValue? raw with
  | none => simp [hrequest, Reply.failed] at h
  | some request =>
      simp only [hrequest] at h
      cases hfailure : (settings.catalog.loadAll files).failure with
      | some error => simp [hfailure, Reply.failed] at h
      | none =>
          simp only [hfailure] at h
          cases hplans : checkPlans (settings.catalog.loadAll files).catalog settings model
              request with
          | error refusal => simp [hplans, Reply.failed] at h
          | ok plans =>
              simp only [hplans, Except.ok.injEq] at h
              exact ⟨request, plans.1, plans.2, rfl, hplans, h.symm⟩

/-! ## Foretelling -/

/-- The flags say which operations the guard denies, and the operations that it does not deny hand this
filter to the store.  New documents are not found by a filter. -/
structure Foretells (guard : Guard) (model : String) (request : CheckRequest) (valid : Validity)
    (filter : Value) : Prop where
  read : ∀ (σ : Type) (store : Store σ) (state : σ),
    (guard.read store state model request.read request.levels).DecidedBy
      (valid.read && valid.populate) [filter]
  update : ∀ (σ : Type) (store : Store σ) (state : σ) (command : Value),
    request.update = some command →
    (guard.update store state model request.read.find command request.levels).DecidedBy
      (valid.read && valid.update == some true) [filter]
  delete : ∀ (σ : Type) (store : Store σ) (state : σ),
    (guard.delete store state model request.read.find request.levels).DecidedBy
      (valid.delete && valid.read) [filter]
  create : ∀ (σ : Type) (store : Store σ) (state : σ) (documents : List Value),
    (guard.create store state model documents request.levels).DecidedBy valid.create []

/-- The plans of a check foretell what a guard over their catalog and settings does. -/
lemma foretells_of_plans {guard : Guard} {request : CheckRequest} {plan : ReadPlan}
    {update : Option UpdatePlan}
    (h : checkPlans guard.catalog guard.settings model request = .ok (plan, update)) :
    Foretells guard model request
      { plan.valid with update := update.map UpdatePlan.updateAllowed } plan.filter := by
  obtain ⟨hread, hupdate⟩ := checkPlans_ok h
  obtain ⟨index, entries, hindex, -, rfl⟩ := ReadPlan.build_ok hread
  refine ⟨fun _ => Guard.read_decidedBy hread, fun _ store state command hcommand => ?_,
    fun _ => Guard.delete_decidedBy hindex _,
    fun _ store state documents => Guard.create_decidedBy hindex documents store state⟩
  obtain ⟨updatePlan, rfl, hplan⟩ := hupdate command hcommand
  -- the update is planned with the same index, so its filter and the paths of it are those of the read
  have hassembled : updatePlan
      = .assemble model request.read.find command request.levels index := by
    rw [UpdatePlan.build, hindex] at hplan
    exact (Except.ok.inj hplan).symm
  have hflag : (some updatePlan.updateAllowed == some true) = updatePlan.updateAllowed := by
    rw [Option.some_beq_some, beq_true]
  have hdecided := Guard.update_decidedBy hplan store state
  rw [← hflag] at hdecided
  subst hassembled
  exact hdecided

/-- The flags in an answer. -/
lemma checkAnswer_valid (plan : ReadPlan) (update : Option UpdatePlan) :
    (checkAnswer plan update).get? "valid" = some (Validity.toValue
      { plan.valid with update := update.map UpdatePlan.updateAllowed }) := by
  simp [checkAnswer, Value.ofMembers, Value.get?, Keyed.ofList, Keyed.insertAll,
    Keyed.find?_insert_of_ne]

/-- The filter in an answer. -/
lemma checkAnswer_filter (plan : ReadPlan) (update : Option UpdatePlan) :
    (checkAnswer plan update).get? "filter" = some plan.filter := by
  simp [checkAnswer, Value.ofMembers, Value.get?, Keyed.ofList, Keyed.insertAll,
    Keyed.find?_insert_of_ne]

/-- **The answer to a check foretells** what a guard over the same catalog and settings does with any
store: which of the operations it denies, and which filter the others hand to the store. -/
theorem checkRequest_foretells {files : Files} {raw answer : Value}
    (hanswer : (checkRequest files settings model raw).answer = .ok answer) :
    ∃ request valid filter, CheckRequest.ofValue? raw = some request ∧
      answer.get? "valid" = some valid.toValue ∧ answer.get? "filter" = some filter ∧
      ∀ guard : Guard, guard.catalog = (settings.catalog.loadAll files).catalog →
        guard.settings = settings → Foretells guard model request valid filter := by
  obtain ⟨request, plan, update, hrequest, hplans, rfl⟩ := checkRequest_ok hanswer
  refine ⟨request, _, plan.filter, hrequest, checkAnswer_valid plan update,
    checkAnswer_filter plan update, fun guard hcatalog hsettings => ?_⟩
  rw [← hcatalog, ← hsettings] at hplans
  exact foretells_of_plans hplans

/-- The schema of notes: their body may be updated from level 5 on. -/
def notesText : String :=
  "\x7b\"name\":\"notes\",\"fields\":\x7b\"body\":\x7b\"type\":\"string\","
    ++ "\"acl\":\x7b\"read\":0,\"update\":5\x7d\x7d\x7d\x7d"

/-- A directory with this schema. -/
def notesTree : FileTree :=
  .directory [("schemas", .directory [("notes.json", .file (some notesText))])]

/-- A check, at level 0, of finding notes by their body and of setting it. -/
def notesCheck : Value :=
  .object [("find", .object [("body", .string "a")]),
    ("update", .object [("$set", .object [("body", .string "b")])])]

/-- The flags in the answer: the filter may be read, and the body may not be updated. -/
def notesFlags : String :=
  "\x7b\"create\":false,\"delete\":false,\"populate\":true,\"read\":true,"
    ++ "\"select\":true,\"update\":false\x7d"

lemma notesCheck_valid :
    ((checkRequest notesTree.files (.standard "schemas") "notes" notesCheck).answer.toOption.bind
        (Value.get? "valid")).map Value.text = some notesFlags := by
  decide +kernel

theorem checkRequest_foretells_notes :
    ∃ answer, (checkRequest notesTree.files (.standard "schemas") "notes" notesCheck).answer
        = .ok answer ∧
      (answer.get? "valid").map Value.text = some notesFlags ∧
      ∃ request valid filter, CheckRequest.ofValue? notesCheck = some request ∧
        answer.get? "valid" = some valid.toValue ∧ answer.get? "filter" = some filter ∧
        ∀ guard : Guard,
          guard.catalog = ((Settings.standard "schemas").catalog.loadAll notesTree.files).catalog →
          guard.settings = .standard "schemas" → Foretells guard "notes" request valid filter := by
  have hvalid := notesCheck_valid
  cases hanswer : (checkRequest notesTree.files (.standard "schemas") "notes" notesCheck).answer with
  | error complaint =>
      rw [hanswer] at hvalid
      exact absurd hvalid (by simp [Except.toOption])
  | ok answer =>
      rw [hanswer] at hvalid
      exact ⟨answer, rfl, hvalid, checkRequest_foretells hanswer⟩

end Console

end DocumentAccess
