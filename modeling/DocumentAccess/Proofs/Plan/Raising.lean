import DocumentAccess.Proofs.Access.Cascade
import DocumentAccess.Proofs.Plan.Selection

/-!
# Raising levels

The same request is planned twice, the second time at levels that are as high or higher.  Nothing that the
first plan permits is lost.

* `SameOutcome` — two computations fail alike, or both succeed with values that are related.
* `ReadPlan.Raised`, `UpdatePlan.Raised` — what is the same in two plans, and what only grows.
* **`ReadPlan.sameOutcome_build`**, **`UpdatePlan.sameOutcome_build`** — planning at higher levels.
* **`Levels.raising_revokes_nothing`** — both, for a catalog that was filled by registration.
-/

namespace DocumentAccess

/-- Levels are compared action by action. -/
instance : LE Levels where
  le lower upper := ∀ action, lower.of action ≤ upper.of action

/-- Both fail, with the same cause, or both succeed, with related values. -/
inductive SameOutcome {ε α : Type} (related : α → α → Prop) : Except ε α → Except ε α → Prop
  | failed (error : ε) : SameOutcome related (.error error) (.error error)
  | succeeded {a b : α} : related a b → SameOutcome related (.ok a) (.ok b)

variable {catalog : Catalog} {settings : Settings} {model : String} {lower upper : Levels}

/-! ## Reading -/

namespace ReadPlan

variable {request : ReadRequest} {plan : ReadPlan}

/-- What two plans of one request have in common when the second is made at higher levels, and what
passes in the first and so does in the second. -/
structure Raised (request : ReadRequest) (plan raised : ReadPlan) : Prop where
  filter : raised.filter = plan.filter
  readPaths : raised.readPaths = plan.readPaths
  sort : raised.sort = plan.sort
  skip : raised.skip = plan.skip
  limit : raised.limit = plan.limit
  read : plan.valid.read = true → raised.valid.read = true
  create : plan.valid.create = true → raised.valid.create = true
  delete : plan.valid.delete = true → raised.valid.delete = true
  select : plan.valid.select = true → raised.valid.select = true
  populate : plan.valid.populate = true → raised.valid.populate = true
  denied : raised.deniedPaths.Sublist plan.deniedPaths
  /-- A selection that was kept as it was asked for is kept again. -/
  kept : requestedSelect request ≠ "" → plan.select = requestedSelect request →
    raised.select = requestedSelect request
  /-- A selection that was left open includes whatever it did before. -/
  widened : requestedSelect request = "" → includedPaths plan.select ⊆ includedPaths raised.select
  permitted : plan.refusal? = none → raised.refusal? = none

/-- The selection that is carried out is a requested one if that is allowed. -/
lemma effectiveSelect_of_canSelect {index : AccessIndex} {select : String} {level : Nat}
    (hne : select ≠ "") (h : index.canSelect select level = true) :
    effectiveSelect index select level = select := by
  rw [effectiveSelect, h, if_pos]
  simpa [String.isEmpty_iff] using hne

/-- What is carried out if a selection is left open. -/
lemma effectiveSelect_empty (index : AccessIndex) (level : Nat) :
    effectiveSelect index "" level = index.projectionText level :=
  if_neg (by simp)

lemma selectAllowed_mono {index : AccessIndex} {select : String} {low high : Nat}
    (hle : low ≤ high) (h : selectAllowed index select low = true) :
    selectAllowed index select high = true := by
  rw [selectAllowed, Bool.or_eq_true] at h ⊢
  exact h.imp_right (AccessIndex.canSelect_mono hle)

/-- A selection is carried out as it was asked for only if it is allowed; that it happens to be the
projection makes no difference. -/
lemma canSelect_of_effectiveSelect_eq {index : AccessIndex} {select : String} {level : Nat}
    (hprojection : index.SelectsReadable (index.projectionText level) level)
    (h : effectiveSelect index select level = select) : index.canSelect select level = true :=
  AccessIndex.canSelect_iff.2 (h ▸ selectsReadable_effectiveSelect hprojection)

/-- Populate entries that are all allowed stay so. -/
lemma all_canPopulate_mono {defaults : Levels} {entries : List Related} {low high : Nat}
    (hle : low ≤ high)
    (hentries : ∀ r ∈ entries, ∃ target : Schema, target.Selectable ∧
      r.index = target.compile defaults)
    (h : (entries.all fun r => r.index.canPopulate r.entry low) = true) :
    (entries.all fun r => r.index.canPopulate r.entry high) = true := by
  refine List.all_eq_true.2 fun r hr => ?_
  obtain ⟨target, htarget, hindex⟩ := hentries r hr
  have hallowed := List.all_eq_true.1 h r hr
  rw [hindex] at hallowed ⊢
  exact target.canPopulate_mono htarget hle hallowed

/-- Plans that are assembled from the same parts at higher levels. -/
lemma raised_assemble {schema : Schema} {defaults : Levels} {entries : List Related}
    (hle : lower ≤ upper) (hschema : schema.Selectable)
    (hentries : ∀ r ∈ entries, ∃ target : Schema, target.Selectable ∧
      r.index = target.compile defaults) :
    Raised request
      (assemble settings model request lower (schema.compile defaults) entries)
      (assemble settings model request upper (schema.compile defaults) entries) := by
  have hpopulate := all_canPopulate_mono (hle .read) hentries
  exact
    { filter := rfl
      readPaths := rfl
      sort := rfl
      skip := rfl
      limit := rfl
      read := fun hnone =>
        List.isEmpty_iff.2 (AccessIndex.denied_eq_nil_mono (hle .read) (List.isEmpty_iff.1 hnone))
      create := AccessIndex.canCreate_mono (hle .create)
      delete := AccessIndex.canDelete_mono (hle .delete)
      select := selectAllowed_mono (hle .read)
      populate := hpopulate
      denied := AccessIndex.denied_sublist (hle .read)
      kept := by
        intro hne hkept
        have hallowed := canSelect_of_effectiveSelect_eq
          (schema.selectsReadable_projection hschema defaults lower.read) hkept
        exact effectiveSelect_of_canSelect hne (AccessIndex.canSelect_mono (hle .read) hallowed)
      widened := by
        intro hopen
        show includedPaths (effectiveSelect _ (requestedSelect request) _)
          ⊆ includedPaths (effectiveSelect _ (requestedSelect request) _)
        rw [hopen, effectiveSelect_empty, effectiveSelect_empty]
        exact schema.includedPaths_projectionText_subset hschema (hle .read)
      permitted := by
        intro hrefusal
        obtain ⟨hfilter, hreferences⟩ := refusal?_eq_none_iff.1 hrefusal
        have hnone := AccessIndex.denied_eq_nil_mono (hle .read) (List.isEmpty_iff.1 hfilter)
        exact refusal?_eq_none_iff.2 ⟨List.isEmpty_iff.2 hnone, hpopulate hreferences⟩ }

/-- **Planning a read at higher levels** fails for the same cause, or gives a raised plan. -/
theorem sameOutcome_build (hfilled : catalog.Filled Schema.Selectable) (hle : lower ≤ upper) :
    SameOutcome (Raised request) (build catalog settings model request lower)
      (build catalog settings model request upper) := by
  rw [build, build]
  cases hindex : catalog.index model with
  | error error => exact .failed _
  | ok index =>
      obtain ⟨schema, hschema, rfl⟩ := hfilled.index_eq hindex
      by_cases hlimit : settings.readLimit < limitOf settings request
      · simp only [if_pos hlimit]
        exact .failed _
      · simp only [if_neg hlimit]
        cases hrelated : related catalog model (entries request) with
        | error error => exact .failed _
        | ok entries =>
            refine .succeeded (raised_assemble hle hschema fun r hr => ?_)
            obtain ⟨-, target, -, -, htarget⟩ := Catalog.relatedIndex_ok (related_ok hrelated r hr)
            exact hfilled.index_eq htarget

end ReadPlan

/-! ## Updating -/

namespace UpdatePlan

variable {find command : Value}

/-- What two plans of one update have in common when the second is made at higher levels, and what passes
in the first and so does in the second. -/
structure Raised (plan raised : UpdatePlan) : Prop where
  filter : raised.filter = plan.filter
  command : raised.command = plan.command
  readPaths : raised.readPaths = plan.readPaths
  updatePaths : raised.updatePaths = plan.updatePaths
  deniedRead : raised.deniedRead.Sublist plan.deniedRead
  deniedUpdate : raised.deniedUpdate.Sublist plan.deniedUpdate
  permitted : plan.refusal? = none → raised.refusal? = none

/-- **Planning an update at higher levels** fails for the same cause, or gives a raised plan. -/
theorem sameOutcome_build (catalog : Catalog) (model : String) (find command : Value)
    (hle : lower ≤ upper) :
    SameOutcome Raised (build catalog model find command lower)
      (build catalog model find command upper) := by
  rw [build, build]
  cases catalog.index model with
  | error error => exact .failed _
  | ok index =>
      refine .succeeded ⟨rfl, rfl, rfl, rfl, AccessIndex.denied_sublist (hle .read),
        AccessIndex.denied_sublist (hle .update), fun hrefusal => ?_⟩
      obtain ⟨hnoRead, hnoUpdate⟩ := refusal?_eq_none_iff.1 hrefusal
      exact refusal?_eq_none_iff.2 ⟨AccessIndex.denied_eq_nil_mono (hle .read) hnoRead,
        AccessIndex.denied_eq_nil_mono (hle .update) hnoUpdate⟩

end UpdatePlan

/-! ## Both -/

/-- **Raising levels revokes nothing**, neither for reads nor for updates. -/
theorem Levels.raising_revokes_nothing (hfilled : catalog.Filled Schema.Selectable)
    (hle : lower ≤ upper) (settings : Settings) (model : String) :
    (∀ request, SameOutcome (ReadPlan.Raised request)
        (ReadPlan.build catalog settings model request lower)
        (ReadPlan.build catalog settings model request upper)) ∧
      ∀ find command, SameOutcome UpdatePlan.Raised
        (UpdatePlan.build catalog model find command lower)
        (UpdatePlan.build catalog model find command upper) :=
  ⟨fun _ => ReadPlan.sameOutcome_build hfilled hle,
    fun find command => UpdatePlan.sameOutcome_build catalog model find command hle⟩

/-- The request for posts is planned at level 0 and at level 5, where more of the author is selected. -/
theorem raising_revokes_nothing_posts :
    postsCatalog.Filled Schema.Selectable ∧ Levels.uniform 0 ≤ Levels.uniform 5 ∧
      (ReadPlan.build postsCatalog (.standard "schemas") "posts" postsRequest (.uniform 0)).map
          ReadPlan.populate = .ok [⟨"author", "_id __v name"⟩] ∧
      (ReadPlan.build postsCatalog (.standard "schemas") "posts" postsRequest (.uniform 5)).map
          ReadPlan.populate = .ok [⟨"author", "_id __v name email"⟩] ∧
      (∀ request, SameOutcome (ReadPlan.Raised request)
        (ReadPlan.build postsCatalog (.standard "schemas") "posts" request (.uniform 0))
        (ReadPlan.build postsCatalog (.standard "schemas") "posts" request (.uniform 5))) ∧
      ∀ find command, SameOutcome UpdatePlan.Raised
        (UpdatePlan.build postsCatalog "posts" find command (.uniform 0))
        (UpdatePlan.build postsCatalog "posts" find command (.uniform 5)) := by
  have hle : Levels.uniform 0 ≤ Levels.uniform 5 := by
    intro action
    cases action <;> decide
  exact ⟨postsCatalog_filled, hle, rfl, rfl,
    Levels.raising_revokes_nothing postsCatalog_filled hle (.standard "schemas") "posts"⟩

end DocumentAccess
