import DocumentAccess.Proofs.Access.Selectable
import DocumentAccess.Proofs.Catalog.History
import DocumentAccess.Proofs.Plan.Checks

/-!
# What a plan selects

A request names what it wants to see, of the documents that it reads and of those that their references
point to, or leaves it open.  What the plan then asks the store for may always be read.

* `Catalog.Filled` — a catalog that was filled by registering schemas.
* **`Catalog.Filled.entry`** — its entries have the indexes compiled from their schemas.
* `ReadPlan.related_ok` — the index that a populate entry is checked against.
* **`ReadPlan.selects_readable`** — the selections of a plan may be read.
-/

namespace DocumentAccess

/-! ## Filled catalogs -/

/-- A catalog that was empty and got its schemas by registration; all of them are admitted. -/
inductive Catalog.Filled (admits : Schema → Prop) : Catalog → Prop
  | empty {catalog : Catalog} : catalog.entries = [] → Filled admits catalog
  | register {catalog : Catalog} {schema : Schema} {source : String} {registration : Registration} :
      Filled admits catalog → admits schema → catalog.register schema source = .ok registration →
      Filled admits registration.catalog

namespace Catalog

variable {catalog : Catalog} {admits : Schema → Prop} {schema : Schema} {model source : String}
  {registration : Registration} {index : AccessIndex}

/-- **The step**: registration adds one entry, for a schema without fault. -/
lemma register_ok (h : catalog.register schema source = .ok registration) :
    schema.fault? = none ∧ registration.catalog = { catalog with
      entries := Keyed.insert schema.name ⟨schema, schema.compile catalog.defaults⟩
        catalog.entries } := by
  rcases catalog.register_cases schema source with ⟨error, -, herror⟩ | ⟨hadded, hok⟩
  · exact absurd (herror.symm.trans h) (by simp)
  · obtain rfl := Except.ok.inj (hok.symm.trans h)
    exact ⟨hadded.faultless schema (by simp), rfl⟩

/-- **The run**: every entry of a filled catalog has an admitted schema without fault, and the index
compiled from it. -/
theorem Filled.entry (h : Filled admits catalog) :
    ∀ entry ∈ catalog.entries, admits entry.2.schema ∧ entry.2.schema.fault? = none ∧
      entry.2.index = entry.2.schema.compile catalog.defaults := by
  induction h with
  | empty hnone =>
      intro entry hentry
      rw [hnone] at hentry
      exact absurd hentry List.not_mem_nil
  | register _ hadmits hregister ih =>
      obtain ⟨hfault, hcatalog⟩ := register_ok hregister
      rw [hcatalog]
      intro entry hentry
      rcases Keyed.mem_insert hentry with rfl | hbefore
      · exact ⟨hadmits, hfault, rfl⟩
      · exact ih entry hbefore

/-- The index of a model in a filled catalog is compiled from an admitted schema. -/
lemma Filled.index_eq (h : Filled admits catalog) (hindex : catalog.index model = .ok index) :
    ∃ schema, admits schema ∧ index = schema.compile catalog.defaults := by
  rw [Catalog.index] at hindex
  cases hfind : catalog.find? model with
  | none => simp [hfind] at hindex
  | some entry =>
      simp only [hfind, Except.ok.injEq] at hindex
      obtain ⟨hadmits, -, hcompiled⟩ := h.entry _ (Keyed.mem_of_find? hfind)
      exact ⟨entry.schema, hadmits, hindex ▸ hcompiled⟩

/-- The related index at a path is that of the model to which the reference there points. -/
lemma relatedIndex_ok {path : String} (h : catalog.relatedIndex model path = .ok index) :
    ∃ schema target, catalog.schema? model = some schema ∧
      schema.referenceTarget? path = some target ∧ catalog.index target = .ok index := by
  rw [relatedIndex] at h
  cases hschema : catalog.schema? model with
  | none => simp [hschema] at h
  | some schema =>
      cases htarget : schema.referenceTarget? path with
      | none => simp [hschema, htarget] at h
      | some target =>
          simp only [hschema, htarget] at h
          exact ⟨schema, target, rfl, htarget, h⟩

end Catalog

namespace ReadPlan

variable {catalog : Catalog} {settings : Settings} {model : String} {request : ReadRequest}
  {levels : Levels} {plan : ReadPlan}

/-! ## Selections -/

/-- Each populate entry stands next to the index that its reference leads to. -/
lemma related_ok {entries : List Populate} {result : List Related}
    (h : related catalog model entries = .ok result) :
    ∀ r ∈ result, catalog.relatedIndex model r.entry.path = .ok r.index := by
  induction entries generalizing result with
  | nil =>
      cases h
      exact fun r hr => absurd hr List.not_mem_nil
  | cons entry rest ih =>
      rw [related] at h
      cases hindex : catalog.relatedIndex model entry.path with
      | error error => simp [hindex] at h
      | ok index =>
          cases hrest : related catalog model rest with
          | error error => simp [hindex, hrest] at h
          | ok others =>
              simp only [hindex, hrest, Except.ok.injEq] at h
              subst h
              exact List.forall_mem_cons.2 ⟨hindex, ih hrest⟩

/-- The selection that is carried out may be read: it is the requested one, or the projection. -/
lemma selectsReadable_effectiveSelect {index : AccessIndex} {select : String} {level : Nat}
    (hprojection : index.SelectsReadable (index.projectionText level) level) :
    index.SelectsReadable (effectiveSelect index select level) level := by
  rw [effectiveSelect]
  split
  next hrequested => exact AccessIndex.canSelect_iff.1 (Bool.and_eq_true_iff.1 hrequested).2
  next => exact hprojection

/-- **What a plan selects may be read**: of the documents of its model in any case, and, if it is not
refused, of those that the references of its populate entries point to. -/
theorem selects_readable (hfilled : catalog.Filled Schema.Selectable)
    (hplan : build catalog settings model request levels = .ok plan) :
    (∃ index, catalog.index model = .ok index ∧ index.SelectsReadable plan.select levels.read) ∧
      (plan.refusal? = none → ∀ entry ∈ plan.findQuery.populate,
        ∃ schema target index, catalog.schema? model = some schema ∧
          schema.referenceTarget? entry.path = some target ∧ catalog.index target = .ok index ∧
          index.SelectsReadable entry.select levels.read) := by
  obtain ⟨index, entries, hindex, hrelated, rfl⟩ := build_ok hplan
  constructor
  · obtain ⟨schema, hschema, rfl⟩ := hfilled.index_eq hindex
    exact ⟨_, hindex, selectsReadable_effectiveSelect (schema.selectsReadable_projection hschema _ _)⟩
  · intro hrefusal entry hentry
    obtain ⟨r, hr, rfl⟩ := List.mem_map.1 hentry
    obtain ⟨schema, target, hschema, htarget, hindex⟩ :=
      Catalog.relatedIndex_ok (related_ok hrelated r hr)
    have hpopulate := List.all_eq_true.1 (refusal?_eq_none_iff.1 hrefusal).2 r hr
    refine ⟨schema, target, r.index, hschema, ?_, hindex, AccessIndex.canSelect_iff.1 hpopulate⟩
    rw [AccessIndex.resolve_path]
    exact htarget

end ReadPlan

/-! ## Posts and their authors -/

/-- Users have a name that anyone may read and an address that asks for level 5. -/
def usersSchema : Schema :=
  ⟨"users", defaultVersionKey,
    ⟨[("email", .leaf .string (some ⟨none, some 5, none, none, none⟩)), ("name", .leaf .string none)],
      [], false⟩⟩

/-- Posts have a text and refer to the user who wrote them. -/
def postsSchema : Schema :=
  ⟨"posts", defaultVersionKey,
    ⟨[("author", .leaf (.reference "users") none), ("text", .leaf .string none)], [], false⟩⟩

/-- The catalog of users. -/
def usersCatalog : Catalog :=
  { Catalog.empty .restrictive with
    entries := [("users", ⟨usersSchema, usersSchema.compile .restrictive⟩)] }

/-- The catalog of posts and users. -/
def postsCatalog : Catalog :=
  { Catalog.empty .restrictive with
    entries := [("posts", ⟨postsSchema, postsSchema.compile .restrictive⟩),
      ("users", ⟨usersSchema, usersSchema.compile .restrictive⟩)] }

/-- A request for all posts with their authors that leaves open what to select. -/
def postsRequest : ReadRequest :=
  ⟨.null, none, some (.string "author"), none, none, none⟩

lemma postsCatalog_filled : postsCatalog.Filled Schema.Selectable := by
  have husers : usersSchema.Selectable :=
    ⟨by decide, by decide, ⟨by decide, trivial, by decide, trivial, trivial⟩⟩
  have hposts : postsSchema.Selectable :=
    ⟨by decide, by decide, ⟨by decide, trivial, by decide, trivial, trivial⟩⟩
  have hfirst : (Catalog.empty .restrictive).register usersSchema Catalog.inMemory
      = .ok ⟨usersCatalog, ⟨usersSchema, usersSchema.compile .restrictive⟩, Catalog.inMemory⟩ := rfl
  have hsecond : usersCatalog.register postsSchema Catalog.inMemory
      = .ok ⟨postsCatalog, ⟨postsSchema, postsSchema.compile .restrictive⟩, Catalog.inMemory⟩ := rfl
  exact .register (.register (.empty rfl) husers hfirst) hposts hsecond

/-- The plan of the request. -/
def postsPlan : ReadPlan :=
  .assemble (.standard "schemas") "posts" postsRequest (.uniform 0)
    (postsSchema.compile .restrictive) [⟨⟨"author", ""⟩, usersSchema.compile .restrictive⟩]

theorem selects_readable_posts :
    ReadPlan.build postsCatalog (.standard "schemas") "posts" postsRequest (.uniform 0)
        = .ok postsPlan ∧
      postsPlan.refusal? = none ∧ postsPlan.select = "_id __v author text" ∧
      postsPlan.findQuery.populate = [⟨"author", "_id __v name"⟩] ∧
      (∃ index, postsCatalog.index "posts" = .ok index ∧
        index.SelectsReadable postsPlan.select (Levels.uniform 0).read) ∧
      ∀ entry ∈ postsPlan.findQuery.populate,
        ∃ schema target index, postsCatalog.schema? "posts" = some schema ∧
          schema.referenceTarget? entry.path = some target ∧ postsCatalog.index target = .ok index ∧
          index.SelectsReadable entry.select (Levels.uniform 0).read := by
  have hplan : ReadPlan.build postsCatalog (.standard "schemas") "posts" postsRequest (.uniform 0)
      = .ok postsPlan := rfl
  have hrefusal : postsPlan.refusal? = none := rfl
  have hselects := ReadPlan.selects_readable postsCatalog_filled hplan
  exact ⟨hplan, hrefusal, rfl, rfl, hselects.1, hselects.2 hrefusal⟩

end DocumentAccess
