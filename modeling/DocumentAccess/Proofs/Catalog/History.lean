import DocumentAccess.Catalog
import DocumentAccess.Proofs.Keyed

/-!
# Histories of a catalog

A catalog is filled by calls in any order, with whatever the files hold at the time of each: a schema is
registered, a file is loaded, or a directory.  A call adds schemas at new names and leaves the others
alone; where it fails, it has added what came before the failure.

* `Catalog.Refuses`, `RefusesFile` — the causes for which a schema or a file is refused.
* `Catalog.Extended` — a catalog has come out of another by adding schemas.
* `Catalog.Call`, `perform`, `run` — calls that may add schemas, and what they make of a catalog.
* `Catalog.Outcome` — what a call adds and answers.
* **`Catalog.perform_outcome`** — the step.
* `Catalog.extended_run` — the run.
* **`Catalog.run_consistent`** — the entries after any history, and what any call then does.
-/

namespace DocumentAccess

/-- What is registered for a schema. -/
def Schema.registered (schema : Schema) (defaults : Levels) : Registered :=
  ⟨schema, schema.compile defaults⟩

namespace Catalog

variable {catalog before middle after : Catalog} {schema : Schema} {schemas others : List Schema}
  {files : Files} {name path source : String} {error : SchemaError}

/-! ## Refusals -/

/-- The causes for which a schema from a source is refused. -/
inductive Refuses (catalog : Catalog) (source : String) (schema : Schema) : SchemaError → Prop
  | fault {fault : StructureFault} : schema.fault? = some fault →
      Refuses catalog source schema (.malformed source (.structure fault))
  | taken {entry : Registered} : schema.fault? = none → catalog.find? schema.name = some entry →
      Refuses catalog source schema (.immutable schema.name)

/-- The causes for which a file is refused. -/
inductive RefusesFile (catalog : Catalog) (files : Files) (path : String) : SchemaError → Prop
  | unreadable : files.text path = none →
      RefusesFile catalog files path (.malformed path .unreadableFile)
  | text {text : String} {error : SchemaTextError} : files.text path = some text →
      Schema.read catalog.versionKey text = .error error →
      RefusesFile catalog files path (.malformed path (.text error))
  | schema {text : String} {schema : Schema} {error : SchemaError} : files.text path = some text →
      Schema.read catalog.versionKey text = .ok schema → catalog.Refuses path schema error →
      RefusesFile catalog files path error

/-- A file holds a schema. -/
def Holds (files : Files) (versionKey path : String) (schema : Schema) : Prop :=
  ∃ text, files.text path = some text ∧ Schema.read versionKey text = .ok schema

/-! ## Extensions -/

/-- A catalog has come out of another by adding schemas: they are without fault and have new names, and
nothing else has changed. -/
structure Extended (before after : Catalog) (schemas : List Schema) : Prop where
  directory : after.directory = before.directory
  defaults : after.defaults = before.defaults
  versionKey : after.versionKey = before.versionKey
  faultless : ∀ schema ∈ schemas, schema.fault? = none
  fresh : ∀ schema ∈ schemas, before.find? schema.name = none
  distinct : (schemas.map Schema.name).Nodup
  found : ∀ name, after.find? name = (before.find? name).or
    ((schemas.find? fun schema => schema.name = name).map fun schema =>
      schema.registered before.defaults)
  size : after.entries.length = before.entries.length + schemas.length

/-- The catalog with one more schema. -/
def add (catalog : Catalog) (schema : Schema) : Catalog :=
  { catalog with
    entries := Keyed.insert schema.name (schema.registered catalog.defaults) catalog.entries }

lemma Extended.refl (catalog : Catalog) : Extended catalog catalog [] where
  directory := rfl
  defaults := rfl
  versionKey := rfl
  faultless := by simp
  fresh := by simp
  distinct := List.nodup_nil
  found := by simp
  size := rfl

/-- A schema without fault and with a new name extends the catalog. -/
lemma extended_add (hfault : schema.fault? = none) (hfresh : catalog.find? schema.name = none) :
    Extended catalog (catalog.add schema) [schema] where
  directory := rfl
  defaults := rfl
  versionKey := rfl
  faultless := by simpa using hfault
  fresh := by simpa using hfresh
  distinct := by simp
  found name := by
    by_cases hname : schema.name = name
    · subst hname
      simp [add, find?] at hfresh ⊢
      simp [hfresh]
    · show Keyed.find? name (Keyed.insert _ _ _) = _
      rw [Keyed.find?_insert_of_ne (Ne.symm hname)]
      simp [hname, find?]
  size := Keyed.length_insert hfresh _

lemma Extended.trans (h : Extended before middle schemas) (h' : Extended middle after others) :
    Extended before after (schemas ++ others) where
  directory := h'.directory.trans h.directory
  defaults := h'.defaults.trans h.defaults
  versionKey := h'.versionKey.trans h.versionKey
  faultless schema hmem := (List.mem_append.1 hmem).elim (h.faultless schema) (h'.faultless schema)
  fresh schema hmem := by
    rcases List.mem_append.1 hmem with hmem | hmem
    · exact h.fresh schema hmem
    · have hmiddle := h'.fresh schema hmem
      rw [h.found, Option.or_eq_none_iff] at hmiddle
      exact hmiddle.1
  distinct := by
    rw [List.map_append]
    refine h.distinct.append h'.distinct fun name hfirst hsecond => ?_
    obtain ⟨one, hone, rfl⟩ := List.mem_map.1 hfirst
    obtain ⟨two, htwo, hname⟩ := List.mem_map.1 hsecond
    have hmiddle := h'.fresh two htwo
    rw [h.found, Option.or_eq_none_iff, Option.map_eq_none_iff, List.find?_eq_none] at hmiddle
    exact hmiddle.2 one hone (by simpa using hname.symm)
  found name := by
    rw [h'.found, h.found, h.defaults, Option.or_assoc, List.find?_append, Option.map_or]
  size := by
    rw [h'.size, h.size, List.length_append, Nat.add_assoc]

/-- What was registered stays registered. -/
lemma Extended.find?_mono (h : Extended before after schemas) {entry : Registered}
    (hfind : before.find? name = some entry) : after.find? name = some entry := by
  rw [h.found, hfind, Option.some_or]

/-! ## Adding -/

/-- **Registration** adds a schema, or refuses it. -/
lemma register_cases (catalog : Catalog) (schema : Schema) (source : String) :
    (∃ error, catalog.Refuses source schema error ∧
        catalog.register schema source = .error error) ∨
      Extended catalog (catalog.add schema) [schema] ∧
        catalog.register schema source
          = .ok ⟨catalog.add schema, schema.registered catalog.defaults, source⟩ := by
  rw [register]
  cases hfault : schema.fault? with
  | some fault => exact Or.inl ⟨_, .fault hfault, rfl⟩
  | none =>
      cases hfind : catalog.find? schema.name with
      | some entry => exact Or.inl ⟨_, .taken hfault hfind, rfl⟩
      | none => exact Or.inr ⟨extended_add hfault hfind, rfl⟩

/-- **Loading a file** adds the schema in it, or refuses the file. -/
lemma loadFile_cases (catalog : Catalog) (files : Files) (path : String) :
    (∃ error, catalog.RefusesFile files path error ∧
        catalog.loadFile files path = .error error) ∨
      ∃ schema, Holds files catalog.versionKey path schema ∧
        Extended catalog (catalog.add schema) [schema] ∧
        catalog.loadFile files path
          = .ok ⟨catalog.add schema, schema.registered catalog.defaults, path⟩ := by
  rw [loadFile]
  cases htext : files.text path with
  | none => exact Or.inl ⟨_, .unreadable htext, rfl⟩
  | some text =>
      cases hread : Schema.read catalog.versionKey text with
      | error error => exact Or.inl ⟨_, .text htext hread, by simp only [hread]⟩
      | ok schema =>
          simp only [hread]
          rcases catalog.register_cases schema path with ⟨error, hrefuses, h⟩ | ⟨hadded, h⟩
          · exact Or.inl ⟨error, .schema htext hread hrefuses, h⟩
          · exact Or.inr ⟨schema, ⟨text, htext, hread⟩, hadded, h⟩

/-- Files were loaded in order until one was refused: those before it have each added their schema. -/
structure LoadedUntil (files : Files) (paths : List String) (before : Catalog) (loading : Loading)
    (loaded rest : List String) (schemas : List Schema) : Prop where
  split : paths = loaded ++ rest
  held : List.Forall₂ (Holds files before.versionKey) loaded schemas
  extended : Extended before loading.catalog schemas
  count : loading.registrations.length = loaded.length
  failure : loading.failure = none ∧ rest = [] ∨
    ∃ path unread error, rest = path :: unread ∧ loading.catalog.RefusesFile files path error ∧
      loading.failure = some error

/-- **Loading files** goes on until a file is refused. -/
lemma loadFiles_loadedUntil (files : Files) (paths : List String) (catalog : Catalog) :
    ∃ loaded rest schemas,
      LoadedUntil files paths catalog (loadFiles files paths catalog) loaded rest schemas := by
  induction paths generalizing catalog with
  | nil => exact ⟨[], [], [], rfl, .nil, .refl catalog, rfl, Or.inl ⟨rfl, rfl⟩⟩
  | cons path rest ih =>
      rw [loadFiles]
      rcases catalog.loadFile_cases files path with ⟨error, hrefuses, h⟩ | ⟨schema, hheld, hadded, h⟩
      · rw [h]
        exact ⟨[], path :: rest, [], rfl, .nil, .refl catalog, rfl,
          Or.inr ⟨path, rest, error, rfl, hrefuses, rfl⟩⟩
      · rw [h]
        obtain ⟨loaded, unread, schemas, hloaded⟩ := ih (catalog.add schema)
        exact ⟨path :: loaded, unread, schema :: schemas, congrArg (path :: ·) hloaded.split,
          .cons hheld hloaded.held, hadded.trans hloaded.extended, congrArg (· + 1) hloaded.count,
          hloaded.failure⟩

/-! ## Calls -/

/-- A call that may add schemas; what the files hold may differ from call to call. -/
inductive Call where
  | register (schema : Schema)
  | loadFile (files : Files) (path : String)
  | loadAll (files : Files)

/-- What a call answers: the index of the schema that it added, or how many it added. -/
inductive Answer where
  | index (index : AccessIndex)
  | count (schemas : Nat)

/-- A registration as an outcome: one that is refused leaves the catalog. -/
def settle (catalog : Catalog) :
    Except SchemaError Registration → Catalog × Except SchemaError Answer
  | .ok registration => (registration.catalog, .ok (.index registration.entry.index))
  | .error error => (catalog, .error error)

/-- The catalog after a call, and the answer. -/
def perform (catalog : Catalog) : Call → Catalog × Except SchemaError Answer
  | .register schema => catalog.settle (catalog.register schema inMemory)
  | .loadFile files path => catalog.settle (catalog.loadFile files path)
  | .loadAll files =>
    let loading := catalog.loadAll files
    (loading.catalog,
      match loading.failure with
      | some error => .error error
      | none => .ok (.count loading.registrations.length))

/-- The catalog after calls, one after the other. -/
def run (catalog : Catalog) (calls : List Call) : Catalog :=
  calls.foldl (fun catalog call => (catalog.perform call).1) catalog

/-- The names of the schema files among those in a directory, in ascending order. -/
structure SchemaNames (names sorted : List String) : Prop where
  perm : sorted.Perm (names.filter isSchemaName)
  ascending : sorted.Pairwise fun a b => Ordered.before b a = false

/-- What a call makes of a catalog, and what it answers. -/
inductive Outcome (catalog : Catalog) : Call → Catalog × Except SchemaError Answer → Prop
  | refused {schema : Schema} {error : SchemaError} : catalog.Refuses inMemory schema error →
      Outcome catalog (.register schema) (catalog, .error error)
  | registered {schema : Schema} {after : Catalog} : Extended catalog after [schema] →
      Outcome catalog (.register schema) (after, .ok (.index (schema.compile catalog.defaults)))
  | fileRefused {files : Files} {path : String} {error : SchemaError} :
      catalog.RefusesFile files path error →
      Outcome catalog (.loadFile files path) (catalog, .error error)
  | fileLoaded {files : Files} {path : String} {schema : Schema} {after : Catalog} :
      Holds files catalog.versionKey path schema → Extended catalog after [schema] →
      Outcome catalog (.loadFile files path)
        (after, .ok (.index (schema.compile catalog.defaults)))
  | noDirectory {files : Files} : catalog.directory = none →
      Outcome catalog (.loadAll files) (catalog, .ok (.count 0))
  | unlisted {files : Files} {directory : String} : catalog.directory = some directory →
      files.names directory = none →
      Outcome catalog (.loadAll files)
        (catalog, .error (.malformed directory .unreadableDirectory))
  /-- Every schema file adds its schema. -/
  | loaded {files : Files} {directory : String} {names sorted : List String} {after : Catalog}
      {schemas : List Schema} : catalog.directory = some directory →
      files.names directory = some names → SchemaNames names sorted →
      List.Forall₂ (fun name => Holds files catalog.versionKey (Files.pathIn directory name))
        sorted schemas →
      Extended catalog after schemas →
      Outcome catalog (.loadAll files) (after, .ok (.count sorted.length))
  /-- The files before the first that is refused add their schemas. -/
  | stopped {files : Files} {directory name : String} {names loaded unread : List String}
      {after : Catalog} {schemas : List Schema} {error : SchemaError} :
      catalog.directory = some directory → files.names directory = some names →
      SchemaNames names (loaded ++ name :: unread) →
      List.Forall₂ (fun name => Holds files catalog.versionKey (Files.pathIn directory name))
        loaded schemas →
      Extended catalog after schemas →
      after.RefusesFile files (Files.pathIn directory name) error →
      Outcome catalog (.loadAll files) (after, .error error)

/-- Sorting puts the names of the schema files in ascending order. -/
lemma schemaNames_mergeSort (names : List String) :
    SchemaNames names ((names.filter isSchemaName).mergeSort fun a b => !Ordered.before b a) where
  perm := List.mergeSort_perm _ _
  ascending := by
    refine (List.pairwise_mergeSort ?_ ?_ _).imp fun h => by simpa using h
    · intro a b c hab hbc
      simp only [Bool.not_eq_true'] at hab hbc ⊢
      by_contra hca
      rw [Bool.not_eq_false] at hca
      rcases eq_or_ne b a with rfl | hne
      · exact absurd hca (by simp [hbc])
      · exact absurd (Ordered.trans hca (Ordered.before_of_not_before hne hab)) (by simp [hbc])
    · intro a b
      cases hba : Ordered.before b a with
      | false => rfl
      | true => simp [Ordered.asymm hba]

/-- What loading a directory comes to. -/
lemma loadAll_outcome (catalog : Catalog) (files : Files) :
    Outcome catalog (.loadAll files) (catalog.perform (.loadAll files)) := by
  cases hdirectory : catalog.directory with
  | none =>
      have h : catalog.perform (.loadAll files) = (catalog, .ok (.count 0)) := by
        simp [perform, loadAll, hdirectory]
      exact h ▸ .noDirectory hdirectory
  | some directory =>
      cases hnames : files.names directory with
      | none =>
          have h : catalog.perform (.loadAll files)
              = (catalog, .error (.malformed directory .unreadableDirectory)) := by
            simp [perform, loadAll, hdirectory, hnames]
          exact h ▸ .unlisted hdirectory hnames
      | some names =>
          have hsorted := schemaNames_mergeSort names
          generalize hsort : ((names.filter isSchemaName).mergeSort fun a b => !Ordered.before b a)
            = sorted at hsorted
          have hload : catalog.loadAll files
              = loadFiles files (sorted.map (Files.pathIn directory)) catalog := by
            rw [loadAll, hdirectory]
            simp only [hnames, schemaPaths, hsort]
          obtain ⟨loaded, rest, schemas, h⟩ :=
            loadFiles_loadedUntil files (sorted.map (Files.pathIn directory)) catalog
          rw [← hload] at h
          obtain ⟨before, others, rfl, rfl, rfl⟩ := List.map_eq_append_iff.1 h.split
          have hheld := List.forall₂_map_left_iff.1 h.held
          rcases h.failure with ⟨hdone, hothers⟩ | ⟨path, unread, error, hothers, hrefuses, hfailure⟩
          · obtain rfl := List.map_eq_nil_iff.1 hothers
            rw [List.append_nil] at hsorted
            have hresult : catalog.perform (.loadAll files)
                = ((catalog.loadAll files).catalog, .ok (.count before.length)) := by
              simp [perform, hdone, h.count]
            exact hresult ▸ .loaded hdirectory hnames hsorted hheld h.extended
          · obtain ⟨name, tail, rfl, rfl, rfl⟩ := List.map_eq_cons_iff.1 hothers
            have hresult : catalog.perform (.loadAll files)
                = ((catalog.loadAll files).catalog, .error error) := by
              simp [perform, hfailure]
            exact hresult ▸ .stopped hdirectory hnames hsorted hheld h.extended hrefuses

/-- **The step**: every call has one of the outcomes. -/
theorem perform_outcome (catalog : Catalog) (call : Call) :
    Outcome catalog call (catalog.perform call) := by
  cases call with
  | register schema =>
      rw [perform]
      rcases catalog.register_cases schema inMemory with ⟨error, hrefuses, h⟩ | ⟨hadded, h⟩
      · exact h ▸ .refused hrefuses
      · exact h ▸ .registered hadded
  | loadFile files path =>
      rw [perform]
      rcases catalog.loadFile_cases files path with ⟨error, hrefuses, h⟩ | ⟨schema, hheld, hadded, h⟩
      · exact h ▸ .fileRefused hrefuses
      · exact h ▸ .fileLoaded hheld hadded
  | loadAll files => exact catalog.loadAll_outcome files

/-- Every outcome extends the catalog. -/
lemma Outcome.extended {call : Call} {result : Catalog × Except SchemaError Answer}
    (h : Outcome catalog call result) : ∃ schemas, Extended catalog result.1 schemas := by
  cases h with
  | registered hadded => exact ⟨_, hadded⟩
  | fileLoaded _ hadded => exact ⟨_, hadded⟩
  | loaded _ _ _ _ hadded => exact ⟨_, hadded⟩
  | stopped _ _ _ _ hadded _ => exact ⟨_, hadded⟩
  | _ => exact ⟨[], .refl catalog⟩

/-- A registration or a file that is refused leaves the catalog. -/
lemma Outcome.eq_of_error {call : Call} {result : Catalog × Except SchemaError Answer}
    (h : Outcome catalog call result) (hcall : ∀ files, call ≠ .loadAll files)
    (herror : result.2 = .error error) : result.1 = catalog := by
  cases h with
  | refused | fileRefused => rfl
  | registered | fileLoaded => exact absurd herror (by simp)
  | noDirectory | unlisted | loaded | stopped => exact absurd rfl (hcall _)

/-- **The run**: calls extend the catalog that they start from. -/
theorem extended_run (catalog : Catalog) (calls : List Call) :
    ∃ schemas, Extended catalog (catalog.run calls) schemas := by
  induction calls generalizing catalog with
  | nil => exact ⟨[], .refl catalog⟩
  | cons call rest ih =>
      obtain ⟨first, hfirst⟩ := (catalog.perform_outcome call).extended
      obtain ⟨others, hothers⟩ := ih (catalog.perform call).1
      exact ⟨first ++ others, hfirst.trans hothers⟩

/-! ## Any history -/

/-- Every name that is registered is that of its schema, which is without fault, and its index is the one
compiled from the schema. -/
def Consistent (defaults : Levels) (catalog : Catalog) : Prop :=
  ∀ name ∈ catalog.names, ∃ schema, catalog.schema? name = some schema ∧ schema.name = name ∧
    schema.fault? = none ∧ catalog.index name = .ok (schema.compile defaults)

/-- What one catalog answers about schemas, the other answers too. -/
structure Persists (before after : Catalog) : Prop where
  schema : ∀ name schema, before.schema? name = some schema → after.schema? name = some schema
  index : ∀ name index, before.index name = .ok index → after.index name = .ok index

/-- What comes out of an empty catalog is consistent. -/
lemma Extended.consistent (h : Extended before after schemas) (hbefore : before.entries = []) :
    after.Consistent before.defaults := by
  intro name hname
  have hsome : after.find? name ≠ none := by
    obtain ⟨entry, hentry, rfl⟩ := List.mem_map.1 hname
    exact fun hnone => Keyed.find?_eq_none_iff.1 hnone entry hentry rfl
  have hfound := h.found name
  rw [show before.find? name = none by rw [find?, hbefore]; rfl, Option.none_or] at hfound
  cases hschema : schemas.find? fun schema => schema.name = name with
  | none => exact absurd (by rw [hfound, hschema]; rfl) hsome
  | some schema =>
      rw [hschema, Option.map_some] at hfound
      refine ⟨schema, ?_, by simpa using List.find?_some hschema,
        h.faultless schema (List.mem_of_find?_eq_some hschema), ?_⟩
      · rw [schema?, hfound]
        rfl
      · rw [index, hfound]
        rfl

/-- What was registered is answered by every extension. -/
lemma Extended.persists (h : Extended before after schemas) : before.Persists after where
  schema name schema hschema := by
    obtain ⟨entry, hentry, rfl⟩ := Option.map_eq_some_iff.1 hschema
    rw [schema?, h.find?_mono hentry]
    rfl
  index name index hindex := by
    rw [Catalog.index] at hindex ⊢
    cases hentry : before.find? name with
    | none => simp [hentry] at hindex
    | some entry =>
        rw [hentry] at hindex
        rw [h.find?_mono hentry]
        exact hindex

/-- **Registration over any history.**  Whatever calls were made of a catalog that was empty, its entries
are consistent and persist through all calls to come; a registration or a file that is refused leaves
the catalog as it is; and every call, that of a directory among them, has one of the outcomes. -/
theorem run_consistent {start : Catalog} (hstart : start.entries = []) (calls : List Call) :
    (start.run calls).Consistent start.defaults ∧
    (∀ later, (start.run calls).Persists ((start.run calls).run later)) ∧
    (∀ schema error, ((start.run calls).perform (.register schema)).2 = .error error →
      ((start.run calls).perform (.register schema)).1 = start.run calls) ∧
    (∀ files path error, ((start.run calls).perform (.loadFile files path)).2 = .error error →
      ((start.run calls).perform (.loadFile files path)).1 = start.run calls) ∧
    ∀ call, Outcome (start.run calls) call ((start.run calls).perform call) := by
  generalize hcatalog : start.run calls = catalog
  refine ⟨?_, ?_, ?_, ?_, catalog.perform_outcome⟩
  · obtain ⟨schemas, h⟩ := start.extended_run calls
    exact hcatalog ▸ h.consistent hstart
  · intro later
    obtain ⟨schemas, h⟩ := catalog.extended_run later
    exact h.persists
  · exact fun schema error herror => (catalog.perform_outcome _).eq_of_error (by simp) herror
  · exact fun files path error herror => (catalog.perform_outcome _).eq_of_error (by simp) herror

/-- Tags have a label. -/
def tagsSchema : Schema :=
  ⟨"tags", defaultVersionKey, ⟨[("label", .leaf .string none)], [], false⟩⟩

/-- Two files of which one holds a schema, and a directory with a file that holds another one of
tags. -/
def mixedTree : FileTree :=
  .directory [
    ("authors.json", .file (some "\x7b\"name\":\"authors\",\"fields\":\x7b\x7d\x7d")),
    ("broken.json", .file (some "\x7b")),
    ("schemas", .directory [("readme.txt", .file (some "")),
      ("tags.json", .file (some "\x7b\"name\":\"tags\",\"fields\":\x7b\x7d\x7d"))])]

/-- Tags are registered, and then the files and the directory are loaded. -/
def mixedCalls : List Call :=
  [.register tagsSchema, .loadFile mixedTree.files "authors.json",
    .loadFile mixedTree.files "broken.json", .loadAll mixedTree.files]

theorem run_consistent_mixed :
    ({ Catalog.empty .restrictive with directory := some "schemas" }.run mixedCalls).names
        = ["authors", "tags"] ∧
      ({ Catalog.empty .restrictive with directory := some "schemas" }.run mixedCalls).Consistent
        .restrictive := by
  have hstart : { Catalog.empty .restrictive with directory := some "schemas" }.entries = [] := rfl
  exact ⟨by decide +kernel, (run_consistent hstart mixedCalls).1⟩

end Catalog

end DocumentAccess
