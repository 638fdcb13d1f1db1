import DocumentAccess.Proofs.Access.Projection

/-!
# Narrowed selections

A selection is narrowed to the entries that may be read; exclusions stay.  What is left may be selected,
unless it includes nothing any more: a selection that includes nothing asks for the whole document, and a
populate entry that is left blank for the whole projection.

* `Asks` — what a selection asks for.
* `AccessIndex.includedPaths_narrow`, `AccessIndex.canSelect_narrow_iff` — what a narrowed selection
  includes, and when it may be selected.
* **`Schema.narrow_permitted_iff`** — narrowing gives what may be selected, or populated with, and asks for
  nothing new, exactly when something readable was included.
* `narrow_not_permitted` — selections of which nothing is left.
-/

namespace DocumentAccess

/-- A selection asks for the paths that it includes, and for every path if it includes none. -/
def Asks (select path : String) : Prop :=
  includedPaths select = [] ∨ path ∈ includedPaths select

/-- A blank selection includes nothing. -/
lemma includedPaths_of_isBlank {select : String} (h : Text.isBlankText select = true) :
    includedPaths select = [] := by
  rw [includedPaths, Text.isBlankText_iff.1 h]
  rfl

namespace AccessIndex

variable {index : AccessIndex} {entry : Populate}

/-! ## Selections -/

/-- The entries of a narrowed selection: exclusions, and what may be read. -/
lemma words_narrow (index : AccessIndex) (select : String) (level : Nat) :
    Text.words (index.narrow select level) = (Text.words select).filter fun entry =>
      isExclusion entry || index.allows (withoutPlus entry) .read level :=
  Text.words_unwords_eq_iff.2 fun _ hentry => Text.mem_words (List.mem_of_mem_filter hentry)

/-- Narrowing again changes nothing. -/
lemma narrow_narrow (index : AccessIndex) (select : String) (level : Nat) :
    index.narrow (index.narrow select level) level = index.narrow select level := by
  rw [narrow, words_narrow, List.filter_filter]
  simp only [Bool.and_self]
  rfl

/-- A narrowed selection includes what may be read. -/
lemma includedPaths_narrow (index : AccessIndex) (select : String) (level : Nat) :
    includedPaths (index.narrow select level)
      = (includedPaths select).filter fun path => index.allows path .read level := by
  have hentries : ((Text.words select).filter fun entry =>
        isExclusion entry || index.allows (withoutPlus entry) .read level).filter
          (fun entry => !isExclusion entry)
      = ((Text.words select).filter fun entry => !isExclusion entry).filter
          ((fun path => index.allows path .read level) ∘ withoutPlus) := by
    rw [List.filter_filter, List.filter_filter]
    refine List.filter_congr fun entry _ => ?_
    cases hexclusion : isExclusion entry with
    | true => simp
    | false => simp
  rw [includedPaths, includedPaths, words_narrow, hentries, ← List.filter_map, List.filter_comm]

/-- A narrowed selection may be selected if something is left of it, or if the whole document may be
read. -/
lemma canSelect_narrow_iff (index : AccessIndex) (select : String) (level : Nat) :
    index.canSelect (index.narrow select level) level = true ↔
      (∃ path ∈ includedPaths select, index.allows path .read level = true) ∨
        ∀ path ∈ index.all, index.allows path .read level = true := by
  rw [canSelect_iff, SelectsReadable, includedPaths_narrow, List.filter_eq_nil_iff]
  constructor
  · rintro ⟨-, hall⟩
    by_cases h : ∃ path ∈ includedPaths select, index.allows path .read level = true
    · exact Or.inl h
    · exact Or.inr (hall fun path hpath hallowed => h ⟨path, hpath, hallowed⟩)
  · intro h
    refine ⟨fun path hpath => (List.mem_filter.1 hpath).2, fun hnone => ?_⟩
    rcases h with ⟨path, hpath, hallowed⟩ | hall
    · exact absurd hallowed (hnone path hpath)
    · exact hall

/-! ## Populate entries -/

/-- An entry with a selection keeps it. -/
lemma resolve_of_not_blank (h : entry.isBlank = false) (index : AccessIndex) (level : Nat) :
    index.resolve entry level = entry := by
  rw [resolve, h]
  rfl

/-- The narrowed entry has the narrowed selection. -/
lemma select_narrowPopulate (index : AccessIndex) (entry : Populate) (level : Nat) :
    (index.narrowPopulate entry level).select
      = index.narrow (index.resolve entry level).select level := rfl

/-- An entry of which something readable is left is not blank. -/
lemma not_blank_of_included {path : String} (h : path ∈ includedPaths entry.select) :
    entry.isBlank = false := by
  rw [← Bool.not_eq_true]
  intro hblank
  rw [includedPaths_of_isBlank hblank] at h
  exact absurd h List.not_mem_nil

/-- The identifier may be read from any level on. -/
lemma allows_identifier (hid : ⟨0, .read, Path.identifier⟩ ∈ index.grants) (level : Nat) :
    index.allows Path.identifier .read level = true :=
  allows_iff.2 (Or.inr ⟨0, Nat.zero_le _, hid⟩)

/-- Entries that leave the choice open may be populated with when they are narrowed: the identifier is
left. -/
lemma canPopulate_narrow_of_blank (hid : ⟨0, .read, Path.identifier⟩ ∈ index.grants) (level : Nat)
    (hblank : entry.isBlank = true) :
    index.canPopulate (index.narrowPopulate entry level) level = true := by
  have hselect : (index.narrowPopulate entry level).select
      = index.narrow (index.projectionText level) level := by
    rw [select_narrowPopulate, resolve, if_pos hblank]
  have hincluded := identifier_mem_includedPaths hid level
  have hleft : Path.identifier ∈ includedPaths (index.narrowPopulate entry level).select := by
    rw [hselect, includedPaths_narrow]
    exact List.mem_filter.2 ⟨hincluded, allows_identifier hid level⟩
  rw [canPopulate, resolve_of_not_blank (not_blank_of_included hleft), hselect, canSelect_narrow_iff]
  exact Or.inl ⟨_, hincluded, allows_identifier hid level⟩

/-- A narrowed entry may be populated with if its selection may be selected, or if that is blank and the
projection may be selected. -/
lemma canPopulate_narrow_iff (index : AccessIndex) (level : Nat) (hblank : entry.isBlank = false) :
    index.canPopulate (index.narrowPopulate entry level) level = true ↔
      if (index.narrowPopulate entry level).isBlank then
        index.canSelect (index.projectionText level) level = true
      else (∃ path ∈ includedPaths entry.select, index.allows path .read level = true) ∨
        ∀ path ∈ index.all, index.allows path .read level = true := by
  cases hleft : (index.narrowPopulate entry level).isBlank with
  | true => simp [canPopulate_of_isBlank hleft]
  | false =>
      rw [canPopulate, resolve_of_not_blank hleft, select_narrowPopulate,
        resolve_of_not_blank hblank, canSelect_narrow_iff]
      simp

/-- A narrowed entry asks for nothing new if something readable was included, or nothing at all. -/
lemma asks_narrow_iff (hid : ⟨0, .read, Path.identifier⟩ ∈ index.grants) (level : Nat)
    (hblank : entry.isBlank = false) :
    (∀ path, Asks (index.resolve (index.narrowPopulate entry level) level).select path →
        Asks entry.select path) ↔
      includedPaths entry.select = [] ∨
        ∃ path ∈ includedPaths entry.select, index.allows path .read level = true := by
  have hincluded : includedPaths (index.narrowPopulate entry level).select
      = (includedPaths entry.select).filter fun path => index.allows path .read level := by
    rw [select_narrowPopulate, resolve_of_not_blank hblank, includedPaths_narrow]
  constructor
  · intro h
    by_contra hnone
    rw [not_or, not_exists] at hnone
    obtain ⟨hsome, hdenied⟩ := hnone
    have hleft : includedPaths (index.narrowPopulate entry level).select = [] := by
      rw [hincluded, List.filter_eq_nil_iff]
      exact fun path hpath hallowed => hdenied path ⟨hpath, hallowed⟩
    -- what is left asks for the identifier, which was not included because it may be read
    have hasks : Asks (index.resolve (index.narrowPopulate entry level) level).select
        Path.identifier := by
      rw [resolve]
      split
      · exact Or.inr (identifier_mem_includedPaths hid level)
      · exact Or.inl hleft
    have hid' := (h _ hasks).resolve_left hsome
    exact hdenied _ ⟨hid', allows_identifier hid level⟩
  · rintro (hnone | ⟨path, hpath, hallowed⟩) other hasks
    · exact Or.inl hnone
    · have hleft : path ∈ includedPaths (index.narrowPopulate entry level).select := by
        rw [hincluded]
        exact List.mem_filter.2 ⟨hpath, hallowed⟩
      rw [resolve_of_not_blank (not_blank_of_included hleft)] at hasks
      rcases hasks with hnone | hother
      · exact absurd hnone (List.ne_nil_of_mem hleft)
      · rw [hincluded] at hother
        exact Or.inr (List.mem_of_mem_filter hother)

end AccessIndex

/-- **A narrowed selection may be selected exactly when something readable was included or the whole document
may be read**; it has the exclusions and the readable entries, in their order, and narrowing it again
changes nothing.  A narrowed populate entry may be populated with if it was blank; otherwise like its
selection, or like the projection if it has become blank.  It asks for nothing new exactly when it included
something readable, or nothing at all. -/
theorem Schema.narrow_permitted_iff (schema : Schema) (defaults : Levels) (level : Nat) :
    let index := schema.compile defaults
    (∀ select : String,
      (index.canSelect (index.narrow select level) level = true ↔
        (∃ path ∈ includedPaths select, index.allows path .read level = true) ∨
          ∀ path ∈ index.all, index.allows path .read level = true) ∧
      index.narrow (index.narrow select level) level = index.narrow select level ∧
      Text.words (index.narrow select level) = (Text.words select).filter fun entry =>
        isExclusion entry || index.allows (withoutPlus entry) .read level) ∧
    (∀ entry : Populate, entry.isBlank = true →
      index.canPopulate (index.narrowPopulate entry level) level = true) ∧
    ∀ entry : Populate, entry.isBlank = false →
      (index.canPopulate (index.narrowPopulate entry level) level = true ↔
        if (index.narrowPopulate entry level).isBlank then
          index.canSelect (index.projectionText level) level = true
        else (∃ path ∈ includedPaths entry.select, index.allows path .read level = true) ∨
          ∀ path ∈ index.all, index.allows path .read level = true) ∧
      ((∀ path, Asks (index.resolve (index.narrowPopulate entry level) level).select path →
          Asks entry.select path) ↔
        includedPaths entry.select = [] ∨
          ∃ path ∈ includedPaths entry.select, index.allows path .read level = true) := by
  intro index
  have hid := schema.identifier_granted defaults
  refine ⟨fun select => ⟨index.canSelect_narrow_iff select level, index.narrow_narrow select level,
      index.words_narrow select level⟩,
    fun entry hblank => AccessIndex.canPopulate_narrow_of_blank hid level hblank,
    fun entry hblank => ⟨index.canPopulate_narrow_iff level hblank,
      AccessIndex.asks_narrow_iff hid level hblank⟩⟩

/-- Staff have a name that anyone may read, a salary from level 1 on, and notes from level 2 on. -/
def staffSchema : Schema :=
  ⟨"staff", defaultVersionKey,
    ⟨[("name", .leaf .string none), ("notes", .leaf .string (some ⟨none, some 2, none, none, none⟩)),
      ("salary", .leaf .number (some ⟨none, some 1, none, none, none⟩))], [], false⟩⟩

/-- Nothing that may be read is left of a salary, with notes excluded or not: the narrowed selections ask
for the whole document, and the populate entry for the name. -/
theorem narrow_not_permitted :
    let index := staffSchema.compile (.uniform 0)
    index.narrow "salary" 0 = "" ∧ index.canSelect "" 0 = false ∧
      index.narrow "salary -notes" 0 = "-notes" ∧ index.canSelect "-notes" 0 = false ∧
      index.narrowPopulate ⟨"author", "salary -notes"⟩ 0 = ⟨"author", "-notes"⟩ ∧
      index.canPopulate ⟨"author", "-notes"⟩ 0 = false ∧
      index.narrowPopulate ⟨"author", "salary"⟩ 0 = ⟨"author", ""⟩ ∧
      Asks (index.resolve ⟨"author", ""⟩ 0).select "name" ∧ ¬ Asks "salary" "name" := by
  refine ⟨by decide, by decide, by decide, by decide, by decide, by decide, by decide,
    Or.inr (by decide), ?_⟩
  rintro (hnone | hname)
  · exact absurd hnone (by decide)
  · exact absurd hname (by decide)

end DocumentAccess
