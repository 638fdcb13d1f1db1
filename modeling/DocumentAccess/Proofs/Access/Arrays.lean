import DocumentAccess.Proofs.Access.Required

/-!
# Arrays of subdocuments and what is below them

Whoever may read or update an array of subdocuments as a whole gets at everything in it, so the array
should ask for at least what anything below it asks for.

* **`Schema.allows_below`** — an array is no more permissive than what is below it, with exceptions: what
  may be done at no level at all does not count, nor does a virtual path that is only listed around the
  array, and a reserved path is open to anyone.
* `arrays_permissive` — each exception does occur.
-/

namespace DocumentAccess

namespace Schema

variable {schema : Schema} {defaults : Levels} {array path : String} {action : Action} {level : Nat}

/-- What the requirement of an array of subdocuments lets pass, each of its own requirements lets pass
that has a level for the action at all. -/
lemma le_of_arrayRequirement {own reserved : List Requirement} {r : Requirement} {granted n : Nat}
    (hgranted : (Field.arrayRequirement defaults reserved array own).level? action = some granted)
    (hr : r ∈ own) (hlevel : r.level? action = some n) : n ≤ granted := by
  have hle : n ≤ Requirement.strictest defaults
      ((reserved.filter fun r => Path.isBelow array r.path) ++ own) action :=
    le_getD_greatest? (List.mem_filterMap.2 ⟨r, List.mem_append_right _ hr, hlevel⟩) _
  cases action with
  | read | update => exact Option.some.inj hgranted ▸ hle
  | create | delete => exact absurd hgranted (by simp [Field.arrayRequirement, Requirement.ofArray])

/-- A virtual path is listed around an array and does not count for it; for an array that the walk hides
none counts. -/
def OnlyAround (schema : Schema) (array : String) (field : Field) (path : String) : Prop :=
  path ∈ schema.virtualsAround array ∧
    ¬ (schema.Walks array field ∧ schema.CountsFor array field path)

/-- **An array of subdocuments is no more permissive than what is below it.**  If an action is allowed on
an array that is not reserved, then it is allowed on every path below where some level allows it; for a
virtual path that is only listed around the array, if the default level does. -/
theorem allows_below (h : schema.fault? = none) (hordered : schema.WellOrdered) {fields : Fields}
    {virtuals : List String} {hasId : Bool} {acl : Option AccessRule}
    (harray : schema.tree.fieldAt? array = some (.documents fields virtuals hasId acl))
    (hreserved : array ∉ schema.reserved)
    (hallowed : (schema.compile defaults).allows array action level = true)
    (hbelow : Path.isBelow array path = true)
    (hsome : ∃ higher, (schema.compile defaults).allows path action higher = true)
    (haround : schema.OnlyAround array (.documents fields virtuals hasId acl) path →
      defaults.of action ≤ level) :
    (schema.compile defaults).allows path action level = true := by
  obtain ⟨higher, hhigher⟩ := hsome
  rw [allows_compile_iff h hordered] at hallowed hhigher ⊢
  by_cases hpath : path ∈ schema.reserved
  · exact Or.inl hpath
  obtain ⟨r, hr, rfl, n, -, hn⟩ := hhigher.resolve_left hpath
  refine Or.inr ⟨r, hr, rfl, n, ?_, hn⟩
  obtain ⟨s, hs, rfl, granted, hle, hgranted⟩ := hallowed.resolve_left hreserved
  rcases cases_of_fieldAt? h hordered harray hr (Path.within_of_isBelow hbelow) with
    ⟨hwalks, hr⟩ | ⟨hlisted, hrule, htaken⟩ | ⟨hsame, -⟩
  · -- the array is walked, so the level that it grants is the strictest among its own
    have hs' := requirement?_of_walks h hordered hwalks rfl hs rfl
    rcases List.mem_append.1 hr with hr | hr
    · exact Nat.le_trans (le_of_arrayRequirement (hs' ▸ hgranted) hr hn) hle
    · rw [List.mem_singleton.1 hr] at hbelow
      exact absurd rfl (Path.ne_of_isBelow hbelow)
  · have hdefault : some (defaults.of action) = some n := by
      rw [hrule] at hn
      exact hn
    refine Option.some.inj hdefault ▸ haround ⟨hlisted, fun ⟨hwalks, hcounts⟩ => ?_⟩
    -- what the array has itself and is not reserved it requires itself
    have hne := (leads_of_fieldAt? h hordered harray).ne_empty (sound_fields h hordered)
    have hfree : ∀ t ∈ schema.reservedRequirements, t.path = r.path → '.' ∉ r.path.toList := by
      intro t ht hsame
      have hmem := List.mem_map_of_mem (f := Requirement.path) ht
      rw [map_path_reservedRequirements, hsame] at hmem
      exact absurd hmem hpath
    obtain ⟨own, howned, hsame⟩ := (Field.mem_paths_iff defaults hfree _ _ hne).1 (hcounts hlisted)
    exact htaken hwalks own howned hsame
  · exact absurd hsame (Path.ne_of_isBelow hbelow)

/-- An array of subdocuments lets an action pass at a level at which a path below it, other than that of
an identifier, does not. -/
def Exceeds (schema : Schema) (defaults : Levels) (array path : String) (action : Action)
    (level : Nat) : Prop :=
  (schema.fault? = none ∧ schema.WellOrdered ∧
    ∃ fields virtuals hasId acl,
      schema.tree.fieldAt? array = some (.documents fields virtuals hasId acl)) ∧
  (array ∈ (schema.compile defaults).all ∧ path ∈ (schema.compile defaults).all ∧
    Path.isBelow array path = true ∧ (Path.segments path).getLast? ≠ some Path.identifier) ∧
  (schema.compile defaults).allows array action level = true ∧
    (schema.compile defaults).allows path action level = false

end Schema

theorem allows_below_orders :
    (ordersSchema.compile ordersDefaults).allows "items" .update 0 = true ∧
      Path.isBelow "items" "items.price" = true ∧
      (ordersSchema.compile ordersDefaults).allows "items.price" .update 0 = true :=
  ⟨by decide, by decide, Schema.allows_below orders_accepted orders_wellOrdered rfl (by decide)
    (show (ordersSchema.compile ordersDefaults).allows "items" .update 0 = true by decide)
    (by decide) ⟨7, by decide⟩ fun honly => absurd honly.1 (by decide)⟩

/-- Letters have pages with a text that anyone may update and a seal that nobody may. -/
def lettersSchema : Schema :=
  ⟨"letters", defaultVersionKey,
    ⟨[("pages", .documents
        [("seal", .leaf .string (some ⟨none, some 0, none, none, none⟩)),
          ("text", .leaf .string (some ⟨none, some 0, some 0, none, none⟩))] [] true none)], [], false⟩⟩

/-- Orders whose version counter has the path of their items. -/
def countedSchema : Schema :=
  ⟨"orders", "stock.items",
    ⟨[("stock", .object [("items", .documents [("price", .leaf .number none)] [] true none)] none)], [],
      false⟩⟩

/-- **An array may be more permissive than what is below it**: where a field has no level for updating,
where a virtual path is listed around the array, and where the array is at the path of the version
counter. -/
theorem arrays_permissive :
    lettersSchema.Exceeds .restrictive "pages" "pages.seal" .update 0 ∧
      ordersSchema.Exceeds ordersDefaults "items" "items.total" .read 0 ∧
      countedSchema.Exceeds ordersDefaults "stock.items" "stock.items.price" .read 0 := by
  refine ⟨⟨⟨by decide, ?_, _, _, _, _, rfl⟩, by decide, by decide⟩,
    ⟨⟨orders_accepted, orders_wellOrdered, _, _, _, _, rfl⟩, by decide, by decide⟩,
    ⟨⟨by decide, ?_, _, _, _, _, rfl⟩, by decide, by decide⟩⟩
  · refine ⟨List.pairwise_singleton _ _, ⟨?_, trivial, trivial, trivial⟩, trivial⟩
    exact List.pairwise_pair.2 (by decide)
  · exact ⟨List.pairwise_singleton _ _,
      ⟨List.pairwise_singleton _ _, ⟨List.pairwise_singleton _ _, trivial, trivial⟩, trivial⟩, trivial⟩

end DocumentAccess
