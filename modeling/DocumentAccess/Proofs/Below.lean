import DocumentAccess.Proofs.Paths

/-!
# Paths below a path

A path is *within* another one when it begins with the segments of the other, and *below* it when it
goes on after them.  As texts: it is the other path, or begins with the other path and a dot.

* `Path.Within`, `Path.isBelow` — the two relations, the second one as a test on texts.
* **`Path.isBelow_iff_segments`** — the test says what the segments say.
* `Path.within_join_unique` — nothing is within two extensions of one context by different keys.
-/

namespace DocumentAccess.Path

/-- The other path begins with the segments of this one. -/
def Within (path other : String) : Prop :=
  segments path <+: segments other

/-- The other path, as a text, begins with this one and a dot. -/
def isBelow (path other : String) : Bool :=
  (path ++ ".").toList.isPrefixOf other.toList

/-! ## Segments without dots -/

lemma no_dot_of_mem_segments {path segment : String} (h : segment ∈ segments path) :
    '.' ∉ segment.toList := by
  obtain ⟨run, hrun, rfl⟩ := List.mem_map.1 h
  rw [String.toList_ofList]
  exact not_mem_of_mem_splitDots hrun

/-- Segments that are joined by dots are found again. -/
lemma segments_intercalate_segments {keys : List String} (hne : keys ≠ [])
    (hdots : ∀ key ∈ keys, '.' ∉ key.toList) : segments (".".intercalate keys) = keys := by
  rw [segments_intercalate hne]
  calc keys.flatMap segments = keys.flatMap fun key => [key] :=
        List.flatMap_congr fun key hkey => segments_of_no_dot (hdots key hkey)
    _ = keys := List.flatMap_singleton' keys

/-! ## Below -/

lemma isBelow_iff {path other : String} :
    isBelow path other = true ↔ ∃ rest, other = path ++ "." ++ rest := by
  rw [isBelow, List.isPrefixOf_iff_prefix]
  constructor
  · rintro ⟨tail, htail⟩
    refine ⟨String.ofList tail, String.toList_inj.1 ?_⟩
    rw [String.toList_append, String.toList_ofList, htail]
  · rintro ⟨rest, rfl⟩
    exact ⟨rest.toList, (String.toList_append ..).symm⟩

/-- **A path is below another one when segments follow those of the other.** -/
theorem isBelow_iff_segments {path other : String} :
    isBelow path other = true ↔ ∃ rest, rest ≠ [] ∧ segments other = segments path ++ rest := by
  rw [isBelow_iff]
  constructor
  · rintro ⟨rest, rfl⟩
    exact ⟨segments rest, segments_ne_nil rest, segments_append_dot path rest⟩
  · rintro ⟨rest, hne, hrest⟩
    have hdots : ∀ key ∈ rest, '.' ∉ key.toList := fun key hkey =>
      no_dot_of_mem_segments (hrest ▸ List.mem_append_right _ hkey)
    refine ⟨".".intercalate rest, segments_injective ?_⟩
    rw [segments_append_dot, segments_intercalate_segments hne hdots, hrest]

lemma ne_empty_of_isBelow {path other : String} (h : isBelow path other = true) : other ≠ "" := by
  rintro rfl
  obtain ⟨rest, hrest⟩ := isBelow_iff.1 h
  exact absurd (congrArg String.toList hrest) (by simp)

lemma not_isBelow_self (path : String) : isBelow path path = false := by
  rw [← Bool.not_eq_true, isBelow_iff_segments]
  rintro ⟨rest, hne, hrest⟩
  exact hne (List.self_eq_append_right.1 hrest)

lemma ne_of_isBelow {path other : String} (h : isBelow path other = true) : other ≠ path := by
  rintro rfl
  rw [not_isBelow_self] at h
  exact absurd h (by decide)

/-- Nothing without a dot is below a path. -/
lemma not_isBelow_of_no_dot {other : String} (h : '.' ∉ other.toList) (path : String) :
    isBelow path other = false := by
  rw [← Bool.not_eq_true, isBelow_iff]
  rintro ⟨rest, rfl⟩
  exact h (by simp)

/-- What is below a path has more segments. -/
lemma length_lt_of_isBelow {path other : String} (h : isBelow path other = true) :
    (segments path).length < (segments other).length := by
  obtain ⟨rest, hne, hrest⟩ := isBelow_iff_segments.1 h
  rw [hrest, List.length_append]
  exact Nat.lt_add_of_pos_right (List.length_pos_iff.2 hne)

lemma within_of_isBelow {path other : String} (h : isBelow path other = true) :
    Within path other := by
  obtain ⟨rest, -, hrest⟩ := isBelow_iff_segments.1 h
  exact ⟨rest, hrest.symm⟩

lemma isBelow_of_isBelow_of_within {path middle other : String} (h : isBelow path middle = true)
    (h' : Within middle other) : isBelow path other = true := by
  obtain ⟨rest, hne, hrest⟩ := isBelow_iff_segments.1 h
  obtain ⟨more, hmore⟩ := h'
  refine isBelow_iff_segments.2 ⟨rest ++ more, by simp [hne], ?_⟩
  rw [← hmore, hrest, List.append_assoc]

/-! ## Extended contexts -/

/-- The segments that a context puts in front of a key; the empty context has none. -/
def contextSegments (context : String) : List String :=
  if context = "" then [] else segments context

lemma segments_join_eq (context key : String) :
    segments (join context key) = contextSegments context ++ segments key := by
  rw [segments_join, contextSegments]
  split <;> simp

lemma join_ne_empty {context key : String} (h : key ≠ "") : join context key ≠ "" := by
  rw [join]
  split
  · exact h
  · exact fun hempty => absurd (congrArg String.toList hempty) (by simp)

lemma contextSegments_join {context key : String} (h : key ≠ "") :
    contextSegments (join context key) = contextSegments context ++ segments key := by
  rw [contextSegments, if_neg (join_ne_empty h), segments_join_eq]

lemma isBelow_join {context : String} (h : context ≠ "") (key : String) :
    isBelow context (join context key) = true := by
  refine isBelow_iff_segments.2 ⟨segments key, segments_ne_nil key, ?_⟩
  rw [segments_join_eq, contextSegments, if_neg h]

lemma join_injective {context key other : String} (h : join context key = join context other) :
    key = other := by
  have hsegments := congrArg segments h
  rw [segments_join_eq, segments_join_eq] at hsegments
  exact segments_injective (List.append_cancel_left hsegments)

/-- **A path within two extensions of one context shows that they are the same.** -/
theorem within_join_unique {context key other path : String} (hkey : '.' ∉ key.toList)
    (hother : '.' ∉ other.toList) (h : Within (join context key) path)
    (h' : Within (join context other) path) : key = other := by
  rw [Within, segments_join_eq, segments_of_no_dot hkey] at h
  rw [Within, segments_join_eq, segments_of_no_dot hother] at h'
  have hsame := (List.prefix_of_prefix_length_le h h' (by simp)).eq_of_length (by simp)
  simpa using hsame

end DocumentAccess.Path
