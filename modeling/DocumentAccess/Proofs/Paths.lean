import DocumentAccess.Path
import Mathlib.Data.List.Basic
import Mathlib.Data.List.TakeWhile
import Mathlib.Tactic.Common

/-!
# Paths as lists of segments

A path is checked after its operator segments and its leading empty segments are gone.  What stays of
it are its *fields*; two contexts with the same fields are extended alike by a key, and an operator key
without dots leaves the fields of a context as they are.

* `Path.segments_join` — a context extended by a key has the segments of both.
* `Path.fields` — the segments of a path that are kept.
* **`Path.segments_sanitize`** — a sanitized path has the fields of the path as its segments.
* `Path.sanitize_congr`, `Path.sanitize_sanitize` — the fields tell the sanitized path; sanitizing twice
  changes nothing more.
* `Path.fields_join_operator`, `Path.fields_join_field` — the fields of an extended context.
-/

namespace DocumentAccess.Path

/-! ## Segments -/

lemma splitDots_eq_splitOn (path : List Char) : splitDots path = path.splitOn '.' := by
  induction path with
  | nil => rfl
  | cons c rest ih =>
      rw [splitDots, List.splitOn_cons_eq_if_modifyHead, ih]
      by_cases hc : c = '.'
      · simp [hc]
      · obtain ⟨run, runs, hruns⟩ := List.exists_cons_of_ne_nil (List.splitOn_ne_nil '.' rest)
        simp [hc, hruns]

lemma exists_splitDots_eq_cons (path : List Char) :
    ∃ head tail, splitDots path = head :: tail := by
  rw [splitDots_eq_splitOn]
  exact List.exists_cons_of_ne_nil (List.splitOn_ne_nil '.' path)

lemma not_mem_of_mem_splitDots {path run : List Char} (h : run ∈ splitDots path) : '.' ∉ run := by
  induction path generalizing run with
  | nil =>
      obtain rfl : run = [] := by simpa [splitDots] using h
      exact List.not_mem_nil
  | cons c rest ih =>
      rw [splitDots] at h
      by_cases hc : c = '.'
      · rw [if_pos hc] at h
        rcases List.mem_cons.1 h with rfl | hrest
        · exact List.not_mem_nil
        · exact ih hrest
      · rw [if_neg hc] at h
        cases hruns : splitDots rest with
        | nil =>
            obtain rfl : run = [c] := by simpa [hruns] using h
            simpa using fun hdot => hc hdot.symm
        | cons head tail =>
            rw [hruns] at h
            rcases List.mem_cons.1 h with rfl | htail
            · have hhead : '.' ∉ head := ih (by rw [hruns]; exact List.mem_cons_self)
              simp [hhead, Ne.symm hc]
            · exact ih (by rw [hruns]; exact List.mem_cons_of_mem _ htail)

lemma segments_of_no_dot {key : String} (h : '.' ∉ key.toList) : segments key = [key] := by
  rw [segments, splitDots_eq_splitOn, List.splitOn_eq_singleton h]
  simp

/-- Of two texts with a dot between them the segments are those of both. -/
lemma segments_append_dot (a b : String) : segments (a ++ "." ++ b) = segments a ++ segments b := by
  simp only [segments, splitDots_eq_splitOn, String.toList_append, List.append_assoc]
  rw [show ".".toList = ['.'] from rfl, List.singleton_append, List.splitOn_append_cons_self,
    List.map_append]

lemma segments_ne_nil (path : String) : segments path ≠ [] := by
  rw [segments, splitDots_eq_splitOn, Ne, List.map_eq_nil_iff]
  exact List.splitOn_ne_nil '.' _

/-- A path is known by its segments. -/
lemma segments_injective {a b : String} (h : segments a = segments b) : a = b := by
  have hruns : a.toList.splitOn '.' = b.toList.splitOn '.' := by
    refine List.map_injective_iff.2 (fun _ _ => String.ofList_injective) ?_
    simpa only [segments, splitDots_eq_splitOn] using h
  have hjoined := congrArg (List.intercalate ['.']) hruns
  rw [List.intercalate_splitOn, List.intercalate_splitOn] at hjoined
  exact String.toList_inj.1 hjoined

/-- Keys joined by dots have the segments of all of them. -/
lemma segments_intercalate {keys : List String} (h : keys ≠ []) :
    segments (".".intercalate keys) = keys.flatMap segments := by
  induction keys with
  | nil => exact absurd rfl h
  | cons key rest ih =>
      cases rest with
      | nil => simp
      | cons next rest =>
          rw [String.intercalate_cons_cons, segments_append_dot, ih (List.cons_ne_nil _ _)]
          exact List.flatMap_cons.symm

/-- A context extended by a key has the segments of both; the empty context has none of its own. -/
lemma segments_join (context key : String) :
    segments (join context key)
      = if context = "" then segments key else segments context ++ segments key := by
  by_cases hcontext : context = ""
  · simp [join, hcontext]
  · have hempty : context.isEmpty = false := by simpa [String.isEmpty_iff] using hcontext
    rw [join, hempty, if_neg hcontext]
    exact segments_append_dot context key

/-! ## Sanitizing -/

/-- The runs that are kept: no operators, and none of the empty ones that lead. -/
def keptRuns (runs : List (List Char)) : List (List Char) :=
  (runs.filter fun run => !startsOperator run).dropWhile (·.isEmpty)

lemma startsOperator_cons_cons (c d : Char) (rest : List Char) :
    startsOperator (c :: d :: rest) = decide (c = '$' ∨ c = '_' ∧ d = '$') := by
  by_cases hdollar : c = '$'
  · simp [hdollar, startsOperator]
  · by_cases hmark : c = '_'
    · subst hmark
      by_cases hd : d = '$'
      · simp [hd, startsOperator]
      · simp [hd, startsOperator]
    · simp [hdollar, hmark, startsOperator]

/-- Whether a path starts with an operator shows in its first run. -/
lemma startsOperator_head {path head : List Char} {tail : List (List Char)}
    (h : splitDots path = head :: tail) : startsOperator path = startsOperator head := by
  rw [splitDots_eq_splitOn] at h
  rcases path with _ | ⟨c, rest⟩
  · obtain ⟨rfl, rfl⟩ : [] = head ∧ [] = tail := by simpa using h
    rfl
  · rw [List.splitOn_cons_eq_if_modifyHead] at h
    by_cases hc : c = '.'
    · obtain ⟨rfl, -⟩ : [] = head ∧ _ := by simpa [hc] using h
      simp [hc, startsOperator]
    · obtain ⟨run, runs, hruns⟩ := List.exists_cons_of_ne_nil (List.splitOn_ne_nil '.' rest)
      obtain ⟨rfl, -⟩ : c :: run = head ∧ runs = tail := by simpa [hc, hruns] using h
      -- only the first character of the rest matters, and that is also the first one of its run
      rcases rest with _ | ⟨d, rest⟩
      · obtain ⟨rfl, -⟩ : [] = run ∧ _ := by simpa using hruns
        rfl
      · rw [List.splitOn_cons_eq_if_modifyHead] at hruns
        by_cases hd : d = '.'
        · obtain ⟨rfl, -⟩ : [] = run ∧ _ := by simpa [hd] using hruns
          subst hd
          rw [startsOperator_cons_cons]
          by_cases hdollar : c = '$'
          · simp [hdollar, startsOperator]
          · simp [startsOperator, hdollar]
        · obtain ⟨next, nexts, hnexts⟩ :=
            List.exists_cons_of_ne_nil (List.splitOn_ne_nil '.' rest)
          obtain ⟨rfl, -⟩ : d :: next = run ∧ _ := by simpa [hd, hnexts] using hruns
          rw [startsOperator_cons_cons, startsOperator_cons_cons]

/-- Sweeping keeps the first run unless it is skipped, and the later ones that are no operators. -/
lemma sweep_eq (skipping : Bool) {path head : List Char} {tail : List (List Char)}
    (h : splitDots path = head :: tail) :
    sweep skipping path
      = (if skipping then [] else head)
        ++ (tail.filter fun run => !startsOperator run).flatMap ('.' :: ·) := by
  induction path generalizing skipping head tail with
  | nil =>
      obtain ⟨rfl, rfl⟩ : [] = head ∧ [] = tail := by simpa [splitDots] using h
      simp [sweep]
  | cons c rest ih =>
      obtain ⟨run, runs, hruns⟩ := exists_splitDots_eq_cons rest
      rw [splitDots, hruns] at h
      by_cases hc : c = '.'
      · obtain ⟨rfl, rfl⟩ : [] = head ∧ run :: runs = tail := by simpa [hc] using h
        rw [sweep, if_pos hc, startsOperator_head hruns]
        by_cases hrun : startsOperator run = true
        · simp [hrun, ih true hruns]
        · simp [hrun, ih false hruns]
      · obtain ⟨rfl, rfl⟩ : c :: run = head ∧ runs = tail := by simpa [hc] using h
        rw [sweep, if_neg hc]
        cases skipping with
        | true => simp [ih true hruns]
        | false => simp [ih false hruns]

lemma intercalate_cons_eq_flatMap (run : List Char) (runs : List (List Char)) :
    List.intercalate ['.'] (run :: runs) = run ++ runs.flatMap ('.' :: ·) := by
  induction runs generalizing run with
  | nil => simp
  | cons next rest ih =>
      rw [List.intercalate_cons_cons, ih next]
      simp

lemma dropDots_append {run : List Char} (hrun : '.' ∉ run) (hne : run ≠ []) (rest : List Char) :
    (run ++ rest).dropWhile (· = '.') = run ++ rest := by
  obtain ⟨c, cs, rfl⟩ := List.exists_cons_of_ne_nil hne
  have hc : ¬ c = '.' := fun h => hrun (h ▸ List.mem_cons_self)
  simp [hc]

/-- Trimming leading dots drops leading empty runs. -/
lemma dropDots_flatMap {runs : List (List Char)} (h : ∀ run ∈ runs, '.' ∉ run) :
    (runs.flatMap ('.' :: ·)).dropWhile (· = '.')
      = List.intercalate ['.'] (runs.dropWhile (·.isEmpty)) := by
  induction runs with
  | nil => rfl
  | cons run rest ih =>
      have hrest := ih fun other hother => h other (List.mem_cons_of_mem _ hother)
      rw [List.flatMap_cons, List.cons_append, List.dropWhile_cons_of_pos (by simp)]
      by_cases hrun : run = []
      · subst hrun
        simpa using hrest
      · rw [dropDots_append (h run List.mem_cons_self) hrun, ← intercalate_cons_eq_flatMap,
          List.dropWhile_cons_of_neg (by simpa using hrun)]

/-- A sanitized path is its kept runs joined by dots. -/
lemma sanitizeChars_eq (path : List Char) :
    sanitizeChars path = List.intercalate ['.'] (keptRuns (splitDots path)) := by
  obtain ⟨head, tail, h⟩ := exists_splitDots_eq_cons path
  have hdots : ∀ run ∈ splitDots path, '.' ∉ run := fun _ => not_mem_of_mem_splitDots
  have hkept : ∀ run ∈ tail.filter fun run => !startsOperator run, '.' ∉ run := fun run hrun =>
    hdots run (h ▸ List.mem_cons_of_mem _ (List.mem_of_mem_filter hrun))
  rw [sanitizeChars, sweep_eq _ h, startsOperator_head h, keptRuns, h]
  by_cases hhead : startsOperator head = true
  · rw [List.filter_cons_of_neg (by simpa using hhead), if_pos hhead, List.nil_append,
      dropDots_flatMap hkept]
  · rw [List.filter_cons_of_pos (by simpa using hhead), if_neg hhead]
    by_cases hempty : head = []
    · subst hempty
      simpa using dropDots_flatMap hkept
    · rw [dropDots_append (hdots head (h ▸ List.mem_cons_self)) hempty,
        List.dropWhile_cons_of_neg (by simpa using hempty), intercalate_cons_eq_flatMap]

/-! ## Fields -/

/-- The segments of a path that are kept: no operators, and none of the empty ones that lead. -/
def fields (path : String) : List String :=
  ((segments path).filter fun segment => !isOperatorKey segment).dropWhile (·.isEmpty)

lemma fields_sublist_segments (path : String) : (fields path).Sublist (segments path) :=
  (List.dropWhile_sublist _).trans List.filter_sublist

lemma not_operator_of_mem_fields {path segment : String} (h : segment ∈ fields path) :
    isOperatorKey segment = false := by
  simpa using (List.mem_filter.1 ((List.dropWhile_sublist _).subset h)).2

lemma fields_eq_keptRuns (path : String) :
    fields path = (keptRuns (splitDots path.toList)).map String.ofList := by
  rw [fields, segments, keptRuns, List.filter_map, List.dropWhile_map]
  congr 2
  · funext run
    rw [Function.comp_apply, Bool.eq_iff_iff, String.isEmpty_iff, List.isEmpty_iff,
      String.ofList_eq_empty_iff]
  · congr 1
    funext run
    simp [isOperatorKey]

/-- A path without fields is swept away. -/
lemma sanitize_of_fields_eq_nil {path : String} (h : fields path = []) : sanitize path = "" := by
  rw [fields_eq_keptRuns, List.map_eq_nil_iff] at h
  rw [sanitize, sanitizeChars_eq, h]
  rfl

/-- **A sanitized path has the fields of the path as its segments.** -/
theorem segments_sanitize {path : String} (h : fields path ≠ []) :
    segments (sanitize path) = fields path := by
  have hruns : keptRuns (splitDots path.toList) ≠ [] := fun hnil => h (by
    rw [fields_eq_keptRuns, hnil]
    rfl)
  have hdots : ∀ run ∈ keptRuns (splitDots path.toList), '.' ∉ run := fun run hrun =>
    not_mem_of_mem_splitDots (List.mem_of_mem_filter ((List.dropWhile_sublist _).subset hrun))
  rw [segments, sanitize, sanitizeChars_eq, String.toList_ofList, splitDots_eq_splitOn,
    List.splitOn_intercalate '.' hdots hruns, fields_eq_keptRuns]

/-- The first field of a path is not empty. -/
lemma fields_head_ne_empty {path field : String} {rest : List String}
    (h : fields path = field :: rest) : field ≠ "" := by
  have hhead := List.head?_dropWhile_not (fun segment : String => segment.isEmpty)
    ((segments path).filter fun segment => !isOperatorKey segment)
  rw [← fields, h] at hhead
  rintro rfl
  exact absurd (show "".isEmpty = false from hhead) (by decide)

lemma sanitize_eq_empty_iff {path : String} : sanitize path = "" ↔ fields path = [] := by
  refine ⟨fun h => ?_, sanitize_of_fields_eq_nil⟩
  by_contra hne
  have hsegments := segments_sanitize hne
  rw [h] at hsegments
  exact fields_head_ne_empty hsegments.symm rfl

/-- Paths with the same fields are sanitized alike. -/
lemma sanitize_congr {a b : String} (h : fields a = fields b) : sanitize a = sanitize b := by
  by_cases hnil : fields a = []
  · rw [sanitize_of_fields_eq_nil hnil, sanitize_of_fields_eq_nil (h ▸ hnil)]
  · refine segments_injective ?_
    rw [segments_sanitize hnil, segments_sanitize (h ▸ hnil), h]

/-- A sanitized path has the fields of the path. -/
lemma fields_sanitize (path : String) : fields (sanitize path) = fields path := by
  cases hfields : fields path with
  | nil =>
      rw [sanitize_of_fields_eq_nil hfields]
      decide
  | cons field rest =>
      have hne : fields path ≠ [] := by simp [hfields]
      have hkept : ∀ segment ∈ fields path, isOperatorKey segment = false :=
        fun _ => not_operator_of_mem_fields
      have hempty : field.isEmpty = false := by
        simpa [String.isEmpty_iff] using fields_head_ne_empty hfields
      rw [fields, segments_sanitize hne, List.filter_eq_self.2 (by simpa using hkept), hfields]
      simp [hempty]

/-- Sanitizing once is enough. -/
lemma sanitize_sanitize (path : String) : sanitize (sanitize path) = sanitize path :=
  sanitize_congr (fields_sanitize path)

/-- A path without fields has operators and empty segments only. -/
lemma fields_eq_nil_iff {path : String} :
    fields path = [] ↔
      ∀ segment ∈ segments path, isOperatorKey segment = true ∨ segment = "" := by
  rw [fields, List.dropWhile_eq_nil_iff]
  simp only [List.mem_filter, Bool.not_eq_true', String.isEmpty_iff, and_imp]
  refine forall₂_congr fun segment _ => ?_
  cases isOperatorKey segment <;> simp

/-! ## Contexts -/

/-- The fields of an extended context depend on those of the context only. -/
lemma fields_join (context key : String) :
    fields (join context key)
      = if fields context = [] then fields key
        else fields context ++ (segments key).filter fun segment => !isOperatorKey segment := by
  unfold fields
  rw [segments_join]
  by_cases hcontext : context = ""
  · subst hcontext
    rw [if_pos rfl, if_pos (by decide)]
  · rw [if_neg hcontext, List.filter_append, List.dropWhile_append]
    simp only [List.isEmpty_iff]

lemma fields_join_congr {a b : String} (h : fields a = fields b) (key : String) :
    fields (join a key) = fields (join b key) := by
  rw [fields_join, fields_join, h]

lemma fields_prefix_join (context key : String) :
    fields context <+: fields (join context key) := by
  rw [fields_join]
  by_cases h : fields context = []
  · rw [h]
    exact List.nil_prefix
  · rw [if_neg h]
    exact List.prefix_append _ _

/-- An operator key without dots adds no field. -/
lemma fields_join_operator {key : String} (hkey : isOperatorKey key = true)
    (hdot : '.' ∉ key.toList) (context : String) : fields (join context key) = fields context := by
  have hnone : fields key = [] := by
    rw [fields, segments_of_no_dot hdot]
    simp [hkey]
  rw [fields_join, segments_of_no_dot hdot, hnone]
  by_cases h : fields context = []
  · rw [if_pos h, h]
  · simp [h, hkey]

/-- A plain field key adds itself. -/
lemma fields_join_field {key : String} (hkey : isOperatorKey key = false) (hdot : '.' ∉ key.toList)
    (hne : key ≠ "") (context : String) :
    fields (join context key) = fields context ++ [key] := by
  have hone : fields key = [key] := by
    have hempty : key.isEmpty = false := by simpa [String.isEmpty_iff] using hne
    rw [fields, segments_of_no_dot hdot, List.filter_cons_of_pos (by simp [hkey]),
      List.dropWhile_cons_of_neg (by simp [hempty])]
    rfl
  rw [fields_join, segments_of_no_dot hdot, hone]
  by_cases h : fields context = []
  · rw [if_pos h, h]
    rfl
  · simp [h, hkey]

end DocumentAccess.Path
