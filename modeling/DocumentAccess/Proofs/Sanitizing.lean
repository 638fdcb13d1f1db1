import DocumentAccess.Proofs.Paths
import Mathlib.Computability.Language

/-!
# Sanitizing is a replacement

Sanitizing means to replace one pattern by nothing and then to trim the dots in front.  The pattern is a
dot, or the beginning of the path, then perhaps an underscore, a dollar sign and whatever comes before the
next dot.  A path is searched from left to right; where a text of the pattern begins it is taken out, and
the search goes on behind it.

Told in this way it is not plain what becomes of operators in a row, of an operator that comes first, or of
a dollar sign inside a field.  The runs between the dots tell it: what is taken out is always a whole run that
begins as an operator, with the dot in front of it if there is one.

* `Path.sweptTexts` — the pattern, as a product of languages.
* `Path.Removed` — what is left of a text when the texts of a pattern are taken out of it.
* `Path.Removed.unique` — there is one such rest.
* **`Path.removed_sweep`** — of a path it is what sweeping leaves.
* **`Path.sanitize_drops_operators`** — sanitizing drops the segments that are operators, and the empty ones
  that then lead, and nothing else.
-/

namespace DocumentAccess.Path

/-! ## Taking the texts of a pattern out of a text -/

/-- Of the texts of a language that `text` begins with, `found` is the longest. -/
structure Longest (language : Language Char) (text found : List Char) : Prop where
  mem : found ∈ language
  isPrefix : found <+: text
  length_le : ∀ other ∈ language, other <+: text → other.length ≤ found.length

lemma Longest.unique {language : Language Char} {text found other : List Char}
    (h : Longest language text found) (hother : Longest language text other) : other = found := by
  have hle : other.length ≤ found.length := h.length_le other hother.mem hother.isPrefix
  have hge : found.length ≤ other.length := hother.length_le found h.mem h.isPrefix
  exact (List.prefix_of_prefix_length_le hother.isPrefix h.isPrefix hle).eq_of_length_le hge

/-- `Removed pattern first text kept` says that `kept` is left of `text` when the texts of the pattern are
taken out from left to right.  `first` says that nothing comes before `text`, which a pattern may ask for. -/
inductive Removed (pattern : Bool → Language Char) : Bool → List Char → List Char → Prop
  | done (first : Bool) : Removed pattern first [] []
  /-- Where no text of the pattern begins, the character stays. -/
  | keep {first : Bool} {c : Char} {rest kept : List Char}
      (hnone : ∀ found ∈ pattern first, found <+: c :: rest → found = [])
      (hrest : Removed pattern false rest kept) : Removed pattern first (c :: rest) (c :: kept)
  /-- Where some begin, the longest goes, and the search goes on behind it. -/
  | cut {first : Bool} {text found kept : List Char} (hfound : Longest (pattern first) text found)
      (hne : found ≠ []) (hrest : Removed pattern false (text.drop found.length) kept) :
      Removed pattern first text kept

/-- What is left of a text is determined by the pattern. -/
theorem Removed.unique {pattern : Bool → Language Char} {first : Bool} {text kept other : List Char}
    (h : Removed pattern first text kept) (hother : Removed pattern first text other) :
    other = kept := by
  induction h generalizing other with
  | done first =>
      cases hother with
      | done => rfl
      | cut hfound hne _ => exact absurd (List.prefix_nil.1 hfound.isPrefix) hne
  | keep hnone _ ih =>
      cases hother with
      | keep _ hrest => rw [ih hrest]
      | cut hfound hne _ => exact absurd (hnone _ hfound.mem hfound.isPrefix) hne
  | cut hfound hne _ ih =>
      cases hother with
      | done => exact absurd (List.prefix_nil.1 hfound.isPrefix) hne
      | keep hnone _ => exact absurd (hnone _ hfound.mem hfound.isPrefix) hne
      | cut hother _ hrest =>
          obtain rfl := hfound.unique hother
          exact ih hrest

/-! ## The pattern -/

/-- The texts without dots. -/
def dotFree : Language Char :=
  {text | '.' ∉ text}

@[simp] lemma mem_dotFree {text : List Char} : text ∈ dotFree ↔ '.' ∉ text := Iff.rfl

/-- The runs that are operators: perhaps an underscore, then a dollar sign and no dot. -/
def operatorRuns : Language Char :=
  (1 + {['_']}) * {['$']} * dotFree

/-- What is swept out of a path: an operator and the dot in front of it, or at the beginning the operator
alone.  The choices in front of the dollar sign exclude each other, so texts that begin at one place differ
in their ends only, and the longest reaches to the next dot. -/
def sweptTexts (first : Bool) : Language Char :=
  (if first then 1 + {['.']} else {['.']}) * operatorRuns

lemma startsOperator_iff {text : List Char} :
    startsOperator text = true ↔ ∃ rest, text = '$' :: rest ∨ text = '_' :: '$' :: rest := by
  fun_cases startsOperator text with
  | case1 rest => simp
  | case2 rest => simp
  | case3 => simp_all

lemma startsOperator_mono {a b : List Char} (h : a <+: b) (ha : startsOperator a = true) :
    startsOperator b = true := by
  obtain ⟨more, rfl⟩ := h
  obtain ⟨rest, rfl | rfl⟩ := startsOperator_iff.1 ha
  · rfl
  · rfl

lemma mem_operatorRuns {run : List Char} :
    run ∈ operatorRuns ↔ startsOperator run = true ∧ '.' ∉ run := by
  simp only [operatorRuns, Language.mem_mul, Language.mem_add, Language.mem_one]
  constructor
  · rintro ⟨_, ⟨mark, rfl | rfl, _, rfl, rfl⟩, body, hbody, rfl⟩
    · exact ⟨rfl, by simpa using hbody⟩
    · exact ⟨rfl, by simpa using hbody⟩
  · rintro ⟨hrun, hdot⟩
    obtain ⟨body, rfl | rfl⟩ := startsOperator_iff.1 hrun
    · exact ⟨['$'], ⟨[], Or.inl rfl, ['$'], rfl, rfl⟩, body, by simpa using hdot, rfl⟩
    · exact ⟨['_', '$'], ⟨['_'], Or.inr rfl, ['$'], rfl, rfl⟩, body, by simpa using hdot, rfl⟩

lemma mem_sweptTexts {first : Bool} {found : List Char} :
    found ∈ sweptTexts first ↔
      ∃ run ∈ operatorRuns, found = '.' :: run ∨ first = true ∧ found = run := by
  simp only [sweptTexts, Language.mem_mul]
  constructor
  · rintro ⟨lead, hlead, run, hrun, rfl⟩
    refine ⟨run, hrun, ?_⟩
    cases first with
    | false =>
        obtain rfl : lead = ['.'] := hlead
        exact Or.inl rfl
    | true =>
        obtain rfl | rfl : lead = [] ∨ lead = ['.'] := hlead
        · exact Or.inr ⟨rfl, rfl⟩
        · exact Or.inl rfl
  · rintro ⟨run, hrun, rfl | ⟨rfl, rfl⟩⟩
    · refine ⟨['.'], ?_, run, hrun, rfl⟩
      cases first with
      | false => exact rfl
      | true => exact Or.inr rfl
    · exact ⟨[], Or.inl rfl, found, hrun, rfl⟩

/-! ## Runs -/

/-- A run may end before `rest`: nothing comes, or a dot. -/
def EndsRun (rest : List Char) : Prop :=
  ∀ c ∈ rest.head?, c = '.'

lemma endsRun_flatMap (runs : List (List Char)) : EndsRun (runs.flatMap ('.' :: ·)) := by
  cases runs with
  | nil => simp [EndsRun]
  | cons run runs => simp [EndsRun]

variable {run rest part : List Char}

/-- A text without dots does not reach beyond a run. -/
lemma prefix_run (hrest : EndsRun rest) (hpart : '.' ∉ part) (h : part <+: run ++ rest) :
    part <+: run := by
  rcases List.prefix_or_prefix_of_prefix h (List.prefix_append run rest) with hrun | ⟨more, rfl⟩
  · exact hrun
  · have hmore : more <+: rest := (List.prefix_append_right_inj run).1 h
    cases more with
    | nil => simp
    | cons c more =>
        obtain ⟨tail, rfl⟩ := hmore
        have hc : c = '.' := hrest c rfl
        exact absurd (by simp [hc]) hpart

/-- What is found at a dot is the dot and the front of the run behind it. -/
lemma found_at_dot {first : Bool} {found : List Char} (hrest : EndsRun rest)
    (hfound : found ∈ sweptTexts first) (h : found <+: '.' :: (run ++ rest)) :
    ∃ part, found = '.' :: part ∧ part <+: run ∧ startsOperator part = true := by
  obtain ⟨part, hpart, rfl | ⟨-, rfl⟩⟩ := mem_sweptTexts.1 hfound
  · obtain ⟨hstarts, hdot⟩ := mem_operatorRuns.1 hpart
    exact ⟨part, rfl, prefix_run hrest hdot (List.cons_prefix_cons.1 h).2, hstarts⟩
  · -- without a dot in front the text would begin as an operator, but the path goes on with a dot
    exact absurd (startsOperator_mono h (mem_operatorRuns.1 hpart).1) (by simp [startsOperator])

/-- What is found at the first character of a run is found at the beginning of the path, and it is the front
of the run. -/
lemma found_at_run {first : Bool} {c : Char} {found : List Char} (hrest : EndsRun rest)
    (hdot : '.' ∉ c :: run) (hfound : found ∈ sweptTexts first) (h : found <+: c :: run ++ rest) :
    first = true ∧ found <+: c :: run ∧ startsOperator found = true := by
  obtain ⟨part, hpart, rfl | ⟨hfirst, rfl⟩⟩ := mem_sweptTexts.1 hfound
  · exact absurd (List.cons_prefix_cons.1 h).1 (List.ne_of_not_mem_cons hdot)
  · obtain ⟨hstarts, hpartDot⟩ := mem_operatorRuns.1 hpart
    exact ⟨hfirst, prefix_run hrest hpartDot h, hstarts⟩

/-- An operator behind a dot is found as a whole. -/
lemma longest_at_dot (first : Bool) (hrest : EndsRun rest) (hdot : '.' ∉ run)
    (hrun : startsOperator run = true) :
    Longest (sweptTexts first) ('.' :: (run ++ rest)) ('.' :: run) where
  mem := mem_sweptTexts.2 ⟨run, mem_operatorRuns.2 ⟨hrun, hdot⟩, Or.inl rfl⟩
  isPrefix := List.prefix_append ('.' :: run) rest
  length_le other hother h := by
    obtain ⟨part, rfl, hpart, -⟩ := found_at_dot hrest hother h
    exact Nat.succ_le_succ hpart.length_le

/-- An operator at the beginning of the path is found as a whole. -/
lemma longest_at_run (hrest : EndsRun rest) (hdot : '.' ∉ run) (hrun : startsOperator run = true) :
    Longest (sweptTexts true) (run ++ rest) run where
  mem := mem_sweptTexts.2 ⟨run, mem_operatorRuns.2 ⟨hrun, hdot⟩, Or.inr ⟨rfl, rfl⟩⟩
  isPrefix := List.prefix_append run rest
  length_le other hother h := by
    cases run with
    | nil => exact absurd hrun (by decide)
    | cons c run => exact (found_at_run hrest hdot hother h).2.1.length_le

/-- Behind the beginning of the path, a run stays character by character. -/
lemma removed_run {kept : List Char} (hrest : EndsRun rest) (hdot : '.' ∉ run)
    (h : Removed sweptTexts false rest kept) :
    Removed sweptTexts false (run ++ rest) (run ++ kept) := by
  induction run with
  | nil => exact h
  | cons c run ih =>
      refine .keep (fun found hfound hprefix => ?_) (ih (List.not_mem_of_not_mem_cons hdot))
      exact absurd (found_at_run hrest hdot hfound hprefix).1 (by decide)

/-- Of runs with dots in front, those that are no operators stay. -/
lemma removed_flatMap (first : Bool) {runs : List (List Char)} (h : ∀ run ∈ runs, '.' ∉ run) :
    Removed sweptTexts first (runs.flatMap ('.' :: ·))
      ((runs.filter fun run => !startsOperator run).flatMap ('.' :: ·)) := by
  induction runs generalizing first with
  | nil => exact .done first
  | cons run runs ih =>
      have hdot : '.' ∉ run := h run List.mem_cons_self
      have hruns := ih false fun other hother => h other (List.mem_cons_of_mem _ hother)
      have hends : EndsRun (runs.flatMap ('.' :: ·)) := endsRun_flatMap runs
      rw [List.flatMap_cons, List.cons_append]
      by_cases hrun : startsOperator run = true
      · rw [List.filter_cons_of_neg (by simpa using hrun)]
        refine .cut (longest_at_dot first hends hdot hrun) (List.cons_ne_nil _ _) ?_
        simpa using hruns
      · rw [List.filter_cons_of_pos (by simpa using hrun), List.flatMap_cons, List.cons_append]
        refine .keep (fun found hfound hprefix => ?_) (removed_run hends hdot hruns)
        obtain ⟨part, -, hpart, hstarts⟩ := found_at_dot hends hfound hprefix
        exact absurd (startsOperator_mono hpart hstarts) hrun

/-- A path is its runs with dots in front, the first one apart. -/
lemma eq_append_flatMap {path head : List Char} {tail : List (List Char)}
    (h : splitDots path = head :: tail) : path = head ++ tail.flatMap ('.' :: ·) := by
  rw [← intercalate_cons_eq_flatMap, ← h, splitDots_eq_splitOn, List.intercalate_splitOn]

/-- **Sweeping takes the texts of the pattern out of a path.** -/
theorem removed_sweep (path : List Char) :
    Removed sweptTexts true path (sweep (startsOperator path) path) := by
  obtain ⟨head, tail, h⟩ := exists_splitDots_eq_cons path
  have hdots : ∀ run ∈ head :: tail, '.' ∉ run := fun _ hrun => not_mem_of_mem_splitDots (h ▸ hrun)
  have hdot : '.' ∉ head := hdots head List.mem_cons_self
  have htailDots : ∀ run ∈ tail, '.' ∉ run := fun run hrun => hdots run (List.mem_cons_of_mem _ hrun)
  have hends : EndsRun (tail.flatMap ('.' :: ·)) := endsRun_flatMap tail
  rw [sweep_eq _ h, startsOperator_head h, eq_append_flatMap h]
  by_cases hhead : startsOperator head = true
  · rw [if_pos hhead, List.nil_append]
    refine .cut (longest_at_run hends hdot hhead) (fun hnil => ?_) ?_
    · exact absurd hhead (by simp [hnil, startsOperator])
    · rw [List.drop_left]
      exact removed_flatMap false htailDots
  · rw [if_neg hhead]
    cases head with
    | nil => exact removed_flatMap true htailDots
    | cons c head =>
        refine .keep (fun found hfound hprefix => ?_)
          (removed_run hends (List.not_mem_of_not_mem_cons hdot) (removed_flatMap false htailDots))
        obtain ⟨-, hpart, hstarts⟩ := found_at_run hends hdot hfound hprefix
        exact absurd (startsOperator_mono hpart hstarts) hhead

/-! ## Segments -/

/-- A sanitized path is its fields joined by dots. -/
lemma sanitize_eq_intercalate (path : String) : sanitize path = ".".intercalate (fields path) := by
  refine String.toList_inj.1 ?_
  rw [sanitize, String.toList_ofList, sanitizeChars_eq, String.toList_intercalate, fields_eq_keptRuns,
    List.map_map]
  simp [Function.comp_def]

/-- No segment of a sanitized path is an operator. -/
lemma not_operator_of_mem_sanitize {path segment : String}
    (h : segment ∈ segments (sanitize path)) : isOperatorKey segment = false := by
  by_cases hnil : fields path = []
  · rw [sanitize_of_fields_eq_nil hnil] at h
    obtain rfl : segment = "" := by simpa [segments, splitDots] using h
    rfl
  · rw [segments_sanitize hnil] at h
    exact not_operator_of_mem_fields h

/-- An operator in front of a path adds no field. -/
lemma fields_operator_dot {key : String} (hkey : isOperatorKey key = true) (hdot : '.' ∉ key.toList)
    (path : String) : fields (key ++ "." ++ path) = fields path := by
  rw [fields, segments_append_dot, segments_of_no_dot hdot, List.singleton_append,
    List.filter_cons_of_neg (by simpa using hkey)]
  rfl

/-- **Sanitizing drops exactly the operator segments.**  The path that is left when the texts of the pattern
are taken out and leading dots are trimmed has the segments of the path that are no operators, less the empty
ones that lead, joined by dots.  So sanitizing again changes nothing, no operator is left, the segments that
are left keep their texts and their order, and an operator in front of a path makes no difference. -/
theorem sanitize_drops_operators (path : String) :
    (∃ swept, (∀ text, Removed sweptTexts true path.toList text ↔ text = swept) ∧
      sanitize path = String.ofList (swept.dropWhile (· = '.'))) ∧
    sanitize path = ".".intercalate
      (((segments path).filter fun segment => !isOperatorKey segment).dropWhile (·.isEmpty)) ∧
    sanitize (sanitize path) = sanitize path ∧
    (∀ segment ∈ segments (sanitize path), isOperatorKey segment = false) ∧
    (sanitize path ≠ "" → segments (sanitize path) = fields path) ∧
    (fields path).Sublist (segments path) ∧
    ∀ key, isOperatorKey key = true → '.' ∉ key.toList →
      sanitize (key ++ "." ++ path) = sanitize path := by
  refine ⟨⟨_, fun text => ⟨(removed_sweep path.toList).unique, ?_⟩, rfl⟩, sanitize_eq_intercalate path,
    sanitize_sanitize path, fun _ => not_operator_of_mem_sanitize, fun hne => ?_,
    fields_sublist_segments path,
    fun key hkey hdot => sanitize_congr (fields_operator_dot hkey hdot path)⟩
  · rintro rfl
    exact removed_sweep path.toList
  · exact segments_sanitize fun hnil => hne (sanitize_of_fields_eq_nil hnil)

/-- Operators in a row, in front and in the middle, an empty segment behind them, one in the middle and one at
the end, and dollar signs that begin no segment. -/
theorem sanitize_drops_operators_price :
    let path := "$or._$and..price$.$elemMatch..a_$b."
    sanitize path = "price$..a_$b." ∧ sanitize path ≠ "" ∧
      segments (sanitize path) = ["price$", "", "a_$b", ""] ∧
      isOperatorKey "_$do_" = true ∧ '.' ∉ "_$do_".toList ∧
      sanitize ("_$do_" ++ "." ++ path) = sanitize path := by
  intro path
  obtain ⟨-, -, -, -, hsegments, -, hkey⟩ := sanitize_drops_operators path
  have hne : sanitize path ≠ "" := by decide
  have hoperator : isOperatorKey "_$do_" = true := by decide
  have hdot : '.' ∉ "_$do_".toList := by decide
  exact ⟨by decide, hne, (hsegments hne).trans (by decide), hoperator, hdot, hkey _ hoperator hdot⟩

end DocumentAccess.Path
