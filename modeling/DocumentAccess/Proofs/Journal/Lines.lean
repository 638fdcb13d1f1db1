import DocumentAccess.Journal
import DocumentAccess.Proofs.Json.Literals
import DocumentAccess.Proofs.Keyed

/-!
# Lines of the journal

A report is written as one line, and what it reports comes from callers.  Names and texts of fields are
literals in that line, so whatever they hold, the line ends where it was ended, and it is read as an object
with the fields that were reported.

* `Notice.printable_lineChars` — a line has no control characters, so no line feed of its own.
* `Notice.readTree?_terminated` — a line is read as the members that were written.
* `Notice.sortFields_perm` — fields with different names are written in an order of their own.
* **`Notice.line_unforgeable`** — what every written line is, and how it is read.
* `Journal.count_lineFeed_lines` — the lines of a whole journal stay apart.
-/

namespace DocumentAccess

open Json (Printable)

namespace Notice

variable {severity : Severity} {event : String} {fields : List (String × String)}

/-! ## Characters -/

lemma printable_memberChars (field : String × String) : Printable (memberChars field) := by
  refine List.forall_mem_append.2 ⟨Json.printable_quote _, List.forall_mem_cons.2 ⟨by decide, ?_⟩⟩
  exact Json.printable_quote _

/-- A line has no control characters, whatever was reported. -/
lemma printable_lineChars (severity : Severity) (event : String) (fields : List (String × String)) :
    Printable (lineChars severity event fields) := by
  refine List.forall_mem_append.2
    ⟨List.forall_mem_append.2 ⟨?_, ?_⟩, List.forall_mem_singleton.2 (by decide)⟩
  · exact List.forall_mem_cons.2 ⟨by decide, printable_memberChars _⟩
  · refine List.forall_mem_flatMap.2 fun field _ => ?_
    exact List.forall_mem_cons.2 ⟨by decide, printable_memberChars field⟩

lemma printable_lineOf (severity : Severity) (event : String) (fields : List (String × String)) :
    Printable (lineOf severity event fields).toList := by
  rw [lineOf, String.toList_ofList]
  exact printable_lineChars severity event fields

/-- A line without control characters is written with one line feed, behind it. -/
lemma oneLine_terminated {line : String} (h : Printable line.toList) :
    (terminated line).toList.count '\n' = 1 ∧ (terminated line).toList.getLast? = some '\n' ∧
      ∀ c ∈ (terminated line).toList, c < ' ' → c = '\n' := by
  have htext : (terminated line).toList = line.toList ++ ['\n'] := by
    simp [terminated]
  rw [htext]
  refine ⟨?_, List.getLast?_concat, fun c hc hcontrol => ?_⟩
  · have hnone : line.toList.count '\n' = 0 :=
      List.count_eq_zero.2 fun hmem => absurd (h _ hmem) (by decide)
    rw [List.count_append, hnone]
    rfl
  · rcases List.mem_append.1 hc with hc | hc
    · exact absurd hcontrol (Char.not_lt.2 (h c hc))
    · exact List.mem_singleton.1 hc

/-! ## Reading -/

/-- Fields as the reader gives them. -/
def readFields (fields : List (String × String)) : List (Option String × Json.Written) :=
  fields.map fun field => (some field.1, .string (some field.2))

/-- Members behind each other, up to the closing brace, are read in their order. -/
lemma readMembers?_memberChars (first : String × String) (fields : List (String × String))
    (fuel : Nat) (rest : List Char) (h : fields.length < fuel) :
    Json.readMembers? (fuel + 1)
        (memberChars first ++ (fields.flatMap (fun field => ',' :: memberChars field) ++ '\x7d' :: rest))
      = some (readFields (first :: fields), rest) := by
  induction fields generalizing first fuel with
  | nil =>
      obtain ⟨fuel, rfl⟩ : ∃ n, fuel = n + 1 := ⟨fuel - 1, by omega⟩
      rw [memberChars, List.append_assoc]
      exact (Json.readMembers?_member fuel first.1 first.2 rest).1
  | cons next fields ih =>
      obtain ⟨fuel, rfl⟩ : ∃ n, fuel = n + 1 := ⟨fuel - 1, by omega⟩
      have hlater := ih next fuel (by simpa using h)
      rw [memberChars, List.append_assoc, List.flatMap_cons, List.append_assoc]
      rw [List.cons_append, List.cons_append]
      rw [(Json.readMembers?_member fuel first.1 first.2 _).2, hlater]
      rfl

/-- A line has at least a character for each field, so the reader has fuel for all of them. -/
lemma length_le_flatMap (fields : List (String × String)) :
    fields.length ≤ (fields.flatMap fun field => ',' :: memberChars field).length := by
  induction fields with
  | nil => exact Nat.le_refl 0
  | cons field fields ih =>
      rw [List.flatMap_cons, List.length_append, List.length_cons, List.length_cons]
      omega

/-- The members of a line in the order in which they are written. -/
def members (severity : Severity) (event : String) (fields : List (String × String)) :
    List (String × String) :=
  ("event", event) :: ("severity", severity.name) :: sortFields fields

/-- **A line with its line feed is read as one object**, with the members that were written and no
others. -/
theorem readTree?_terminated (severity : Severity) (event : String) (fields : List (String × String)) :
    Json.readTree? (terminated (lineOf severity event fields))
      = some (.object (readFields (members severity event fields))) := by
  let later := ("severity", severity.name) :: sortFields fields
  let body := memberChars ("event", event)
    ++ (later.flatMap (fun field => ',' :: memberChars field) ++ '\x7d' :: ['\n'])
  have htext : (terminated (lineOf severity event fields)).toList
      = '\x7b' :: body := by
    simp [terminated, lineOf, lineChars, body, later]
  have hfuel : later.length < body.length := by
    have hfields := length_le_flatMap later
    simp only [body, List.length_append, List.length_cons]
    omega
  have hbody : Json.readMembers? (body.length + 1) body
      = some (readFields (members severity event fields), ['\n']) :=
    readMembers?_memberChars ("event", event) later body.length ['\n'] hfuel
  have hvalue : Json.readValue? (body.length + 2) ('\x7b' :: body)
      = some (.object (readFields (members severity event fields)), ['\n']) :=
    Json.readValue?_object hbody
  rw [Json.readTree?, htext, Json.readTreeChars?, List.length_cons, hvalue]
  rfl

/-! ## The order of fields -/

/-- Sorted fields have the fields, each as often as it was there. -/
lemma perm_sortFields (fields : List (String × String)) : (sortFields fields).Perm fields :=
  List.mergeSort_perm _ _

/-- No field stands behind one that its name comes before. -/
lemma pairwise_sortFields (fields : List (String × String)) :
    (sortFields fields).Pairwise fun a b => Ordered.before b.1 a.1 = false := by
  refine (List.pairwise_mergeSort ?_ ?_ fields).imp fun h => by simpa using h
  · -- "does not come after" is transitive because of two different names one comes first
    simp only [Bool.not_eq_true']
    intro a b c hba hcb
    refine Bool.eq_false_iff.2 fun hca => ?_
    cases hbc : Ordered.before b.1 c.1 with
    | false =>
        rw [Ordered.connected hcb hbc, hba] at hca
        exact Bool.false_ne_true hca
    | true => exact Bool.false_ne_true (hba.symm.trans (Ordered.trans hbc hca))
  · intro a b
    cases hab : Ordered.before a.1 b.1 with
    | false => simp
    | true => simp [Ordered.asymm hab]

/-- **Fields with different names are written in an order of their own**, in whatever order they were
reported. -/
theorem sortFields_perm {fields other : List (String × String)} (h : (fields.map Prod.fst).Nodup)
    (hother : other.Perm fields) : sortFields other = sortFields fields := by
  have hperm : (sortFields other).Perm (sortFields fields) :=
    (perm_sortFields other).trans (hother.trans (perm_sortFields fields).symm)
  refine hperm.eq_of_pairwise (fun a b ha hb hba hab => ?_) (pairwise_sortFields other)
    (pairwise_sortFields fields)
  -- two fields of which neither comes first have one name, so they are one field
  have hmem : a ∈ fields := hother.mem_iff.1 ((perm_sortFields other).mem_iff.1 ha)
  exact List.inj_on_of_nodup_map h hmem ((perm_sortFields fields).mem_iff.1 hb)
    (Ordered.connected hab hba)

/-! ## What is read -/

/-- Members with texts are taken as values with these texts. -/
lemma membersWithin?_readFields (room : Nat) (fields : List (String × String)) :
    Json.Written.membersWithin? room (readFields fields)
      = some (fields.map fun field => (field.1, .string field.2)) := by
  induction fields with
  | nil => rfl
  | cons field fields ih =>
      rw [readFields] at ih ⊢
      simp only [List.map_cons, Json.Written.membersWithin?, Json.Written.valueWithin?, Option.map_some,
        ih]

/-- A written line is the object of its members. -/
lemma read?_terminated (severity : Severity) (event : String) (fields : List (String × String)) :
    Json.read? (terminated (lineOf severity event fields))
      = some (Value.ofMembers
          ((members severity event fields).map fun field => (field.1, .string field.2))) := by
  rw [Json.read?, readTree?_terminated, Option.bind_some, Json.Written.value?,
    show Json.maxDepth = 126 + 1 from rfl, Json.Written.valueWithin?, membersWithin?_readFields,
    Option.map_some]

/-- A field with a name of its own adds a member with a name of its own. -/
lemma nodup_members (h : (fields.map Prod.fst).Nodup)
    (hnames : ∀ field ∈ fields, field.1 ≠ "event" ∧ field.1 ≠ "severity") :
    ((members severity event fields).map Prod.fst).Nodup := by
  have hsorted : ((sortFields fields).map Prod.fst).Nodup :=
    ((perm_sortFields fields).map Prod.fst).nodup_iff.2 h
  have hnew : ∀ field ∈ sortFields fields, field.1 ≠ "event" ∧ field.1 ≠ "severity" :=
    fun field hfield => hnames field ((perm_sortFields fields).mem_iff.1 hfield)
  simp only [members, List.map_cons, List.nodup_cons, List.mem_cons, List.mem_map, not_or, not_exists,
    not_and]
  exact ⟨⟨by decide, fun field hfield => (hnew field hfield).1⟩,
    fun field hfield => (hnew field hfield).2, hsorted⟩

/-- Among what is read are the event, the severity and the fields, and nothing else. -/
lemma mem_read_iff (h : (fields.map Prod.fst).Nodup)
    (hnames : ∀ field ∈ fields, field.1 ≠ "event" ∧ field.1 ≠ "severity") (key : String)
    (value : Value) :
    (key, value) ∈ Keyed.ofList
        ((members severity event fields).map fun field => (field.1, Value.string field.2)) ↔
      (key = "event" ∧ value = .string event) ∨ (key = "severity" ∧ value = .string severity.name) ∨
      ∃ written, (key, written) ∈ fields ∧ value = .string written := by
  have hnodup : (((members severity event fields).map fun field =>
      (field.1, Value.string field.2)).map Prod.fst).Nodup := by
    rw [List.map_map]
    exact nodup_members h hnames
  have hfield : (∃ field ∈ sortFields fields, (field.1, Value.string field.2) = (key, value))
      ↔ ∃ written, (key, written) ∈ fields ∧ value = .string written := by
    simp only [(perm_sortFields fields).mem_iff]
    constructor
    · rintro ⟨field, hmem, hfield⟩
      cases hfield
      exact ⟨field.2, hmem, rfl⟩
    · rintro ⟨written, hmem, rfl⟩
      exact ⟨_, hmem, rfl⟩
  rw [Keyed.mem_ofList hnodup, members, List.map_cons, List.map_cons, List.mem_cons, List.mem_cons,
    List.mem_map, hfield, Prod.mk.injEq, Prod.mk.injEq]

/-- **A written line is no other than it was meant to be.**  Whatever texts a report holds, its line has one
line feed, at the end, and no other control character; it is read as one object, which has the event, the
severity and the fields that were reported, each with its text, and nothing else; and it does not tell in
which order the fields were reported. -/
theorem line_unforgeable (severity : Severity) (event : String) (fields : List (String × String))
    (h : (fields.map Prod.fst).Nodup)
    (hnames : ∀ field ∈ fields, field.1 ≠ "event" ∧ field.1 ≠ "severity") :
    let text := terminated (lineOf severity event fields)
    (text.toList.count '\n' = 1 ∧ text.toList.getLast? = some '\n' ∧
      ∀ c ∈ text.toList, c < ' ' → c = '\n') ∧
    Json.readTree? text = some (.object (readFields (members severity event fields))) ∧
    (∃ read, Json.read? text = some (.object read) ∧ Keyed.Sorted read ∧
      ∀ key value, (key, value) ∈ read ↔
        (key = "event" ∧ value = .string event) ∨ (key = "severity" ∧ value = .string severity.name) ∨
        ∃ written, (key, written) ∈ fields ∧ value = .string written) ∧
    ∀ other : List (String × String), other.Perm fields →
      terminated (lineOf severity event other) = text := by
  refine ⟨oneLine_terminated (printable_lineOf severity event fields),
    readTree?_terminated severity event fields, ?_, fun other hother => ?_⟩
  · exact ⟨_, read?_terminated severity event fields, Keyed.sorted_ofList _, mem_read_iff h hnames⟩
  · rw [lineOf, lineChars, sortFields_perm h hother]
    rfl

/-- Quotes, backslashes, line feeds, control characters and characters beyond the basic plane, in names and
in texts, with a text that looks like the end of a line and the beginning of another. -/
theorem line_unforgeable_quoted :
    let forged := "INFO\"\x7d\n\x7b\"event\":\"A\"\x7d"
    let fields := [("zone\n", "\x01𝄞"), ("a\"\\", forged)]
    (fields.map Prod.fst).Nodup ∧ (∀ field ∈ fields, field.1 ≠ "event" ∧ field.1 ≠ "severity") ∧
    (terminated (lineOf .warn forged fields)).toList.count '\n' = 1 ∧
    (∃ read, Json.read? (terminated (lineOf .warn forged fields)) = some (.object read) ∧
      Keyed.Sorted read ∧ ("event", .string forged) ∈ read ∧ ("a\"\\", .string forged) ∈ read) ∧
    terminated (lineOf .warn forged fields.reverse) = terminated (lineOf .warn forged fields) := by
  intro forged fields
  have hnodup : (fields.map Prod.fst).Nodup := by decide
  have hnames : ∀ field ∈ fields, field.1 ≠ "event" ∧ field.1 ≠ "severity" := by decide
  obtain ⟨⟨hcount, -, -⟩, -, ⟨read, hread, hsorted, hmem⟩, hperm⟩ :=
    line_unforgeable .warn forged fields hnodup hnames
  refine ⟨hnodup, hnames, hcount, ⟨read, hread, hsorted, ?_, ?_⟩, hperm _ (List.reverse_perm fields)⟩
  · exact (hmem _ _).2 (Or.inl ⟨rfl, rfl⟩)
  · exact (hmem _ _).2 (Or.inr (Or.inr ⟨forged, List.mem_cons_of_mem _ List.mem_cons_self, rfl⟩))

end Notice

namespace Journal

/-! ## Journals -/

/-- A journal writes lines of notices, so none with control characters. -/
lemma printable_of_mem_lines {minimum : Severity} {journal : Journal} {line : String}
    (h : line ∈ lines minimum journal) : Printable line.toList := by
  induction journal generalizing minimum with
  | nil => exact absurd h List.not_mem_nil
  | cons entry rest ih =>
      cases entry with
      | minimum severity => exact ih h
      | notice notice =>
          rw [lines] at h
          split at h
          · rcases List.mem_cons.1 h with rfl | h
            · exact Notice.printable_lineOf notice.severity notice.event.name notice.fields
            · exact ih h
          · exact ih h

/-- **A journal writes as many line feeds as lines**, whatever its notices hold. -/
theorem count_lineFeed_lines (minimum : Severity) (journal : Journal) :
    ((lines minimum journal).flatMap fun line => (terminated line).toList).count '\n'
      = (lines minimum journal).length := by
  have hone : (lines minimum journal).map (List.count '\n' ∘ fun line => (terminated line).toList)
      = (lines minimum journal).map fun _ => 1 :=
    List.map_congr_left fun line hline => (Notice.oneLine_terminated (printable_of_mem_lines hline)).1
  rw [List.count_flatMap, hone, List.map_const', List.sum_replicate_nat, Nat.mul_one]

end Journal

end DocumentAccess
