import DocumentAccess.Ordered

/-!
# Maps as lists sorted by key

Members of an object, fields of a schema and registered schemas are finite maps from text to values
whose order shows in answers: always ascending by key.  Such a map is kept
as its list of entries.

* `Keyed.find?` — the value at a key.
* `Keyed.insert` — adds an entry in key order; an entry with that key is replaced.
* `Keyed.ofList` — inserts entries from left to right, so the last entry of a key wins.
* `Keyed.Sorted` — the entries ascend strictly by key; `insert` keeps it (`Sorted.insert`).
-/

namespace DocumentAccess.Keyed

variable {α β : Type}

/-- The value of the first entry with this key. -/
def find? (key : String) : List (String × α) → Option α
  | [] => none
  | (k, value) :: rest => if k = key then some value else find? key rest

/-- Whether some entry has this key. -/
def contains (key : String) (entries : List (String × α)) : Bool :=
  entries.any fun entry => entry.1 == key

/-- Adds an entry in front of the first entry with a greater key; an entry with the same key that
comes before that is replaced. -/
def insert (key : String) (value : α) : List (String × α) → List (String × α)
  | [] => [(key, value)]
  | (k, v) :: rest =>
    if k = key then (key, value) :: rest
    else if Ordered.before key k then (key, value) :: (k, v) :: rest
    else (k, v) :: insert key value rest

/-- Inserts the entries from left to right into a map. -/
def insertAll (entries : List (String × α)) (map : List (String × α)) : List (String × α) :=
  entries.foldl (fun map entry => insert entry.1 entry.2 map) map

/-- The map of a list of entries: of several entries with one key, the last. -/
def ofList (entries : List (String × α)) : List (String × α) :=
  insertAll entries []

/-- The entries ascend strictly by key. -/
def Sorted (entries : List (String × α)) : Prop :=
  entries.Pairwise fun a b => Ordered.before a.1 b.1 = true

@[simp] theorem find?_nil (key : String) : find? key ([] : List (String × α)) = none := rfl

/-- What was inserted is found. -/
@[simp] theorem find?_insert_self (key : String) (value : α) (entries : List (String × α)) :
    find? key (insert key value entries) = some value := by
  induction entries with
  | nil => simp [insert, find?]
  | cons entry rest ih =>
    obtain ⟨k, v⟩ := entry
    by_cases hk : k = key
    · simp [insert, hk, find?]
    · by_cases hlt : Ordered.before key k = true
      · simp [insert, hk, hlt, find?]
      · simp [insert, hk, hlt, find?, ih]

/-- Inserting at one key leaves the others as they are. -/
theorem find?_insert_of_ne {key other : String} (h : other ≠ key) (value : α)
    (entries : List (String × α)) :
    find? other (insert key value entries) = find? other entries := by
  induction entries with
  | nil => simp [insert, find?, Ne.symm h]
  | cons entry rest ih =>
    obtain ⟨k, v⟩ := entry
    by_cases hk : k = key
    · subst hk; simp [insert, find?, Ne.symm h]
    · by_cases hlt : Ordered.before key k = true
      · simp [insert, hk, hlt, find?, Ne.symm h]
      · simp [insert, hk, hlt, find?, ih]

/-- The keys after an insertion are the keys before it and the new one. -/
theorem mem_keys_insert {key other : String} {value : α} {entries : List (String × α)} :
    other ∈ (insert key value entries).map Prod.fst ↔
      other = key ∨ other ∈ entries.map Prod.fst := by
  induction entries with
  | nil => simp [insert]
  | cons entry rest ih =>
    obtain ⟨k, v⟩ := entry
    by_cases hk : k = key
    · subst hk; simp [insert]
    · by_cases hlt : Ordered.before key k = true
      · simp [insert, hk, hlt]
      · simp only [insert, hk, hlt, Bool.false_eq_true, if_false, List.map_cons, List.mem_cons, ih]
        constructor
        · rintro (h | h | h) <;> simp [h]
        · rintro (h | h | h) <;> simp [h]

/-- **Insertion keeps the order.** -/
theorem Sorted.insert {entries : List (String × α)} (h : Sorted entries) (key : String) (value : α) :
    Sorted (Keyed.insert key value entries) := by
  induction entries with
  | nil => simp [Keyed.insert, Sorted]
  | cons entry rest ih =>
    obtain ⟨k, v⟩ := entry
    obtain ⟨hhead, htail⟩ := List.pairwise_cons.1 h
    by_cases hk : k = key
    · subst hk
      simpa [Keyed.insert, Sorted] using ⟨fun a b hab => hhead (a, b) hab, htail⟩
    · by_cases hlt : Ordered.before key k = true
      · simp only [Keyed.insert, hk, hlt, if_false, if_true]
        refine List.pairwise_cons.2 ⟨?_, h⟩
        intro other hother
        rcases List.mem_cons.1 hother with rfl | hmem
        · exact hlt
        · exact Ordered.trans hlt (hhead other hmem)
      · simp only [Keyed.insert, hk, hlt, Bool.false_eq_true, if_false]
        refine List.pairwise_cons.2 ⟨?_, ih htail⟩
        intro other hother
        have hkey : other.1 ∈ (Keyed.insert key value rest).map Prod.fst :=
          List.mem_map_of_mem hother
        rcases mem_keys_insert.1 hkey with heq | hmem
        · rw [heq]
          exact Ordered.before_of_not_before (Ne.symm hk) (Bool.not_eq_true _ ▸ hlt)
        · obtain ⟨entry, hentry, heq⟩ := List.mem_map.1 hmem
          rw [← heq]
          exact hhead entry hentry

/-- A map built from a list of entries is sorted. -/
theorem sorted_ofList (entries : List (String × α)) : Sorted (ofList entries) := by
  suffices h : ∀ map : List (String × α), Sorted map → Sorted (insertAll entries map) from
    h [] List.Pairwise.nil
  induction entries with
  | nil => exact fun _ h => h
  | cons entry rest ih => exact fun map h => ih _ (h.insert entry.1 entry.2)

end DocumentAccess.Keyed
