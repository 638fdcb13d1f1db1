import DocumentAccess.Keyed
import Mathlib.Data.List.Forall2
import Mathlib.Data.List.Nodup
import Mathlib.Tactic.Common

/-!
# Maps sorted by key: entries and look-ups

What is found in a map is one of its entries, and insertion only ever puts the new entry among the
ones that were there.  A sorted map is told by what is found in it (`Keyed.Sorted.ext`).  Maps that are
built side by side from lists with the same keys stay related entry by entry (`Keyed.forall₂_ofList`);
that is how two readings of one object are compared when several of its entries fall on one key and only
the last of them stays.  All of them stay when they have the same value
(`Keyed.find?_ofList_iff_singleValued`).
-/

namespace DocumentAccess.Keyed

variable {α β : Type}

lemma find?_cons_self (key : String) (value : α) (rest : List (String × α)) :
    find? key ((key, value) :: rest) = some value := by
  simp [find?]

lemma find?_cons_of_ne {key k : String} (h : k ≠ key) (value : α) (rest : List (String × α)) :
    find? key ((k, value) :: rest) = find? key rest := by
  simp [find?, h]

/-- What is found under a key is an entry with that key. -/
lemma mem_of_find? {key : String} {value : α} {entries : List (String × α)}
    (h : find? key entries = some value) : (key, value) ∈ entries := by
  induction entries with
  | nil => simp at h
  | cons entry rest ih =>
      obtain ⟨k, v⟩ := entry
      by_cases hk : k = key
      · subst hk
        rw [find?_cons_self] at h
        cases h
        exact List.mem_cons_self
      · rw [find?_cons_of_ne hk] at h
        exact List.mem_cons_of_mem _ (ih h)

/-- A key without an entry is not found. -/
lemma find?_eq_none_iff {key : String} {entries : List (String × α)} :
    find? key entries = none ↔ ∀ entry ∈ entries, entry.1 ≠ key := by
  induction entries with
  | nil => simp
  | cons entry rest ih =>
      obtain ⟨k, v⟩ := entry
      by_cases hk : k = key
      · simp [hk, find?_cons_self]
      · simp [find?_cons_of_ne hk, hk, ih]

lemma find?_eq_none_of_not_mem {key : String} {entries : List (String × α)}
    (h : key ∉ entries.map Prod.fst) : find? key entries = none :=
  find?_eq_none_iff.2 fun entry hentry he => h (List.mem_map.2 ⟨entry, hentry, he⟩)

/-- In one list after another, the first is searched first. -/
lemma find?_append (key : String) (a b : List (String × α)) :
    find? key (a ++ b) = (find? key a).or (find? key b) := by
  induction a with
  | nil => exact (Option.none_or).symm
  | cons entry rest ih =>
      obtain ⟨k, value⟩ := entry
      by_cases hk : k = key
      · subst hk
        rw [List.cons_append, find?_cons_self, find?_cons_self, Option.some_or]
      · rw [List.cons_append, find?_cons_of_ne hk, find?_cons_of_ne hk, ih]

/-- A walk over the entries that acts at the first one with some key, and skips the others, is a look-up
of that key. -/
lemma eq_elim_find? (walk : List (String × α) → β) {missing : β} {found : α → β}
    {key : String} (hnil : walk [] = missing)
    (hkey : ∀ value rest, walk ((key, value) :: rest) = found value)
    (hother : ∀ k value rest, k ≠ key → walk ((k, value) :: rest) = walk rest)
    (entries : List (String × α)) : walk entries = (find? key entries).elim missing found := by
  induction entries with
  | nil => exact hnil
  | cons entry rest ih =>
      obtain ⟨k, value⟩ := entry
      by_cases hk : k = key
      · subst hk
        rw [hkey, find?_cons_self]
        rfl
      · rw [hother k value rest hk, ih, find?_cons_of_ne hk]

/-- An entry after an insertion is the new one or was there before. -/
lemma mem_insert {key : String} {value : α} {entry : String × α} {entries : List (String × α)}
    (h : entry ∈ insert key value entries) : entry = (key, value) ∨ entry ∈ entries := by
  induction entries with
  | nil =>
      left
      simpa [insert] using h
  | cons head rest ih =>
      obtain ⟨k, v⟩ := head
      by_cases hk : k = key
      · simp only [insert, hk, if_true, List.mem_cons] at h
        rcases h with h | h
        · exact Or.inl h
        · exact Or.inr (List.mem_cons_of_mem _ h)
      · by_cases hlt : Ordered.before key k = true
        · simp only [insert, hk, hlt, if_false, if_true, List.mem_cons] at h
          rcases h with h | h
          · exact Or.inl h
          · exact Or.inr (List.mem_cons.2 h)
        · simp only [insert, hk, hlt, Bool.false_eq_true, if_false, List.mem_cons] at h
          rcases h with h | h
          · exact Or.inr (h ▸ List.mem_cons_self)
          · rcases ih h with h | h
            · exact Or.inl h
            · exact Or.inr (List.mem_cons_of_mem _ h)

/-- A new key makes the map longer by one entry. -/
lemma length_insert {key : String} {entries : List (String × α)} (h : find? key entries = none)
    (value : α) : (insert key value entries).length = entries.length + 1 := by
  induction entries with
  | nil => rfl
  | cons entry rest ih =>
      obtain ⟨k, v⟩ := entry
      have hk : k ≠ key := find?_eq_none_iff.1 h (k, v) List.mem_cons_self
      rw [find?_cons_of_ne hk] at h
      by_cases hlt : Ordered.before key k = true
      · simp [insert, hk, hlt]
      · simp [insert, hk, hlt, ih h]

/-- Of two values inserted at one key the last stays. -/
lemma insert_insert_self (key : String) (value other : α) (entries : List (String × α)) :
    insert key value (insert key other entries) = insert key value entries := by
  induction entries with
  | nil => simp [insert]
  | cons entry rest ih =>
      obtain ⟨k, v⟩ := entry
      by_cases hk : k = key
      · simp [insert, hk]
      · by_cases hlt : Ordered.before key k = true
        · simp [insert, hk, hlt]
        · simp [insert, hk, hlt, ih]

/-! ## Look-ups that tell the map -/

/-- Where no two entries have the same key, every entry is found. -/
lemma find?_eq_some_iff {entries : List (String × α)} (h : (entries.map Prod.fst).Nodup)
    {key : String} {value : α} : find? key entries = some value ↔ (key, value) ∈ entries := by
  refine ⟨mem_of_find?, fun hmem => ?_⟩
  cases hfind : find? key entries with
  | none => exact absurd rfl (find?_eq_none_iff.1 hfind _ hmem)
  | some found =>
      have hsame : (key, found) = (key, value) :=
        List.inj_on_of_nodup_map h (mem_of_find? hfind) hmem rfl
      obtain ⟨-, rfl⟩ := Prod.mk.inj hsame
      rfl

/-- In a map that is built from entries with different keys, all of them are found. -/
lemma find?_ofList {entries : List (String × α)} (h : (entries.map Prod.fst).Nodup) (key : String) :
    find? key (ofList entries) = find? key entries := by
  suffices hstart : ∀ map : List (String × α),
      find? key (insertAll entries map) = (find? key entries).or (find? key map) by
    rw [ofList, hstart, find?_nil, Option.or_none]
  induction entries with
  | nil => exact fun map => (Option.none_or).symm
  | cons entry rest ih =>
      obtain ⟨k, value⟩ := entry
      obtain ⟨hnew, hrest⟩ := List.nodup_cons.1 h
      intro map
      rw [show insertAll ((k, value) :: rest) map = insertAll rest (insert k value map) from rfl,
        ih hrest]
      by_cases hk : k = key
      · subst hk
        rw [find?_eq_none_of_not_mem hnew, find?_insert_self, find?_cons_self, Option.none_or, Option.some_or]
      · rw [find?_insert_of_ne (Ne.symm hk), find?_cons_of_ne hk]

/-- What is only in the last of the entries is found there. -/
lemma find?_ofList_append {a b : List (String × α)} (h : ((a ++ b).map Prod.fst).Nodup) {key : String}
    (hkey : key ∉ a.map Prod.fst) : find? key (ofList (a ++ b)) = find? key b := by
  rw [find?_ofList h, find?_append, find?_eq_none_of_not_mem hkey, Option.none_or]

/-- What is found in a map that is built from entries is one of them. -/
lemma mem_of_find?_ofList {entries : List (String × α)} {key : String} {value : α}
    (h : find? key (ofList entries) = some value) : (key, value) ∈ entries := by
  suffices hstart : ∀ map : List (String × α), find? key (insertAll entries map) = some value →
      (key, value) ∈ entries ∨ find? key map = some value from
    (hstart [] h).resolve_right (by simp)
  clear h
  induction entries with
  | nil => exact fun map h => Or.inr h
  | cons entry rest ih =>
      intro map hfind
      rcases ih (insert entry.1 entry.2 map) hfind with hrest | hinserted
      · exact Or.inl (List.mem_cons_of_mem _ hrest)
      · by_cases hkey : key = entry.1
        · rw [hkey, find?_insert_self] at hinserted
          obtain rfl := Option.some.inj hinserted
          exact Or.inl (hkey ▸ List.mem_cons_self)
        · rw [find?_insert_of_ne hkey] at hinserted
          exact Or.inr hinserted

/-- Under the key of an entry, something is found. -/
lemma exists_find?_ofList {entries : List (String × α)} {entry : String × α} (h : entry ∈ entries) :
    ∃ value, find? entry.1 (ofList entries) = some value := by
  suffices hstart : ∀ map : List (String × α), entry ∈ entries ∨ entry.1 ∈ map.map Prod.fst →
      entry.1 ∈ (insertAll entries map).map Prod.fst by
    obtain ⟨found, hfound, hkey⟩ := List.mem_map.1 (hstart [] (Or.inl h))
    exact Option.ne_none_iff_exists'.1 fun hnone => find?_eq_none_iff.1 hnone found hfound hkey
  clear h
  induction entries with
  | nil => simp [insertAll]
  | cons first rest ih =>
      intro map h
      refine ih (insert first.1 first.2 map) ?_
      rw [mem_keys_insert]
      rcases h with h | h
      · rcases List.mem_cons.1 h with rfl | h
        · exact Or.inr (Or.inl rfl)
        · exact Or.inl h
      · exact Or.inr (Or.inr h)

/-- Entries with the same key have the same value. -/
def SingleValued (entries : List (String × α)) : Prop :=
  ∀ a ∈ entries, ∀ b ∈ entries, a.1 = b.1 → a.2 = b.2

/-- **A map holds all the entries that it is built from exactly when they are single valued.** -/
theorem find?_ofList_iff_singleValued {entries : List (String × α)} :
    (∀ entry ∈ entries, find? entry.1 (ofList entries) = some entry.2) ↔ SingleValued entries := by
  constructor
  · intro h a ha b hb hkey
    have hfound := h a ha
    rw [hkey, h b hb] at hfound
    exact (Option.some.inj hfound).symm
  · intro h entry hentry
    obtain ⟨value, hvalue⟩ := exists_find?_ofList hentry
    have hsame : value = entry.2 := h _ (mem_of_find?_ofList hvalue) entry hentry rfl
    rw [hvalue, hsame]

lemma Sorted.nodup_keys {entries : List (String × α)} (h : Sorted entries) :
    (entries.map Prod.fst).Nodup :=
  List.pairwise_map.2 (h.imp Ordered.ne_of_before)

/-- A map that is built from entries with different keys has just these entries. -/
lemma mem_ofList {entries : List (String × α)} (h : (entries.map Prod.fst).Nodup)
    {entry : String × α} : entry ∈ ofList entries ↔ entry ∈ entries := by
  rw [← find?_eq_some_iff (sorted_ofList entries).nodup_keys, find?_ofList h, find?_eq_some_iff h]

/-- **A sorted map is told by what is found in it.** -/
theorem Sorted.ext {a b : List (String × α)} (ha : Sorted a) (hb : Sorted b)
    (h : ∀ key, find? key a = find? key b) : a = b := by
  have hmem : ∀ entry, entry ∈ a ↔ entry ∈ b := by
    rintro ⟨key, value⟩
    rw [← find?_eq_some_iff ha.nodup_keys, ← find?_eq_some_iff hb.nodup_keys, h]
  have hperm : a.Perm b :=
    (List.perm_ext_iff_of_nodup ha.nodup_keys.of_map hb.nodup_keys.of_map).2 hmem
  refine hperm.eq_of_pairwise (fun x y _ _ hxy hyx => ?_) ha hb
  exact absurd hyx (by simp [Ordered.asymm hxy])

/-- A sorted map is what is built from its entries. -/
lemma Sorted.ofList_eq {entries : List (String × α)} (h : Sorted entries) : ofList entries = entries :=
  (sorted_ofList entries).ext h (find?_ofList h.nodup_keys)

/-! ## Maps built side by side -/

/-- Inserting related values at one key keeps two maps related entry by entry. -/
lemma forall₂_insert {R : String × α → String × β → Prop} (hkey : ∀ a b, R a b → a.1 = b.1)
    {key : String} {a : α} {b : β} (hnew : R (key, a) (key, b)) {as : List (String × α)}
    {bs : List (String × β)} (h : List.Forall₂ R as bs) :
    List.Forall₂ R (insert key a as) (insert key b bs) := by
  induction h with
  | nil => exact List.Forall₂.cons hnew List.Forall₂.nil
  | @cons x y xs ys hxy hrest ih =>
      obtain ⟨k, v⟩ := x
      obtain ⟨l, w⟩ := y
      obtain rfl : k = l := hkey _ _ hxy
      by_cases hk : k = key
      · simp only [insert, hk, if_true]
        exact List.Forall₂.cons hnew hrest
      · by_cases hlt : Ordered.before key k = true
        · simp only [insert, hk, hlt, if_false, if_true]
          exact List.Forall₂.cons hnew (List.Forall₂.cons hxy hrest)
        · simp only [insert, hk, hlt, Bool.false_eq_true, if_false]
          exact List.Forall₂.cons hxy ih

/-- **Maps built from related lists are related**, although of several entries with one key only the
last stays. -/
theorem forall₂_ofList {R : String × α → String × β → Prop} (hkey : ∀ a b, R a b → a.1 = b.1)
    {as : List (String × α)} {bs : List (String × β)} (h : List.Forall₂ R as bs) :
    List.Forall₂ R (ofList as) (ofList bs) := by
  suffices hstart : ∀ (xs : List (String × α)) (ys : List (String × β)), List.Forall₂ R xs ys →
      List.Forall₂ R (insertAll as xs) (insertAll bs ys) from
    hstart [] [] List.Forall₂.nil
  induction h with
  | nil => exact fun xs ys hxs => hxs
  | @cons x y _ _ hxy _ ih =>
      obtain ⟨k, v⟩ := x
      obtain ⟨l, w⟩ := y
      obtain rfl : k = l := hkey _ _ hxy
      exact fun xs ys hxs => ih _ _ (forall₂_insert hkey hxy hxs)

end DocumentAccess.Keyed
