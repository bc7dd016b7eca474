import Mathlib.Order.Lattice
import Mathlib.Data.List.Basic

/-!
# Maps that are ordered by key

A map is the list of its entries in the order of their keys, each key once, as an iterator
finds them. Insertion keeps the value of a key that is there already.
-/

namespace NetworkCode

/-- A map as the list of its entries, sorted by key. -/
structure OrderedMap (K V : Type*) [LinearOrder K] where
  entries : List (K × V)
  sorted : (entries.map Prod.fst).Pairwise (· < ·)

namespace OrderedMap

variable {K V : Type*} [LinearOrder K] {m : OrderedMap K V} {k l : K} {v w : V}

/-- The map without entries. -/
def empty : OrderedMap K V := ⟨[], .nil⟩

/-- The value of a key. -/
def find (m : OrderedMap K V) (k : K) : Option V :=
  (m.entries.find? fun e => e.1 = k).map Prod.snd

/-- The key of the first entry. -/
def first (m : OrderedMap K V) : Option K := m.entries.head?.map Prod.fst

/-- The values, in the order of their keys. -/
def values (m : OrderedMap K V) : List V := m.entries.map Prod.snd

/-- Insert an entry in front of the first greater key, unless its key is there. -/
def insertEntry (k : K) (v : V) : List (K × V) → List (K × V)
  | [] => [(k, v)]
  | e :: es =>
    if k < e.1 then (k, v) :: e :: es
    else if k = e.1 then e :: es
    else e :: insertEntry k v es

/-- Inserting brings one key at most. -/
theorem mem_keys_insertEntry {es : List (K × V)} (h : l ∈ (insertEntry k v es).map Prod.fst) :
    l = k ∨ l ∈ es.map Prod.fst := by
  induction es with
  | nil =>
    rw [insertEntry, List.map_singleton, List.mem_singleton] at h
    exact .inl h
  | cons e es ih =>
    rw [insertEntry] at h
    split at h
    · exact List.mem_cons.mp h
    · split at h
      · exact .inr h
      · rcases List.mem_cons.mp h with rfl | h
        · exact .inr List.mem_cons_self
        · exact (ih h).imp_right (List.mem_cons_of_mem _)

/-- Inserting keeps the keys in their order. -/
theorem sorted_insertEntry {es : List (K × V)} (h : (es.map Prod.fst).Pairwise (· < ·)) :
    ((insertEntry k v es).map Prod.fst).Pairwise (· < ·) := by
  induction es with
  | nil => exact List.pairwise_singleton _ _
  | cons e es ih =>
    obtain ⟨hhead, htail⟩ := List.pairwise_cons.mp h
    rw [insertEntry]
    split
    · rename_i hlt
      refine List.pairwise_cons.mpr ⟨fun l hl => ?_, h⟩
      rcases List.mem_cons.mp hl with rfl | hl
      · exact hlt
      · exact lt_trans hlt (hhead l hl)
    · split
      · exact h
      · rename_i hnlt hne
        refine List.pairwise_cons.mpr ⟨fun l hl => ?_, ih htail⟩
        rcases mem_keys_insertEntry hl with rfl | hl
        · exact lt_of_le_of_ne (not_lt.mp hnlt) (Ne.symm hne)
        · exact hhead l hl

/-- Insertion of a key with a value. -/
def insert (m : OrderedMap K V) (k : K) (v : V) : OrderedMap K V :=
  ⟨insertEntry k v m.entries, sorted_insertEntry m.sorted⟩

/-- The map without a key. -/
def erase (m : OrderedMap K V) (k : K) : OrderedMap K V where
  entries := m.entries.filter fun e => e.1 ≠ k
  sorted := m.sorted.sublist (List.filter_sublist.map _)

@[simp] theorem find_empty : (empty : OrderedMap K V).find k = none := rfl

/-- An entry is what is found for its key. -/
theorem find_eq_some_iff : m.find k = some v ↔ (k, v) ∈ m.entries := by
  obtain ⟨es, hes⟩ := m
  simp only [find]
  induction es with
  | nil => simp
  | cons e es ih =>
    obtain ⟨hhead, htail⟩ := List.pairwise_cons.mp hes
    by_cases he : e.1 = k
    · have hnot : (k, v) ∉ es := fun hmem =>
        absurd (hhead k (List.mem_map_of_mem hmem)) (he ▸ lt_irrefl _)
      subst he
      simp [hnot, Prod.ext_iff, eq_comm]
    · have hne : (k, v) ≠ e := fun h => he (h ▸ rfl)
      simp [he, hne, ih htail]

/-- The values are those of the keys. -/
theorem mem_values : v ∈ m.values ↔ ∃ k, m.find k = some v := by
  rw [values, List.mem_map]
  constructor
  · rintro ⟨⟨k, w⟩, hmem, rfl⟩
    exact ⟨k, find_eq_some_iff.mpr hmem⟩
  · rintro ⟨k, h⟩
    exact ⟨(k, v), find_eq_some_iff.mp h, rfl⟩

/-- Insertion changes nothing for other keys, and nothing for a key with a value. -/
theorem find_insert :
    (m.insert k v).find l = if l = k then some ((m.find k).getD v) else m.find l := by
  obtain ⟨es, hes⟩ := m
  simp only [find, insert]
  induction es with
  | nil =>
    by_cases h : l = k
    · simp [insertEntry, h]
    · simp [insertEntry, h, Ne.symm h]
  | cons e es ih =>
    obtain ⟨hhead, htail⟩ := List.pairwise_cons.mp hes
    have hbehind (hlt : k < e.1) : (e :: es).find? (fun e => e.1 = k) = none := by
      rw [List.find?_eq_none]
      intro e' he'
      rcases List.mem_cons.mp he' with rfl | he'
      · simpa using ne_of_gt hlt
      · simpa using ne_of_gt (lt_trans hlt (hhead e'.1 (List.mem_map_of_mem he')))
    rw [insertEntry]
    split
    · rename_i hlt
      by_cases h : l = k
      · subst h
        simp [hbehind hlt]
      · simp [h, Ne.symm h]
    · split
      · rename_i heq
        subst heq
        by_cases h : l = e.1
        · simp [h]
        · simp [h]
      · rename_i hnlt hne
        have hne' : ¬ e.1 = k := fun h => hne h.symm
        have ih' := ih htail
        by_cases hl : e.1 = l
        · subst hl
          simp [hne']
        · simp only [List.find?_cons, hl, hne', decide_false]
          exact ih'

/-- What is found behind an erased key. -/
theorem find_erase : (m.erase k).find l = if l = k then none else m.find l := by
  have hiff (w : V) : (m.erase k).find l = some w ↔ l ≠ k ∧ m.find l = some w := by
    rw [find_eq_some_iff, find_eq_some_iff, erase, List.mem_filter]
    simp [and_comm]
  by_cases h : l = k
  · rw [if_pos h]
    exact Option.eq_none_iff_forall_ne_some.mpr fun w hw => ((hiff w).mp hw).1 h
  · rw [if_neg h]
    ext w
    rw [hiff]
    exact and_iff_right h

/-- The value of the first key is the first value. -/
theorem head?_values (h : m.first = some k) (hv : m.find k = some v) :
    m.values.head? = some v := by
  have hentry := find_eq_some_iff.mp hv
  obtain ⟨es, hes⟩ := m
  cases es with
  | nil => cases h
  | cons e es =>
    obtain rfl : e.1 = k := Option.some.inj h
    obtain ⟨hhead, -⟩ := List.pairwise_cons.mp hes
    rcases List.mem_cons.mp hentry with he | he
    · exact congrArg some (congrArg Prod.snd he).symm
    · exact absurd (hhead e.1 (List.mem_map.mpr ⟨_, he, rfl⟩)) (lt_irrefl _)

/-- The first key has a value. -/
theorem exists_find_of_first (h : m.first = some k) : ∃ v, m.find k = some v := by
  obtain ⟨⟨k', v⟩, hhead, rfl⟩ := Option.map_eq_some_iff.mp h
  exact ⟨v, find_eq_some_iff.mpr (List.mem_of_head? hhead)⟩

/-- There is a first entry unless there is none. -/
theorem first_eq_none_iff : m.first = none ↔ m.entries = [] := by
  rw [first, Option.map_eq_none_iff, List.head?_eq_none_iff]

/-- There are values unless there is no entry. -/
theorem values_eq_nil_iff : m.values = [] ↔ m.entries = [] := List.map_eq_nil_iff

end OrderedMap

end NetworkCode
