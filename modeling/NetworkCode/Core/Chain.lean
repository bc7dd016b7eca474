import Mathlib.Logic.Function.Basic
import Mathlib.Data.List.Basic

/-!
# Singly linked chains in a heap

A heap is a partial map from addresses to cells; an address outside its domain
is unallocated. `Chain` says that following the link of each cell from a
pointer visits exactly the listed addresses, with the listed values, and then
meets the null pointer. The list is determined by the heap and the pointer, so
a chain never revisits a cell. Appending behind its final cell and freeing a
cell outside it are the two heap updates a queue performs.
-/

namespace NetworkCode

universe u v w

variable {A : Type u} {N : Type v} {V : Type w}

/-- Following `link` from `p` visits the listed allocated cells, whose values are
as listed, and ends at the null pointer. -/
def Chain (link : N → Option A) (value : N → V) (heap : A → Option N) :
    Option A → List (A × V) → Prop
  | p, [] => p = none
  | p, (a, v) :: rest =>
    p = some a ∧ ∃ n, heap a = some n ∧ value n = v ∧ Chain link value heap (link n) rest

/-- The addresses of a chain, in order. -/
def addresses (l : List (A × V)) : List A := l.map Prod.fst

section

variable {link : N → Option A} {value : N → V} {heap heap' : A → Option N}

/-- The empty chain. -/
@[simp] theorem chain_nil {p : Option A} : Chain link value heap p [] ↔ p = none := Iff.rfl

/-- A chain begins with its first node. -/
@[simp] theorem chain_cons {p : Option A} {a : A} {v : V} {rest : List (A × V)} :
    Chain link value heap p ((a, v) :: rest) ↔
      p = some a ∧ ∃ n, heap a = some n ∧ value n = v ∧ Chain link value heap (link n) rest :=
  Iff.rfl

@[simp] theorem addresses_nil : addresses ([] : List (A × V)) = [] := rfl

@[simp] theorem addresses_cons (a : A) (v : V) (l : List (A × V)) :
    addresses ((a, v) :: l) = a :: addresses l := rfl

@[simp] theorem addresses_append (l l' : List (A × V)) :
    addresses (l ++ l') = addresses l ++ addresses l' := List.map_append

/-- A pointer starts a non-empty chain exactly when it is not null. -/
theorem Chain.eq_nil_iff {p : Option A} {l : List (A × V)} (h : Chain link value heap p l) :
    l = [] ↔ p = none := by
  cases l with
  | nil => simpa using h
  | cons x l =>
    obtain ⟨a, v⟩ := x
    obtain ⟨rfl, _⟩ := h
    simp

/-- The visited cells are determined by the heap and the first pointer. -/
theorem Chain.unique {p : Option A} {l l' : List (A × V)} (h : Chain link value heap p l)
    (h' : Chain link value heap p l') : l = l' := by
  induction l generalizing p l' with
  | nil => exact ((h'.eq_nil_iff).mpr (by simpa using h)).symm
  | cons x l ih =>
    obtain ⟨a, v⟩ := x
    obtain ⟨rfl, n, hn, rfl, hl⟩ := h
    cases l' with
    | nil => simp at h'
    | cons y l' =>
      obtain ⟨b, w⟩ := y
      obtain ⟨hab, m, hm, rfl, hl'⟩ := h'
      obtain rfl : a = b := by simpa using hab
      obtain rfl : n = m := Option.some.inj (hn.symm.trans hm)
      rw [ih hl hl']

/-- Every suffix of a chain is the chain of some pointer to its first cell. -/
theorem Chain.suffix {p : Option A} {before : List (A × V)} {a : A} {v : V}
    {rest : List (A × V)} (h : Chain link value heap p (before ++ (a, v) :: rest)) :
    Chain link value heap (some a) ((a, v) :: rest) := by
  induction before generalizing p with
  | nil =>
    obtain ⟨rfl, hn⟩ := h
    exact ⟨rfl, hn⟩
  | cons x before ih =>
    obtain ⟨b, w⟩ := x
    obtain ⟨_, n, _, _, hl⟩ := h
    exact ih hl

/-- A chain never visits a cell twice. -/
theorem Chain.nodup {p : Option A} {l : List (A × V)} (h : Chain link value heap p l) :
    (addresses l).Nodup := by
  induction l generalizing p with
  | nil => simp
  | cons x l ih =>
    obtain ⟨a, v⟩ := x
    obtain ⟨rfl, n, hn, hv, hl⟩ := h
    rw [addresses_cons, List.nodup_cons]
    refine ⟨?_, ih hl⟩
    intro hmem
    obtain ⟨⟨b, w⟩, hb, rfl⟩ := List.mem_map.mp hmem
    obtain ⟨before, rest, rfl⟩ := List.append_of_mem hb
    have hagain := hl.suffix
    have hwhole : Chain link value heap (some b) ((b, v) :: (before ++ (b, w) :: rest)) :=
      ⟨rfl, n, hn, hv, hl⟩
    have hlen := congrArg List.length (hwhole.unique hagain)
    simp only [List.length_cons, List.length_append] at hlen
    omega

/-- Every visited cell is allocated. -/
theorem Chain.allocated {p : Option A} {l : List (A × V)} (h : Chain link value heap p l)
    {a : A} (ha : a ∈ addresses l) : ∃ n, heap a = some n := by
  induction l generalizing p with
  | nil => simp at ha
  | cons x l ih =>
    obtain ⟨b, v⟩ := x
    obtain ⟨rfl, n, hn, _, hl⟩ := h
    rcases List.mem_cons.mp ha with rfl | ha
    · exact ⟨n, hn⟩
    · exact ih hl ha

/-- A chain only depends on the cells it visits. -/
theorem Chain.congr {p : Option A} {l : List (A × V)} (h : Chain link value heap p l)
    (heq : ∀ a ∈ addresses l, heap' a = heap a) : Chain link value heap' p l := by
  induction l generalizing p with
  | nil => exact h
  | cons x l ih =>
    obtain ⟨a, v⟩ := x
    obtain ⟨rfl, n, hn, hv, hl⟩ := h
    have ha : heap' a = some n := (heq a (by simp)).trans hn
    exact ⟨rfl, n, ha, hv, ih hl fun b hb => heq b (by simp [hb])⟩

/-- A single cell with a null link is a chain. -/
theorem chain_singleton {a : A} {n : N} (hn : heap a = some n) (hlink : link n = none) :
    Chain link value heap (some a) [(a, value n)] :=
  ⟨rfl, n, hn, rfl, hlink⟩

variable [DecidableEq A]

/-- Writing or freeing a cell outside a chain leaves it unchanged. -/
theorem Chain.update_of_notMem {p : Option A} {l : List (A × V)} {b : A} {c : Option N}
    (h : Chain link value heap p l) (hb : b ∉ addresses l) :
    Chain link value (Function.update heap b c) p l := by
  apply h.congr
  intro a ha
  have hne : a ≠ b := fun he => hb (he ▸ ha)
  exact Function.update_of_ne hne _ _

/-- Linking a cell `b` with a null link behind the final cell extends the chain by it. -/
theorem Chain.append {p : Option A} {l : List (A × V)} {a b : A} {n m : N} (m' : N)
    (h : Chain link value heap p l) (hlast : (addresses l).getLast? = some a)
    (hb : heap b = some n) (hnull : link n = none) (hfresh : b ∉ addresses l)
    (hm : heap a = some m) (hlink : link m' = some b) (hvalue : value m' = value m) :
    Chain link value (Function.update heap a (some m')) p (l ++ [(b, value n)]) := by
  induction l generalizing p with
  | nil => simp at hlast
  | cons x l ih =>
    obtain ⟨c, v⟩ := x
    have hnodup := h.nodup
    obtain ⟨rfl, k, hk, hv, hl⟩ := h
    cases l with
    | nil =>
      obtain rfl : c = a := by simpa using hlast
      obtain rfl : k = m := Option.some.inj (hk.symm.trans hm)
      have hbc : b ≠ c := by simpa using hfresh
      refine ⟨rfl, m', Function.update_self .., hvalue.trans hv, ?_⟩
      rw [hlink]
      exact chain_singleton ((Function.update_of_ne hbc _ _).trans hb) hnull
    | cons y l =>
      have hlast' : (addresses (y :: l)).getLast? = some a := by
        simpa [addresses] using hlast
      have hca : c ≠ a := by
        rintro rfl
        exact (List.nodup_cons.mp hnodup).1 (List.mem_of_getLast? hlast')
      refine ⟨rfl, k, (Function.update_of_ne hca _ _).trans hk, hv, ?_⟩
      exact ih hl hlast' (fun hmem => hfresh (by simp [hmem]))

end

end NetworkCode
