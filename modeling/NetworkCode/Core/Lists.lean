import Mathlib.Data.List.Basic
import Mathlib.Algebra.Group.Int.Defs
import Mathlib.Tactic.SplitIfs

/-!
# Counting and membership under the update of one list entry

A table of threads or connections is a list whose entries are replaced one at a
time. These lemmas follow a count over the table and the members of the table
through such a replacement.
-/

namespace NetworkCode

variable {α : Type*}

/-- What an entry contributes to the count of `p`. -/
def indicator (p : α → Bool) (a : α) : Int := if p a then 1 else 0

/-- An element that is counted. -/
theorem indicator_eq_one {p : α → Bool} {a : α} (h : p a = true) : indicator p a = 1 := by
  simp [indicator, h]

/-- An element that is not counted. -/
theorem indicator_eq_zero {p : α → Bool} {a : α} (h : p a = false) : indicator p a = 0 := by
  simp [indicator, h]

/-- Replacing entry `i` moves the count by the difference of the two contributions. -/
theorem countP_set_eq {p : α → Bool} {l : List α} {i : Nat} {a : α} (h : l[i]? = some a)
    (b : α) : ((l.set i b).countP p : Int) = l.countP p - indicator p a + indicator p b := by
  obtain ⟨hi, rfl⟩ := List.getElem?_eq_some_iff.mp h
  have hle : (if p l[i] = true then 1 else 0) ≤ l.countP p := by
    split_ifs with hp
    · exact List.countP_pos_iff.mpr ⟨l[i], List.getElem_mem hi, hp⟩
    · exact Nat.zero_le _
  rw [List.countP_set hi]
  unfold indicator
  split_ifs at hle ⊢ <;> omega

/-- An entry that was found can be replaced, and the new one is then a member. -/
theorem mem_set_of_getElem? {l : List α} {i : Nat} {a : α} (h : l[i]? = some a) (b : α) :
    b ∈ l.set i b := by
  obtain ⟨hi, _⟩ := List.getElem?_eq_some_iff.mp h
  exact List.mem_set hi b

/-- An entry of a list with one entry replaced is the new one or another old one. -/
theorem getElem?_set_eq_some {l : List α} {i j : Nat} {a b : α} (h : (l.set i a)[j]? = some b) :
    j = i ∧ b = a ∨ j ≠ i ∧ l[j]? = some b := by
  by_cases hj : j = i
  · subst hj
    rw [List.getElem?_set_self'] at h
    obtain ⟨_, -, hb⟩ := Option.map_eq_some_iff.mp h
    exact .inl ⟨rfl, hb.symm⟩
  · rw [List.getElem?_set_ne (Ne.symm hj)] at h
    exact .inr ⟨hj, h⟩

/-- Replacing an entry by one with the same image changes nothing in the image of the list. -/
theorem map_set_of_eq {β : Type*} {f : α → β} {l : List α} {i : Nat} {a b : α}
    (h : l[i]? = some a) (hf : f b = f a) : (l.set i b).map f = l.map f := by
  apply List.ext_getElem?
  intro j
  rw [List.getElem?_map, List.getElem?_map]
  by_cases hj : j = i
  · subst hj
    obtain ⟨hi, -⟩ := List.getElem?_eq_some_iff.mp h
    rw [List.getElem?_set_self hi, h, Option.map_some, Option.map_some, hf]
  · rw [List.getElem?_set_ne (Ne.symm hj)]

/-- Appending one entry adds its contribution to the count. -/
theorem countP_concat (p : α → Bool) (l : List α) (a : α) :
    ((l ++ [a]).countP p : Int) = l.countP p + indicator p a := by
  rw [List.countP_append, Int.natCast_add]
  unfold indicator
  cases hp : p a <;> simp [hp]

/-- A map that respects `p` leaves its count unchanged. -/
theorem countP_map_eq {p : α → Bool} {f : α → α} (h : ∀ a, p (f a) = p a) (l : List α) :
    (l.map f).countP p = l.countP p := by
  rw [List.countP_map]
  exact congrArg (l.countP ·) (funext h)

/-- The last entry that satisfies `p`. -/
theorem getLast?_filter_of_last {p : α → Bool} {l l' : List α} {a : α} (ha : p a = true)
    (hl : ∀ b ∈ l', p b = false) : ((l ++ a :: l').filter p).getLast? = some a := by
  have hnone : l'.filter p = [] := List.filter_eq_nil_iff.mpr fun b hb => by simp [hl b hb]
  rw [List.filter_append, List.filter_cons_of_pos ha, hnone, List.getLast?_concat]

/-- A fold over one more entry. -/
theorem foldlM_concat {β : Type*} (f : β → α → Option β) (b : β) (l : List α) (a : α) :
    (l ++ [a]).foldlM f b = (l.foldlM f b).bind fun b => f b a := by
  simp [List.foldlM_append]

/-- A lookup of all entries succeeds when each lookup does. -/
theorem mapM_eq_some_iff {β : Type*} {f : α → Option β} {l : List α} {l' : List β} :
    l.mapM f = some l' ↔ l.map f = l'.map some := by
  induction l generalizing l' with
  | nil => cases l' <;> simp [List.mapM_nil]
  | cons a l ih =>
    simp only [List.mapM_cons, Option.bind_eq_bind, Option.pure_def, Option.bind_eq_some_iff,
      Option.some.injEq, ih]
    cases l' with
    | nil => simp
    | cons b l' => simp

/-- The lookups of all entries succeed together. -/
theorem mapM_ne_none_iff {β : Type*} {f : α → Option β} {l : List α} :
    l.mapM f ≠ none ↔ ∀ a ∈ l, f a ≠ none := by
  induction l with
  | nil => simp
  | cons a l ih =>
    rw [List.forall_mem_cons, ← ih, List.mapM_cons]
    cases f a with
    | none => simp
    | some b => cases l.mapM f <;> simp

end NetworkCode
