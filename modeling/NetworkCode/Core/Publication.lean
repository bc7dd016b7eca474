import Mathlib.Logic.Function.Basic

/-!
# Values written behind what they need

Writers store values under keys, and nothing is ever taken away. When each writer stores a
value only behind the values that it needs, a reader that finds a value finds what it needs,
however the writers alternate.
-/

namespace NetworkCode.Publication

variable {κ ν : Type*} [DecidableEq κ]

/-- A key and the value that is stored under it. -/
def put (store : κ → Option ν) (c : κ × ν) : κ → Option ν :=
  Function.update store c.1 (some c.2)

/-- Where there is a value there is what it needs. -/
def Closed (needs : κ → ν → κ → Prop) (store : κ → Option ν) : Prop :=
  ∀ key v, store key = some v → ∀ key', needs key v key' → store key' ≠ none

/-- A writer alone stores each value behind what it needs. -/
def Ahead (needs : κ → ν → κ → Prop) : (κ → Option ν) → List (κ × ν) → Prop
  | _, [] => True
  | store, c :: cs =>
    (∀ key, needs c.1 c.2 key → store key ≠ none) ∧ Ahead needs (put store c) cs

variable {needs : κ → ν → κ → Prop} {store store' : κ → Option ν} {c : κ × ν} {cs : List (κ × ν)}
  {key : κ} {v : ν}

@[simp] theorem put_self (store : κ → Option ν) (key : κ) (v : ν) :
    put store (key, v) key = some v :=
  Function.update_self ..

/-- The other keys stay. -/
theorem put_of_ne (h : key ≠ c.1) : put store c key = store key := Function.update_of_ne h _ _

/-- Nothing is taken away. -/
theorem put_ne_none (h : store key ≠ none) : put store c key ≠ none := by
  by_cases hkey : key = c.1
  · rw [hkey, put, Function.update_self]
    exact Option.some_ne_none c.2
  · rwa [put_of_ne hkey]

/-- A value is the one that was stored last or was there before. -/
theorem eq_or_of_put (h : put store c key = some v) :
    (key = c.1 ∧ v = c.2) ∨ store key = some v := by
  by_cases hkey : key = c.1
  · rw [hkey, put, Function.update_self] at h
    exact .inl ⟨hkey, (Option.some.inj h).symm⟩
  · rw [put_of_ne hkey] at h
    exact .inr h

/-- The values of others do not disturb a writer. -/
theorem Ahead.mono (h : Ahead needs store cs)
    (hmore : ∀ key, store key ≠ none → store' key ≠ none) :
    Ahead needs store' cs := by
  induction cs generalizing store store' with
  | nil => trivial
  | cons c cs ih =>
    obtain ⟨hneeds, hrest⟩ := h
    refine ⟨fun key hkey => hmore key (hneeds key hkey), ih hrest fun key hkey => ?_⟩
    by_cases he : key = c.1
    · rw [he, put, Function.update_self]
      exact Option.some_ne_none c.2
    · rw [put_of_ne he] at hkey ⊢
      exact hmore key hkey

/-- A key that finds what it needs keeps the store closed. -/
theorem Closed.put (h : Closed needs store) (hneeds : ∀ key, needs c.1 c.2 key → store key ≠ none) :
    Closed needs (put store c) := by
  intro key v hv key' hkey'
  rcases eq_or_of_put hv with ⟨rfl, rfl⟩ | hold
  · exact put_ne_none (hneeds key' hkey')
  · exact put_ne_none (h key v hold key' hkey')

/-- The store has what its values need, and each writer stores behind what it needs. -/
structure Kept (needs : κ → ν → κ → Prop) (store : κ → Option ν)
    (writers : List (List (κ × ν))) : Prop where
  closed : Closed needs store
  ahead : ∀ cs ∈ writers, Ahead needs store cs

/-- Any writer may go on. -/
theorem Kept.step {writers : List (List (κ × ν))} {i : Nat} (h : Kept needs store writers)
    (hi : writers[i]? = some (c :: cs)) :
    Kept needs (Publication.put store c) (writers.set i cs) where
  closed := h.closed.put (h.ahead _ (List.mem_of_getElem? hi)).1
  ahead cs' hmem := by
    rcases List.mem_or_eq_of_mem_set hmem with hmem | rfl
    · exact (h.ahead cs' hmem).mono fun _ => put_ne_none
    · exact (h.ahead _ (List.mem_of_getElem? hi)).2

/-- A property of what is stored with its key, which all writers keep to. -/
structure From (P : κ → ν → Prop) (store : κ → Option ν) (writers : List (List (κ × ν))) :
    Prop where
  stored : ∀ key v, store key = some v → P key v
  ahead : ∀ cs ∈ writers, ∀ c ∈ cs, P c.1 c.2

/-- A command that is written moves a value from what is to be written to the store. -/
theorem From.step {P : κ → ν → Prop} {writers : List (List (κ × ν))} {i : Nat}
    (h : From P store writers) (hi : writers[i]? = some (c :: cs)) :
    From P (put store c) (writers.set i cs) where
  stored key v hv := by
    rcases eq_or_of_put hv with ⟨rfl, rfl⟩ | hold
    · exact h.ahead _ (List.mem_of_getElem? hi) c List.mem_cons_self
    · exact h.stored key v hold
  ahead cs' hmem := by
    rcases List.mem_or_eq_of_mem_set hmem with hmem | rfl
    · exact h.ahead cs' hmem
    · exact fun d hd => h.ahead _ (List.mem_of_getElem? hi) d (List.mem_cons_of_mem _ hd)

end NetworkCode.Publication
