import Mathlib.Data.List.Nodup
import Mathlib.Data.Option.Basic

/-!
# Resources that are acquired and released

A party acquires resources that it does not hold and releases resources that it holds. A
sequence of uses is settled from what is held at its start: the result is what is held behind
it, and there is none when something is acquired twice or released without being held.
-/

namespace NetworkCode

/-- One use of a resource. -/
inductive Use (ρ : Type*) where
  | acquire (d : ρ)
  | release (d : ρ)
  deriving DecidableEq, Repr

variable {ρ : Type*} [DecidableEq ρ]

/-- What is held behind one use. -/
def Use.settle (held : List ρ) : Use ρ → Option (List ρ)
  | acquire d => if d ∈ held then none else some (d :: held)
  | release d => if d ∈ held then some (held.erase d) else none

/-- What is held behind some uses. -/
def settle (held : List ρ) (us : List (Use ρ)) : Option (List ρ) := us.foldlM Use.settle held

variable {held left : List ρ} {us vs : List (Use ρ)} {u : Use ρ} {d : ρ}

/-- The first use comes first. -/
theorem settle_cons : settle held (u :: us) = (u.settle held).bind fun ds => settle ds us :=
  List.foldlM_cons

/-- Uses are settled one list behind the other. -/
theorem settle_append :
    settle held (us ++ vs) = (settle held us).bind fun ds => settle ds vs :=
  List.foldlM_append

/-- What is acquired was not held. -/
theorem Use.settle_acquire :
    (acquire d).settle held = some left ↔ d ∉ held ∧ left = d :: held := by
  simp [settle, eq_comm]

/-- What is released was held. -/
theorem Use.settle_release :
    (release d).settle held = some left ↔ d ∈ held ∧ left = held.erase d := by
  simp [settle, eq_comm]

/-- One more use behind the others. -/
theorem settle_snoc (h : settle held us = some left) : settle held (us ++ [u]) = u.settle left := by
  rw [settle_append, h, Option.bind_some, settle_cons]
  exact Option.bind_fun_some _

/-- A part of what can be settled can be settled. -/
theorem isSome_settle_part (h : (settle held vs).isSome) (hpre : us <+: vs) :
    (settle held us).isSome := by
  obtain ⟨ws, rfl⟩ := hpre
  rw [settle_append, Option.isSome_bind] at h
  cases hs : settle held us with
  | none => simp [hs] at h
  | some ds => rfl

/-- One use leaves nothing held twice. -/
theorem Use.nodup_settle (h : u.settle held = some left) (hnodup : held.Nodup) : left.Nodup := by
  cases u with
  | acquire d =>
    obtain ⟨hfree, rfl⟩ := Use.settle_acquire.mp h
    exact List.nodup_cons.mpr ⟨hfree, hnodup⟩
  | release d =>
    obtain ⟨-, rfl⟩ := Use.settle_release.mp h
    exact hnodup.erase d

/-- Nothing is held twice. -/
theorem nodup_settle (h : settle held us = some left) (hnodup : held.Nodup) : left.Nodup := by
  induction us generalizing held with
  | nil =>
    obtain rfl := Option.some.inj h
    exact hnodup
  | cons u us ih =>
    rw [settle_cons, Option.bind_eq_some_iff] at h
    obtain ⟨ds, hu, hrest⟩ := h
    exact ih hrest (Use.nodup_settle hu hnodup)

end NetworkCode
