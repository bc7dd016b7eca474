import Mathlib.Data.Nat.ModEq

/-!
# Queues in a ring

A ring is a list of slots that are indexed modulo their number. A queue stands in a ring
from a start index on when the slots there hold its elements, in order. It can be extended
by one element as long as it does not fill the ring, and the element at its front can be
taken off.
-/

namespace NetworkCode

variable {α : Type*} {slots queue : List α} {start : Nat} {x : α}

/-- The slots from index `start` on hold the elements of `queue`. -/
structure InRing (slots : List α) (start : Nat) (queue : List α) : Prop where
  fits : queue.length ≤ slots.length
  holds : ∀ k < queue.length, slots[(start + k) % slots.length]? = queue[k]?

namespace InRing

/-- The empty queue is in any ring. -/
theorem nil : InRing slots start [] where
  fits := Nat.zero_le _
  holds k hk := absurd hk (Nat.not_lt_zero k)

/-- The start index matters modulo the number of slots only. -/
theorem mod_iff : InRing slots (start % slots.length) queue ↔ InRing slots start queue := by
  constructor
  · intro h
    refine ⟨h.fits, fun k hk => ?_⟩
    rw [← h.holds k hk, Nat.mod_add_mod]
  · intro h
    refine ⟨h.fits, fun k hk => ?_⟩
    rw [Nat.mod_add_mod, h.holds k hk]

/-- Two offsets below the number of slots denote different slots. -/
theorem offset_inj {n k l : Nat} (hk : k < n) (hl : l < n)
    (h : (start + k) % n = (start + l) % n) : k = l := by
  have hmod : k % n = l % n := Nat.ModEq.add_left_cancel' start h
  rwa [Nat.mod_eq_of_lt hk, Nat.mod_eq_of_lt hl] at hmod

/-- The slot behind the queue is free as long as the queue does not fill the ring. -/
theorem push (h : InRing slots start queue) (hroom : queue.length < slots.length) :
    InRing (slots.set ((start + queue.length) % slots.length) x) start (queue ++ [x]) := by
  have hpos : 0 < slots.length := Nat.zero_lt_of_lt hroom
  refine ⟨by rw [List.length_append, List.length_set]; exact hroom, fun k hk => ?_⟩
  rw [List.length_append, List.length_singleton] at hk
  rw [List.length_set]
  by_cases hlast : k = queue.length
  · subst hlast
    rw [List.getElem?_set_self (Nat.mod_lt _ hpos), List.getElem?_append_right (Nat.le_refl _),
      Nat.sub_self]
    rfl
  · have hlt : k < queue.length := by omega
    have hne : (start + queue.length) % slots.length ≠ (start + k) % slots.length :=
      fun he => hlast (offset_inj hroom (Nat.lt_trans hlt hroom) he).symm
    rw [List.getElem?_set_ne hne, h.holds k hlt, List.getElem?_append_left hlt]

/-- The slot at the start holds the front of the queue. -/
theorem front (h : InRing slots start (x :: queue)) : slots[start % slots.length]? = some x :=
  h.holds 0 (Nat.zero_lt_succ _)

/-- Taking off the front moves the start on by one. -/
theorem pop (h : InRing slots start (x :: queue)) : InRing slots (start + 1) queue := by
  refine ⟨Nat.le_of_succ_le h.fits, fun k hk => ?_⟩
  rw [Nat.add_assoc, Nat.add_comm 1 k, h.holds (k + 1) (Nat.succ_lt_succ hk),
    List.getElem?_cons_succ]

end InRing

end NetworkCode
