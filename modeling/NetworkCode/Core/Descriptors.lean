import NetworkCode.Core.Slots
import Mathlib.Data.List.Perm.Subperm

/-!
# The lowest free descriptor

A new descriptor gets the lowest number that is not in use. Whether it lies below a
bound is a matter of how many of the numbers below the bound are in use.
-/

namespace NetworkCode

/-- `fd` is the lowest number that is not in use. -/
def LowestFree (used : List Int) (fd : Int) : Prop :=
  0 ≤ fd ∧ fd ∉ used ∧ ∀ k < fd.toNat, (k : Int) ∈ used

instance instDecidableLowestFree (used : List Int) (fd : Int) : Decidable (LowestFree used fd) :=
  inferInstanceAs (Decidable (_ ∧ _ ∧ _))

variable {used : List Int} {fd n : Int}

/-- A descriptor is no negative number. -/
theorem LowestFree.nonneg (h : LowestFree used fd) : 0 ≤ fd := h.1

/-- A new descriptor was free. -/
theorem LowestFree.free (h : LowestFree used fd) : fd ∉ used := h.2.1

/-- Below a new descriptor all are in use. -/
theorem LowestFree.used_of_lt (h : LowestFree used fd) {k : Int} (hk : 0 ≤ k) (hlt : k < fd) :
    k ∈ used := by
  have hused := h.2.2 k.toNat (by omega)
  rwa [Int.toNat_of_nonneg hk] at hused

/-- The numbers below `n`. -/
theorem length_numbers : (slots id 0 (n - 1)).length = n.toNat := by
  rw [length_slots, Int.sub_add_cancel, Int.sub_zero]

/-- The lowest free number is below a bound when not all numbers below it are in use. -/
theorem LowestFree.lt_iff (h : LowestFree used fd) (hnodup : used.Nodup)
    (hnonneg : ∀ k ∈ used, 0 ≤ k) : fd < n ↔ (used.filter (· < n)).length < n.toNat := by
  have hfilter : (used.filter (· < n)).Nodup := hnodup.filter _
  constructor
  · intro hlt
    have hfree : fd ∉ used.filter (· < n) := fun hmem => h.free (List.mem_of_mem_filter hmem)
    have hsubset : fd :: used.filter (· < n) ⊆ slots id 0 (n - 1) := by
      intro k hk
      rw [mem_slots]
      obtain rfl | hk := List.mem_cons.mp hk
      · exact ⟨k, h.nonneg, by omega, rfl⟩
      · obtain ⟨hused, hbound⟩ := List.mem_filter.mp hk
        have := of_decide_eq_true hbound
        exact ⟨k, hnonneg k hused, by omega, rfl⟩
    have hle := ((List.nodup_cons.mpr ⟨hfree, hfilter⟩).subperm hsubset).length_le
    rw [length_numbers] at hle
    exact hle
  · intro hlen
    by_contra hge
    have hsubset : slots id 0 (n - 1) ⊆ used.filter (· < n) := by
      intro k hk
      rw [mem_slots] at hk
      obtain ⟨j, hpos, hle, rfl : j = k⟩ := hk
      have hlt : j < n := by omega
      exact List.mem_filter.mpr ⟨h.used_of_lt hpos (by omega), decide_eq_true hlt⟩
    have hnumbers : (slots id 0 (n - 1)).Nodup := nodup_slots fun _ _ _ hlt _ => Int.ne_of_lt hlt
    have hle := (hnumbers.subperm hsubset).length_le
    rw [length_numbers] at hle
    omega

end NetworkCode
