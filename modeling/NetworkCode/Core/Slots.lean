import Mathlib.Data.List.Nodup
import Mathlib.Logic.Function.Basic

/-!
# A pass over a table that changes meanwhile

A table has entries at the indexes up to a last one. A pass handles its entries one
after the other. Meanwhile an entry may be appended behind the last one, and the entry
that was just handled may be removed: the last one takes its place, which is then
handled again. Whatever happens, the entries that were handled and those that are still
to be handled are together the entries at the start and those that were appended.
-/

namespace NetworkCode

variable {α : Type*}

/-- The entries of a table from the index `i` to the index `n`, in order. -/
def slots (f : Int → α) (i n : Int) : List α :=
  (List.range (n + 1 - i).toNat).map fun k : Nat => f (i + k)

section

variable {f g : Int → α} {i n : Int} {a : α}

/-- The number of slots. -/
theorem length_slots : (slots f i n).length = (n + 1 - i).toNat := by
  rw [slots, List.length_map, List.length_range]

/-- There are no slots behind the last one. -/
theorem slots_of_lt (h : n < i) : slots f i n = [] := by
  rw [← List.length_eq_zero_iff, length_slots]
  omega

/-- The first slot, and those behind it. -/
theorem slots_cons (h : i ≤ n) : slots f i n = f i :: slots f (i + 1) n := by
  obtain ⟨m, hm⟩ : ∃ m : Nat, (n + 1 - i).toNat = m + 1 := ⟨(n - i).toNat, by omega⟩
  have hm' : (n + 1 - (i + 1)).toNat = m := by omega
  rw [slots, slots, hm, hm', List.range_succ_eq_map, List.map_cons, List.map_map]
  congr 1
  · congr 1
    omega
  · apply List.map_congr_left
    intro k _
    change f _ = f _
    congr 1
    push_cast
    omega

/-- What is in the slots. -/
theorem mem_slots : a ∈ slots f i n ↔ ∃ k, i ≤ k ∧ k ≤ n ∧ f k = a := by
  rw [slots, List.mem_map]
  constructor
  · rintro ⟨k, hk, rfl⟩
    rw [List.mem_range] at hk
    exact ⟨i + k, by omega, by omega, rfl⟩
  · rintro ⟨k, hi, hn, rfl⟩
    refine ⟨(k - i).toNat, List.mem_range.mpr (by omega), ?_⟩
    congr 1
    omega

/-- The slots are what they hold. -/
theorem slots_congr (h : ∀ k, i ≤ k → k ≤ n → f k = g k) : slots f i n = slots g i n := by
  apply List.map_congr_left
  intro k hk
  rw [List.mem_range] at hk
  exact h _ (by omega) (by omega)

/-- The last entry of a table stands behind the others. -/
theorem slots_concat (h : i ≤ n) : slots f i n = slots f i (n - 1) ++ [f n] := by
  obtain ⟨m, hm⟩ : ∃ m : Nat, (n + 1 - i).toNat = m + 1 := ⟨(n - i).toNat, by omega⟩
  have hm' : (n - 1 + 1 - i).toNat = m := by omega
  rw [slots, slots, hm, hm', List.range_succ, List.map_append, List.map_singleton]
  congr 3
  omega

/-- A table is its entries before an index and those from the index on. -/
theorem slots_append {m : Int} (hm : m ≤ i) (hi : i ≤ n + 1) :
    slots f m n = slots f m (i - 1) ++ slots f i n := by
  have hcount : (n + 1 - m).toNat = (i - 1 + 1 - m).toNat + (n + 1 - i).toNat := by omega
  rw [slots, slots, slots, hcount, List.range_add, List.map_append, List.map_map]
  congr 1
  apply List.map_congr_left
  intro k _
  change f _ = f _
  congr 1
  push_cast
  omega

/-- The last entry takes the place of the one at the index `i`. -/
theorem perm_slots_replace (h : i ≤ n) :
    (slots (Function.update f i (f n)) i (n - 1)).Perm (slots f (i + 1) n) := by
  by_cases hlast : i = n
  · rw [slots_of_lt (by omega), slots_of_lt (by omega)]
  · have hsame : slots (Function.update f i (f n)) (i + 1) (n - 1) = slots f (i + 1) (n - 1) :=
      slots_congr fun k hk _ => Function.update_of_ne (by omega) _ _
    rw [slots_cons (by omega), Function.update_self, hsame, slots_concat (by omega : i + 1 ≤ n)]
    exact (List.perm_append_singleton _ _).symm

/-- Together with the entry that is removed these are all entries. -/
theorem perm_cons_slots_replace {m : Int} (hm : m ≤ i) (h : i ≤ n) :
    (f i :: slots (Function.update f i (f n)) m (n - 1)).Perm (slots f m n) := by
  have hbefore : slots (Function.update f i (f n)) m (i - 1) = slots f m (i - 1) :=
    slots_congr fun k _ hk => Function.update_of_ne (by omega) _ _
  rw [slots_append hm (by omega), hbefore, slots_append hm (by omega : i ≤ n + 1), slots_cons h]
  exact List.perm_middle.symm.trans (((perm_slots_replace h).cons (f i)).append_left _)

/-- Entries that differ from index to index are listed once. -/
theorem nodup_slots (h : ∀ j k, i ≤ j → j < k → k ≤ n → f j ≠ f k) : (slots f i n).Nodup := by
  rw [slots]
  apply List.Nodup.map_on _ List.nodup_range
  intro j hj k hk he
  rw [List.mem_range] at hj hk
  rcases Nat.lt_trichotomy j k with hlt | heq | hgt
  · exact absurd he (h _ _ (by omega) (by omega) (by omega))
  · exact heq
  · exact absurd he.symm (h _ _ (by omega) (by omega) (by omega))

end

/-- The entries `handled` and those of the table from the index `i` on are together `all`. -/
def Accounts (handled : List α) (f : Int → α) (i n : Int) (all : List α) : Prop :=
  (handled ++ slots f i n).Perm all

namespace Accounts

variable {handled all : List α} {f g : Int → α} {i n : Int}

/-- Before a pass nothing was handled. -/
theorem start (f : Int → α) (i n : Int) : Accounts [] f i n (slots f i n) := List.Perm.refl _

/-- The entries that were handled already do not matter. -/
theorem congr (h : Accounts handled f i n all) (hfg : ∀ k, i ≤ k → k ≤ n → g k = f k) :
    Accounts handled g i n all := by
  rw [Accounts, slots_congr hfg]
  exact h

/-- An entry is handled and stays. -/
theorem keep (h : Accounts handled f i n all) (hi : i ≤ n) :
    Accounts (handled ++ [f i]) f (i + 1) n all := by
  rw [Accounts, slots_cons hi] at h
  rw [Accounts, List.append_assoc]
  exact h

/-- An entry is handled and removed: the last one takes its place. -/
theorem remove (h : Accounts handled f i n all) (hi : i ≤ n) :
    Accounts (handled ++ [f i]) (Function.update f i (f n)) i (n - 1) all := by
  rw [Accounts, slots_cons hi] at h
  rw [Accounts, List.append_assoc]
  exact (((perm_slots_replace hi).cons (f i)).append_left handled).trans h

/-- An entry is handled and stays, and one is appended behind the last one. -/
theorem append (h : Accounts handled f i n all) (hi : i ≤ n) (a : α) :
    Accounts (handled ++ [f i]) (Function.update f (n + 1) a) (i + 1) (n + 1) (all ++ [a]) := by
  have hsame : slots (Function.update f (n + 1) a) (i + 1) n = slots f (i + 1) n :=
    slots_congr fun k _ hk => Function.update_of_ne (by omega) _ _
  rw [Accounts, slots_concat (by omega : i + 1 ≤ n + 1), Function.update_self, Int.add_sub_cancel,
    hsame, ← List.append_assoc]
  exact (h.keep hi).append_right [a]

/-- Behind the last entry all of them were handled. -/
theorem done (h : Accounts handled f i n all) (hi : n < i) : handled.Perm all := by
  rw [Accounts, slots_of_lt hi, List.append_nil] at h
  exact h

end Accounts

end NetworkCode
