import NetworkCode.Core.Descriptors

/-!
# Tables of handles

A process has a table of the numbers that the system has given out, each with the party that
uses it. A number is issued when it is not in use, revoked by whoever names it, and passed on to
another party. As long as no number is given out twice, it has one user.
-/

namespace NetworkCode

/-- The numbers in use and their users. -/
abbrev Handles (ο : Type*) := List (Int × ο)

namespace Handles

variable {ο : Type*} {t : Handles ο} {n : Int} {o : ο} {p q : Int × ο}

/-- The numbers in use. -/
def numbers (t : Handles ο) : List Int := t.map Prod.fst

/-- Take a number out of use. -/
def revoke (t : Handles ο) (n : Int) : Handles ο := t.filter fun p => p.1 != n

/-- Give a number to another user. -/
def pass (t : Handles ο) (n : Int) (o : ο) : Handles ο :=
  t.map fun p => if p.1 = n then (n, o) else p

/-- An entry has its number in the table. -/
theorem mem_numbers (h : p ∈ t) : p.1 ∈ t.numbers := List.mem_map_of_mem h

/-- A number has one user. -/
theorem user_unique (h : t.numbers.Nodup) (hp : p ∈ t) (hq : q ∈ t) (he : p.1 = q.1) : p = q :=
  List.inj_on_of_nodup_map h hp hq he

theorem numbers_cons : numbers ((n, o) :: t) = n :: t.numbers := rfl

/-- A number that was free is issued once. -/
theorem nodup_issue (h : t.numbers.Nodup) (hn : n ∉ t.numbers) :
    (numbers ((n, o) :: t)).Nodup := by
  rw [numbers_cons]
  exact List.nodup_cons.mpr ⟨hn, h⟩

/-- Revoking a number takes its entries away, and no others. -/
theorem mem_revoke : p ∈ t.revoke n ↔ p ∈ t ∧ p.1 ≠ n := by
  simp [revoke]

/-- Revoking a number leaves the others distinct. -/
theorem nodup_revoke (h : t.numbers.Nodup) : (t.revoke n).numbers.Nodup :=
  h.sublist ((List.filter_sublist).map Prod.fst)

/-- The entries are the one that goes and the others. -/
theorem perm_cons_revoke (h : t.numbers.Nodup) (hp : p ∈ t) : t.Perm (p :: t.revoke p.1) := by
  have hnodup : t.Nodup := h.of_map
  have hrest : (p :: t.revoke p.1).Nodup :=
    List.nodup_cons.mpr ⟨fun hmem => (mem_revoke.mp hmem).2 rfl, hnodup.filter _⟩
  rw [List.perm_ext_iff_of_nodup hnodup hrest]
  intro q
  rw [List.mem_cons, mem_revoke]
  constructor
  · intro hq
    by_cases he : q.1 = p.1
    · exact .inl (user_unique h hq hp he)
    · exact .inr ⟨hq, he⟩
  · rintro (rfl | ⟨hq, -⟩)
    · exact hp
    · exact hq

/-- Passing a number on changes no number. -/
theorem numbers_pass : (t.pass n o).numbers = t.numbers := by
  rw [numbers, numbers, pass, List.map_map]
  apply List.map_congr_left
  intro p _
  by_cases h : p.1 = n
  · simp [h]
  · simp [h]

/-- Passing a number on takes none away. -/
theorem length_pass : (t.pass n o).length = t.length := List.length_map ..

/-- The number that is passed on has the new user, all others keep theirs. -/
theorem mem_pass : p ∈ t.pass n o ↔
    (p ∈ t ∧ p.1 ≠ n) ∨ (p = (n, o) ∧ n ∈ t.numbers) := by
  rw [pass, List.mem_map]
  constructor
  · rintro ⟨q, hq, rfl⟩
    by_cases h : q.1 = n
    · rw [if_pos h]
      exact .inr ⟨rfl, h ▸ mem_numbers hq⟩
    · rw [if_neg h]
      exact .inl ⟨hq, h⟩
  · rintro (⟨hp, hne⟩ | ⟨rfl, hn⟩)
    · exact ⟨p, hp, if_neg hne⟩
    · obtain ⟨q, hq, hqn⟩ := List.mem_map.mp hn
      exact ⟨q, hq, if_pos hqn⟩

/-- Only the entry that is passed on changes. -/
theorem perm_pass (h : t.numbers.Nodup) (hp : p ∈ t) :
    (t.pass p.1 o).Perm ((p.1, o) :: t.revoke p.1) := by
  have hnumbers : (t.pass p.1 o).numbers.Nodup := by rwa [numbers_pass]
  have hpass : (t.pass p.1 o).Nodup := hnumbers.of_map
  have hnew : ((p.1, o) :: t.revoke p.1).Nodup :=
    List.nodup_cons.mpr ⟨fun hmem => (mem_revoke.mp hmem).2 rfl, h.of_map.filter _⟩
  rw [List.perm_ext_iff_of_nodup hpass hnew]
  intro q
  rw [mem_pass, List.mem_cons, mem_revoke, or_comm, and_iff_left (mem_numbers hp)]

/-- Numbers below a bound, each in use once, are no more than the bound. -/
theorem length_le (h : t.numbers.Nodup) (hbound : ∀ k ∈ t.numbers, 0 ≤ k ∧ k < n) :
    t.length ≤ n.toNat := by
  have hsubset : t.numbers ⊆ slots id 0 (n - 1) := by
    intro k hk
    obtain ⟨hpos, hlt⟩ := hbound k hk
    exact mem_slots.mpr ⟨k, hpos, by omega, rfl⟩
  have hle := (h.subperm hsubset).length_le
  rw [length_numbers] at hle
  rwa [numbers, List.length_map] at hle

/-- When a table is full, no lowest free number is below the bound. -/
theorem not_lt_of_full {fd : Int} (h : t.numbers.Nodup)
    (hbound : ∀ k ∈ t.numbers, 0 ≤ k ∧ k < n) (hfull : n.toNat ≤ t.length)
    (hfree : LowestFree t.numbers fd) : ¬ fd < n := by
  rw [hfree.lt_iff h fun k hk => (hbound k hk).1]
  have hall : t.numbers.filter (· < n) = t.numbers :=
    List.filter_eq_self.mpr fun k hk => decide_eq_true (hbound k hk).2
  rw [hall, numbers, List.length_map]
  omega

end Handles

end NetworkCode
