import NetworkCode.Core.Decoding

/-!
# Texts in forms

A browser writes a text for a form byte by byte: letters, digits and four marks stand for
themselves, a blank becomes a plus sign, and every other byte a percent sign with two hexadecimal
digits. The separators of forms do not occur in what it writes, and a percent sign only in front of
two digits.
-/

namespace NetworkCode.Text

/-- The bytes that stand for themselves. -/
def unreserved (b : UInt8) : Bool :=
  (48 ≤ b && b ≤ 57) || (65 ≤ b && b ≤ 90) || (97 ≤ b && b ≤ 122) || b == 42 || b == 45 ||
    b == 46 || b == 95

/-- A byte of a text in a form. -/
def formByte (b : UInt8) : Bytes :=
  if unreserved b then [b] else if b = 32 then [43] else 37 :: hexByte b

/-- A text in a form. -/
def formText (s : Bytes) : Bytes := s.flatMap formByte

variable {b c : UInt8} {s : Bytes}

/-- An unreserved byte has no meaning in a form. -/
theorem unreserved_ne (h : unreserved c = true) : c ≠ 61 ∧ c ≠ 38 ∧ c ≠ 0 ∧ c ≠ 37 := by
  refine ⟨?_, ?_, ?_, ?_⟩ <;> rintro rfl <;> exact absurd h (by decide)

/-- A hexadecimal digit is unreserved. -/
theorem unreserved_hexDigit {n : Nat} (h : n < 16) : unreserved (hexDigit n) = true := by
  decide +revert

/-- Both digits of a byte are unreserved. -/
theorem unreserved_hexByte (b : UInt8) : ∀ c ∈ hexByte b, unreserved c = true := by
  have hlt := b.toNat_lt
  intro c hc
  rcases List.mem_cons.mp hc with rfl | hc
  · exact unreserved_hexDigit (by omega)
  · rw [List.mem_singleton.mp hc]
    exact unreserved_hexDigit (by omega)

/-- What a byte is encoded with. -/
theorem mem_formByte (hc : c ∈ formByte b) : unreserved c = true ∨ c = 43 ∨ c = 37 := by
  unfold formByte at hc
  split at hc
  · rename_i hb
    rw [List.mem_singleton.mp hc]
    exact .inl hb
  · split at hc
    · exact .inr (.inl (List.mem_singleton.mp hc))
    · rcases List.mem_cons.mp hc with hc | hc
      · exact .inr (.inr hc)
      · exact .inl (unreserved_hexByte b c hc)

/-- No separator of a form occurs in a text. -/
theorem ne_of_mem_formText (hc : c ∈ formText s) : c ≠ 61 ∧ c ≠ 38 ∧ c ≠ 0 := by
  obtain ⟨b, -, hb⟩ := List.mem_flatMap.mp hc
  rcases mem_formByte hb with h | rfl | rfl
  · exact ⟨(unreserved_ne h).1, (unreserved_ne h).2.1, (unreserved_ne h).2.2.1⟩
  · decide
  · decide

/-- Each byte is encoded. -/
theorem formByte_ne_nil (b : UInt8) : formByte b ≠ [] := by
  unfold formByte
  split
  · exact List.cons_ne_nil _ _
  · split <;> exact List.cons_ne_nil _ _

/-- Only a byte that stands for itself is written as itself. -/
theorem formByte_eq_self_iff : formByte b = [b] ↔ unreserved b = true := by
  unfold formByte
  split
  · rename_i hb
    exact iff_of_true rfl hb
  · rename_i hb
    refine iff_of_false ?_ hb
    split
    · rename_i hblank
      rw [hblank]
      decide
    · exact fun h => List.cons_ne_nil _ _ (List.cons.inj h).2

/-- What is written for each byte makes up the text itself only where each byte is written as
itself. -/
theorem flatMap_eq_self_iff {f : UInt8 → Bytes} (hf : ∀ b, f b ≠ []) :
    s.flatMap f = s ↔ ∀ b ∈ s, f b = [b] := by
  have hlength (s : Bytes) : s.length ≤ (s.flatMap f).length := by
    induction s with
    | nil => exact Nat.le_refl 0
    | cons b s ih =>
      have hpos := List.length_pos_iff.mpr (hf b)
      rw [List.flatMap_cons, List.length_append, List.length_cons]
      omega
  induction s with
  | nil => exact iff_of_true rfl (List.forall_mem_nil _)
  | cons b s ih =>
    rw [List.flatMap_cons, List.forall_mem_cons]
    refine Iff.trans ?_ (and_congr_right fun _ => ih)
    constructor
    · intro h
      obtain ⟨c, rest, hcons⟩ := List.exists_cons_of_ne_nil (hf b)
      rw [hcons, List.cons_append] at h
      obtain ⟨rfl, hrest⟩ := List.cons.inj h
      have hlen := congrArg List.length hrest
      rw [List.length_append] at hlen
      obtain rfl : rest = [] := List.length_eq_zero_iff.mp (by have := hlength s; omega)
      exact ⟨hcons, hrest⟩
    · rintro ⟨hb, hs⟩
      rw [hb, hs]
      rfl

end NetworkCode.Text
