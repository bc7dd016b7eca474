import Mathlib.Data.List.TakeWhile
import Mathlib.Algebra.Order.Group.Nat
import Mathlib.Algebra.Ring.Nat
import Mathlib.Algebra.Ring.Int.Defs

/-!
# Byte strings and decimal numerals

Strings are lists of bytes. A C string ends before the first NUL of its array. The decimal
numeral of a number is what `printf` writes for `%d`; different numbers have different
numerals, and reading a numeral gives the number back.
-/

namespace NetworkCode.Text

/-- A byte string. -/
abbrev Bytes := List UInt8

/-- The bytes of an ASCII text. -/
def ascii (s : String) : Bytes := s.toList.map fun c => c.toNat.toUInt8

/-! ## C strings -/

/-- The string in an array: the bytes before the first NUL. -/
def cstr (buf : Bytes) : Bytes := buf.takeWhile (· != 0)

/-- A string holds no NUL. -/
theorem notMem_cstr (buf : Bytes) : 0 ∉ cstr buf := by
  intro h
  simpa using List.mem_takeWhile_imp h

/-- Without a NUL all of an array is its string. -/
theorem cstr_of_notMem {buf : Bytes} (h : 0 ∉ buf) : cstr buf = buf := by
  refine List.takeWhile_eq_self_iff.mpr fun c hc => ?_
  have hne : c ≠ 0 := fun he => h (he ▸ hc)
  simpa using hne

/-- Only what is in front of its NUL belongs to a string. -/
theorem cstr_append_zero (buf rest : Bytes) : cstr (buf ++ 0 :: rest) = cstr buf := by
  rw [cstr, cstr, List.takeWhile_append]
  split
  · rename_i hall
    rw [List.takeWhile_cons_of_neg (by decide), List.append_nil]
    exact ((List.takeWhile_prefix _).eq_of_length hall).symm
  · rfl

/-- A string that is terminated in its array. -/
theorem cstr_append_nul {s : Bytes} (h : 0 ∉ s) (rest : Bytes) : cstr (s ++ 0 :: rest) = s := by
  rw [cstr_append_zero, cstr_of_notMem h]

/-! ## Decimal numerals -/

/-- The decimal numeral of a number. -/
def digits (n : Nat) : Bytes := (Nat.toDigits 10 n).map fun c => c.toNat.toUInt8

/-- The value of a numeral. -/
def value (s : Bytes) : Nat := s.foldl (fun n c => n * 10 + (c.toNat - 48)) 0

/-- The characters of a numeral are those of the digits. -/
theorem toNat_of_mem_toDigits {n : Nat} {c : Char} (h : c ∈ Nat.toDigits 10 n) :
    48 ≤ c.toNat ∧ c.toNat ≤ 57 := by
  have hdigit := Nat.isDigit_of_mem_toDigits (by decide) (by decide) h
  simp only [Char.isDigit, Bool.and_eq_true, decide_eq_true_eq] at hdigit
  exact hdigit

/-- A numeral has the value of its number. -/
theorem value_digits (n : Nat) : value (digits n) = n := by
  have hfold (cs : List Char) (hcs : ∀ c ∈ cs, c.toNat ≤ 57) (m : Nat) :
      (cs.map fun c => c.toNat.toUInt8).foldl (fun n c => n * 10 + (c.toNat - 48)) m =
        Nat.ofDigitChars 10 cs m := by
    induction cs generalizing m with
    | nil => simp
    | cons c cs ih =>
      have hc : c.toNat.toUInt8.toNat = c.toNat := by
        have hle := hcs c List.mem_cons_self
        exact Nat.mod_eq_of_lt (by omega)
      rw [List.map_cons, List.foldl_cons, Nat.ofDigitChars_cons, hc, Nat.mul_comm m 10]
      exact ih (fun c' hc' => hcs c' (List.mem_cons_of_mem c hc')) _
  rw [value, digits, hfold _ (fun c hc => (toNat_of_mem_toDigits hc).2)]
  exact Nat.ofDigitChars_toDigits (by decide) (by decide)

/-- Different numbers have different numerals. -/
theorem digits_inj {m n : Nat} : digits m = digits n ↔ m = n :=
  ⟨fun h => by rw [← value_digits m, h, value_digits], fun h => h ▸ rfl⟩

/-- How long the numerals of small numbers are. -/
theorem length_digits_le_iff {n k : Nat} (hk : 0 < k) : (digits n).length ≤ k ↔ n < 10 ^ k := by
  rw [digits, List.length_map]
  exact Nat.length_toDigits_le_iff (by decide) hk

/-- A numeral has only digits. -/
theorem mem_digits {n : Nat} {c : UInt8} (h : c ∈ digits n) : 48 ≤ c.toNat ∧ c.toNat ≤ 57 := by
  obtain ⟨d, hd, rfl⟩ := List.mem_map.mp h
  obtain ⟨hlo, hhi⟩ := toNat_of_mem_toDigits hd
  have hd : d.toNat.toUInt8.toNat = d.toNat := Nat.mod_eq_of_lt (by omega)
  rw [hd]
  exact ⟨hlo, hhi⟩

/-- No number has an empty numeral. -/
theorem digits_ne_nil (n : Nat) : digits n ≠ [] := by
  intro h
  have hzero := (length_digits_le_iff (n := n) (k := 1) (by decide)).mp (by rw [h]; decide)
  have hlen := Nat.length_toDigits_pos (b := 10) (n := n)
  rw [digits, List.map_eq_nil_iff] at h
  rw [h] at hlen
  cases hlen

end NetworkCode.Text
