import NetworkCode.Core.Text

/-!
# Numbers in C strings

`atoi` reads a number behind white space and a sign, and `printf` writes one for `%d`. A number
that was written is read back, as long as it fits an `int`.
-/

namespace NetworkCode.Text

/-- `isspace` in the C locale. -/
def isspace (c : UInt8) : Bool := c == 32 || (9 ≤ c && c ≤ 13)

/-- `isdigit`. -/
def isdigit (c : UInt8) : Bool := 48 ≤ c && c ≤ 57

/-- `strtol(s, NULL, 10)`: white space, a sign, digits; the value is clamped to 64 bits. -/
def strtol (s : Bytes) : Int :=
  match s.dropWhile isspace with
  | 45 :: s => max (-2 ^ 63) (-(value (s.takeWhile isdigit) : Int))
  | 43 :: s => min (2 ^ 63 - 1) (value (s.takeWhile isdigit))
  | s => min (2 ^ 63 - 1) (value (s.takeWhile isdigit))

/-- `atoi`: the low 32 bits of `strtol` as a signed number. -/
def atoi (s : Bytes) : Int := (strtol s).bmod (2 ^ 32)

/-- What `printf` writes for `%d`. -/
def decimal (num : Int) : Bytes := if num < 0 then 45 :: digits num.natAbs else digits num.toNat

/-- A number that is not negative is written without a sign. -/
theorem decimal_natCast (n : Nat) : decimal n = digits n := by
  rw [decimal, if_neg (by omega), Int.toNat_natCast]

/-- A numeral has only digits. -/
theorem isdigit_of_mem_digits {n : Nat} {c : UInt8} (h : c ∈ digits n) : isdigit c = true := by
  obtain ⟨hlo, hhi⟩ := mem_digits h
  simp only [isdigit, Bool.and_eq_true, decide_eq_true_eq, UInt8.le_iff_toNat_le]
  exact ⟨hlo, hhi⟩

/-- A numeral begins and ends with a digit, which is no sign and no white space. -/
theorem dropWhile_isspace_of_mem_digits {n : Nat} {s : Bytes} (h : ∀ c ∈ s, c ∈ digits n) :
    s.dropWhile isspace = s := by
  cases s with
  | nil => rfl
  | cons c s =>
    obtain ⟨hlo, hhi⟩ := mem_digits (h c List.mem_cons_self)
    have hspace : isspace c = false := by
      simp only [isspace, Bool.or_eq_false_iff, beq_eq_false_iff_ne, Bool.and_eq_false_iff,
        decide_eq_false_iff_not, UInt8.le_iff_toNat_le]
      refine ⟨fun he => ?_, .inr ?_⟩
      · rw [he] at hlo
        exact absurd hlo (by decide)
      · change ¬ c.toNat ≤ 13
        omega
    rw [List.dropWhile_cons, hspace]
    rfl

/-- A numeral does not begin with a sign. -/
theorem digits_ne_sign {n : Nat} {c : UInt8} {s : Bytes} (hc : c.toNat < 48) :
    digits n ≠ c :: s := by
  intro h
  have hmem : c ∈ digits n := by rw [h]; exact List.mem_cons_self
  have hlo := (mem_digits hmem).1
  omega

/-- All of a numeral is read. -/
theorem value_takeWhile_digits (n : Nat) : value ((digits n).takeWhile isdigit) = n := by
  rw [List.takeWhile_eq_self_iff.mpr fun c hc => isdigit_of_mem_digits hc]
  exact value_digits n

/-- A digit is neither white space nor a sign. -/
theorem digit_ne {b : UInt8} (hb : isdigit b = true) : isspace b = false ∧ b ≠ 45 ∧ b ≠ 43 := by
  simp only [isdigit, Bool.and_eq_true, decide_eq_true_eq, UInt8.le_iff_toNat_le] at hb
  have hlo : 48 ≤ b.toNat := hb.1
  refine ⟨?_, ?_, ?_⟩
  · simp only [isspace, Bool.or_eq_false_iff, beq_eq_false_iff_ne, Bool.and_eq_false_iff,
      decide_eq_false_iff_not, UInt8.le_iff_toNat_le, ne_eq, ← UInt8.toNat_inj,
      UInt8.reduceToNat]
    omega
  · rintro rfl
    exact absurd hlo (by decide)
  · rintro rfl
    exact absurd hlo (by decide)

/-- `strtol` finds the number behind white space. -/
theorem strtol_eq {blanks digits rest : Bytes} (hblanks : ∀ b ∈ blanks, isspace b = true)
    (hne : digits ≠ []) (hdigits : ∀ b ∈ digits, isdigit b = true)
    (hrest : ∀ b ∈ rest, isdigit b = false) :
    strtol (blanks ++ (digits ++ rest)) = min (2 ^ 63 - 1) (value digits : Int) := by
  obtain ⟨d, ds, rfl⟩ := List.exists_cons_of_ne_nil hne
  obtain ⟨hspace, hminus, hplus⟩ := digit_ne (hdigits d List.mem_cons_self)
  have hskip : (blanks ++ (d :: ds ++ rest)).dropWhile isspace = d :: ds ++ rest := by
    rw [List.dropWhile_append_of_pos hblanks, List.cons_append, List.dropWhile_cons_of_neg]
    simp [hspace]
  have htake : (d :: ds ++ rest).takeWhile isdigit = d :: ds := by
    rw [List.takeWhile_append_of_pos hdigits]
    cases rest with
    | nil => simp
    | cons b rest => simp [hrest b List.mem_cons_self]
  unfold strtol
  rw [hskip]
  split
  · rename_i heq
    exact absurd (List.cons.inj heq).1 hminus
  · rename_i heq
    exact absurd (List.cons.inj heq).1 hplus
  · rw [htake]

/-- `strtol` reads a numeral up to the largest number of 64 bits. -/
theorem strtol_digits (n : Nat) : strtol (digits n) = min (2 ^ 63 - 1) (n : Int) := by
  have hstrtol := strtol_eq (List.forall_mem_nil _) (digits_ne_nil n)
    (fun c hc => isdigit_of_mem_digits hc) (List.forall_mem_nil _)
  rwa [List.append_nil, value_digits] at hstrtol

/-- Reading a number that was written gives it back. -/
theorem atoi_digits {n : Nat} (h : n < 2 ^ 31) : atoi (digits n) = n := by
  rw [atoi, strtol_digits, min_eq_right (by omega)]
  exact Int.bmod_eq_of_le (by omega) (by omega)

/-- Without digits there is nothing but 0. -/
theorem strtol_blanks {blanks : Bytes} (hblanks : ∀ b ∈ blanks, isspace b = true) :
    strtol blanks = 0 := by
  rw [strtol, List.dropWhile_eq_nil_iff.mpr hblanks]
  rfl

/-- `atoi` finds the number behind white space, as far as it fits. -/
theorem atoi_blanks_append {blanks digits : Bytes} (hblanks : ∀ b ∈ blanks, isspace b = true)
    (hdigits : ∀ b ∈ digits, isdigit b = true) :
    atoi (blanks ++ digits) = (min (2 ^ 63 - 1) (value digits : Int)).bmod (2 ^ 32) := by
  cases digits with
  | nil =>
    rw [List.append_nil, atoi, strtol_blanks hblanks]
    rfl
  | cons d ds =>
    have hstrtol := strtol_eq hblanks (List.cons_ne_nil d ds) hdigits (List.forall_mem_nil _)
    rw [List.append_nil] at hstrtol
    rw [atoi, hstrtol]

/-- `atoi` gives no number that does not fit an `int`. -/
theorem atoi_lt (s : Bytes) : atoi s < 2 ^ 31 := by
  have hlt := @Int.bmod_lt (strtol s) (2 ^ 32) (by decide)
  rw [atoi]
  omega

/-- A number that fits an `int` is what `atoi` returns. -/
theorem atoi_eq {blanks digits rest : Bytes} (hblanks : ∀ b ∈ blanks, isspace b = true)
    (hne : digits ≠ []) (hdigits : ∀ b ∈ digits, isdigit b = true)
    (hrest : ∀ b ∈ rest, isdigit b = false) (hfits : value digits < 2 ^ 31) :
    atoi (blanks ++ (digits ++ rest)) = value digits := by
  rw [atoi, strtol_eq hblanks hne hdigits hrest, min_eq_right (by omega), Int.bmod_def]
  omega

/-- Further digits make a number no smaller. -/
theorem le_foldl_digits (s : Bytes) (n : Nat) :
    n ≤ s.foldl (fun n c => n * 10 + (c.toNat - 48)) n := by
  induction s generalizing n with
  | nil => exact Nat.le_refl n
  | cons c s ih =>
    have hstep := ih (n * 10 + (c.toNat - 48))
    rw [List.foldl_cons]
    omega

/-- Each further digit makes a number at least ten times as large. -/
theorem value_append_ge {s t : Bytes} (h : t ≠ []) : value s * 10 ≤ value (s ++ t) := by
  obtain ⟨c, t, rfl⟩ := List.exists_cons_of_ne_nil h
  have hstep := le_foldl_digits t (value s * 10 + (c.toNat - 48))
  have hvalue : value (s ++ c :: t) =
      t.foldl (fun n c => n * 10 + (c.toNat - 48)) (value s * 10 + (c.toNat - 48)) := by
    rw [value, List.foldl_append, List.foldl_cons]
    rfl
  rw [hvalue]
  exact (Nat.le_add_right _ _).trans hstep

end NetworkCode.Text
