import NetworkCode.Core.Text

/-!
# Hexadecimal dumps

A byte is written as two digits. A dump of some bytes has a blank before every byte, a line
break before every byte whose number is a multiple of 16, and one behind the last byte. A
reader that skips blanks and line breaks and takes two digits for a byte gets the bytes back,
also from several dumps one behind the other.
-/

namespace NetworkCode.Text

/-- A hexadecimal digit. -/
def hexDigit (n : Nat) : UInt8 := if n < 10 then (48 + n).toUInt8 else (55 + n).toUInt8

/-- The two digits of a byte. -/
def hexByte (b : UInt8) : Bytes := [hexDigit (b.toNat / 16), hexDigit (b.toNat % 16)]

/-- The value of a hexadecimal digit. -/
def hexValue (c : UInt8) : Option Nat :=
  if 48 ≤ c.toNat ∧ c.toNat ≤ 57 then some (c.toNat - 48)
  else if 65 ≤ c.toNat ∧ c.toNat ≤ 70 then some (c.toNat - 55)
  else none

/-- The bytes that a text of two-digit tokens stands for. -/
def readHex : Bytes → Option Bytes
  | [] => some []
  | c :: s =>
    if c = 32 ∨ c = 10 then
      readHex s
    else
      match s with
      | [] => none
      | d :: s =>
        (hexValue c).bind fun high => (hexValue d).bind fun low =>
          (readHex s).map ((16 * high + low).toUInt8 :: ·)

/-- The byte `i` of a dump. -/
def cell (i : Nat) (b : UInt8) : Bytes := (if i % 16 = 0 then [10] else []) ++ 32 :: hexByte b

/-- A dump. -/
def dump (bytes : Bytes) : Bytes :=
  (bytes.mapIdx cell).flatten ++ if bytes = [] then [] else [10]

/-- A digit has its value, and is no blank. -/
theorem hexValue_hexDigit {n : Nat} (h : n < 16) :
    hexValue (hexDigit n) = some n ∧ hexDigit n ≠ 32 ∧ hexDigit n ≠ 10 := by
  decide +revert

/-- Blanks are skipped. -/
theorem readHex_blank {c : UInt8} (h : c = 32 ∨ c = 10) (s : Bytes) :
    readHex (c :: s) = readHex s := by
  rw [readHex.eq_def]
  exact if_pos h

/-- Two digits are read as their byte. -/
theorem readHex_hexByte (b : UInt8) (s : Bytes) :
    readHex (hexByte b ++ s) = (readHex s).map (b :: ·) := by
  have hlt := b.toNat_lt
  obtain ⟨hhigh, hspace, hbreak⟩ := hexValue_hexDigit (n := b.toNat / 16) (by omega)
  obtain ⟨hlow, -⟩ := hexValue_hexDigit (n := b.toNat % 16) (by omega)
  have hbyte : (16 * (b.toNat / 16) + b.toNat % 16).toUInt8 = b := by
    rw [Nat.div_add_mod]
    exact UInt8.ofNat_toNat
  have hnot : ¬ (hexDigit (b.toNat / 16) = 32 ∨ hexDigit (b.toNat / 16) = 10) :=
    not_or.mpr ⟨hspace, hbreak⟩
  rw [hexByte, List.cons_append, List.cons_append, List.nil_append, readHex, if_neg hnot]
  simp only [hhigh, hlow, Option.bind_some, hbyte]

/-- A cell is read as its byte. -/
theorem readHex_cell (i : Nat) (b : UInt8) (s : Bytes) :
    readHex (cell i b ++ s) = (readHex s).map (b :: ·) := by
  have hblank : readHex (32 :: hexByte b ++ s) = (readHex s).map (b :: ·) := by
    rw [List.cons_append, readHex_blank (.inl rfl), readHex_hexByte]
  unfold cell
  split
  · rw [List.singleton_append, List.cons_append, readHex_blank (.inr rfl), hblank]
  · rw [List.nil_append, hblank]

/-- Cells are read as their bytes, wherever their line breaks are. -/
theorem readHex_cells (f : Nat → Nat) (bytes s : Bytes) :
    readHex ((bytes.mapIdx fun i b => cell (f i) b).flatten ++ s) =
      (readHex s).map (bytes ++ ·) := by
  induction bytes generalizing f with
  | nil => simp
  | cons b bytes ih =>
    rw [List.mapIdx_cons, List.flatten_cons, List.append_assoc, readHex_cell,
      ih fun i => f (i + 1), Option.map_map]
    rfl

/-- A dump is read as its bytes. -/
theorem readHex_dump (bytes s : Bytes) :
    readHex (dump bytes ++ s) = (readHex s).map (bytes ++ ·) := by
  have htail : readHex ((if bytes = [] then [] else [10]) ++ s) = readHex s := by
    split
    · rfl
    · exact readHex_blank (.inr rfl) s
  rw [dump, List.append_assoc]
  exact (readHex_cells id bytes _).trans (by rw [htail])

end NetworkCode.Text
