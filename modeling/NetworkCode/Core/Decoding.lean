import NetworkCode.Core.Hex

/-!
# Texts that are read from the left

The text of a value decodes when it tells, whatever stands behind it, where it ends and what
the value is. Such texts one behind the other decode, and a sequence of them gives back the
sequence of its values. Constants decode; a numeral does when something that is no digit is
behind it, and so does a dump in front of a text that does not go on like one.
-/

namespace NetworkCode.Text

variable {α β γ : Type*} {P Q : α → Prop} {f g : α → Bytes} {v : α → β} {w : α → γ}

/-- The texts of all `a` with `P` begin no others, and give back the values. -/
def Decodes (P : α → Prop) (f : α → Bytes) (v : α → β) : Prop :=
  ∀ a b x y, P a → P b → f a ++ x = f b ++ y → v a = v b ∧ x = y

namespace Decodes

/-- A constant text says nothing. -/
theorem const (s : Bytes) : Decodes P (fun _ => s) fun _ => () :=
  fun _ _ _ _ _ _ h => ⟨rfl, List.append_cancel_left h⟩

/-- One text behind the other. -/
theorem append (hf : Decodes P f v) (hg : Decodes P g w) :
    Decodes P (fun a => f a ++ g a) fun a => (v a, w a) := by
  intro a b x y ha hb h
  rw [List.append_assoc, List.append_assoc] at h
  obtain ⟨hv, hrest⟩ := hf a b _ _ ha hb h
  obtain ⟨hw, hxy⟩ := hg a b x y ha hb hrest
  exact ⟨Prod.ext hv hw, hxy⟩

/-- Less of the value. -/
theorem map (h : Decodes P f v) (k : β → γ) : Decodes P f fun a => k (v a) :=
  fun a b x y ha hb he => (h a b x y ha hb he).imp_left fun hv => congrArg k hv

/-- The text of a part of a value. -/
theorem comp (h : Decodes Q f v) {k : γ → α} {R : γ → Prop} (hRQ : ∀ c, R c → Q (k c)) :
    Decodes R (fun c => f (k c)) fun c => v (k c) :=
  fun a b x y ha hb => h (k a) (k b) x y (hRQ a ha) (hRQ b hb)

/-- The value said otherwise. -/
theorem value {u : α → β} (h : Decodes P f v) (huv : ∀ a, P a → u a = v a) : Decodes P f u := by
  intro a b x y ha hb he
  rw [huv a ha, huv b hb]
  exact h a b x y ha hb he

/-- The same text written otherwise. -/
theorem congr (h : Decodes P f v) (hfg : ∀ a, P a → g a = f a) : Decodes P g v := by
  intro a b x y ha hb he
  rw [hfg a ha, hfg b hb] at he
  exact h a b x y ha hb he

/-- A sequence of texts gives back the sequence of values. -/
theorem flatMap_inj (h : Decodes P f v) (hne : ∀ a, P a → f a ≠ []) {as bs : List α}
    (has : ∀ a ∈ as, P a) (hbs : ∀ b ∈ bs, P b) (he : as.flatMap f = bs.flatMap f) :
    as.map v = bs.map v := by
  induction as generalizing bs with
  | nil =>
    cases bs with
    | nil => rfl
    | cons b bs =>
      rw [List.flatMap_nil, List.flatMap_cons] at he
      exact absurd (List.append_eq_nil_iff.mp he.symm).1 (hne b (hbs b List.mem_cons_self))
  | cons a as ih =>
    cases bs with
    | nil =>
      rw [List.flatMap_nil, List.flatMap_cons] at he
      exact absurd (List.append_eq_nil_iff.mp he).1 (hne a (has a List.mem_cons_self))
    | cons b bs =>
      rw [List.flatMap_cons, List.flatMap_cons] at he
      obtain ⟨hv, hrest⟩ := h a b _ _ (has a List.mem_cons_self) (hbs b List.mem_cons_self) he
      rw [List.map_cons, List.map_cons, hv,
        ih (fun c hc => has c (List.mem_cons_of_mem _ hc))
          (fun c hc => hbs c (List.mem_cons_of_mem _ hc)) hrest]

end Decodes

/-- Lines that have no line break in them. -/
theorem decodes_line (hf : ∀ a, P a → 10 ∉ f a) : Decodes P (fun a => f a ++ [10]) f := by
  have htake (a : α) (ha : P a) (x : Bytes) : (f a ++ 10 :: x).takeWhile (· != 10) = f a := by
    have hall : ∀ c ∈ f a, (c != 10) = true := fun c hc => by
      have hne : c ≠ 10 := fun he => hf a ha (he ▸ hc)
      simpa using hne
    rw [List.takeWhile_append_of_pos hall, List.takeWhile_cons_of_neg (by decide),
      List.append_nil]
  intro a b x y ha hb h
  rw [List.append_assoc, List.append_assoc] at h
  have hline : f a = f b := by
    rw [← htake a ha x, ← htake b hb y]
    exact congrArg _ h
  rw [hline] at h
  exact ⟨hline, (List.cons.inj (List.append_cancel_left h)).2⟩

/-! ## Numerals -/

/-- The character is a digit. -/
def IsDigit (c : UInt8) : Prop := 48 ≤ c.toNat ∧ c.toNat ≤ 57

instance IsDigit.decidable (c : UInt8) : Decidable (IsDigit c) :=
  inferInstanceAs (Decidable (_ ∧ _))

/-- A numeral ends in front of the first character that is no digit. -/
theorem takeWhile_digits {c : UInt8} (hc : ¬ IsDigit c) (n : Nat) (s : Bytes) :
    (digits n ++ c :: s).takeWhile (fun c => decide (IsDigit c)) = digits n := by
  have hall : ∀ d ∈ digits n, decide (IsDigit d) = true :=
    fun d hd => decide_eq_true (mem_digits hd)
  rw [List.takeWhile_append_of_pos hall, List.takeWhile_cons_of_neg (by simpa using hc),
    List.append_nil]

/-- A numeral and a text behind it that depends on the number and does not begin with a digit. -/
theorem decodes_digits {g : Nat → Bytes} (hg : ∀ n, ∃ c s, g n = c :: s ∧ ¬ IsDigit c) :
    Decodes (fun _ : Nat => True) (fun n => digits n ++ g n) id := by
  intro m n x y _ _ h
  obtain ⟨c, s, hc, hdigit⟩ := hg m
  obtain ⟨d, t, hd, hdigit'⟩ := hg n
  have hm := takeWhile_digits hdigit m (s ++ x)
  have hn := takeWhile_digits hdigit' n (t ++ y)
  rw [← List.cons_append, ← hc, ← List.append_assoc, h] at hm
  rw [← List.cons_append, ← hd, ← List.append_assoc, hm, digits_inj] at hn
  subst hn
  exact ⟨rfl, List.append_cancel_left h⟩

/-! ## Dumps -/

/-- A text that does not go on like a dump. -/
def Stops (s : Bytes) : Prop := s.head? ≠ some 32 ∧ s.take 2 ≠ [10, 32] ∧ s.length ≠ 1 ∧ s ≠ []

instance Stops.decidable (s : Bytes) : Decidable (Stops s) :=
  inferInstanceAs (Decidable (_ ∧ _ ∧ _ ∧ _))

/-- Two bytes have different digits. -/
theorem hexByte_inj {a b : UInt8} (h : hexByte a = hexByte b) : a = b := by
  have hread := congrArg readHex h
  rw [← List.append_nil (hexByte a), ← List.append_nil (hexByte b), readHex_hexByte,
    readHex_hexByte] at hread
  exact (List.cons.inj (Option.some.inj hread)).1

/-- A cell does not begin like a line break that is no part of it. -/
theorem cell_append_ne {i : Nat} {b : UInt8} {s t : Bytes} (ht : t.head? ≠ some 32) :
    cell i b ++ s ≠ 10 :: t := by
  intro h
  unfold cell at h
  split at h
  · obtain rfl := (List.cons.inj h).2
    exact ht rfl
  · exact absurd (List.cons.inj h).1 (by decide)

/-- A cell is read back with what is behind it. -/
theorem cell_append_inj {i : Nat} {a b : UInt8} {s t : Bytes} (h : cell i a ++ s = cell i b ++ t) :
    a = b ∧ s = t := by
  have hcell : cell i a = cell i b ∧ s = t := by
    refine List.append_inj h ?_
    simp only [cell, hexByte, List.length_append, List.length_cons]
  refine ⟨hexByte_inj ?_, hcell.2⟩
  have htail := List.append_cancel_left hcell.1
  exact (List.cons.inj htail).2

/-- Cells with a line break behind them, in front of a text that does not begin with a blank. -/
theorem cells_append_inj {as bs s t : Bytes} {i : Nat} (hs : s.head? ≠ some 32)
    (ht : t.head? ≠ some 32)
    (h : (as.mapIdx fun k a => cell (i + k) a).flatten ++ 10 :: s =
      (bs.mapIdx fun k b => cell (i + k) b).flatten ++ 10 :: t) : as = bs ∧ s = t := by
  induction as generalizing bs i with
  | nil =>
    cases bs with
    | nil => exact ⟨rfl, (List.cons.inj h).2⟩
    | cons b bs =>
      rw [List.mapIdx_cons, List.flatten_cons, List.append_assoc] at h
      exact absurd h.symm (cell_append_ne hs)
  | cons a as ih =>
    cases bs with
    | nil =>
      rw [List.mapIdx_cons, List.flatten_cons, List.append_assoc] at h
      exact absurd h (cell_append_ne ht)
    | cons b bs =>
      rw [List.mapIdx_cons, List.flatten_cons, List.append_assoc, List.mapIdx_cons,
        List.flatten_cons, List.append_assoc] at h
      obtain ⟨rfl, hrest⟩ := cell_append_inj h
      obtain ⟨rfl, hst⟩ := @ih bs (i + 1)
        (by simpa only [Nat.add_assoc, Nat.add_comm 1] using hrest)
      exact ⟨rfl, hst⟩

/-- A dump that is not empty begins with a line break and a blank. -/
theorem dump_cons (b : UInt8) (bs : Bytes) : ∃ s, dump (b :: bs) = 10 :: 32 :: s := by
  refine ⟨hexByte b ++ (bs.mapIdx fun k b => cell (k + 1) b).flatten ++ [10], ?_⟩
  rw [dump, List.mapIdx_cons, List.flatten_cons, if_neg (List.cons_ne_nil b bs)]
  rfl

/-- What stops a dump does not begin with a blank. -/
theorem head?_append_of_stops {s : Bytes} (hs : Stops s) (x : Bytes) :
    (s ++ x).head? ≠ some 32 := by
  cases s with
  | nil => exact absurd rfl hs.2.2.2
  | cons c s => exact hs.1

/-- What stops a dump begins no further line of it. -/
theorem not_dump_of_stops {s x t : Bytes} (hs : Stops s) : s ++ x ≠ 10 :: 32 :: t := by
  intro h
  obtain ⟨-, htake, hone, hnil⟩ := hs
  match s with
  | [] => exact hnil rfl
  | [c] => exact hone rfl
  | c :: d :: s =>
    obtain ⟨rfl, hrest⟩ := List.cons.inj h
    obtain ⟨rfl, -⟩ := List.cons.inj hrest
    exact htake rfl

/-- A dump in front of a text that does not go on like one. -/
theorem decodes_dump {s : Bytes} (hs : Stops s) :
    Decodes (fun _ : Bytes => True) (fun bytes => dump bytes ++ s) id := by
  intro as bs x y _ _ h
  rw [List.append_assoc, List.append_assoc] at h
  have hcells (bytes : Bytes) (z : Bytes) (hne : bytes ≠ []) :
      dump bytes ++ z = (bytes.mapIdx fun k b => cell (0 + k) b).flatten ++ 10 :: z := by
    simp [dump, hne]
  have hnil (z : Bytes) : dump [] ++ z = z := rfl
  cases as with
  | nil =>
    rw [hnil] at h
    cases bs with
    | nil => exact ⟨rfl, List.append_cancel_left h⟩
    | cons b bs =>
      obtain ⟨t, ht⟩ := dump_cons b bs
      rw [ht] at h
      exact absurd h (not_dump_of_stops hs)
  | cons a as =>
    cases bs with
    | nil =>
      obtain ⟨t, ht⟩ := dump_cons a as
      rw [ht, hnil] at h
      exact absurd h.symm (not_dump_of_stops hs)
    | cons b bs =>
      rw [hcells _ _ (List.cons_ne_nil a as), hcells _ _ (List.cons_ne_nil b bs)] at h
      obtain ⟨hbytes, hrest⟩ := cells_append_inj (head?_append_of_stops hs x)
        (head?_append_of_stops hs y) h
      exact ⟨hbytes, List.append_cancel_left hrest⟩

end NetworkCode.Text
