import NetworkCode.Core.Text
import Mathlib.Data.List.Induction

/-!
# The lexical rules of SQL

A scanner in the dialect of MySQL. Inside a string literal two quotes stand for one, and
unless the server's mode says otherwise a backslash starts an escape sequence. Comments are
lexical elements here, so that a text with a comment differs from the text without it. A
string put between quotes as it is is read back from there exactly when no quote is in it
and every backslash of it is followed by `%` or `_`.
-/

namespace NetworkCode.Sql

open Text

/-! ## The scanner -/

/-- A lexical element: a keyword, a name or a number; a name in backticks; a string literal,
with the string it denotes; a comment; any other byte. -/
inductive Token where
  | word (w : Bytes)
  | name (w : Bytes)
  | literal (value : Bytes)
  | comment
  | symbol (b : UInt8)
  deriving DecidableEq

/-- Where the scanner is. -/
inductive Mode where
  | between
  | word (w : Bytes)
  | inside (quote : UInt8) (value : Bytes)
  -- behind a backslash
  | escape (quote : UInt8) (value : Bytes)
  -- behind a quote that ends the literal if it is not doubled
  | closing (quote : UInt8) (value : Bytes)
  | dash
  | dashes
  | slash
  | line
  | block (star : Bool)
  deriving DecidableEq

def isSpace (b : UInt8) : Bool := b == 32 || (9 ≤ b && b ≤ 13)

/-- A byte of a keyword, a name or a number. -/
def isWord (b : UInt8) : Bool :=
  (48 ≤ b && b ≤ 57) || (65 ≤ b && b ≤ 90) || (97 ≤ b && b ≤ 122) || b == 95 || b == 36 || 128 ≤ b

/-- What an escape sequence stands for. Those for `%` and `_` stand for themselves. -/
def unescape (b : UInt8) : Bytes :=
  if b = 48 then [0]
  else if b = 98 then [8]
  else if b = 110 then [10]
  else if b = 114 then [13]
  else if b = 116 then [9]
  else if b = 90 then [26]
  else if b = 37 ∨ b = 95 then [92, b]
  else [b]

def delimited (quote : UInt8) (value : Bytes) : Token :=
  if quote = 96 then .name value else .literal value

/-- The first byte of a lexical element. -/
def start (b : UInt8) : Mode × List Token :=
  if isSpace b then (.between, [])
  else if b = 39 ∨ b = 34 ∨ b = 96 then (.inside b [], [])
  else if b = 35 then (.line, [.comment])
  else if b = 45 then (.dash, [])
  else if b = 47 then (.slash, [])
  else if isWord b then (.word [b], [])
  else (.between, [.symbol b])

/-- The lexical elements that were complete before this byte, which starts another. -/
def startAfter (ts : List Token) (b : UInt8) : Mode × List Token :=
  ((start b).1, ts ++ (start b).2)

/-- One byte: where the scanner is behind it, and the lexical elements it has found.
`escapes` is whether a backslash starts an escape sequence. -/
def scan (escapes : Bool) : Mode → UInt8 → Mode × List Token
  | .between, b => start b
  | .word w, b => if isWord b then (.word (w ++ [b]), []) else startAfter [.word w] b
  | .inside q v, b =>
    if b = q then (.closing q v, [])
    else if b = 92 ∧ escapes = true ∧ q ≠ 96 then (.escape q v, [])
    else (.inside q (v ++ [b]), [])
  | .escape q v, b => (.inside q (v ++ unescape b), [])
  | .closing q v, b =>
    if b = q then (.inside q (v ++ [q]), []) else startAfter [delimited q v] b
  | .dash, b => if b = 45 then (.dashes, []) else startAfter [.symbol 45] b
  -- two dashes are a comment only before a blank or a control character
  | .dashes, b =>
    if b = 10 then (.between, [.comment])
    else if b ≤ 32 then (.line, [.comment])
    else if b = 45 then (.dashes, [.symbol 45])
    else startAfter [.symbol 45, .symbol 45] b
  | .slash, b => if b = 42 then (.block false, [.comment]) else startAfter [.symbol 47] b
  | .line, b => (if b = 10 then .between else .line, [])
  | .block star, b => (if star ∧ b = 47 then .between else .block (b == 42), [])

/-- The lexical elements complete at the end of the text. A literal or a block comment must
have been closed. -/
def atEnd : Mode → Option (List Token)
  | .between => some []
  | .word w => some [.word w]
  | .inside _ _ => none
  | .escape _ _ => none
  | .closing q v => some [delimited q v]
  | .dash => some [.symbol 45]
  | .dashes => some [.comment]
  | .slash => some [.symbol 47]
  | .line => some []
  | .block _ => none

/-- The lexical elements of the text ahead. -/
def tokensFrom (escapes : Bool) : Mode → Bytes → Option (List Token)
  | m, [] => atEnd m
  | m, b :: text => (tokensFrom escapes (scan escapes m b).1 text).map ((scan escapes m b).2 ++ ·)

/-- The lexical elements of a text. -/
def tokens (escapes : Bool) (text : Bytes) : Option (List Token) :=
  tokensFrom escapes .between text

/-- Where the scanner is behind a text, and what it has found in it. -/
def scanAll (escapes : Bool) : Mode → Bytes → Mode × List Token
  | m, [] => (m, [])
  | m, b :: text =>
    let behind := scanAll escapes (scan escapes m b).1 text
    (behind.1, (scan escapes m b).2 ++ behind.2)

variable {escapes : Bool} {m : Mode} {b c : UInt8} {s t text value v w : Bytes} {ts : List Token}

/-- A text is read one part behind the other. -/
theorem tokensFrom_append (m : Mode) (s t : Bytes) :
    tokensFrom escapes m (s ++ t) =
      (tokensFrom escapes (scanAll escapes m s).1 t).map ((scanAll escapes m s).2 ++ ·) := by
  induction s generalizing m with
  | nil => simp [scanAll]
  | cons b s ih =>
    rw [List.cons_append, tokensFrom, ih, Option.map_map]
    simp [scanAll, Function.comp_def]

/-! ## String literals -/

/-- A string whose literal may be written with nothing but quotes around it. -/
def verbatim (escapes : Bool) : Bytes → Bool
  | [] => true
  | b :: s =>
    b != 39 && (!(escapes && b == 92) || s.head? == some 37 || s.head? == some 95) &&
      verbatim escapes s

/-- A byte inside a literal. -/
theorem tokensFrom_inside_cons (b : UInt8) (t : Bytes) :
    tokensFrom escapes (.inside 39 v) (b :: t) =
      if b = 39 then tokensFrom escapes (.closing 39 v) t
      else if b = 92 ∧ escapes = true then tokensFrom escapes (.escape 39 v) t
      else tokensFrom escapes (.inside 39 (v ++ [b])) t := by
  simp only [tokensFrom, scan]
  split_ifs <;> simp_all

/-- A byte behind a backslash. -/
theorem tokensFrom_escape_cons (b : UInt8) (t : Bytes) :
    tokensFrom escapes (.escape 39 v) (b :: t) =
      tokensFrom escapes (.inside 39 (v ++ unescape b)) t := by
  simp [tokensFrom, scan]

/-- A byte behind a quote. -/
theorem tokensFrom_closing_cons (b : UInt8) (t : Bytes) :
    tokensFrom escapes (.closing 39 v) (b :: t) =
      if b = 39 then tokensFrom escapes (.inside 39 (v ++ [39])) t
      else (tokensFrom escapes .between (b :: t)).map (.literal v :: ·) := by
  by_cases hb : b = 39
  · simp [tokensFrom, scan, hb]
  · simp [tokensFrom, scan, hb, startAfter, delimited, Function.comp_def]

/-- An escape sequence that stands for one byte stands for a quote or a backslash only if
this byte is behind the backslash. -/
theorem unescape_cases (b : UInt8) : (b = 37 ∨ b = 95) ∧ unescape b = [92, b] ∨
    ∃ e, unescape b = [e] ∧ (e = 39 ∨ e = 92 → e = b) := by
  have hcontrol (e : UInt8) (he : ¬ (e = 39 ∨ e = 92)) : e = 39 ∨ e = 92 → e = b :=
    fun h => absurd h he
  unfold unescape
  split_ifs with h0 hb hn hr ht hz hw
  · exact .inr ⟨0, rfl, hcontrol 0 (by decide)⟩
  · exact .inr ⟨8, rfl, hcontrol 8 (by decide)⟩
  · exact .inr ⟨10, rfl, hcontrol 10 (by decide)⟩
  · exact .inr ⟨13, rfl, hcontrol 13 (by decide)⟩
  · exact .inr ⟨9, rfl, hcontrol 9 (by decide)⟩
  · exact .inr ⟨26, rfl, hcontrol 26 (by decide)⟩
  · exact .inl ⟨hw, rfl⟩
  · exact .inr ⟨b, rfl, fun _ => rfl⟩

/-- What has been read of a literal is the beginning of its string. -/
theorem exists_literal (t : Bytes) (v : Bytes) :
    (tokensFrom escapes (.inside 39 v) t = some ts → ∃ x more, ts = .literal (v ++ x) :: more) ∧
    (tokensFrom escapes (.escape 39 v) t = some ts → ∃ x more, ts = .literal (v ++ x) :: more) ∧
    (tokensFrom escapes (.closing 39 v) t = some ts →
      ∃ x more, ts = .literal (v ++ x) :: more) := by
  induction t generalizing v ts with
  | nil =>
    refine ⟨fun h => ?_, fun h => ?_, fun h => ⟨[], [], ?_⟩⟩
    · cases h
    · cases h
    · cases h
      rw [List.append_nil]
      rfl
  | cons b t ih =>
    refine ⟨fun h => ?_, fun h => ?_, fun h => ?_⟩
    · rw [tokensFrom_inside_cons] at h
      split_ifs at h
      · exact (ih v).2.2 h
      · exact (ih v).2.1 h
      · obtain ⟨x, more, rfl⟩ := (ih _).1 h
        exact ⟨b :: x, more, by rw [List.append_cons v b x]⟩
    · rw [tokensFrom_escape_cons] at h
      obtain ⟨x, more, rfl⟩ := (ih _).1 h
      exact ⟨unescape b ++ x, more, by rw [List.append_assoc]⟩
    · rw [tokensFrom_closing_cons] at h
      split_ifs at h
      · obtain ⟨x, more, rfl⟩ := (ih _).1 h
        exact ⟨39 :: x, more, by rw [List.append_cons v 39 x]⟩
      · obtain ⟨more, -, rfl⟩ := Option.map_eq_some_iff.mp h
        exact ⟨[], more, by rw [List.append_nil]⟩

/-- A text is verbatim when its first byte is and what is behind it. -/
theorem verbatim_cons : verbatim escapes (b :: s) = true ↔
    b ≠ 39 ∧ (b = 92 ∧ escapes = true → s.head? = some 37 ∨ s.head? = some 95) ∧
      verbatim escapes s = true := by
  simp only [verbatim, Bool.and_eq_true, bne_iff_ne, Bool.or_eq_true, Bool.not_eq_true',
    Bool.and_eq_false_iff, beq_iff_eq, and_assoc]
  cases escapes <;> simp [or_assoc, imp_iff_not_or]

/-- What stands between quotes as it is denotes itself. -/
theorem tokensFrom_verbatim (hs : verbatim escapes s = true) (hc : c ≠ 39) :
    tokensFrom escapes (.inside 39 v) (s ++ 39 :: c :: t) =
      (tokensFrom escapes .between (c :: t)).map (.literal (v ++ s) :: ·) := by
  induction s using List.twoStepInduction generalizing v with
  | nil => simp [tokensFrom_inside_cons, tokensFrom_closing_cons, hc]
  | singleton a =>
    obtain ⟨ha, hb, -⟩ := verbatim_cons.mp hs
    have hplain : ¬ (a = 92 ∧ escapes = true) := fun h => by simpa using hb h
    simp [tokensFrom_inside_cons, tokensFrom_closing_cons, hc, ha, hplain]
  | cons_cons a b s ih ih' =>
    obtain ⟨ha, hb, hrest⟩ := verbatim_cons.mp hs
    rw [List.cons_append, tokensFrom_inside_cons, if_neg ha]
    split_ifs with hescape
    · have hb' : b = 37 ∨ b = 95 := by simpa using hb hescape
      have hunescape : unescape b = [a, b] := by
        rw [hescape.1]
        obtain rfl | rfl := hb' <;> rfl
      rw [List.cons_append, tokensFrom_escape_cons, ih (verbatim_cons.mp hrest).2.2, hunescape]
      simp
    · rw [ih' _ hrest]
      simp

/-- What has been read of a literal since `v` is a beginning of what it denotes behind `v`. -/
theorem read_of_literal
    (h : tokensFrom escapes (.inside 39 (v ++ s)) t = some (.literal (v ++ w) :: ts)) :
    ∃ x, w = s ++ x := by
  obtain ⟨x, more, heq⟩ := (exists_literal t (v ++ s)).1 h
  have hvalue : v ++ w = v ++ s ++ x := Token.literal.inj (List.cons.inj heq).1
  rw [List.append_assoc] at hvalue
  exact ⟨x, List.append_cancel_left hvalue⟩

/-- A literal that has ended denotes nothing more. -/
theorem eq_nil_of_ended {o : Option (List Token)}
    (h : o.map (.literal v :: ·) = some (.literal (v ++ w) :: ts)) : w = [] := by
  obtain ⟨_, -, heq⟩ := Option.map_eq_some_iff.mp h
  have hvalue : v = v ++ w := Token.literal.inj (List.cons.inj heq).1
  exact List.self_eq_append_right.mp hvalue

/-- A byte that does not stand for itself inside a literal. -/
def Special (escapes : Bool) (b : UInt8) : Prop := b = 39 ∨ b = 92 ∧ escapes = true

/-- The two bytes of patterns are not special. -/
theorem not_special_of_like (hb : b = 37 ∨ b = 95) : ¬ Special escapes b := by
  rcases hb with rfl | rfl <;> simp [Special]

/-- A byte that is not special stands for itself. -/
theorem tokensFrom_plain (hb : ¬ Special escapes b) :
    tokensFrom escapes (.inside 39 v) (b :: t) = tokensFrom escapes (.inside 39 (v ++ [b])) t := by
  rw [Special, not_or] at hb
  rw [tokensFrom_inside_cons, if_neg hb.1, if_neg hb.2]

/-- Behind a special byte the closing quote is read as a byte of the string. -/
theorem tokensFrom_special_closing (hb : Special escapes b) (hc : ¬ Special escapes c) :
    tokensFrom escapes (.inside 39 v) (b :: 39 :: c :: t) =
      tokensFrom escapes (.inside 39 (v ++ [39, c])) t := by
  have hquote : tokensFrom escapes (.inside 39 (v ++ [39])) (c :: t) =
      tokensFrom escapes (.inside 39 (v ++ [39, c])) t := by
    rw [tokensFrom_plain hc, List.append_assoc]
    rfl
  rw [tokensFrom_inside_cons]
  split_ifs with hb' hescape
  · rw [tokensFrom_closing_cons, if_pos rfl, hquote]
  · rw [tokensFrom_escape_cons]
    exact hquote
  · exact absurd hb (by simp [Special, hb', hescape])

/-- What a special byte does inside a literal: it ends the literal, or it is a backslash
before `%` or `_`, or it is read together with the next byte as one byte. -/
theorem tokensFrom_special (hb : Special escapes b)
    (h : tokensFrom escapes (.inside 39 v) (b :: c :: t) = some (.literal (v ++ w) :: ts)) :
    w = [] ∨
    (b = 92 ∧ (c = 37 ∨ c = 95) ∧
      tokensFrom escapes (.inside 39 (v ++ [b, c])) t = some (.literal (v ++ w) :: ts)) ∨
    ∃ e, tokensFrom escapes (.inside 39 (v ++ [e])) t = some (.literal (v ++ w) :: ts) ∧
      (Special escapes e → e = c) := by
  rw [tokensFrom_inside_cons] at h
  split_ifs at h with hquote hescape
  · rw [tokensFrom_closing_cons] at h
    split_ifs at h with hc
    · exact .inr (.inr ⟨39, h, fun _ => hc.symm⟩)
    · exact .inl (eq_nil_of_ended h)
  · rw [tokensFrom_escape_cons] at h
    obtain ⟨hc, hunescape⟩ | ⟨e, hunescape, he⟩ := unescape_cases c
    · rw [hunescape, ← hescape.1] at h
      exact .inr (.inl ⟨hescape.1, hc, h⟩)
    · rw [hunescape] at h
      exact .inr (.inr ⟨e, h, fun hspecial => he (hspecial.imp_right And.left)⟩)
  · exact absurd hb (by simp [Special, hquote, hescape])

/-- Once a quote or an escape sequence has taken the place of an equal byte, the scanner is
behind: it has to read `w`, made of special bytes, before what is ahead of it. The rest of
the string never makes up for this. -/
theorem literal_ne_of_behind (hc : ¬ Special escapes c) (hw : w ≠ [])
    (hspecial : ∀ a ∈ w, Special escapes a) :
    tokensFrom escapes (.inside 39 v) (s ++ 39 :: c :: t) ≠
      some (.literal (v ++ (w ++ s)) :: ts) := by
  intro h
  induction s using List.twoStepInduction generalizing v w with
  | nil =>
    have hne : c ≠ 39 := fun he => hc (.inl he)
    rw [List.nil_append, tokensFrom_inside_cons, if_pos rfl, tokensFrom_closing_cons,
      if_neg hne] at h
    exact hw (List.append_eq_nil_iff.mp (eq_nil_of_ended h)).1
  | singleton x =>
    obtain ⟨a, w, rfl⟩ := List.exists_cons_of_ne_nil hw
    obtain ⟨ha, hrest⟩ := List.forall_mem_cons.mp hspecial
    by_cases hx : Special escapes x
    · rw [List.singleton_append, tokensFrom_special_closing hx hc] at h
      obtain ⟨z, hz⟩ := read_of_literal h
      -- the byte behind the closing quote would have to be special
      have hmem : c ∈ w ++ [x] := by
        have htail : w ++ [x] = c :: z := (List.cons.inj hz).2
        exact htail ▸ List.mem_cons_self
      rcases List.mem_append.mp hmem with hcw | hcx
      · exact hc (hrest c hcw)
      · exact hc (List.mem_singleton.mp hcx ▸ hx)
    · rw [List.singleton_append, tokensFrom_plain hx] at h
      obtain ⟨z, hz⟩ := read_of_literal h
      exact hx ((List.cons.inj hz).1 ▸ ha)
  | cons_cons x y s ih ih' =>
    obtain ⟨a, w, rfl⟩ := List.exists_cons_of_ne_nil hw
    obtain ⟨ha, hrest⟩ := List.forall_mem_cons.mp hspecial
    by_cases hx : Special escapes x
    · obtain hnil | ⟨hx', hy, h⟩ | ⟨e, h, he⟩ := tokensFrom_special hx h
      · cases hnil
      · obtain ⟨z, hz⟩ := read_of_literal h
        have htail : w ++ x :: y :: s = y :: z := (List.cons.inj hz).2
        have hspecial' : Special escapes y := by
          cases w with
          | nil => exact (List.cons.inj htail).1 ▸ hx
          | cons b w => exact (List.cons.inj htail).1 ▸ hrest b List.mem_cons_self
        exact not_special_of_like hy hspecial'
      · obtain ⟨z, hz⟩ := read_of_literal h
        obtain rfl : a = e := (List.cons.inj hz).1
        obtain rfl := he ha
        refine ih (v := v ++ [a]) (w := w ++ [x, a]) (by simp) ?_ ?_
        · simpa [or_imp, forall_and, hx, ha] using hrest
        · simpa using h
    · rw [List.cons_append, tokensFrom_plain hx] at h
      obtain ⟨z, hz⟩ := read_of_literal h
      exact hx ((List.cons.inj hz).1 ▸ ha)

/-- Only what may be written so denotes itself between quotes. -/
theorem verbatim_of_tokensFrom (hc : ¬ Special escapes c)
    (h : tokensFrom escapes (.inside 39 v) (s ++ 39 :: c :: t) = some (.literal (v ++ s) :: ts)) :
    verbatim escapes s = true := by
  induction s using List.twoStepInduction generalizing v with
  | nil => rfl
  | singleton x =>
    by_cases hx : Special escapes x
    · rw [List.singleton_append, tokensFrom_special_closing hx hc] at h
      obtain ⟨z, hz⟩ := read_of_literal h
      cases hz
    · rw [Special, not_or] at hx
      exact verbatim_cons.mpr ⟨hx.1, fun hescape => absurd hescape hx.2, rfl⟩
  | cons_cons x y s ih ih' =>
    by_cases hx : Special escapes x
    · obtain hnil | ⟨rfl, hy, h⟩ | ⟨e, h, he⟩ := tokensFrom_special hx h
      · cases hnil
      · have hs := ih (v := v ++ [92, y]) (by simpa using h)
        have hy' : ¬ Special escapes y := not_special_of_like hy
        rw [Special, not_or] at hy'
        refine verbatim_cons.mpr ⟨by decide, fun _ => by simpa using hy, ?_⟩
        exact verbatim_cons.mpr ⟨hy'.1, fun hescape => absurd hescape hy'.2, hs⟩
      · obtain ⟨z, hz⟩ := read_of_literal h
        obtain rfl : x = e := (List.cons.inj hz).1
        obtain rfl := he hx
        have hbehind : tokensFrom escapes (.inside 39 (v ++ [x])) (s ++ 39 :: c :: t) =
            some (.literal (v ++ [x] ++ ([x] ++ s)) :: ts) := by simpa using h
        exact absurd hbehind (literal_ne_of_behind hc (by simp) (by simpa using hx))
    · rw [List.cons_append, tokensFrom_plain hx] at h
      rw [Special, not_or] at hx
      have hrest := ih' y (v := v ++ [x]) (by simpa using h)
      exact verbatim_cons.mpr ⟨hx.1, fun hescape => absurd hescape hx.2, hrest⟩

/-- A string between quotes as it is denotes itself exactly when it may be written so. -/
theorem tokensFrom_literal_iff (hc : ¬ Special escapes c) :
    tokensFrom escapes (.inside 39 []) (s ++ 39 :: c :: t) = some (.literal s :: ts) ↔
      verbatim escapes s = true ∧ tokensFrom escapes .between (c :: t) = some ts := by
  have hne : c ≠ 39 := fun he => hc (.inl he)
  have hread (hs : verbatim escapes s = true) :
      tokensFrom escapes (.inside 39 []) (s ++ 39 :: c :: t) =
        (tokensFrom escapes .between (c :: t)).map (.literal s :: ·) :=
    tokensFrom_verbatim hs hne
  constructor
  · intro h
    have hs : verbatim escapes s = true := verbatim_of_tokensFrom (v := []) hc h
    rw [hread hs] at h
    obtain ⟨ts', hts', heq⟩ := Option.map_eq_some_iff.mp h
    rw [← (List.cons.inj heq).2]
    exact ⟨hs, hts'⟩
  · rintro ⟨hs, hts⟩
    rw [hread hs, hts]
    rfl

end NetworkCode.Sql
