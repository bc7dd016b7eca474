import Mathlib.Data.List.Basic
import Mathlib.Algebra.Order.Group.Nat
import Mathlib.Algebra.Ring.Nat
import Mathlib.Algebra.Ring.Int.Defs

/-!
# Lines of a byte stream, read in chunks of bounded size

A line is ended by CR LF, by LF or by a lone CR. A reader with room for `room`
bytes cuts a longer line into chunks and puts one LF in place of the line end.
Whether a CR at the very end of the stream ends its line depends on `ends`: the
reader looks at the next byte first, and it is told that there is none only when
the stream has ended.

Reading chunks until one consists of the LF alone skips lines until the first
whose length is a multiple of `room`: `readsTo_iff` connects the two views.
-/

namespace NetworkCode.LineStream

/-- Carriage return. -/
def CR : UInt8 := 13

/-- Line feed. -/
def LF : UInt8 := 10

theorem CR_ne_LF : CR ≠ LF := by decide

/-- What remains behind a CR: an LF directly after it belongs to the same line end. -/
def afterCR (ends : Bool) : List UInt8 → Option (List UInt8)
  | [] => if ends then some [] else none
  | b :: bs => if b = LF then some bs else some (b :: bs)

/-- The text of the first complete line and what follows its end. -/
def takeLine (ends : Bool) : List UInt8 → Option (List UInt8 × List UInt8)
  | [] => none
  | b :: bs =>
    if b = LF then some ([], bs)
    else if b = CR then (afterCR ends bs).map fun rest => ([], rest)
    else (takeLine ends bs).map fun r => (b :: r.1, r.2)

/-- What a reader with room for `room` bytes takes: at most `room` bytes of the
first line, its end included as one LF. -/
def takeChunk (ends : Bool) : Nat → List UInt8 → Option (List UInt8 × List UInt8)
  | 0, inbox => some ([], inbox)
  | _ + 1, [] => none
  | room + 1, b :: bs =>
    if b = LF then some ([LF], bs)
    else if b = CR then (afterCR ends bs).map fun rest => ([LF], rest)
    else (takeChunk ends room bs).map fun r => (b :: r.1, r.2)

variable {ends : Bool} {room : Nat} {inbox mid rest t c : List UInt8} {b : UInt8}

/-! ### One line -/

@[simp] theorem takeLine_nil : takeLine ends [] = none := rfl

/-- A line feed ends an empty line. -/
@[simp] theorem takeLine_LF : takeLine ends (LF :: inbox) = some ([], inbox) := by
  simp [takeLine]

/-- A carriage return ends an empty line once it is seen what is behind it. -/
@[simp] theorem takeLine_CR : takeLine ends (CR :: inbox) =
    (afterCR ends inbox).map fun rest => ([], rest) := by
  simp [takeLine, CR_ne_LF]

/-- Any other byte belongs to the line. -/
theorem takeLine_cons (hLF : b ≠ LF) (hCR : b ≠ CR) : takeLine ends (b :: inbox) =
    (takeLine ends inbox).map fun r => (b :: r.1, r.2) := by
  simp [takeLine, hLF, hCR]

/-- The ways a complete line can start: with its end, or with a byte of text
before a complete line. -/
inductive TakesLine (ends : Bool) : List UInt8 → List UInt8 → List UInt8 → Prop
  | lf (bs : List UInt8) : TakesLine ends (LF :: bs) [] bs
  | cr {bs rest : List UInt8} : afterCR ends bs = some rest → TakesLine ends (CR :: bs) [] rest
  | text {b : UInt8} {bs t rest : List UInt8} : b ≠ LF → b ≠ CR →
      takeLine ends bs = some (t, rest) → TakesLine ends bs t rest →
        TakesLine ends (b :: bs) (b :: t) rest

/-- A line that is taken has one of the three shapes. -/
theorem takesLine_of_takeLine (h : takeLine ends inbox = some (t, rest)) :
    TakesLine ends inbox t rest := by
  induction inbox generalizing t with
  | nil => cases h
  | cons b bs ih =>
    by_cases hLF : b = LF
    · subst hLF
      rw [takeLine_LF] at h
      obtain ⟨rfl, rfl⟩ := Prod.mk.inj (Option.some.inj h)
      exact .lf bs
    · by_cases hCR : b = CR
      · subst hCR
        rw [takeLine_CR, Option.map_eq_some_iff] at h
        obtain ⟨r, ha, he⟩ := h
        cases he
        exact .cr ha
      · rw [takeLine_cons hLF hCR, Option.map_eq_some_iff] at h
        obtain ⟨⟨t', r⟩, ht, he⟩ := h
        cases he
        exact .text hLF hCR ht (ih ht)

/-- A line end takes no byte back. -/
theorem afterCR_length_le (h : afterCR ends inbox = some rest) : rest.length ≤ inbox.length := by
  cases inbox with
  | nil =>
    simp only [afterCR] at h
    split at h <;> simp_all
  | cons b bs =>
    simp only [afterCR] at h
    split at h <;> cases h <;> simp

/-- On an ended stream nothing is missing behind a CR. -/
theorem afterCR_ne_none : afterCR true inbox ≠ none := by
  cases inbox with
  | nil => simp [afterCR]
  | cons b bs =>
    simp only [afterCR]
    split <;> simp

/-- A line and its end are taken from the front of the stream. -/
theorem takeLine_length_lt (h : takeLine ends inbox = some (t, rest)) :
    rest.length + t.length < inbox.length := by
  induction takesLine_of_takeLine h with
  | lf bs => simp
  | cr ha =>
    have := afterCR_length_le ha
    simp only [List.length_nil, List.length_cons]
    omega
  | text hLF hCR ht _ ih =>
    have := ih ht
    simp only [List.length_cons]
    omega

/-- The text of a line holds no line end. -/
theorem takeLine_plain (h : takeLine ends inbox = some (t, rest)) : LF ∉ t ∧ CR ∉ t := by
  induction takesLine_of_takeLine h with
  | lf bs => simp
  | cr ha => simp
  | text hLF hCR ht _ ih => simp [ih ht, Ne.symm hLF, Ne.symm hCR]

/-! ### One chunk -/

@[simp] theorem takeChunk_zero : takeChunk ends 0 inbox = some ([], inbox) := by
  cases inbox <;> rfl

@[simp] theorem takeChunk_nil : takeChunk ends (room + 1) [] = none := rfl

/-- A line feed ends a chunk. -/
@[simp] theorem takeChunk_LF : takeChunk ends (room + 1) (LF :: inbox) = some ([LF], inbox) := by
  simp [takeChunk]

/-- A carriage return ends a chunk as a line feed. -/
@[simp] theorem takeChunk_CR : takeChunk ends (room + 1) (CR :: inbox) =
    (afterCR ends inbox).map fun rest => ([LF], rest) := by
  simp [takeChunk, CR_ne_LF]

/-- Any other byte uses one place. -/
theorem takeChunk_cons (hLF : b ≠ LF) (hCR : b ≠ CR) : takeChunk ends (room + 1) (b :: inbox) =
    (takeChunk ends room inbox).map fun r => (b :: r.1, r.2) := by
  simp [takeChunk, hLF, hCR]

/-- A line shorter than the room is one chunk. -/
theorem takeChunk_of_short (h : takeLine ends inbox = some (t, rest)) (hlt : t.length < room) :
    takeChunk ends room inbox = some (t ++ [LF], rest) := by
  obtain ⟨room, rfl⟩ : ∃ m, room = m + 1 := ⟨room - 1, by omega⟩
  induction takesLine_of_takeLine h generalizing room with
  | lf bs => simp
  | cr ha => simp [ha]
  | text hLF hCR ht _ ih =>
    rw [List.length_cons] at hlt
    obtain ⟨room, rfl⟩ : ∃ m, room = m + 1 := ⟨room - 1, by omega⟩
    rw [takeChunk_cons hLF hCR, ih ht room (by omega)]
    simp

/-- From a line at least as long as the room the chunk takes `room` bytes, and
the line goes on behind them. -/
theorem takeChunk_of_long (h : takeLine ends inbox = some (t, rest)) (hle : room ≤ t.length) :
    takeChunk ends room inbox = some (t.take room, inbox.drop room) ∧
      takeLine ends (inbox.drop room) = some (t.drop room, rest) := by
  induction room generalizing inbox t with
  | zero =>
    rw [takeChunk_zero]
    exact ⟨rfl, h⟩
  | succ room ih =>
    induction takesLine_of_takeLine h with
    | lf bs => simp at hle
    | cr ha => simp at hle
    | text hLF hCR ht =>
      rw [List.length_cons] at hle
      obtain ⟨hchunk, hrest⟩ := ih ht (by omega)
      rw [takeChunk_cons hLF hCR, hchunk]
      exact ⟨rfl, hrest⟩

/-- Without a complete line a chunk is a full one, made of text only, and there
is no complete line behind it either. -/
theorem takeChunk_of_none (h : takeLine ends inbox = none)
    (hc : takeChunk ends room inbox = some (c, rest)) :
    inbox = c ++ rest ∧ c.length = room ∧ LF ∉ c ∧ takeLine ends rest = none := by
  induction room generalizing inbox c with
  | zero =>
    rw [takeChunk_zero] at hc
    obtain ⟨rfl, rfl⟩ := Prod.mk.inj (Option.some.inj hc)
    exact ⟨rfl, rfl, by simp, h⟩
  | succ room ih =>
    cases inbox with
    | nil => cases hc
    | cons b bs =>
      by_cases hLF : b = LF
      · rw [hLF, takeLine_LF] at h
        cases h
      · by_cases hCR : b = CR
        · subst hCR
          rw [takeLine_CR, Option.map_eq_none_iff] at h
          simp [h] at hc
        · rw [takeLine_cons hLF hCR, Option.map_eq_none_iff] at h
          rw [takeChunk_cons hLF hCR, Option.map_eq_some_iff] at hc
          obtain ⟨⟨c', r⟩, hc', he⟩ := hc
          cases he
          obtain ⟨rfl, hlen, hmem, hrest⟩ := ih h hc'
          exact ⟨rfl, by simp [hlen], by simp [hmem, Ne.symm hLF], hrest⟩

/-- A chunk comes from a complete line or from a stream without one. -/
theorem takeChunk_cases (hc : takeChunk ends room inbox = some (c, rest)) :
    (∃ t, t.length < room ∧ takeLine ends inbox = some (t, rest) ∧ c = t ++ [LF]) ∨
    (∃ t r, room ≤ t.length ∧ takeLine ends inbox = some (t, r) ∧
      takeLine ends rest = some (t.drop room, r) ∧ c = t.take room) ∨
    (takeLine ends inbox = none ∧ takeLine ends rest = none ∧ LF ∉ c ∧ c.length = room) := by
  cases h : takeLine ends inbox with
  | none =>
    obtain ⟨-, hlen, hmem, hrest⟩ := takeChunk_of_none h hc
    exact .inr (.inr ⟨rfl, hrest, hmem, hlen⟩)
  | some r =>
    obtain ⟨t, r⟩ := r
    by_cases hlt : t.length < room
    · rw [takeChunk_of_short h hlt] at hc
      cases hc
      exact .inl ⟨t, hlt, rfl, rfl⟩
    · obtain ⟨hchunk, hrest⟩ := takeChunk_of_long h (Nat.le_of_not_lt hlt)
      rw [hchunk] at hc
      cases hc
      exact .inr (.inl ⟨t, r, Nat.le_of_not_lt hlt, rfl, hrest, rfl⟩)

/-- A chunk fits into the room. -/
theorem takeChunk_length_le (hc : takeChunk ends room inbox = some (c, rest)) :
    c.length ≤ room := by
  rcases takeChunk_cases hc with ⟨t, hlt, -, rfl⟩ | ⟨t, _, hle, -, -, rfl⟩ | ⟨-, -, -, hlen⟩
  · simpa using Nat.succ_le_of_lt hlt
  · simp
  · omega

/-- Only the last byte of a chunk is an LF. -/
theorem eq_singleton_of_takeChunk (hc : takeChunk ends room inbox = some (LF :: c, rest)) :
    c = [] := by
  rcases takeChunk_cases hc with ⟨t, -, ht, he⟩ | ⟨t, _, -, ht, -, he⟩ | ⟨-, -, hmem, -⟩
  · cases t with
    | nil => simpa using he
    | cons b t =>
      obtain ⟨rfl, -⟩ := List.cons.inj he
      exact absurd List.mem_cons_self (takeLine_plain ht).1
  · have hmem : LF ∈ t.take room := he ▸ List.mem_cons_self
    exact absurd (List.mem_of_mem_take hmem) (takeLine_plain ht).1
  · exact absurd List.mem_cons_self hmem

/-- A chunk of one byte is the LF alone, when there is room for more. -/
theorem length_eq_one_of_takeChunk (hc : takeChunk ends room inbox = some (c, rest))
    (hroom : 1 < room) : c.length = 1 ↔ c = [LF] := by
  constructor
  · intro h1
    rcases takeChunk_cases hc with ⟨t, -, -, rfl⟩ | ⟨t, _, hle, -, -, rfl⟩ | ⟨-, -, -, hlen⟩
    · obtain rfl : t = [] := by simpa using h1
      rfl
    · rw [List.length_take] at h1
      omega
    · omega
  · rintro rfl
    rfl

/-- On an ended stream a chunk is available exactly when there is a line end or
enough bytes to fill the room. -/
theorem takeChunk_isSome_iff : (takeChunk true room inbox).isSome ↔
    LF ∈ inbox ∨ CR ∈ inbox ∨ room ≤ inbox.length := by
  induction inbox generalizing room with
  | nil =>
    cases room with
    | zero => simp [takeChunk_zero]
    | succ room => simp [takeChunk_nil]
  | cons b bs ih =>
    cases room with
    | zero => simp
    | succ room =>
      by_cases hLF : b = LF
      · simp [hLF]
      · by_cases hCR : b = CR
        · simp [hCR, Option.isSome_iff_ne_none, afterCR_ne_none]
        · rw [takeChunk_cons hLF hCR, Option.isSome_map, ih]
          simp [Ne.symm hLF, Ne.symm hCR]

/-- A chunk takes at least one byte off the stream. -/
theorem takeChunk_length_lt (h : takeChunk ends (room + 1) inbox = some (c, rest)) :
    rest.length < inbox.length := by
  cases ht : takeLine ends inbox with
  | none =>
    obtain ⟨rfl, hlen, -⟩ := takeChunk_of_none ht h
    simp [hlen]
  | some r =>
    obtain ⟨t, r⟩ := r
    have hlt := takeLine_length_lt ht
    by_cases hle : room + 1 ≤ t.length
    · rw [(takeChunk_of_long ht hle).1] at h
      cases h
      simp only [List.length_drop]
      omega
    · rw [takeChunk_of_short ht (Nat.lt_of_not_le hle)] at h
      cases h
      omega

/-! ### Reading up to a chunk that looks like an empty line -/

/-- Reading chunks until one is the LF alone: the chunks, that one included, and
the bytes left behind it. -/
inductive ReadsTo (ends : Bool) (room : Nat) :
    List UInt8 → List (List UInt8) → List UInt8 → Prop
  | stop {inbox rest : List UInt8} :
      takeChunk ends room inbox = some ([LF], rest) → ReadsTo ends room inbox [[LF]] rest
  | more {inbox mid rest c : List UInt8} {cs : List (List UInt8)} :
      takeChunk ends room inbox = some (c, mid) → c ≠ [LF] → ReadsTo ends room mid cs rest →
        ReadsTo ends room inbox (c :: cs) rest

/-- Skipping lines up to the first whose length is a multiple of `room`, that
one included. -/
inductive Skips (ends : Bool) (room : Nat) :
    List UInt8 → List (List UInt8) → List UInt8 → Prop
  | stop {inbox rest t : List UInt8} :
      takeLine ends inbox = some (t, rest) → room ∣ t.length → Skips ends room inbox [t] rest
  | more {inbox mid rest t : List UInt8} {ts : List (List UInt8)} :
      takeLine ends inbox = some (t, mid) → ¬ room ∣ t.length → Skips ends room mid ts rest →
        Skips ends room inbox (t :: ts) rest

/-- Chunks to the end of a line take bytes off the stream. -/
theorem ReadsTo.length_lt {cs : List (List UInt8)} (h : ReadsTo ends (room + 1) inbox cs rest) :
    rest.length < inbox.length := by
  induction h with
  | stop hc => exact takeChunk_length_lt hc
  | more hc _ _ ih => exact ih.trans (takeChunk_length_lt hc)

/-- The chunks of a line with the text `t`. -/
def pieces (room : Nat) (t : List UInt8) : List (List UInt8) :=
  if 0 < room ∧ room ≤ t.length then t.take room :: pieces room (t.drop room) else [t ++ [LF]]
termination_by t.length
decreasing_by
  simp only [List.length_drop]
  omega

/-- A short line comes in one piece, with its line end. -/
theorem pieces_short (h : t.length < room) : pieces room t = [t ++ [LF]] := by
  rw [pieces, if_neg (by omega)]

/-- A long line comes in pieces that fill the room. -/
theorem pieces_long (hpos : 0 < room) (h : room ≤ t.length) :
    pieces room t = t.take room :: pieces room (t.drop room) := by
  rw [pieces, if_pos ⟨hpos, h⟩]

/-- A piece that fills the room changes nothing about divisibility. -/
theorem dvd_length_drop (h : room ≤ t.length) :
    room ∣ (t.drop room).length ↔ room ∣ t.length := by
  rw [List.length_drop]
  exact (Nat.dvd_sub_iff_left h (Nat.dvd_refl room))

/-- The text of a short line shows whether its length is a multiple of the room. -/
theorem dvd_length_of_short (h : t.length < room) : room ∣ t.length ↔ t = [] := by
  constructor
  · intro hd
    exact List.length_eq_zero_iff.mp (Nat.eq_zero_of_dvd_of_lt hd h)
  · rintro rfl
    exact Nat.dvd_zero _

/-- What is skipped is determined. -/
theorem Skips.unique {ts ts' : List (List UInt8)} {rest' : List UInt8}
    (h : Skips ends room inbox ts rest) (h' : Skips ends room inbox ts' rest') :
    ts = ts' ∧ rest = rest' := by
  induction h generalizing ts' with
  | stop ht hd =>
    cases h' with
    | stop ht' _ => simpa [ht] using ht'
    | more ht' hnd _ =>
      rw [ht, Option.some.injEq, Prod.mk.injEq] at ht'
      exact absurd (ht'.1 ▸ hd) hnd
  | more ht hnd _ ih =>
    cases h' with
    | stop ht' hd =>
      rw [ht, Option.some.injEq, Prod.mk.injEq] at ht'
      exact absurd (ht'.1 ▸ hd) hnd
    | more ht' _ hrest =>
      rw [ht, Option.some.injEq, Prod.mk.injEq] at ht'
      obtain ⟨rfl, rfl⟩ := ht'
      obtain ⟨rfl, rfl⟩ := ih hrest
      exact ⟨rfl, rfl⟩

/-- A chunk off a long line only shortens the first line that is skipped. -/
theorem Skips.of_drop {ts : List (List UInt8)} (ht : takeLine ends inbox = some (t, mid))
    (hle : room ≤ t.length) (h : Skips ends room (inbox.drop room) ts rest) :
    ∃ ts', ts = t.drop room :: ts' ∧ Skips ends room inbox (t :: ts') rest := by
  have hdrop := (takeChunk_of_long ht hle).2
  cases h with
  | stop ht' hd =>
    rw [hdrop, Option.some.injEq, Prod.mk.injEq] at ht'
    obtain ⟨rfl, rfl⟩ := ht'
    exact ⟨[], rfl, .stop ht ((dvd_length_drop hle).mp hd)⟩
  | more ht' hnd hrest =>
    rw [hdrop, Option.some.injEq, Prod.mk.injEq] at ht'
    obtain ⟨rfl, rfl⟩ := ht'
    exact ⟨_, rfl, .more ht (fun hd => hnd ((dvd_length_drop hle).mpr hd)) hrest⟩

/-- The chunks of a whole line, and of what is read behind it unless its last
chunk is the LF alone. -/
theorem readsTo_line (hpos : 0 < room) (ht : takeLine ends inbox = some (t, mid)) :
    (room ∣ t.length → ReadsTo ends room inbox (pieces room t) mid) ∧
      ∀ cs rest, ¬ room ∣ t.length → ReadsTo ends room mid cs rest →
        ReadsTo ends room inbox (pieces room t ++ cs) rest := by
  induction hn : t.length using Nat.strong_induction_on generalizing t inbox with
  | _ n ih =>
    subst hn
    rcases Nat.lt_or_ge t.length room with hlt | hle
    · have hchunk := takeChunk_of_short ht hlt
      rw [pieces_short hlt, dvd_length_of_short hlt]
      constructor
      · rintro rfl
        exact .stop hchunk
      · intro cs rest hne hrest
        exact .more hchunk (by simpa using hne) hrest
    · obtain ⟨hchunk, hdrop⟩ := takeChunk_of_long ht hle
      have htext : t.take room ≠ [LF] := by
        intro h
        exact (takeLine_plain ht).1 (List.mem_of_mem_take (h ▸ List.mem_singleton.mpr rfl))
      have hlt : (t.drop room).length < t.length := by
        simp only [List.length_drop]
        omega
      obtain ⟨hstop, hmore⟩ := ih _ hlt hdrop rfl
      rw [dvd_length_drop hle] at hstop
      rw [pieces_long hpos hle]
      constructor
      · intro hd
        exact .more hchunk htext (hstop hd)
      · intro cs rest hnd hrest
        refine .more hchunk htext (hmore cs rest ?_ hrest)
        rwa [dvd_length_drop hle]

/-- Reading up to a chunk that is the LF alone skips exactly the lines up to the
first whose length is a multiple of the room. -/
theorem readsTo_iff (hpos : 0 < room) {cs : List (List UInt8)} :
    ReadsTo ends room inbox cs rest ↔
      ∃ ts, Skips ends room inbox ts rest ∧ cs = ts.flatMap (pieces room) := by
  constructor
  · intro h
    induction h with
    | stop hc =>
      rcases takeChunk_cases hc with ⟨t, hlt, ht, he⟩ | ⟨t, r, hle, ht, -, he⟩ | ⟨-, -, hmem, -⟩
      · obtain rfl : t = [] := by simpa using he.symm
        refine ⟨[[]], .stop ht (Nat.dvd_zero _), ?_⟩
        simp [pieces_short hlt]
      · have hmem : LF ∈ t.take room := he ▸ List.mem_singleton.mpr rfl
        exact absurd (List.mem_of_mem_take hmem) (takeLine_plain ht).1
      · exact absurd (List.mem_singleton.mpr rfl) hmem
    | @more inbox mid rest c cs hc hne _ ih =>
      obtain ⟨ts, hskips, rfl⟩ := ih
      rcases takeChunk_cases hc with ⟨t, hlt, ht, rfl⟩ | ⟨t, r, hle, ht, hmid, rfl⟩ | ⟨-, hmid, -⟩
      · refine ⟨t :: ts, .more ht ?_ hskips, ?_⟩
        · rw [dvd_length_of_short hlt]
          rintro rfl
          exact hne rfl
        · simp [pieces_short hlt]
      · rw [(takeChunk_of_long ht hle).1] at hc
        obtain rfl : inbox.drop room = mid := by simpa using hc
        obtain ⟨ts', rfl, hwhole⟩ := hskips.of_drop ht hle
        exact ⟨t :: ts', hwhole, by simp [pieces_long hpos hle]⟩
      · cases hskips <;> simp_all
  · rintro ⟨ts, h, rfl⟩
    induction h with
    | stop ht hd => simpa using (readsTo_line hpos ht).1 hd
    | more ht hnd _ ih => exact (readsTo_line hpos ht).2 _ _ hnd ih

/-! ### All complete lines -/

/-- The texts of the complete lines of a stream. -/
def lines (ends : Bool) (inbox : List UInt8) : List (List UInt8) :=
  match _h : takeLine ends inbox with
  | none => []
  | some (t, rest) => t :: lines ends rest
termination_by inbox.length
decreasing_by
  have := takeLine_length_lt _h
  omega

/-- Without a complete line there is none. -/
theorem lines_of_none (h : takeLine ends inbox = none) : lines ends inbox = [] := by
  rw [lines]
  split <;> simp_all

/-- The first complete line, and those behind it. -/
theorem lines_of_some (h : takeLine ends inbox = some (t, rest)) :
    lines ends inbox = t :: lines ends rest := by
  rw [lines]
  split <;> simp_all

/-- A line whose length is a multiple of the room: the last of its chunks is the LF alone. -/
def endsEmpty (room : Nat) (t : List UInt8) : Bool := t.length % room == 0

/-- A line ends with an empty piece when the room divides its length. -/
theorem endsEmpty_iff : endsEmpty room t = true ↔ room ∣ t.length := by
  simp [endsEmpty, Nat.dvd_iff_mod_eq_zero]

/-- Skipping takes the lines up to the first one that ends empty, and no other. -/
theorem Skips.lines {ts : List (List UInt8)} (h : Skips ends room inbox ts rest) :
    lines ends inbox = ts ++ LineStream.lines ends rest ∧ ts.countP (endsEmpty room) = 1 := by
  induction h with
  | stop ht hd =>
    rw [← endsEmpty_iff] at hd
    simp [lines_of_some ht, hd]
  | more ht hnd _ ih =>
    rw [← endsEmpty_iff] at hnd
    simp [lines_of_some ht, hnd, ih]

/-- Skipping comes to an end exactly when some complete line ends empty. -/
theorem exists_skips_iff : (∃ ts rest, Skips ends room inbox ts rest) ↔
    0 < (LineStream.lines ends inbox).countP (endsEmpty room) := by
  constructor
  · rintro ⟨ts, rest, h⟩
    rw [h.lines.1, List.countP_append, h.lines.2]
    omega
  · intro h
    induction inbox using lines.induct ends with
    | case1 inbox hnone => simp [lines_of_none hnone] at h
    | case2 inbox t rest ht ih =>
      by_cases hd : room ∣ t.length
      · exact ⟨_, _, .stop ht hd⟩
      · rw [lines_of_some ht, List.countP_cons_of_neg (by rwa [endsEmpty_iff])] at h
        obtain ⟨ts, rest, hrest⟩ := ih h
        exact ⟨_, _, .more ht hd hrest⟩

/-- The lines up to the first that ends empty, that one included. -/
def firstSection (room : Nat) : List (List UInt8) → List (List UInt8)
  | [] => []
  | t :: ts => if endsEmpty room t then [t] else t :: firstSection room ts

/-- The lines that are skipped are the first section. -/
theorem Skips.eq_firstSection {ts : List (List UInt8)} (h : Skips ends room inbox ts rest) :
    ts = firstSection room (LineStream.lines ends inbox) := by
  induction h with
  | stop ht hd =>
    rw [← endsEmpty_iff] at hd
    simp [lines_of_some ht, firstSection, hd]
  | more ht hnd _ ih =>
    rw [← endsEmpty_iff] at hnd
    simp [lines_of_some ht, firstSection, hnd, ← ih]

/-- Only the lines up to the first that ends empty matter. -/
theorem firstSection_append {ts ts' : List (List UInt8)} (hmem : t ∈ ts)
    (hempty : endsEmpty room t = true) :
    firstSection room (ts ++ ts') = firstSection room ts := by
  induction ts with
  | nil => cases hmem
  | cons s ts ih =>
    rw [List.cons_append, firstSection, firstSection]
    by_cases hs : endsEmpty room s = true
    · rw [if_pos hs, if_pos hs]
    · have hrest : t ∈ ts := by
        rcases List.mem_cons.mp hmem with rfl | h
        · exact absurd hempty hs
        · exact h
      rw [if_neg hs, if_neg hs, ih hrest]

/-- Lines that do not end empty stand before the first that does. -/
theorem firstSection_append_of_not {ts ts' : List (List UInt8)}
    (h : ∀ t ∈ ts, endsEmpty room t = false) :
    firstSection room (ts ++ ts') = ts ++ firstSection room ts' := by
  induction ts with
  | nil => rfl
  | cons t ts ih =>
    obtain ⟨hhead, htail⟩ := List.forall_mem_cons.mp h
    rw [List.cons_append, firstSection, hhead, if_neg Bool.false_ne_true, ih htail,
      List.cons_append]

/-- A further line changes nothing in the first section but its end. -/
theorem mem_firstSection_concat {ts : List (List UInt8)} {s : List UInt8}
    (h : s ∈ firstSection room (ts ++ [t])) : s ∈ firstSection room ts ∨ s = t := by
  by_cases hempty : ∃ u ∈ ts, endsEmpty room u = true
  · obtain ⟨u, hu, hempty⟩ := hempty
    rw [firstSection_append hu hempty] at h
    exact .inl h
  · push Not at hempty
    have hnone : ∀ u ∈ ts, endsEmpty room u = false := fun u hu => by simpa using hempty u hu
    have hlast : firstSection room [t] = [t] := by
      cases hl : endsEmpty room t <;> simp [firstSection, hl]
    have hself : firstSection room (ts ++ []) = ts ++ [] := firstSection_append_of_not hnone
    rw [List.append_nil] at hself
    rw [firstSection_append_of_not hnone, hlast, List.mem_append, List.mem_singleton] at h
    rwa [hself]

/-- The first section is a part of the lines. -/
theorem mem_of_mem_firstSection {ts : List (List UInt8)} (h : t ∈ firstSection room ts) :
    t ∈ ts := by
  induction ts with
  | nil => cases h
  | cons s ts ih =>
    rw [firstSection] at h
    split at h
    · rw [List.mem_singleton.mp h]
      exact List.mem_cons_self
    · rcases List.mem_cons.mp h with rfl | hrest
      · exact List.mem_cons_self
      · exact List.mem_cons_of_mem s (ih hrest)

/-- Skipping several sections, one after the other. -/
inductive SkipsTimes (ends : Bool) (room : Nat) : Nat → List UInt8 → List UInt8 → Prop
  | zero (inbox : List UInt8) : SkipsTimes ends room 0 inbox inbox
  | succ {n : Nat} {inbox mid rest : List UInt8} {ts : List (List UInt8)} :
      Skips ends room inbox ts mid → SkipsTimes ends room n mid rest →
        SkipsTimes ends room (n + 1) inbox rest

/-- What is left is determined. -/
theorem SkipsTimes.unique {n : Nat} {rest' : List UInt8} (h : SkipsTimes ends room n inbox rest)
    (h' : SkipsTimes ends room n inbox rest') : rest = rest' := by
  induction h with
  | zero inbox =>
    cases h'
    rfl
  | succ hskips _ ih =>
    cases h' with
    | succ hskips' hrest =>
      obtain ⟨-, rfl⟩ := hskips.unique hskips'
      exact ih hrest

/-- Skipping `n` sections needs `n` lines that end empty. -/
theorem SkipsTimes.lines {n : Nat} (h : SkipsTimes ends room n inbox rest) :
    ∃ ts, LineStream.lines ends inbox = ts ++ LineStream.lines ends rest ∧
      ts.countP (endsEmpty room) = n := by
  induction h with
  | zero inbox => exact ⟨[], rfl, rfl⟩
  | @succ n inbox mid rest ts hskips _ ih =>
    obtain ⟨ts', hts', hcount⟩ := ih
    obtain ⟨hts, hone⟩ := hskips.lines
    refine ⟨ts ++ ts', by rw [hts, hts', List.append_assoc], ?_⟩
    rw [List.countP_append, hone, hcount]
    omega

/-- Skipping one section. -/
theorem skipsTimes_one_iff : SkipsTimes ends room 1 inbox rest ↔
    ∃ ts, Skips ends room inbox ts rest := by
  constructor
  · rintro (_ | ⟨hskips, ⟨_⟩⟩)
    exact ⟨_, hskips⟩
  · rintro ⟨ts, h⟩
    exact .succ h (.zero rest)

/-- Skipping two sections. -/
theorem skipsTimes_two_iff : SkipsTimes ends room 2 inbox rest ↔
    ∃ ts mid ts', Skips ends room inbox ts mid ∧ Skips ends room mid ts' rest := by
  constructor
  · rintro (_ | ⟨hskips, hrest⟩)
    obtain ⟨ts', hts'⟩ := skipsTimes_one_iff.mp hrest
    exact ⟨_, _, ts', hskips, hts'⟩
  · rintro ⟨ts, mid, ts', h, h'⟩
    exact .succ h (skipsTimes_one_iff.mpr ⟨ts', h'⟩)

/-- As many sections can be skipped as there are lines that end empty. -/
theorem exists_skipsTimes_iff {n : Nat} : (∃ rest, SkipsTimes ends room n inbox rest) ↔
    n ≤ (LineStream.lines ends inbox).countP (endsEmpty room) := by
  constructor
  · rintro ⟨rest, h⟩
    obtain ⟨ts, hts, hcount⟩ := h.lines
    rw [hts, List.countP_append, hcount]
    omega
  · intro h
    induction n generalizing inbox with
    | zero => exact ⟨inbox, .zero inbox⟩
    | succ n ih =>
      obtain ⟨ts, mid, hmid⟩ := exists_skips_iff.mpr (Nat.zero_lt_of_lt h)
      rw [hmid.lines.1, List.countP_append, hmid.lines.2] at h
      have hle : n ≤ (LineStream.lines ends mid).countP (endsEmpty room) := by omega
      obtain ⟨rest, hrest⟩ := ih hle
      exact ⟨rest, .succ hmid hrest⟩

/-- One more section behind the others. -/
theorem SkipsTimes.snoc {n : Nat} {ts : List (List UInt8)} (h : SkipsTimes ends room n inbox mid)
    (hlast : Skips ends room mid ts rest) : SkipsTimes ends room (n + 1) inbox rest := by
  induction h with
  | zero inbox => exact .succ hlast (.zero rest)
  | succ hskips _ ih => exact .succ hskips (ih hlast)

/-- A section takes bytes off the stream. -/
theorem Skips.length_lt {ts : List (List UInt8)} (h : Skips ends room inbox ts rest) :
    rest.length < inbox.length := by
  induction h with
  | stop ht _ =>
    have := takeLine_length_lt ht
    omega
  | more ht _ _ ih =>
    have := takeLine_length_lt ht
    omega

/-! ### Streams written as lines -/

/-- The three ways to end a line. -/
inductive Eol where
  | crlf
  | cr
  | lf
  deriving DecidableEq, Repr

/-- A line end as it is sent. -/
def Eol.bytes : Eol → List UInt8
  | crlf => [CR, LF]
  | cr => [CR]
  | lf => [LF]

/-- A line: its text holds no line end. -/
structure Line where
  text : List UInt8
  eol : Eol
  plain : LF ∉ text ∧ CR ∉ text

/-- A line as it is sent. -/
def Line.bytes (l : Line) : List UInt8 := l.text ++ l.eol.bytes

/-- Lines as they are sent, one after the other. -/
def bytes (ls : List Line) : List UInt8 := ls.flatMap Line.bytes

/-- A lone CR is not followed by an LF: the two together are one line end. -/
def WellEnded : List Line → List UInt8 → Prop
  | [], _ => True
  | l :: ls, after =>
    (l.eol = .cr → (bytes ls ++ after).head? ≠ some LF) ∧ WellEnded ls after

theorem bytes_cons (l : Line) (ls : List Line) : bytes (l :: ls) = l.bytes ++ bytes ls := rfl

/-- Lines are sent one behind the other. -/
theorem bytes_append (ls ls' : List Line) : bytes (ls ++ ls') = bytes ls ++ bytes ls' :=
  List.flatMap_append

/-- A line has at least its line end. -/
theorem Line.length_bytes_pos (l : Line) : 0 < l.bytes.length := by
  simp only [Line.bytes, List.length_append]
  cases l.eol <;> simp [Eol.bytes]

/-- A line that was sent is taken off the stream, if its end can be seen. -/
theorem takeLine_line (l : Line) {after : List UInt8}
    (hcr : l.eol = .cr → after.head? ≠ some LF)
    (hends : l.eol = .cr → after = [] → ends = true) :
    takeLine ends (l.bytes ++ after) = some (l.text, after) := by
  obtain ⟨text, eol, hplain⟩ := l
  simp only [Line.bytes] at hcr hends ⊢
  induction text with
  | nil =>
    cases eol with
    | crlf => simp [Eol.bytes, afterCR]
    | lf => simp [Eol.bytes]
    | cr =>
      cases after with
      | nil => simp [Eol.bytes, afterCR, hends rfl rfl]
      | cons b bs =>
        have hne : b ≠ LF := by simpa using hcr rfl
        simp [Eol.bytes, afterCR, hne]
  | cons b text ih =>
    simp only [List.mem_cons, not_or] at hplain
    have hrest := ih ⟨hplain.1.2, hplain.2.2⟩
    rw [List.cons_append, List.cons_append, takeLine_cons (Ne.symm hplain.1.1)
      (Ne.symm hplain.2.1), hrest]
    rfl

/-- Sections put no byte back. -/
theorem SkipsTimes.length_le {n : Nat} (h : SkipsTimes ends room n inbox rest) :
    rest.length ≤ inbox.length := by
  induction h with
  | zero inbox => exact Nat.le_refl _
  | succ hskips _ ih => exact ih.trans hskips.length_lt.le

/-- Skipping more sections leaves less behind. -/
theorem SkipsTimes.length_lt {n m : Nat} {rest' : List UInt8}
    (h : SkipsTimes ends room n inbox rest) (h' : SkipsTimes ends room m inbox rest')
    (hlt : n < m) : rest'.length < rest.length := by
  induction h generalizing m with
  | zero inbox =>
    cases h' with
    | zero => omega
    | succ hskips hrest => exact hrest.length_le.trans_lt hskips.length_lt
  | succ hskips _ ih =>
    cases h' with
    | zero => omega
    | succ hskips' hrest =>
      obtain ⟨-, rfl⟩ := hskips.unique hskips'
      exact ih hrest (by omega)

/-- How often sections were skipped shows in how much is left. -/
theorem SkipsTimes.eq_of_length_eq {n m : Nat} {rest' : List UInt8}
    (h : SkipsTimes ends room n inbox rest) (h' : SkipsTimes ends room m inbox rest')
    (hlen : rest.length = rest'.length) : n = m := by
  rcases Nat.lt_trichotomy n m with hlt | heq | hgt
  · have := h.length_lt h' hlt
    omega
  · exact heq
  · have := h'.length_lt h hgt
    omega

/-- A line that does not end empty is skipped on the way to the first that does. -/
theorem SkipsTimes.cons_line {n : Nat} (h : SkipsTimes ends room (n + 1) mid rest)
    (ht : takeLine ends inbox = some (t, mid)) (hd : ¬ room ∣ t.length) :
    SkipsTimes ends room (n + 1) inbox rest := by
  cases h with
  | succ hskips hrest => exact .succ (.more ht hd hskips) hrest

/-- With a line there are bytes. -/
theorem bytes_append_ne_nil (ls : List Line) (l : Line) (after : List UInt8) :
    bytes (ls ++ [l]) ++ after ≠ [] := by
  intro h
  have hlen := congrArg List.length h
  have hpos := l.length_bytes_pos
  simp only [bytes_append, bytes_cons, List.length_append, List.length_nil] at hlen
  omega

/-- How many of the lines end empty. -/
def emptyEnds (room : Nat) (ls : List Line) : Nat := ls.countP fun k => endsEmpty room k.text

/-- A line that ends empty is counted. -/
theorem emptyEnds_cons_of_dvd {l : Line} {ls : List Line} (h : room ∣ l.text.length) :
    emptyEnds room (l :: ls) = emptyEnds room ls + 1 :=
  List.countP_cons_of_pos (endsEmpty_iff.mpr h)

/-- Another line is not counted. -/
theorem emptyEnds_cons_of_not_dvd {l : Line} {ls : List Line} (h : ¬ room ∣ l.text.length) :
    emptyEnds room (l :: ls) = emptyEnds room ls :=
  List.countP_cons_of_neg (by rwa [endsEmpty_iff])

/-- The lines of two lists are counted. -/
theorem emptyEnds_append (ls ls' : List Line) :
    emptyEnds room (ls ++ ls') = emptyEnds room ls + emptyEnds room ls' :=
  List.countP_append

/-- No line ends empty. -/
theorem emptyEnds_eq_zero_iff {ls : List Line} :
    emptyEnds room ls = 0 ↔ ∀ l ∈ ls, ¬ room ∣ l.text.length := by
  simp [emptyEnds, List.countP_eq_zero, endsEmpty_iff]

/-- The lines of a stream that starts with lines that were sent. -/
theorem lines_bytes {ls : List Line} {l : Line} {after : List UInt8}
    (hwell : WellEnded (ls ++ [l]) after) (hends : l.eol = .cr → after = [] → ends = true) :
    lines ends (bytes (ls ++ [l]) ++ after) =
      (ls ++ [l]).map Line.text ++ lines ends after := by
  induction ls with
  | nil =>
    rw [List.nil_append, bytes_cons, List.append_assoc]
    exact lines_of_some (takeLine_line l hwell.1 hends)
  | cons k ls ih =>
    have htake : takeLine ends (k.bytes ++ (bytes (ls ++ [l]) ++ after)) =
        some (k.text, bytes (ls ++ [l]) ++ after) :=
      takeLine_line k hwell.1 fun _ hnil => absurd hnil (bytes_append_ne_nil ls l after)
    rw [List.cons_append, bytes_cons, List.append_assoc, lines_of_some htake, ih hwell.2]
    rfl

/-- Lines that were sent, the last of which ends empty, are skipped as often as one
of them ends empty. -/
theorem skipsTimes_lines {ls : List Line} {l : Line} {after : List UInt8}
    (hl : room ∣ l.text.length) (hwell : WellEnded (ls ++ [l]) after)
    (hends : l.eol = .cr → after = [] → ends = true) :
    SkipsTimes ends room (emptyEnds room (ls ++ [l])) (bytes (ls ++ [l]) ++ after) after := by
  induction ls with
  | nil =>
    have htake := takeLine_line l hwell.1 hends
    rw [List.nil_append, emptyEnds_cons_of_dvd hl, bytes_cons, List.append_assoc]
    exact .succ (.stop htake hl) (.zero after)
  | cons k ls ih =>
    have htake : takeLine ends (k.bytes ++ (bytes (ls ++ [l]) ++ after)) =
        some (k.text, bytes (ls ++ [l]) ++ after) :=
      takeLine_line k hwell.1 fun _ hnil => absurd hnil (bytes_append_ne_nil ls l after)
    have hrest := ih hwell.2
    rw [List.cons_append, bytes_cons, List.append_assoc]
    by_cases hk : room ∣ k.text.length
    · rw [emptyEnds_cons_of_dvd hk]
      exact .succ (.stop htake hk) hrest
    · rw [emptyEnds_cons_of_not_dvd hk]
      rw [emptyEnds_append, emptyEnds_cons_of_dvd hl] at hrest ⊢
      exact hrest.cons_line htake hk

/-- While the stream goes on, a CR that is its last byte stays unread. -/
theorem getLast?_of_takeLine (h : takeLine false inbox = some (t, rest))
    (hlast : inbox.getLast? = some CR) : rest.getLast? = some CR := by
  induction takesLine_of_takeLine h with
  | lf bs =>
    cases bs with
    | nil => simp [CR_ne_LF.symm] at hlast
    | cons b bs => simpa using hlast
  | @cr bs rest ha =>
    cases bs with
    | nil => simp [afterCR] at ha
    | cons b bs =>
      simp only [afterCR] at ha
      rw [List.getLast?_cons_cons] at hlast
      split at ha
      · rename_i hb
        obtain rfl : bs = rest := by simpa using ha
        cases bs with
        | nil => simp [hb, CR_ne_LF.symm] at hlast
        | cons b' bs => simpa using hlast
      · obtain rfl : b :: bs = rest := by simpa using ha
        exact hlast
  | @text b bs t rest hLF hCR ht _ ih =>
    cases bs with
    | nil => cases ht
    | cons b' bs => exact ih ht (by simpa using hlast)

/-- A section leaves a carriage return at the end of an open stream. -/
theorem Skips.getLast? {ts : List (List UInt8)} (h : Skips false room inbox ts rest)
    (hlast : inbox.getLast? = some CR) : rest.getLast? = some CR := by
  induction h with
  | stop ht _ => exact getLast?_of_takeLine ht hlast
  | more ht _ _ ih => exact ih (getLast?_of_takeLine ht hlast)

/-- Sections leave a carriage return at the end of an open stream. -/
theorem SkipsTimes.getLast? {n : Nat} (h : SkipsTimes false room n inbox rest)
    (hlast : inbox.getLast? = some CR) : rest.getLast? = some CR := by
  induction h with
  | zero inbox => exact hlast
  | succ hskips _ ih => exact ih (hskips.getLast? hlast)

/-- Skipping leaves exactly what follows the lines when it is done as often as one
of them ends empty, and the end of the last line can be seen. -/
theorem skipsTimes_lines_iff {n : Nat} {ls : List Line} {l : Line} {after : List UInt8}
    (hl : room ∣ l.text.length) (hwell : WellEnded (ls ++ [l]) after) :
    (∃ rest, SkipsTimes ends room n (bytes (ls ++ [l]) ++ after) rest ∧
      rest.length = after.length) ↔
      emptyEnds room (ls ++ [l]) = n ∧ (l.eol = .cr → after = [] → ends = true) := by
  constructor
  · rintro ⟨rest, h, hlen⟩
    have hends : l.eol = .cr → after = [] → ends = true := by
      rintro hcr rfl
      obtain rfl : rest = [] := by simpa using hlen
      by_contra hs
      rw [Bool.not_eq_true] at hs
      subst hs
      have hlast : (bytes (ls ++ [l]) ++ []).getLast? = some CR := by
        simp [bytes, Line.bytes, hcr, Eol.bytes]
      simpa using h.getLast? hlast
    exact ⟨(skipsTimes_lines hl hwell hends).eq_of_length_eq h hlen.symm, hends⟩
  · rintro ⟨rfl, hends⟩
    exact ⟨after, skipsTimes_lines hl hwell hends, rfl⟩

end NetworkCode.LineStream
