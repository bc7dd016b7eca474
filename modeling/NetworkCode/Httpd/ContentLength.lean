import NetworkCode.Core.Lists
import NetworkCode.Httpd.HeaderBoundary

/-!
# The announced length

The header loop of `excu_cgi` compares the first 16 bytes of each chunk with
`Content-Length: `. A chunk is a line of less than 1022 bytes, or a piece of a longer one. So
the header line has to be spelled with one space there, its number has to stand in its first
piece, and no later piece of any line may begin like it.
-/

namespace NetworkCode.Httpd

open Prog LineStream Text

/-! ### Header sections of a POST -/

/-- `Content-Length`. -/
def lengthName : Bytes := ascii "Content-Length"

/-- Optional white space. -/
def isBlank (b : UInt8) : Bool := b == 32 || b == 9

/-- A header line as HTTP allows it: a name, a colon, a value with optional white space on
both sides. The value of `Content-Length` is a number. -/
structure Header where
  name : Bytes
  before : Bytes
  value : Bytes
  after : Bytes
  eol : Eol
  name_plain : ∀ b ∈ name, b ≠ 58 ∧ b ≠ LF ∧ b ≠ CR
  value_plain : ∀ b ∈ value, b ≠ LF ∧ b ≠ CR
  blanks : ∀ b ∈ before ++ after, isBlank b = true
  numeric : sameIgnoringCase name lengthName = true →
    value ≠ [] ∧ ∀ b ∈ value, isdigit b = true

namespace Header

/-- The line up to the end of the value. -/
def front (h : Header) : Bytes := h.name ++ 58 :: (h.before ++ h.value)

/-- The line without its end. -/
def text (h : Header) : Bytes := h.front ++ h.after

/-- Whether the field name is `Content-Length`. -/
def isLength (h : Header) : Bool := sameIgnoringCase h.name lengthName

/-- The decimal value. -/
def number (h : Header) : Nat := Text.value h.value

/-- A header is one line. -/
theorem plain (h : Header) : LF ∉ h.text ∧ CR ∉ h.text := by
  have hblank {b : UInt8} (hb : b ∈ h.before ++ h.after) : b ≠ LF ∧ b ≠ CR := by
    constructor <;> rintro rfl <;> exact absurd (h.blanks _ hb) (by decide)
  have hall : ∀ b ∈ h.text, b ≠ LF ∧ b ≠ CR := by
    intro b hb
    simp only [text, front, List.mem_append, List.mem_cons] at hb
    rcases hb with (hname | rfl | hbefore | hvalue) | hafter
    · exact (h.name_plain b hname).2
    · decide
    · exact hblank (List.mem_append_left _ hbefore)
    · exact h.value_plain b hvalue
    · exact hblank (List.mem_append_right _ hafter)
  exact ⟨fun hmem => (hall _ hmem).1 rfl, fun hmem => (hall _ hmem).2 rfl⟩

/-- The line as it is sent. -/
def line (h : Header) : Line := ⟨h.text, h.eol, h.plain⟩

end Header

/-- The header section of a POST, of which `recv` shows the end. -/
structure PostHeaders where
  headers : List Header
  blank : Eol
  further : Bytes
  ending : Ending
  ended : WellEnded (headers.map Header.line ++ [emptyLine blank]) further
  shown : blank = .cr → further = [] → ending.seen = true

/-- The header section and what follows it. -/
def PostHeaders.stream (s : PostHeaders) : Bytes :=
  bytes (s.headers.map Header.line ++ [emptyLine s.blank]) ++ s.further

/-- The value of the last `Content-Length`, or 0. -/
def declaredLength (hs : List Header) : Nat :=
  ((hs.filter Header.isLength).getLast?.map Header.number).getD 0

/-- `excu_cgi` leaves its header loop with the declared length in `clength`. -/
def UsesDeclared (s : PostHeaders) : Prop :=
  ∃ w, readHeaders.Returns (connected s.stream s.ending) (declaredLength s.headers) w

/-! ### Pieces -/

/-- Whether a chunk passes the test for `Content-Length: `. -/
def looksLikeLength (c : Bytes) : Bool :=
  samePrefixIgnoringCase 16 (cstr c) (ascii "Content-Length: ")

/-- The number that `atoi` finds behind the first 16 bytes of a chunk. -/
def chunkNumber (c : Bytes) : Int := atoi ((cstr c).drop 16)

/-- The chunks in which the header loop reads these header lines and the empty line. -/
def chunksRead (hs : List Header) : List Bytes :=
  (firstSection 1022 (hs.map Header.text ++ [[]])).flatMap (pieces 1022)

/-- No piece of the line but the first passes the test. -/
def Quiet (t : Bytes) : Prop := ∀ c ∈ (pieces 1022 t).tail, looksLikeLength c = false

/-- Only the first pieces of these header lines can pass the test, of those that are read: the
lines up to the first whose length is a multiple of 1022. -/
def AllQuiet (hs : List Header) : Prop :=
  ∀ t ∈ firstSection 1022 (hs.map Header.text), Quiet t

/-- The last `Content-Length` is read and recognised, its digits stand in its first piece and
fit an `int`, and no piece behind it passes the test; or there is none, and no piece passes. -/
inductive Recognised (hs : List Header) : Prop
  | absent (hnone : ∀ h ∈ hs, h.isLength = false) (hquiet : AllQuiet hs) : Recognised hs
  | last {before after : List Header} {h : Header} (heq : hs = before ++ h :: after)
      (hlength : h.isLength = true) (hlast : ∀ k ∈ after, k.isLength = false)
      (hreached : ∀ k ∈ before, ¬ 1022 ∣ k.text.length) (hspace : h.before.head? = some 32)
      (hinside : h.front.length ≤ 1022) (hfits : h.number < 2 ^ 31)
      (hquiet : AllQuiet (h :: after)) : Recognised hs

/-- The piece `c` of the line `h` is the last one that passes the test: the line is read, and the
pieces read behind it do not pass. -/
structure Decides (hs before : List Header) (h : Header) (after : List Header)
    (earlier : List Bytes) (c : Bytes) : Prop where
  split : hs = before ++ h :: after
  reached : ∀ k ∈ before, ¬ 1022 ∣ k.text.length
  piece : ∃ later, pieces 1022 h.text = earlier ++ c :: later ∧
    ∀ d ∈ later, looksLikeLength d = false
  passes : looksLikeLength c = true
  behind : ¬ 1022 ∣ h.text.length → ∀ d ∈ chunksRead after, looksLikeLength d = false

/-- The last `Content-Length` is not recognised, and yet its number is found. -/
inductive Coincidence (hs : List Header) : Prop
  /-- Its number is 0, and no piece that is read passes the test. -/
  | unseen (h : Header) (hmem : h ∈ hs) (hlength : h.isLength = true)
      (hzero : declaredLength hs = 0) (hnone : ∀ c ∈ chunksRead hs, looksLikeLength c = false)
  /-- Its number is 0, and its digits go beyond its first piece, the last one that passes. -/
  | cut (before : List Header) (h : Header) (after : List Header) (c : Bytes)
      (hdecides : Decides hs before h after [] c) (hlast : ∀ k ∈ after, k.isLength = false)
      (hbeyond : 1022 < h.front.length) (hzero : declaredLength hs = 0)
  /-- An earlier `Content-Length`, whose first piece is the last one that passes, shows its
  number. -/
  | earlier (before : List Header) (h : Header) (after : List Header) (c : Bytes)
      (hdecides : Decides hs before h after [] c) (k : Header) (hmem : k ∈ after)
      (hlength : k.isLength = true) (hsame : chunkNumber c = declaredLength hs)
  /-- A further piece of some other line, the last one that passes, shows its number. -/
  | inside (before : List Header) (h : Header) (after : List Header) (p : Bytes) (ps : List Bytes)
      (c : Bytes) (hdecides : Decides hs before h after (p :: ps) c)
      (hsame : chunkNumber c = declaredLength hs)

variable {hs : List Header} {h k : Header} {c t : Bytes} {cs : List Bytes} {n : Int}

/-- What one chunk does to `clength`. -/
theorem contentLength_eq (c : Bytes) (n : Int) :
    contentLength (cstr c) n = if looksLikeLength c then chunkNumber c else n := rfl

/-- The length that the header loop finds is the number in the last chunk that passes. -/
theorem seenLength_eq_last (cs : List Bytes) :
    seenLength cs = ((cs.filter looksLikeLength).getLast?.map chunkNumber).getD 0 := by
  induction cs using List.reverseRecOn with
  | nil => rfl
  | append_singleton cs c ih =>
    rw [seenLength, List.foldl_append, List.foldl_cons, List.foldl_nil, contentLength_eq,
      List.filter_append]
    cases hc : looksLikeLength c with
    | true => simp [hc]
    | false =>
      simp only [Bool.false_eq_true, if_false, List.filter_cons, hc, List.filter_nil,
        List.append_nil]
      exact ih

/-- The lines of the stream start with the header lines and the empty line. -/
theorem PostHeaders.lines_stream (s : PostHeaders) : lines s.ending.seen s.stream =
    s.headers.map Header.text ++ [[]] ++ lines s.ending.seen s.further := by
  have hshown : (emptyLine s.blank).eol = .cr → s.further = [] → s.ending.seen = true := s.shown
  rw [stream, lines_bytes s.ended hshown, List.map_append, List.map_map]
  rfl

/-- The header loop returns with what it has found in the header section. -/
theorem usesDeclared_iff (s : PostHeaders) : UsesDeclared s ↔
    seenLength (chunksRead s.headers) = declaredLength s.headers := by
  have hlast : ([] : Bytes) ∈ s.headers.map Header.text ++ [[]] := by simp
  have hannounced : announced (lines s.ending.seen s.stream) =
      seenLength (chunksRead s.headers) := by
    rw [s.lines_stream, announced, firstSection_append hlast rfl, chunksRead]
  have hskips : 0 < (lines s.ending.seen s.stream).countP (endsEmpty 1022) := by
    rw [s.lines_stream]
    refine List.countP_pos_iff.mpr ⟨[], ?_, rfl⟩
    exact List.mem_append_left _ hlast
  rw [UsesDeclared]
  constructor
  · rintro ⟨w, hreturns⟩
    obtain ⟨cs, hcs, hseen⟩ := returns_readHeaders.mp hreturns
    exact hannounced.symm.trans (hcs.seenLength_eq.symm.trans hseen.symm)
  · intro heq
    obtain ⟨ts, rest, hts⟩ := exists_skips_iff.mpr hskips
    obtain ⟨cs, w, hcs, -⟩ :=
      exists_reads_of_skips (w := connected s.stream s.ending) hts
    refine ⟨w, returns_readHeaders.mpr ⟨cs, hcs, ?_⟩⟩
    exact heq.symm.trans (hannounced.symm.trans hcs.seenLength_eq.symm)

/-! ### The first piece of a header line -/

/-- The first piece of a line is its beginning, or the whole line with its LF. -/
theorem pieces_eq (t : Bytes) : ∃ c, pieces 1022 t = c :: (pieces 1022 t).tail ∧
    (t.length < 1022 ∧ c = t ++ [LF] ∨ 1022 ≤ t.length ∧ c = t.take 1022) := by
  rcases Nat.lt_or_ge t.length 1022 with hlt | hge
  · rw [pieces_short hlt]
    exact ⟨t ++ [LF], rfl, .inl ⟨hlt, rfl⟩⟩
  · rw [pieces_long (by omega) hge]
    exact ⟨t.take 1022, rfl, .inr ⟨hge, rfl⟩⟩

/-- The name of a header ends at its colon. -/
theorem takeWhile_colon {a r : Bytes} (ha : ∀ b ∈ a, b ≠ 58) :
    (a ++ 58 :: r).takeWhile (· != 58) = a := by
  rw [List.takeWhile_append_of_pos (by simpa using ha)]
  simp

/-- What is no letter is the small letter of nothing else. -/
theorem tolower_eq_iff {b c : UInt8} (hc : c.toNat < 65) : tolower b = c ↔ b = c := by
  unfold tolower
  split
  · rename_i hletter
    simp only [Bool.and_eq_true, decide_eq_true_eq, UInt8.le_iff_toNat_le] at hletter
    have hlo : 65 ≤ b.toNat := hletter.1
    have hhi : b.toNat ≤ 90 := hletter.2
    rw [← UInt8.toNat_inj, ← UInt8.toNat_inj, UInt8.toNat_add]
    simp only [UInt8.reduceToNat]
    omega
  · exact Iff.rfl

/-- The first 16 bytes of a chunk that passes the test. -/
theorem exists_of_looksLikeLength (hc : looksLikeLength c = true) : ∃ a z,
    c = a ++ 58 :: 32 :: z ∧ (∀ b ∈ a, b ≠ 58) ∧ sameIgnoringCase a lengthName = true := by
  have heq : ((cstr c).take 16).map tolower = lengthName.map tolower ++ [58, 32] := by
    simpa [looksLikeLength, samePrefixIgnoringCase, sameIgnoringCase, lengthName, ascii, tolower]
      using hc
  obtain ⟨a, y, hay, ha, hy⟩ := List.map_eq_append_iff.mp heq
  obtain ⟨p, q', rfl, hp, hq⟩ := List.map_eq_cons_iff.mp hy
  obtain ⟨q, r, rfl, hq, -⟩ := List.map_eq_cons_iff.mp hq
  obtain rfl : p = 58 := (tolower_eq_iff (by decide)).mp hp
  obtain rfl : q = 32 := (tolower_eq_iff (by decide)).mp hq
  obtain ⟨z, hz⟩ : (cstr c).take 16 <+: c := (List.take_prefix 16 _).trans (List.takeWhile_prefix _)
  refine ⟨a, r ++ z, ?_, fun b hb he => ?_, by simpa [sameIgnoringCase] using ha⟩
  · rw [← hz, hay]
    simp
  · have hmem : (58 : UInt8) ∈ lengthName.map tolower :=
      ha ▸ List.mem_map.mpr ⟨b, hb, (tolower_eq_iff (by decide)).mpr he⟩
    exact absurd hmem (by decide)

/-- Only a line whose field name is `Content-Length` and that has a space behind the colon has a
first piece that passes the test. -/
theorem spelled_of_looksLikeLength (hc : looksLikeLength c = true)
    (hfirst : c <+: h.text ++ [LF]) : h.isLength = true ∧ h.before.head? = some 32 := by
  obtain ⟨a, z, rfl, ha, hname⟩ := exists_of_looksLikeLength hc
  obtain ⟨r, hr⟩ := hfirst
  have htext : h.text ++ [LF] = h.name ++ 58 :: (h.before ++ (h.value ++ (h.after ++ [LF]))) := by
    simp [Header.text, Header.front]
  rw [htext, List.append_assoc, List.cons_append] at hr
  have hleft := congrArg (List.takeWhile (· != 58)) hr
  rw [takeWhile_colon ha, takeWhile_colon fun b hb => (h.name_plain b hb).1] at hleft
  subst hleft
  have hright := (List.cons.inj (List.append_cancel_left hr)).2
  refine ⟨hname, ?_⟩
  cases hbefore : h.before with
  | cons b ows =>
    rw [hbefore] at hright
    exact congrArg some (List.cons.inj hright).1.symm
  | nil =>
    -- then a digit would follow the colon
    obtain ⟨hne, hdigits⟩ := h.numeric hname
    obtain ⟨d, ds, hvalue⟩ := List.exists_cons_of_ne_nil hne
    rw [hbefore, hvalue] at hright
    have hdigit := hdigits d (hvalue ▸ List.mem_cons_self)
    rw [← (List.cons.inj hright).1] at hdigit
    exact absurd hdigit (by decide)

/-! ### The number behind the name -/

/-- `atoi` skips blanks. -/
theorem isspace_of_isBlank {b : UInt8} (hb : isBlank b = true) : isspace b = true := by
  obtain rfl | rfl : b = 32 ∨ b = 9 := by simpa [isBlank] using hb
  · rfl
  · rfl

/-- The first piece of a line whose value ends inside of it. -/
theorem exists_first_piece (hinside : h.front.length ≤ 1022)
    (hc : h.text.length < 1022 ∧ c = h.text ++ [LF] ∨
      1022 ≤ h.text.length ∧ c = h.text.take 1022) :
    ∃ r, c = h.front ++ r ∧ ∀ b ∈ r, isBlank b = true ∨ b = LF := by
  have hblank {b : UInt8} (hb : b ∈ h.after) : isBlank b = true :=
    h.blanks b (List.mem_append_right _ hb)
  rcases hc with ⟨-, rfl⟩ | ⟨-, rfl⟩
  · refine ⟨h.after ++ [LF], List.append_assoc _ _ _, fun b hb => ?_⟩
    rcases List.mem_append.mp hb with hafter | hlf
    · exact .inl (hblank hafter)
    · exact .inr (List.mem_singleton.mp hlf)
  · refine ⟨h.after.take (1022 - h.front.length), ?_, fun b hb => ?_⟩
    · rw [Header.text, List.take_append, List.take_of_length_le hinside]
    · exact .inl (hblank (List.mem_of_mem_take hb))

/-- The beginning of a `Content-Length` that is spelled with a space, when only blanks and digits
follow it. -/
theorem chunk_of_spelled (hlength : h.isLength = true) {r : Bytes}
    (hr : ∀ b ∈ r, isBlank b = true ∨ b = LF ∨ isdigit b = true) :
    looksLikeLength (h.name ++ 58 :: 32 :: r) = true ∧
      chunkNumber (h.name ++ 58 :: 32 :: r) = atoi r := by
  have hname : h.name.map tolower = lengthName.map tolower := by
    simpa [Header.isLength, sameIgnoringCase] using hlength
  have hlen : h.name.length = 14 := by simpa [lengthName, ascii] using congrArg List.length hname
  have hnul : 0 ∉ h.name ++ 58 :: 32 :: r := by
    intro hmem
    rw [List.mem_append, List.mem_cons, List.mem_cons] at hmem
    rcases hmem with hmem | hmem | hmem | hmem
    · have hzero : (0 : UInt8) ∈ lengthName.map tolower :=
        hname ▸ List.mem_map.mpr ⟨0, hmem, rfl⟩
      exact absurd hzero (by decide)
    · cases hmem
    · cases hmem
    · exact absurd (hr 0 hmem) (by decide)
  have hsplit : h.name ++ 58 :: 32 :: r = (h.name ++ [58, 32]) ++ r := by simp
  have hlen' : (h.name ++ [58, 32]).length = 16 := by simp [hlen]
  constructor
  · have hprefix : (ascii "Content-Length: ").take 16 = lengthName ++ [58, 32] := rfl
    rw [looksLikeLength, cstr_of_notMem hnul, hsplit, samePrefixIgnoringCase,
      List.take_left' hlen', hprefix]
    simp [sameIgnoringCase, hname]
  · rw [chunkNumber, cstr_of_notMem hnul, hsplit, ← hlen', List.drop_left]

/-- The parts of a `Content-Length` that is spelled with a space. -/
theorem front_of_spelled (hspace : h.before.head? = some 32) : ∃ ows, h.before = 32 :: ows ∧
    h.front = h.name ++ 58 :: 32 :: (ows ++ h.value) ∧ ∀ b ∈ ows, isBlank b = true := by
  obtain ⟨ows, hows⟩ : ∃ ows, h.before = 32 :: ows := by
    cases hbefore : h.before with
    | nil => simp [hbefore] at hspace
    | cons b ows => exact ⟨ows, by simpa [hbefore] using hspace⟩
  refine ⟨ows, hows, by simp [Header.front, hows], fun b hb => ?_⟩
  exact h.blanks b (List.mem_append_left _ (hows ▸ List.mem_cons_of_mem 32 hb))

/-- The first piece of a `Content-Length` that is spelled with a space and holds all of its
digits passes the test and has its number, if it fits an `int`. -/
theorem first_piece_of_spelled (hlength : h.isLength = true) (hspace : h.before.head? = some 32)
    (hinside : h.front.length ≤ 1022)
    (hc : h.text.length < 1022 ∧ c = h.text ++ [LF] ∨
      1022 ≤ h.text.length ∧ c = h.text.take 1022) :
    looksLikeLength c = true ∧ (chunkNumber c = h.number ↔ h.number < 2 ^ 31) := by
  obtain ⟨r, rfl, hr⟩ := exists_first_piece hinside hc
  obtain ⟨hne, hdigits⟩ := h.numeric hlength
  obtain ⟨ows, -, hfront, hows⟩ := front_of_spelled hspace
  have hwhole : h.front ++ r = h.name ++ 58 :: 32 :: (ows ++ (h.value ++ r)) := by
    simp [hfront]
  have hplain : ∀ b ∈ ows ++ (h.value ++ r), isBlank b = true ∨ b = LF ∨ isdigit b = true := by
    intro b hb
    rcases List.mem_append.mp hb with hmem | hmem
    · exact .inl (hows b hmem)
    · rcases List.mem_append.mp hmem with hmem | hmem
      · exact .inr (.inr (hdigits b hmem))
      · exact (hr b hmem).imp_right .inl
  obtain ⟨hlook, hnumber⟩ := chunk_of_spelled hlength hplain
  rw [hwhole]
  refine ⟨hlook, fun heq => ?_, fun hfits => ?_⟩
  · have hlt := atoi_lt (ows ++ (h.value ++ r))
    omega
  · rw [hnumber]
    refine atoi_eq (fun b hb => isspace_of_isBlank (hows b hb)) hne hdigits (fun b hb => ?_) hfits
    rcases hr b hb with hb | rfl
    · obtain rfl | rfl : b = 32 ∨ b = 9 := by simpa [isBlank] using hb
      · rfl
      · rfl
    · rfl

/-- When the digits go beyond the first piece, it has the number only if the number is 0. -/
theorem first_piece_of_cut (hlength : h.isLength = true) (hspace : h.before.head? = some 32)
    (hbeyond : 1022 < h.front.length) :
    chunkNumber (h.text.take 1022) = h.number ↔ h.number = 0 := by
  obtain ⟨hvalue, hdigits⟩ := h.numeric hlength
  obtain ⟨ows, -, hfront, hows⟩ := front_of_spelled hspace
  have hname : h.name.map tolower = lengthName.map tolower := by
    simpa [Header.isLength, sameIgnoringCase] using hlength
  have hlen : h.name.length = 14 := by simpa [lengthName, ascii] using congrArg List.length hname
  have hflen : h.front.length = 16 + (ows.length + h.value.length) := by
    rw [hfront, List.length_append, List.length_cons, List.length_cons, List.length_append, hlen]
    omega
  have htake : h.text.take 1022 = h.name ++ 58 :: 32 ::
      (ows.take 1006 ++ h.value.take (1006 - ows.length)) := by
    have hfirst : h.text.take 1022 = h.front.take 1022 := by
      rw [Header.text, List.take_append_of_le_length hbeyond.le]
    rw [hfirst, hfront, List.take_append, hlen, List.take_of_length_le (by omega)]
    simp [List.take_append]
  have hblanks : ∀ b ∈ ows.take 1006, isBlank b = true := fun b hb =>
    hows b (List.mem_of_mem_take hb)
  have hshown : ∀ b ∈ h.value.take (1006 - ows.length), isdigit b = true := fun b hb =>
    hdigits b (List.mem_of_mem_take hb)
  have hplain : ∀ b ∈ ows.take 1006 ++ h.value.take (1006 - ows.length),
      isBlank b = true ∨ b = LF ∨ isdigit b = true := fun b hb =>
    (List.mem_append.mp hb).imp (hblanks b) fun hmem => .inr (hshown b hmem)
  have hge : value (h.value.take (1006 - ows.length)) * 10 ≤ h.number := by
    have hne : h.value.drop (1006 - ows.length) ≠ [] := by
      have hpos := List.length_pos_of_ne_nil hvalue
      rw [ne_eq, List.drop_eq_nil_iff]
      omega
    have happend := value_append_ge (s := h.value.take (1006 - ows.length)) hne
    rwa [List.take_append_drop] at happend
  rw [htake, (chunk_of_spelled hlength hplain).2,
    atoi_blanks_append (fun b hb => isspace_of_isBlank (hblanks b hb)) hshown]
  have hlt := @Int.bmod_lt (min (2 ^ 63 - 1) (value (h.value.take (1006 - ows.length)) : Int))
    (2 ^ 32) (by decide)
  constructor
  · intro heq
    have hsmall : value (h.value.take (1006 - ows.length)) < 2 ^ 31 := by omega
    rw [min_eq_right (by omega), Int.bmod_eq_of_le (by omega) (by omega)] at heq
    omega
  · intro hzero
    have hnone : value (h.value.take (1006 - ows.length)) = 0 := by omega
    rw [hnone, hzero]
    rfl

/-! ### Sections whose length is recognised -/

/-- The line end is no header. -/
theorem not_looksLikeLength_LF : looksLikeLength [LF] = false := by
  decide

/-- No piece of a line with another field name passes the test, if only first pieces can. -/
theorem not_looksLikeLength_of_other (hother : h.isLength = false) (hquiet : Quiet h.text)
    (hc : c ∈ pieces 1022 h.text) : looksLikeLength c = false := by
  obtain ⟨d, hd, hfirst⟩ := pieces_eq h.text
  rw [hd, List.mem_cons] at hc
  rcases hc with rfl | htail
  · by_contra hlook
    rw [Bool.not_eq_false] at hlook
    have hprefix : c <+: h.text ++ [LF] := by
      rcases hfirst with ⟨-, rfl⟩ | ⟨-, rfl⟩
      · exact List.prefix_refl _
      · exact (List.take_prefix 1022 h.text).trans (List.prefix_append _ _)
    exact Bool.false_ne_true (hother.symm.trans (spelled_of_looksLikeLength hlook hprefix).1)
  · exact hquiet c htail

/-- Behind the last `Content-Length` nothing passes the test, if only first pieces can. -/
theorem not_looksLikeLength_of_mem (hother : ∀ h ∈ hs, h.isLength = false) (hquiet : AllQuiet hs)
    (hc : c ∈ chunksRead hs) : looksLikeLength c = false := by
  obtain ⟨t, ht, hct⟩ := List.mem_flatMap.mp hc
  rcases mem_firstSection_concat ht with hline | rfl
  · obtain ⟨h, hmem, rfl⟩ := List.mem_map.mp (mem_of_mem_firstSection hline)
    exact not_looksLikeLength_of_other (hother h hmem) (hquiet _ hline) hct
  · rw [pieces_short (by decide), List.mem_singleton] at hct
    rw [hct]
    exact not_looksLikeLength_LF

/-- The chunks of the lines behind a header line that does not end empty. -/
theorem chunksRead_append {before : List Header}
    (hreached : ∀ k ∈ before, ¬ 1022 ∣ k.text.length) (after : List Header) :
    chunksRead (before ++ after) =
      (before.map Header.text).flatMap (pieces 1022) ++ chunksRead after := by
  have hnot : ∀ t ∈ before.map Header.text, endsEmpty 1022 t = false := by
    intro t ht
    obtain ⟨k, hk, rfl⟩ := List.mem_map.mp ht
    rw [← Bool.not_eq_true, endsEmpty_iff]
    exact hreached k hk
  rw [chunksRead, chunksRead, List.map_append, List.append_assoc,
    firstSection_append_of_not hnot, List.flatMap_append]

/-- What is read behind the first piece of a line. -/
theorem exists_chunksRead_cons (h : Header) (after : List Header) : ∃ cs,
    chunksRead (h :: after) = pieces 1022 h.text ++ cs ∧
      ∀ c ∈ cs, c ∈ chunksRead after ∧ ¬ 1022 ∣ h.text.length := by
  rw [chunksRead, List.map_cons, List.cons_append, firstSection]
  by_cases hd : 1022 ∣ h.text.length
  · rw [if_pos (endsEmpty_iff.mpr hd)]
    exact ⟨[], by simp, by simp⟩
  · rw [if_neg (by rwa [endsEmpty_iff]), List.flatMap_cons]
    exact ⟨chunksRead after, rfl, fun c hc => ⟨hc, hd⟩⟩

/-- The first header is quiet. -/
theorem AllQuiet.head {after : List Header} (h : AllQuiet (k :: after)) : Quiet k.text := by
  apply h
  rw [List.map_cons, firstSection]
  split <;> exact List.mem_cons_self

/-- The headers behind one that is read on are quiet. -/
theorem AllQuiet.tail {after : List Header} (h : AllQuiet (k :: after))
    (hnd : ¬ 1022 ∣ k.text.length) : AllQuiet after := by
  intro t ht
  apply h
  rw [List.map_cons, firstSection, if_neg (by rwa [endsEmpty_iff])]
  exact List.mem_cons_of_mem _ ht

/-- Without a Content-Length none is declared. -/
theorem declaredLength_of_none (hnone : ∀ h ∈ hs, h.isLength = false) : declaredLength hs = 0 := by
  rw [declaredLength, List.filter_eq_nil_iff.mpr fun h hh => by simp [hnone h hh]]
  rfl

/-- The last Content-Length is declared. -/
theorem declaredLength_of_last {before after : List Header} (hlength : h.isLength = true)
    (hlast : ∀ k ∈ after, k.isLength = false) :
    declaredLength (before ++ h :: after) = h.number := by
  rw [declaredLength, getLast?_filter_of_last hlength hlast]
  rfl

/-- A piece that is read behind this line is a piece of a line behind it. -/
theorem mem_chunksRead_cons (h : Header) (after : List Header) :
    c ∈ chunksRead (h :: after) ↔
      c ∈ pieces 1022 h.text ∨ ¬ 1022 ∣ h.text.length ∧ c ∈ chunksRead after := by
  rw [chunksRead, List.map_cons, List.cons_append, firstSection]
  by_cases hd : 1022 ∣ h.text.length
  · simp [endsEmpty_iff.mpr hd, hd]
  · rw [if_neg (by rwa [endsEmpty_iff]), List.flatMap_cons, List.mem_append, and_iff_right hd]
    rfl

/-- The number that decides is the one that the loop leaves in `clength`. -/
theorem Decides.seenLength_eq {before after : List Header} {earlier : List Bytes}
    (h : Decides hs before k after earlier c) : seenLength (chunksRead hs) = chunkNumber c := by
  obtain ⟨later, hpieces, hlater⟩ := h.piece
  obtain ⟨cs, hcs, hbehind⟩ := exists_chunksRead_cons k after
  have hrest : ∀ d ∈ later ++ cs, looksLikeLength d = false := by
    intro d hd
    rcases List.mem_append.mp hd with hd | hd
    · exact hlater d hd
    · obtain ⟨hread, hnd⟩ := hbehind d hd
      exact h.behind hnd d hread
  have hread : chunksRead hs =
      ((before.map Header.text).flatMap (pieces 1022) ++ earlier) ++ c :: (later ++ cs) := by
    rw [h.split, chunksRead_append h.reached, hcs, hpieces]
    simp
  rw [seenLength_eq_last, hread, getLast?_filter_of_last h.passes hrest]
  rfl

/-- When some piece that is read passes the test, a piece of a header line is the last one. -/
theorem exists_decides (hpass : ∃ d ∈ chunksRead hs, looksLikeLength d = true) :
    ∃ before h after earlier c, Decides hs before h after earlier c := by
  induction hs with
  | nil =>
    obtain ⟨d, hd, hlook⟩ := hpass
    have hread : chunksRead [] = [[LF]] := by
      simp [chunksRead, firstSection, endsEmpty, pieces_short]
    rw [hread, List.mem_singleton] at hd
    rw [hd, not_looksLikeLength_LF] at hlook
    cases hlook
  | cons h after ih =>
    by_cases hafter : ¬ 1022 ∣ h.text.length ∧ ∃ d ∈ chunksRead after, looksLikeLength d = true
    · obtain ⟨before, k, rest, earlier, c, hdecides⟩ := ih hafter.2
      refine ⟨h :: before, k, rest, earlier, c, ?_, ?_, hdecides.piece, hdecides.passes,
        hdecides.behind⟩
      · rw [hdecides.split]
        rfl
      · exact List.forall_mem_cons.mpr ⟨hafter.1, hdecides.reached⟩
    · have hnone : ¬ 1022 ∣ h.text.length → ∀ d ∈ chunksRead after, looksLikeLength d = false := by
        intro hnd d hd
        rw [← Bool.not_eq_true]
        exact fun hlook => hafter ⟨hnd, d, hd, hlook⟩
      obtain ⟨d, hd, hlook⟩ := hpass
      have hmem : d ∈ (pieces 1022 h.text).reverse := by
        rcases (mem_chunksRead_cons h after).mp hd with hd | ⟨hnd, hd⟩
        · exact List.mem_reverse.mpr hd
        · rw [hnone hnd d hd] at hlook
          cases hlook
      obtain ⟨c, hc⟩ := Option.isSome_iff_exists.mp (List.find?_isSome.mpr ⟨d, hmem, hlook⟩)
      obtain ⟨hpasses, later, earlier, hsplit, hlater⟩ := List.find?_eq_some_iff_append.mp hc
      refine ⟨[], h, after, earlier.reverse, c, rfl, List.forall_mem_nil _,
        ⟨later.reverse, ?_, fun d hd => ?_⟩, hpasses, hnone⟩
      · have hreverse := congrArg List.reverse hsplit
        rw [List.reverse_reverse] at hreverse
        simpa using hreverse
      · simpa using hlater d (List.mem_reverse.mp hd)

/-- What stands on the first piece of a line that decides. -/
theorem Decides.first_piece {before after : List Header} (h : Decides hs before k after [] c) :
    k.isLength = true ∧ k.before.head? = some 32 ∧
      (k.text.length < 1022 ∧ c = k.text ++ [LF] ∨ 1022 ≤ k.text.length ∧ c = k.text.take 1022) ∧
        Quiet k.text := by
  obtain ⟨later, hpieces, hlater⟩ := h.piece
  obtain ⟨d, hd, hfirst⟩ := pieces_eq k.text
  rw [List.nil_append] at hpieces
  have htail : (pieces 1022 k.text).tail = later := by rw [hpieces]; rfl
  obtain rfl : d = c := (List.cons.inj (hd.symm.trans hpieces)).1
  have hprefix : d <+: k.text ++ [LF] := by
    rcases hfirst with ⟨-, rfl⟩ | ⟨-, rfl⟩
    · exact List.prefix_refl _
    · exact (List.take_prefix 1022 k.text).trans (List.prefix_append _ _)
  obtain ⟨hlength, hspace⟩ := spelled_of_looksLikeLength h.passes hprefix
  exact ⟨hlength, hspace, hfirst, fun e he => hlater e (htail ▸ he)⟩

/-- Where no piece passes, no further piece of a line does. -/
theorem allQuiet_of_none (hnone : ∀ c ∈ chunksRead hs, looksLikeLength c = false) :
    AllQuiet hs := by
  induction hs with
  | nil => exact fun t ht => by cases ht
  | cons h after ih =>
    have hhead : Quiet h.text := fun c hc =>
      hnone c ((mem_chunksRead_cons h after).mpr (.inl (List.mem_of_mem_tail hc)))
    intro t ht
    rw [List.map_cons, firstSection] at ht
    split at ht
    · rw [List.mem_singleton.mp ht]
      exact hhead
    · rename_i hd
      rw [endsEmpty_iff] at hd
      rcases List.mem_cons.mp ht with rfl | ht
      · exact hhead
      · exact ih (fun c hc => hnone c ((mem_chunksRead_cons h after).mpr (.inr ⟨hd, hc⟩))) t ht

/-- Behind a line that decides by its first piece only first pieces can pass. -/
theorem Decides.allQuiet {before after : List Header} (h : Decides hs before k after [] c) :
    AllQuiet (k :: after) := by
  intro t ht
  rw [List.map_cons, firstSection] at ht
  split at ht
  · rw [List.mem_singleton.mp ht]
    exact h.first_piece.2.2.2
  · rename_i hd
    rw [endsEmpty_iff] at hd
    rcases List.mem_cons.mp ht with rfl | ht
    · exact h.first_piece.2.2.2
    · exact allQuiet_of_none (h.behind hd) t ht

/-- A recognised `Content-Length` is the last chunk that passes the test. -/
theorem Recognised.seenLength_eq (h : Recognised hs) :
    seenLength (chunksRead hs) = declaredLength hs := by
  cases h with
  | absent hnone hquiet =>
    have hpass : (chunksRead hs).filter looksLikeLength = [] := by
      refine List.filter_eq_nil_iff.mpr fun c hc => ?_
      simp [not_looksLikeLength_of_mem hnone hquiet hc]
    rw [seenLength_eq_last, hpass, declaredLength_of_none hnone]
    rfl
  | @last before after k heq hlength hlast hreached hspace hinside hfits hquiet =>
    obtain ⟨c, hc, hfirst⟩ := pieces_eq k.text
    obtain ⟨hlook, hnumber⟩ := first_piece_of_spelled hlength hspace hinside hfirst
    have hdecides : Decides hs before k after [] c :=
      ⟨heq, hreached, ⟨_, hc, hquiet.head⟩, hlook, fun hnd d hd =>
        not_looksLikeLength_of_mem hlast (hquiet.tail hnd) hd⟩
    rw [hdecides.seenLength_eq, heq, declaredLength_of_last hlength hlast]
    exact hnumber.mpr hfits

/-- The number is found in each of the coincidences. -/
theorem Coincidence.seenLength_eq (h : Coincidence hs) :
    seenLength (chunksRead hs) = declaredLength hs := by
  cases h with
  | unseen h hmem hlength hzero hnone =>
    have hpass : (chunksRead hs).filter looksLikeLength = [] :=
      List.filter_eq_nil_iff.mpr fun c hc => by simp [hnone c hc]
    rw [seenLength_eq_last, hpass, hzero]
    rfl
  | cut before h after c hdecides hlast hbeyond hzero =>
    obtain ⟨hlength, hspace, hfirst, -⟩ := hdecides.first_piece
    obtain rfl : c = h.text.take 1022 := by
      rcases hfirst with ⟨hlt, -⟩ | ⟨-, hc⟩
      · rw [Header.text, List.length_append] at hlt
        omega
      · exact hc
    have hnumber : declaredLength hs = h.number :=
      hdecides.split ▸ declaredLength_of_last hlength hlast
    rw [hdecides.seenLength_eq, hnumber]
    exact (first_piece_of_cut hlength hspace hbeyond).mpr (hnumber.symm.trans hzero)
  | earlier before h after c hdecides k hmem hlength hsame =>
    exact hdecides.seenLength_eq.trans hsame
  | inside before h after p ps c hdecides hsame => exact hdecides.seenLength_eq.trans hsame

/-- When the declared number is found, it is recognised or one of the coincidences. -/
theorem recognised_or_coincidence (h : seenLength (chunksRead hs) = declaredLength hs) :
    Recognised hs ∨ Coincidence hs := by
  by_cases hpass : ∃ d ∈ chunksRead hs, looksLikeLength d = true
  · obtain ⟨before, k, after, earlier, c, hdecides⟩ := exists_decides hpass
    have hsame : chunkNumber c = declaredLength hs := hdecides.seenLength_eq.symm.trans h
    cases earlier with
    | cons p ps => exact .inr (.inside before k after p ps c hdecides hsame)
    | nil =>
      obtain ⟨hlength, hspace, hfirst, -⟩ := hdecides.first_piece
      by_cases hlater : ∃ j ∈ after, j.isLength = true
      · obtain ⟨j, hmem, hj⟩ := hlater
        exact .inr (.earlier before k after c hdecides j hmem hj hsame)
      · have hlast : ∀ j ∈ after, j.isLength = false := by
          intro j hj
          rw [← Bool.not_eq_true]
          exact fun hlook => hlater ⟨j, hj, hlook⟩
        have hnumber : declaredLength hs = k.number :=
          hdecides.split ▸ declaredLength_of_last hlength hlast
        rw [hnumber] at hsame
        rcases Nat.lt_or_ge 1022 k.front.length with hbeyond | hinside
        · obtain rfl : c = k.text.take 1022 := by
            rcases hfirst with ⟨hlt, -⟩ | ⟨-, hc⟩
            · rw [Header.text, List.length_append] at hlt
              omega
            · exact hc
          have hzero := (first_piece_of_cut hlength hspace hbeyond).mp hsame
          exact .inr (.cut before k after _ hdecides hlast hbeyond (hnumber.trans hzero))
        · have hfits := (first_piece_of_spelled hlength hspace hinside hfirst).2.mp hsame
          exact .inl (.last hdecides.split hlength hlast hdecides.reached hspace hinside hfits
            hdecides.allQuiet)
  · have hnone : ∀ c ∈ chunksRead hs, looksLikeLength c = false := by
      intro c hc
      rw [← Bool.not_eq_true]
      exact fun hlook => hpass ⟨c, hc, hlook⟩
    by_cases hlength : ∃ k ∈ hs, k.isLength = true
    · obtain ⟨k, hmem, hk⟩ := hlength
      have hfilter : (chunksRead hs).filter looksLikeLength = [] :=
        List.filter_eq_nil_iff.mpr fun c hc => by simp [hnone c hc]
      rw [seenLength_eq_last, hfilter] at h
      have hzero : declaredLength hs = 0 := Int.natCast_eq_zero.mp h.symm
      exact .inr (.unseen k hmem hk hzero hnone)
    · refine .inl (.absent (fun k hk => ?_) (allQuiet_of_none hnone))
      rw [← Bool.not_eq_true]
      exact fun hlook => hlength ⟨k, hk, hlook⟩

/-- `excu_cgi` uses the declared length exactly when the last `Content-Length` is recognised, or
by one of four coincidences. -/
theorem usesDeclared_iff_recognised (s : PostHeaders) :
    UsesDeclared s ↔ Recognised s.headers ∨ Coincidence s.headers := by
  rw [usesDeclared_iff]
  constructor
  · exact recognised_or_coincidence
  · rintro (h | h)
    · exact h.seenLength_eq
    · exact h.seenLength_eq

/-! ### A header line without white space behind the colon -/

theorem unspaced_plain : ∀ b ∈ ascii "content-length", b ≠ 58 ∧ b ≠ LF ∧ b ≠ CR := by
  simp [ascii, LF, CR]

theorem unspaced_value : ∀ b ∈ ascii "5", b ≠ LF ∧ b ≠ CR := by
  simp [ascii, LF, CR]

theorem unspaced_blanks : ∀ b ∈ ([] ++ [] : Bytes), isBlank b = true := by
  simp

theorem unspaced_numeric (_ : sameIgnoringCase (ascii "content-length") lengthName = true) :
    ascii "5" ≠ [] ∧ ∀ b ∈ ascii "5", isdigit b = true := by
  simp [ascii, isdigit]

/-- `content-length:5`. -/
def unspaced : Header :=
  ⟨ascii "content-length", [], ascii "5", [], .crlf, unspaced_plain, unspaced_value,
    unspaced_blanks, unspaced_numeric⟩

theorem unspaced_ended :
    WellEnded ([unspaced].map Header.line ++ [emptyLine .crlf]) (ascii "hello") := by
  simp [WellEnded, unspaced, Header.line, emptyLine]

theorem unspaced_shown : Eol.crlf = .cr → ascii "hello" = [] → Ending.silent.seen = true := by
  decide

/-- The header section of a POST with a body of 5 bytes. -/
def unspacedHeaders : PostHeaders :=
  ⟨[unspaced], .crlf, ascii "hello", .silent, unspaced_ended, unspaced_shown⟩

/-- A length without a blank behind the colon is not used. -/
theorem not_usesDeclared_unspaced : ¬ UsesDeclared unspacedHeaders := by
  intro h
  have heq := (usesDeclared_iff unspacedHeaders).mp h
  have hseen : seenLength (chunksRead [unspaced]) = 0 := by
    have hread : chunksRead [unspaced] = [ascii "content-length:5" ++ [LF], [LF]] := by
      simp [chunksRead, firstSection, unspaced, Header.text, Header.front, endsEmpty, pieces_short,
        ascii]
    rw [hread]
    decide
  have hdeclared : declaredLength [unspaced] = 5 := by
    decide
  rw [unspacedHeaders, hseen, hdeclared] at heq
  exact absurd heq (by decide)

end NetworkCode.Httpd
