import NetworkCode.Httpd.Conduct

/-!
# Reading lines: what the loops over `get_line` take off the connection

`get_line` returns exactly when the stream provides a chunk, and it then
returns this chunk. `clean_hander` and the header loop of `excu_cgi` read
chunks until one is the LF alone, so they stop at the same place, and both
return exactly when some complete line ahead has a length that is a multiple
of 1022.
-/

namespace NetworkCode.Httpd

open Prog LineStream Text

variable {w w' : World} {buf : Bytes} {size : Nat}

/-! ### Single calls -/

/-- A call is recorded behind the others. -/
theorem returns_record {e : Event} {r : Unit} : (record e).Returns w r w' ↔
    w' = { w with trace := w.trace ++ [e] } := by
  simp [record]

/-- How much there is still to read. -/
theorem returns_unread {n : Nat} : unread.Returns w n w' ↔ n = w.inbox.length ∧ w' = w := by
  simp [unread, eq_comm]

/-- `recv` takes a byte that has arrived, or looks at it. -/
theorem returns_recv_cons {peek : Bool} {c b : UInt8} {bs : Bytes} {e : Ending} {k : Conduct}
    {tr : List Event} {r : Int × UInt8} : (recv peek c).Returns ⟨b :: bs, e, k, tr⟩ r w' ↔
      r = (1, b) ∧ w' = if peek then ⟨b :: bs, e, k, tr⟩ else ⟨bs, e, k, tr⟩ := by
  simp [recv, eq_comm]

/-- Behind the last byte `recv` returns when the connection has ended. -/
theorem returns_recv_nil {peek : Bool} {c : UInt8} {e : Ending} {k : Conduct} {tr : List Event}
    {r : Int × UInt8} : (recv peek c).Returns ⟨[], e, k, tr⟩ r w' ↔
      e.seen = true ∧ r = (if e = .gone .closed then 0 else -1, c) ∧ w' = ⟨[], e, k, tr⟩ := by
  rcases e with _ | _ | _ <;> simp [recv, Ending.seen, eq_comm]

/-- A store inside of the array returns. -/
theorem returns_store {i : Nat} {c : UInt8} {r : Bytes} : (store buf i c).Returns w r w' ↔
    i < buf.length ∧ r = buf.set i c ∧ w' = w := by
  unfold store
  split <;> simp_all [eq_comm]

/-- A load inside of the array returns. -/
theorem returns_load {i : Nat} {c : UInt8} : (load buf i).Returns w c w' ↔
    buf[i]? = some c ∧ w' = w := by
  unfold load
  cases buf[i]? <;> simp [eq_comm]

/-- The string of an array with a NUL is returned. -/
theorem returns_cString {s : Bytes} : (cString buf).Returns w s w' ↔
    0 ∈ buf ∧ s = cstr buf ∧ w' = w := by
  unfold cString
  split <;> simp_all [eq_comm]

/-- Behind a CR the rest of the line end is taken, if there is a way to see it. -/
theorem returns_readEol {c : UInt8} : readEol.Returns w c w' ↔
    c = LF ∧ ∃ rest, afterCR w.ending.seen w.inbox = some rest ∧ w' = { w with inbox := rest } := by
  obtain ⟨inbox, e, k, tr⟩ := w
  cases inbox with
  | nil =>
    rcases e with _ | _ | _ <;> simp [readEol, returns_recv_nil, afterCR, Ending.seen]
  | cons b bs =>
    by_cases hb : b = LF <;> simp [readEol, returns_recv_cons, afterCR, hb]

/-- The bytes that `get_line` puts into the array for the front of the stream. -/
def nextByte (ends : Bool) : Bytes → Option (UInt8 × Bytes)
  | [] => none
  | b :: bs => if b = CR then (afterCR ends bs).map fun rest => (LF, rest) else some (b, bs)

/-- A chunk begins with the next byte. -/
theorem takeChunk_succ (ends : Bool) (room : Nat) (inbox : Bytes) :
    takeChunk ends (room + 1) inbox = (nextByte ends inbox).bind fun r =>
      if r.1 = LF then some ([LF], r.2)
      else (takeChunk ends room r.2).map fun q => (r.1 :: q.1, q.2) := by
  cases inbox with
  | nil => rfl
  | cons b bs =>
    by_cases hLF : b = LF
    · simp [hLF, nextByte, CR_ne_LF.symm]
    · by_cases hCR : b = CR
      · subst hCR
        cases ha : afterCR ends bs <;> simp [nextByte, ha]
      · simp [takeChunk_cons hLF hCR, nextByte, hLF, hCR]

/-- One iteration of the loop of `get_line` that finds a byte. -/
theorem returns_readByte {v v' : LineVars} (hi : v.i < v.buf.length) (hne : w.inbox ≠ []) :
    (readByte v).Returns w v' w' ↔ ∃ b rest, nextByte w.ending.seen w.inbox = some (b, rest) ∧
      w' = { w with inbox := rest } ∧ v' = ⟨v.i + 1, b, v.buf.set v.i b⟩ := by
  obtain ⟨inbox, e, k, tr⟩ := w
  cases inbox with
  | nil => exact absurd rfl hne
  | cons b bs =>
    by_cases hCR : b = CR
    · subst hCR
      simp [readByte, returns_recv_cons, returns_readEol, returns_store, nextByte, hi]
    · simp [readByte, returns_recv_cons, returns_store, nextByte, hCR, hi]

/-- When `recv` reports the end, an iteration changes nothing. -/
theorem readByte_stuck {v : LineVars} (hnil : w.inbox = []) (hs : w.ending.seen = true) :
    (readByte v).Returns w v w := by
  obtain ⟨inbox, e, k, tr⟩ := w
  subst hnil
  change e.seen = true at hs
  by_cases he : e = .gone .closed <;> simp_all [readByte, returns_recv_nil]

/-- When `recv` waits for ever, an iteration does not end. -/
theorem not_returns_readByte {v v' : LineVars} (hnil : w.inbox = [])
    (hs : w.ending.seen = false) : ¬ (readByte v).Returns w v' w' := by
  obtain ⟨inbox, e, k, tr⟩ := w
  subst hnil
  change e.seen = false at hs
  simp [readByte, returns_recv_nil, hs]

/-! ### One line -/

/-- `buf` with the bytes from index `i` on replaced by `s`. -/
def overwrite (buf : Bytes) (i : Nat) (s : Bytes) : Bytes :=
  buf.take i ++ s ++ buf.drop (i + s.length)

/-- Nothing is stored. -/
@[simp] theorem overwrite_nil (buf : Bytes) (i : Nat) : overwrite buf i [] = buf := by
  rw [overwrite, List.append_nil, List.length_nil, Nat.add_zero, List.take_append_drop]

/-- Bytes stored one after the other. -/
theorem overwrite_set {i : Nat} {c : UInt8} {s : Bytes} (hi : i < buf.length) :
    overwrite (buf.set i c) (i + 1) s = overwrite buf i (c :: s) := by
  have htake : (buf.set i c).take (i + 1) = buf.take i ++ [c] := by
    rw [List.set_eq_take_append_cons_drop, if_pos hi]
    simp [List.take_append, hi.le]
  have hdrop : (buf.set i c).drop (i + 1 + s.length) = buf.drop (i + (s.length + 1)) := by
    rw [List.drop_set_of_lt (by omega)]
    congr 1
    omega
  simp [overwrite, htake, hdrop]

/-- A byte behind what was written to the beginning. -/
theorem overwrite_zero_set {s : Bytes} {c : UInt8} (h : s.length < buf.length) :
    (overwrite buf 0 s).set s.length c = s ++ c :: buf.drop (s.length + 1) := by
  have hne : buf.drop s.length = buf[s.length] :: buf.drop (s.length + 1) :=
    List.drop_eq_getElem_cons h
  simp only [overwrite, List.take_zero, List.nil_append, Nat.zero_add]
  rw [List.set_append_right _ _ (Nat.le_refl _), Nat.sub_self, hne, List.set_cons_zero]

/-- The variables of `get_line` behind the loop that took the chunk `s`. -/
def LineVars.behind (v : LineVars) (s : Bytes) : LineVars :=
  ⟨v.i + s.length, s.getLast?.getD v.c, overwrite v.buf v.i s⟩

/-- The variables behind no byte. -/
@[simp] theorem LineVars.behind_nil (v : LineVars) : v.behind [] = v := by
  rw [LineVars.behind, overwrite_nil]
  rfl

/-- The variables behind one more byte. -/
theorem LineVars.behind_cons {i : Nat} {b c : UInt8} {s : Bytes} (hi : i < buf.length) :
    LineVars.behind ⟨i, c, buf⟩ (b :: s) = LineVars.behind ⟨i + 1, b, buf.set i b⟩ s := by
  have hlen : i + (s.length + 1) = i + 1 + s.length := by omega
  simp [LineVars.behind, overwrite_set hi, hlen, List.getLast?_cons]

/-- The loop of `get_line` goes on while there is room and no line end. -/
theorem lineTest_true {v : LineVars} (hi : v.i < size - 1) (hc : v.c ≠ LF) :
    (lineTest size v).Returns w true w := by
  simp [lineTest, hi, hc]

/-- The loop of `get_line` ends when there is no room or a line end. -/
theorem lineTest_false {v : LineVars} (h : v.i < size - 1 → v.c = LF) :
    (lineTest size v).Returns w false w := by
  by_cases hi : v.i < size - 1
  · simp [lineTest, h hi]
  · simp [lineTest, hi]

/-- The loop of `get_line` returns with the next chunk of the stream, if there is one. -/
theorem returns_lineLoop {i : Nat} {c : UInt8} {v' : LineVars} (hbuf : size ≤ buf.length)
    (hc : c ≠ LF) : (whileLoop (lineTest size) readByte ⟨i, c, buf⟩).Returns w v' w' ↔
      ∃ s rest, takeChunk w.ending.seen (size - 1 - i) w.inbox = some (s, rest) ∧
        w' = { w with inbox := rest } ∧ v' = LineVars.behind ⟨i, c, buf⟩ s := by
  induction hroom : size - 1 - i generalizing i c buf w with
  | zero =>
    have hstop : (lineTest size ⟨i, c, buf⟩).Returns w false w :=
      lineTest_false fun (hlt : i < size - 1) => by omega
    rw [returns_whileLoop_of_false hstop]
    simp
    exact and_comm
  | succ room ih =>
    have hlt : i < size - 1 := by omega
    have hi : i < buf.length := by omega
    have hgo : (lineTest size ⟨i, c, buf⟩).Returns w true w := lineTest_true hlt hc
    by_cases hnil : w.inbox = []
    · have hnone : takeChunk w.ending.seen (room + 1) w.inbox = none := by simp [hnil]
      simp only [hnone, reduceCtorEq, false_and, exists_const, iff_false]
      cases hs : w.ending.seen with
      | true => exact not_returns_whileLoop_of_stuck hgo (readByte_stuck hnil hs)
      | false =>
        rw [returns_whileLoop_of_true hgo]
        simp [not_returns_readByte hnil hs]
    · rw [returns_whileLoop_of_true hgo]
      have hnext (y : LineVars) (t : World) : (readByte ⟨i, c, buf⟩).Returns w y t ↔
          ∃ b rest, nextByte w.ending.seen w.inbox = some (b, rest) ∧
            t = { w with inbox := rest } ∧ y = ⟨i + 1, b, buf.set i b⟩ :=
        returns_readByte hi hnil
      simp only [hnext, takeChunk_succ]
      cases hb : nextByte w.ending.seen w.inbox with
      | none => simp
      | some r =>
        obtain ⟨b, rest⟩ := r
        by_cases hLF : b = LF
        · subst hLF
          have hstop (t : World) : (lineTest size ⟨i + 1, LF, buf.set i LF⟩).Returns t false t :=
            lineTest_false fun _ => rfl
          simp [returns_whileLoop_of_false (hstop _), LineVars.behind_cons hi]
          exact and_comm
        · have hbuf' : size ≤ (buf.set i b).length := by simpa using hbuf
          have hroom' : size - 1 - (i + 1) = room := by omega
          simp [hLF, ih hbuf' hLF hroom', LineVars.behind_cons hi]
          exact exists_comm

/-- The connection behind a call of `get_line` that left `rest` to be read. -/
def World.afterLine (w : World) (rest : Bytes) : World :=
  { w with inbox := rest, trace := w.trace ++ [.line w.inbox.length rest.length] }

/-- The array behind a call of `get_line` that took the chunk `s`. -/
def terminated (s buf : Bytes) : Bytes := s ++ 0 :: buf.drop (s.length + 1)

/-- `get_line` returns exactly when the stream has a next chunk, and then with this chunk. -/
theorem returns_getLine {r : Nat × Bytes} (hpos : 0 < buf.length) (hbuf : size ≤ buf.length) :
    (getLine buf size).Returns w r w' ↔
      ∃ s rest, takeChunk w.ending.seen (size - 1) w.inbox = some (s, rest) ∧
        r = (s.length, terminated s buf) ∧ w' = w.afterLine rest := by
  have hc : (0 : UInt8) ≠ LF := by decide
  simp only [getLine, returns_bind, returns_unread, returns_record, returns_store, returns_pure,
    returns_lineLoop hbuf hc, LineVars.behind]
  constructor
  · rintro ⟨_, _, ⟨rfl, rfl⟩, _, _, ⟨s, rest, hchunk, rfl, rfl⟩, _, _, ⟨-, rfl, rfl⟩, _, _,
      ⟨rfl, rfl⟩, _, _, rfl, rfl, rfl⟩
    have hlen := takeChunk_length_le hchunk
    refine ⟨s, rest, hchunk, ?_, rfl⟩
    simp [overwrite_zero_set (c := 0) (show s.length < buf.length by omega), terminated]
  · rintro ⟨s, rest, hchunk, rfl, rfl⟩
    have hlen := takeChunk_length_le hchunk
    refine ⟨_, _, ⟨rfl, rfl⟩, _, _, ⟨s, rest, hchunk, rfl, rfl⟩, _, _, ⟨?_, rfl, rfl⟩, _, _,
      ⟨rfl, rfl⟩, (), _, rfl, ?_, rfl⟩
    · simp [overwrite]
      omega
    · simp [overwrite_zero_set (c := 0) (show s.length < buf.length by omega), terminated]

/-! ### Lines up to one that looks empty -/

/-- Calls of `get_line` with room for 1022 bytes until the chunk is the LF alone:
the chunks, and the connection behind the last call. -/
inductive Reads : World → List Bytes → World → Prop
  | stop {w : World} {rest : Bytes} : takeChunk w.ending.seen 1022 w.inbox = some ([LF], rest) →
      Reads w [[LF]] (w.afterLine rest)
  | more {w w' : World} {c rest : Bytes} {cs : List Bytes} :
      takeChunk w.ending.seen 1022 w.inbox = some (c, rest) → c ≠ [LF] →
        Reads (w.afterLine rest) cs w' → Reads w (c :: cs) w'

/-- The array `buf` of 1024 bytes holds the chunk `s`. -/
structure Shows (buf s : Bytes) : Prop where
  length : buf.length = 1024
  terminated : 0 ∈ buf
  cstr_eq : cstr buf = cstr s
  empty_iff : cstr s = [LF] ↔ s = [LF]
  one_iff : s.length = 1 ↔ s = [LF]
  pos : 0 < s.length

/-- The string of what was terminated. -/
theorem cstr_terminated (s buf : Bytes) : cstr (terminated s buf) = cstr s := by
  simp only [cstr, terminated]
  rw [List.takeWhile_append]
  split
  · rename_i hlen
    simp [(List.takeWhile_prefix _).eq_of_length hlen]
  · rfl

/-- The array shows the chunk that was read into it. -/
theorem shows_terminated {ends : Bool} {inbox s rest : Bytes} (hlen : buf.length = 1024)
    (h : takeChunk ends 1022 inbox = some (s, rest)) : Shows (terminated s buf) s where
  length := by
    have := takeChunk_length_le h
    simp only [Httpd.terminated, List.length_append, List.length_cons, List.length_drop]
    omega
  terminated := by simp [Httpd.terminated]
  cstr_eq := cstr_terminated s buf
  empty_iff := by
    constructor
    · intro ht
      cases s with
      | nil => simp [cstr] at ht
      | cons b s =>
        by_cases hb : b = 0
        · simp [cstr, hb] at ht
        · obtain ⟨rfl, -⟩ : b = LF ∧ _ := by simpa [cstr, hb] using ht
          rw [eq_singleton_of_takeChunk h]
    · rintro rfl
      rfl
  one_iff := length_eq_one_of_takeChunk h (by omega)
  pos := by
    rcases takeChunk_cases h with ⟨t, -, -, rfl⟩ | ⟨t, _, hle, -, -, rfl⟩ | ⟨-, -, -, hlen⟩
    · simp
    · rw [List.length_take]
      omega
    · omega

/-- A loop that stops on a chunk that is the LF alone, and reads the next chunk
otherwise, reads lines up to one that looks empty. -/
theorem returns_readLoop {β : Type} {test : β → Prog World Bool} {body : β → Prog World β}
    (holds : β → Bytes → Prop) (next : β → Bytes → β)
    (htest : ∀ x s w, holds x s → (test x).Returns w (s != [LF]) w)
    (hbody : ∀ x s w y w', holds x s → ((body x).Returns w y w' ↔
      ∃ c rest, takeChunk w.ending.seen 1022 w.inbox = some (c, rest) ∧ y = next x c ∧
        w' = w.afterLine rest))
    (hnext : ∀ x s ends inbox c rest, holds x s →
      takeChunk ends 1022 inbox = some (c, rest) → holds (next x c) c)
    {x y : β} {s : Bytes} (h : holds x s) : (whileLoop test body x).Returns w y w' ↔
      (s = [LF] ∧ y = x ∧ w' = w) ∨
        (s ≠ [LF] ∧ ∃ cs, Reads w cs w' ∧ y = cs.foldl next x) := by
  constructor
  · intro hr
    refine hr.whileLoop_induction (motive := fun x w => ∀ s, holds x s →
      (s = [LF] ∧ y = x ∧ w' = w) ∨ (s ≠ [LF] ∧ ∃ cs, Reads w cs w' ∧ y = cs.foldl next x))
      ?_ ?_ s h
    · intro w hexit s h
      obtain ⟨hs, rfl⟩ := hexit.unique (htest _ s w h)
      exact .inl ⟨by simpa using hs.symm, rfl, rfl⟩
    · intro x w t z v hgo hstep ih s h
      obtain ⟨hs, rfl⟩ := hgo.unique (htest _ s w h)
      obtain ⟨c, rest, hc, rfl, rfl⟩ := (hbody x s _ z v h).mp hstep
      refine .inr ⟨by simpa using hs.symm, ?_⟩
      rcases ih c (hnext x s _ _ c rest h hc) with ⟨rfl, rfl, rfl⟩ | ⟨hne, cs, hcs, rfl⟩
      · exact ⟨[[LF]], .stop hc, rfl⟩
      · exact ⟨c :: cs, .more hc hne hcs, rfl⟩
  · rintro (⟨rfl, rfl, rfl⟩ | ⟨hne, cs, hcs, rfl⟩)
    · exact (returns_whileLoop_of_false (by simpa using htest _ _ _ h)).mpr ⟨rfl, rfl⟩
    · induction hcs generalizing x s with
      | @stop w rest hc =>
        have hgo : (test x).Returns w true w := bne_iff_ne.mpr hne ▸ htest x s w h
        refine (returns_whileLoop_of_true hgo).mpr ⟨_, _, (hbody x s _ _ _ h).mpr
          ⟨_, _, hc, rfl, rfl⟩, ?_⟩
        have hstop := htest (next x [LF]) [LF] (w.afterLine rest) (hnext x s _ _ _ _ h hc)
        exact (returns_whileLoop_of_false (by simpa using hstop)).mpr ⟨rfl, rfl⟩
      | @more w w' c rest cs hc hcne _ ih =>
        have hgo : (test x).Returns w true w := bne_iff_ne.mpr hne ▸ htest x s w h
        refine (returns_whileLoop_of_true hgo).mpr ⟨_, _, (hbody x s _ _ _ h).mpr
          ⟨_, _, hc, rfl, rfl⟩, ?_⟩
        exact ih (hnext x s _ _ _ _ h hc) hcne

/-- `get_line` reads the next chunk into an array that shows another one. -/
theorem returns_getLine_shows {s : Bytes} {r : Nat × Bytes} (h : Shows buf s) :
    (getLine buf (1024 - 1)).Returns w r w' ↔
      ∃ c rest, takeChunk w.ending.seen 1022 w.inbox = some (c, rest) ∧
        r = (c.length, terminated c buf) ∧ w' = w.afterLine rest := by
  have hlen := h.length
  exact returns_getLine (by omega) (by omega)

/-- The length of a cleared array. -/
theorem length_zeros (n : Nat) : (zeros n).length = n := List.length_replicate

/-- `get_line` reads the next chunk into a cleared array. -/
theorem returns_getLine_zeros {r : Nat × Bytes} :
    (getLine (zeros 1024) (1024 - 1)).Returns w r w' ↔
      ∃ c rest, takeChunk w.ending.seen 1022 w.inbox = some (c, rest) ∧
        r = (c.length, terminated c (zeros 1024)) ∧ w' = w.afterLine rest := by
  have hlen := length_zeros 1024
  exact returns_getLine (by omega) (by omega)

/-- The string is a line feed when the chunk is. -/
theorem Shows.cstr_ne_iff {s : Bytes} (h : Shows buf s) : cstr buf ≠ [LF] ↔ s ≠ [LF] := by
  rw [h.cstr_eq, ne_eq, h.empty_iff]

/-- `clean_hander` goes on until the chunk is a line feed. -/
theorem Shows.cleanTest_eq {s : Bytes} (h : Shows buf s) :
    (s.length != 1 && cstr buf != ascii "\n") = (s != [LF]) := by
  have hLF : ascii "\n" = [LF] := rfl
  rw [hLF, Bool.eq_iff_iff]
  simp only [Bool.and_eq_true, bne_iff_ne, h.cstr_ne_iff, ne_eq, h.one_iff, and_self]

/-- The loop over the headers goes on until the chunk is a line feed. -/
theorem Shows.headerTest_eq {s : Bytes} (h : Shows buf s) :
    (decide (s.length > 0) && cstr buf != ascii "\n") = (s != [LF]) := by
  have hLF : ascii "\n" = [LF] := rfl
  rw [hLF, Bool.eq_iff_iff]
  simp only [Bool.and_eq_true, bne_iff_ne, h.cstr_ne_iff, decide_eq_true_eq, gt_iff_lt, h.pos,
    true_and]

/-- The loop of `clean_hander`. -/
theorem returns_cleanLoop {s : Bytes} {y : Nat × Bytes} (h : Shows buf s) :
    (whileLoop cleanTest (fun line => getLine line.2 (1024 - 1)) (s.length, buf)).Returns w y w' ↔
      (s = [LF] ∧ y = (s.length, buf) ∧ w' = w) ∨ (s ≠ [LF] ∧ ∃ cs, Reads w cs w' ∧
        y = cs.foldl (fun x c => (c.length, terminated c x.2)) (s.length, buf)) := by
  refine returns_readLoop (fun x s => Shows x.2 s ∧ x.1 = s.length) _ ?_ ?_ ?_ ⟨h, rfl⟩
  · rintro ⟨_, buf⟩ s w ⟨hbuf, rfl⟩
    simp only [cleanTest, returns_bind, returns_cString, returns_pure]
    exact ⟨_, _, ⟨hbuf.terminated, rfl, rfl⟩, hbuf.cleanTest_eq.symm, rfl⟩
  · rintro ⟨_, buf⟩ s w y w' ⟨hbuf, rfl⟩
    exact returns_getLine_shows hbuf
  · rintro ⟨_, buf⟩ s ends inbox c rest ⟨hbuf, rfl⟩ hc
    exact ⟨shows_terminated hbuf.length hc, rfl⟩

/-- What the header loop keeps of the header lines, one after the other. -/
def HeaderVars.next (v : HeaderVars) (c : Bytes) : HeaderVars :=
  ⟨c.length, terminated c v.buf, contentLength (cstr v.buf) v.clength⟩

/-- The header loop of `excu_cgi`. -/
theorem returns_headerLoop {s : Bytes} {n : Int} {y : HeaderVars} (h : Shows buf s) :
    (whileLoop headerTest readHeader ⟨s.length, buf, n⟩).Returns w y w' ↔
      (s = [LF] ∧ y = ⟨s.length, buf, n⟩ ∧ w' = w) ∨ (s ≠ [LF] ∧ ∃ cs, Reads w cs w' ∧
        y = cs.foldl HeaderVars.next ⟨s.length, buf, n⟩) := by
  refine returns_readLoop (fun x s => Shows x.buf s ∧ x.readnum = s.length) _ ?_ ?_ ?_ ⟨h, rfl⟩
  · rintro ⟨_, buf, n⟩ s w ⟨hbuf, rfl⟩
    simp only [headerTest, returns_bind, returns_cString, returns_pure]
    exact ⟨_, _, ⟨hbuf.terminated, rfl, rfl⟩, hbuf.headerTest_eq.symm, rfl⟩
  · rintro ⟨_, buf, n⟩ s w y w' ⟨hbuf, rfl⟩
    have hstr := hbuf.terminated
    simp only [readHeader, returns_bind, returns_cString, returns_pure,
      returns_getLine_shows hbuf]
    constructor
    · rintro ⟨_, _, ⟨-, rfl, rfl⟩, _, _, ⟨c, rest, hc, rfl, rfl⟩, rfl, rfl⟩
      exact ⟨c, rest, hc, rfl, rfl⟩
    · rintro ⟨c, rest, hc, rfl, rfl⟩
      exact ⟨_, _, ⟨hstr, rfl, rfl⟩, _, _, ⟨c, rest, hc, rfl, rfl⟩, rfl, rfl⟩
  · rintro ⟨_, buf, n⟩ s ends inbox c rest ⟨hbuf, rfl⟩ hc
    exact ⟨shows_terminated hbuf.length hc, rfl⟩

/-- The length that the header loop of `excu_cgi` finds in header chunks. -/
def seenLength (cs : List Bytes) : Int := cs.foldl (fun n c => contentLength (cstr c) n) 0

/-- The length that the loop has found behind some lines. -/
theorem clength_foldl {cs : List Bytes} (h : Reads w cs w') (v : HeaderVars) :
    (cs.foldl HeaderVars.next v).clength =
      cs.foldl (fun n c => contentLength (cstr c) n) (contentLength (cstr v.buf) v.clength) := by
  induction h generalizing v with
  | stop => rfl
  | @more w w' c rest cs _ _ _ ih =>
    rw [List.foldl_cons, ih, List.foldl_cons]
    simp [HeaderVars.next, cstr_terminated]

/-- `clean_hander` reads lines up to one that looks empty. -/
theorem returns_cleanHander {r : Unit} : cleanHander.Returns w r w' ↔ ∃ cs, Reads w cs w' := by
  simp only [cleanHander, returns_bind, returns_pure, returns_getLine_zeros]
  constructor
  · rintro ⟨_, _, ⟨c, rest, hc, rfl, rfl⟩, _, _, hloop, -, rfl⟩
    rw [returns_cleanLoop (shows_terminated (length_zeros _) hc)] at hloop
    rcases hloop with ⟨rfl, -, rfl⟩ | ⟨hne, cs, hcs, -⟩
    · exact ⟨_, .stop hc⟩
    · exact ⟨_, .more hc hne hcs⟩
  · rintro ⟨_, hcs⟩
    cases hcs with
    | stop hc =>
      exact ⟨_, _, ⟨_, _, hc, rfl, rfl⟩, _, _, (returns_cleanLoop
        (shows_terminated (length_zeros _) hc)).mpr (.inl ⟨rfl, rfl, rfl⟩), trivial, rfl⟩
    | more hc hne hcs =>
      exact ⟨_, _, ⟨_, _, hc, rfl, rfl⟩, _, _, (returns_cleanLoop
        (shows_terminated (length_zeros _) hc)).mpr (.inr ⟨hne, _, hcs, rfl⟩), trivial, rfl⟩

/-- The header loop of `excu_cgi` stops where `clean_hander` stops, with the
length it found on its way. -/
theorem returns_readHeaders {n : Int} : readHeaders.Returns w n w' ↔
    ∃ cs, Reads w cs w' ∧ n = seenLength cs := by
  simp only [readHeaders, returns_bind, returns_pure, returns_getLine_zeros]
  constructor
  · rintro ⟨_, _, ⟨c, rest, hc, rfl, rfl⟩, _, _, hloop, rfl, rfl⟩
    rw [returns_headerLoop (shows_terminated (length_zeros _) hc)] at hloop
    rcases hloop with ⟨rfl, rfl, rfl⟩ | ⟨hne, cs, hcs, rfl⟩
    · exact ⟨_, .stop hc, rfl⟩
    · refine ⟨_, .more hc hne hcs, ?_⟩
      rw [clength_foldl hcs]
      simp [seenLength, cstr_terminated]
  · rintro ⟨_, hcs, rfl⟩
    cases hcs with
    | stop hc =>
      exact ⟨_, _, ⟨_, _, hc, rfl, rfl⟩, _, _, (returns_headerLoop
        (shows_terminated (length_zeros _) hc)).mpr (.inl ⟨rfl, rfl, rfl⟩), rfl, rfl⟩
    | more hc hne hcs =>
      refine ⟨_, _, ⟨_, _, hc, rfl, rfl⟩, _, _, (returns_headerLoop
        (shows_terminated (length_zeros _) hc)).mpr (.inr ⟨hne, _, hcs, rfl⟩), ?_, rfl⟩
      rw [clength_foldl hcs]
      simp [seenLength, cstr_terminated]

/-! ### What is left behind -/

/-- The events of calls of `get_line` that leave `n` bytes: each starts with more
than that to read, and the last one leaves them. -/
def LineEvents (es : List Event) (n : Nat) : Prop :=
  (∀ e ∈ es, ∃ before after, e = .line before after ∧ n < before) ∧
    ∃ before, es.getLast? = some (.line before n)

/-- Reading up to a line that looks empty changes the inbox and adds line events. -/
theorem Reads.effect {cs : List Bytes} (h : Reads w cs w') :
    w'.ending = w.ending ∧ ReadsTo w.ending.seen 1022 w.inbox cs w'.inbox ∧
      ∃ es, w'.trace = w.trace ++ es ∧ LineEvents es w'.inbox.length := by
  induction h with
  | @stop w rest hc =>
    have hlt := takeChunk_length_lt hc
    refine ⟨rfl, .stop hc, [.line w.inbox.length rest.length], rfl, ?_, w.inbox.length, rfl⟩
    intro e he
    exact ⟨_, _, List.mem_singleton.mp he, hlt⟩
  | @more w w' c rest cs hc hne hcs ih =>
    obtain ⟨hending, hreads, es, htrace, hes, before, hlast⟩ := ih
    have hlt := takeChunk_length_lt hc
    have hle : w'.inbox.length < rest.length := hreads.length_lt
    refine ⟨hending, .more hc hne hreads, .line w.inbox.length rest.length :: es, ?_, ?_, before,
      ?_⟩
    · simpa [World.afterLine] using htrace
    · rintro e (_ | ⟨_, he⟩)
      · exact ⟨_, _, rfl, by omega⟩
      · exact hes e he
    · simp [List.getLast?_cons, hlast]

/-- Reading lines needs neither the client nor a CGI program. -/
theorem Reads.conduct_eq {cs : List Bytes} (h : Reads w cs w') : w'.conduct = w.conduct := by
  induction h with
  | stop => rfl
  | more _ _ _ ih => exact ih

/-- A stream that can be read up to a line that looks empty is read so. -/
theorem exists_reads {inbox rest : Bytes} {cs : List Bytes} {e : Ending}
    (h : ReadsTo e.seen 1022 inbox cs rest) (k : Conduct) (tr : List Event) :
    ∃ w', Reads ⟨inbox, e, k, tr⟩ cs w' ∧ w'.inbox = rest := by
  induction h generalizing tr with
  | stop hc => exact ⟨_, .stop hc, rfl⟩
  | @more inbox mid rest c cs hc hne _ ih =>
    obtain ⟨w', hw', hrest⟩ := ih (tr ++ [.line inbox.length mid.length])
    exact ⟨w', .more hc hne hw', hrest⟩

/-- What one drain of the header section does, in terms of the lines of the stream. -/
theorem exists_reads_iff {rest : Bytes} : (∃ cs w', Reads w cs w' ∧ w'.inbox = rest) ↔
    ∃ ts, Skips w.ending.seen 1022 w.inbox ts rest := by
  constructor
  · rintro ⟨cs, w', h, rfl⟩
    obtain ⟨ts, hts, -⟩ := (readsTo_iff (by omega)).mp h.effect.2.1
    exact ⟨ts, hts⟩
  · rintro ⟨ts, hts⟩
    obtain ⟨w', hw', hrest⟩ := exists_reads ((readsTo_iff (by omega)).mpr ⟨ts, hts, rfl⟩)
      w.conduct w.trace
    exact ⟨_, w', hw', hrest⟩

end NetworkCode.Httpd
