import NetworkCode.Core.Text
import NetworkCode.Core.Transition
import Mathlib.Data.List.Forall2

/-!
# One client and one server

The client of the two small programs sends what one `read` of its keyboard returns, and the server
shows what one `read` of its socket returns. Both take the last byte of such a piece for the end of
a line and overwrite it, or the server does. A stream keeps the bytes, but not the pieces in which
they were sent.
-/

namespace NetworkCode.OneToOne

open StepResult Text

/-! ## The source -/

/-- What differs between the programs for internet addresses and those for paths. -/
structure Programs where
  /-- What the client sends for the last byte of a piece. -/
  last : UInt8 → UInt8
  /-- The client looks for the end of its input. -/
  checksEnd : Bool
  /-- What the server asks `read` for. -/
  room : Nat

/-- The programs for internet addresses. The client writes to `buf[-1]` at the end of its
input. -/
def internet : Programs := ⟨fun _ => 0, false, 1024⟩

/-- The programs for paths. -/
def unix : Programs := ⟨id, true, 1023⟩

/-- The bytes in front of the NUL that is stored for the last byte of a piece. -/
def printed (piece : Bytes) : Bytes := cstr piece.dropLast

/-- The client, the stream and the server, from when the connection was accepted. -/
structure Session where
  /-- What was sent and not read. -/
  stream : Bytes
  /-- The client has closed the connection. -/
  closed : Bool
  /-- The server has seen that. -/
  left : Bool
  /-- What each `read` of the keyboard returned. -/
  typed : List Bytes
  /-- What each `write` has sent. -/
  writes : List Bytes
  /-- What each `read` of the socket returned. -/
  reads : List Bytes
  /-- What the server has printed. -/
  shown : List Bytes
  deriving DecidableEq, Repr

/-- An accepted connection. -/
def Session.start : Session := ⟨[], false, false, [], [], [], []⟩

/-- What can happen. -/
inductive Action where
  /-- The client reads this piece from its keyboard. -/
  | type (piece : Bytes)
  | endInput
  /-- The server reads `count` bytes. -/
  | read (count : Nat)
  /-- The server reads that the connection was closed. -/
  | leave
  deriving DecidableEq, Repr

/-- What the client sends for a piece. -/
def Programs.sent (programs : Programs) (piece : Bytes) : Bytes :=
  piece.dropLast ++ (piece.getLast?.map programs.last).toList

/-- What one action does. -/
def Session.step (programs : Programs) (s : Session) : Action → StepResult Session
  | .type piece =>
    if s.closed ∨ piece = [] ∨ 1024 < piece.length then disabled
    else next { s with
      stream := s.stream ++ programs.sent piece
      typed := s.typed ++ [piece]
      writes := s.writes ++ [programs.sent piece] }
  | .endInput =>
    if s.closed then disabled
    else if programs.checksEnd then next { s with closed := true }
    else undefined
  | .read count =>
    if s.left ∨ count = 0 ∨ programs.room < count ∨ s.stream.length < count then disabled
    else next { s with
      stream := s.stream.drop count
      reads := s.reads ++ [s.stream.take count]
      shown := s.shown ++ [printed (s.stream.take count)] }
  | .leave =>
    if s.closed ∧ s.stream = [] ∧ ¬ s.left then next { s with left := true } else disabled

/-! ## Pieces -/

variable {programs : Programs} {s t : Session} {a : Action} {piece : Bytes}
  {pieces reads : List Bytes}

/-- A program sends as many bytes as it has read. -/
theorem length_sent (hne : piece ≠ []) : (programs.sent piece).length = piece.length := by
  obtain ⟨front, b, rfl⟩ := (List.eq_nil_or_concat piece).resolve_left hne
  simp [Programs.sent]

/-- What a program sends differs at most in its last byte from what it has read. -/
theorem dropLast_sent (piece : Bytes) : (programs.sent piece).dropLast = piece.dropLast := by
  obtain rfl | ⟨front, b, rfl⟩ := List.eq_nil_or_concat piece
  · rfl
  · simp [Programs.sent]

/-- Nothing longer than the piece without its last byte is printed. -/
theorem length_printed_lt (hne : piece ≠ []) : (printed piece).length < piece.length := by
  have hle : (printed piece).length ≤ piece.dropLast.length :=
    (List.takeWhile_prefix _).length_le
  have hpos := List.length_pos_iff.mpr hne
  rw [List.length_dropLast] at hle
  omega

/-- Pieces that are at least as long as others and have the same bytes in all are as long. -/
theorem map_length_eq (h : List.Forall₂ (fun piece read => piece.length ≤ read.length) pieces reads)
    (hlength : reads.flatten.length = pieces.flatten.length) :
    pieces.map List.length = reads.map List.length := by
  have hle {pieces reads : List Bytes}
      (h : List.Forall₂ (fun piece read => piece.length ≤ read.length) pieces reads) :
      pieces.flatten.length ≤ reads.flatten.length := by
    induction h with
    | nil => exact Nat.le_refl 0
    | cons hpiece _ ih =>
      rw [List.flatten_cons, List.flatten_cons, List.length_append, List.length_append]
      exact Nat.add_le_add hpiece ih
  induction h with
  | nil => rfl
  | cons hpiece hrest ih =>
    have hleast := hle hrest
    rw [List.flatten_cons, List.flatten_cons, List.length_append, List.length_append] at hlength
    rw [List.map_cons, List.map_cons, ih (by omega)]
    congr 1
    omega

/-- A read of which a piece is shown has at least the bytes of the piece. -/
theorem forall₂_of_printed (hpieces : ∀ piece ∈ pieces, piece ≠ [])
    (hreads : ∀ read ∈ reads, read ≠ [])
    (h : reads.map printed = pieces.map List.dropLast) :
    List.Forall₂ (fun piece read => piece.length ≤ read.length) pieces reads := by
  induction pieces generalizing reads with
  | nil =>
    rw [List.map_nil, List.map_eq_nil_iff] at h
    rw [h]
    exact .nil
  | cons piece pieces ih =>
    cases reads with
    | nil => cases h
    | cons read reads =>
      obtain ⟨hpiece, hpieces⟩ := List.forall_mem_cons.mp hpieces
      obtain ⟨hread, hreads⟩ := List.forall_mem_cons.mp hreads
      obtain ⟨hprinted, hrest⟩ := List.cons.inj h
      refine .cons ?_ (ih hpieces hreads hrest)
      have hlt := length_printed_lt hread
      rw [hprinted, List.length_dropLast] at hlt
      omega

/-! ## The stream -/

/-- The invariant: the stream keeps the bytes. -/
structure Flowing (programs : Programs) (s : Session) : Prop where
  bytes : s.reads.flatten ++ s.stream = s.writes.flatten
  writes : s.writes = s.typed.map programs.sent
  shown : s.shown = s.reads.map printed
  typed : ∀ piece ∈ s.typed, piece ≠ []
  reads : ∀ read ∈ s.reads, read ≠ []

/-- Before anything is typed nothing is on its way. -/
theorem flowing_start (programs : Programs) : Flowing programs .start :=
  ⟨rfl, rfl, rfl, List.forall_mem_nil _, List.forall_mem_nil _⟩

/-- A step keeps the bytes in their order. -/
theorem Flowing.step (h : Flowing programs s) (hs : s.step programs a = next t) :
    Flowing programs t := by
  cases a with
  | type piece =>
    simp only [Session.step] at hs
    split at hs
    · cases hs
    · rename_i hpiece
      cases hs
      refine ⟨?_, ?_, h.shown, ?_, h.reads⟩
      · rw [← List.append_assoc, h.bytes, List.flatten_append, List.flatten_singleton]
      · rw [h.writes, List.map_append, List.map_singleton]
      · refine List.forall_mem_append.mpr ⟨h.typed, List.forall_mem_singleton.mpr fun hnil => ?_⟩
        exact hpiece (.inr (.inl hnil))
  | endInput =>
    simp only [Session.step] at hs
    split at hs
    · cases hs
    · split at hs
      · cases hs
        exact ⟨h.bytes, h.writes, h.shown, h.typed, h.reads⟩
      · cases hs
  | read count =>
    simp only [Session.step] at hs
    split at hs
    · cases hs
    · rename_i hcount
      cases hs
      refine ⟨?_, h.writes, ?_, h.typed, ?_⟩
      · rw [List.flatten_append, List.flatten_singleton, List.append_assoc,
          List.take_append_drop, h.bytes]
      · rw [h.shown, List.map_append, List.map_singleton]
      · refine List.forall_mem_append.mpr ⟨h.reads, List.forall_mem_singleton.mpr fun hnil => ?_⟩
        have hlength := congrArg List.length hnil
        rw [List.length_take, List.length_nil] at hlength
        omega
  | leave =>
    simp only [Session.step] at hs
    split at hs
    · cases hs
      exact ⟨h.bytes, h.writes, h.shown, h.typed, h.reads⟩
    · cases hs

/-- The bytes are in their order in every state reached. -/
theorem flowing_of_reaches
    (h : Reaches (Session.step programs) (fun _ _ => True) .start s) : Flowing programs s :=
  h.invariant (flowing_start programs) fun _ _ _ ih _ hs => ih.step hs

/-- When everything that was sent is read, the server has shown each piece that was typed, without
its last byte, exactly when each of its reads returned what one write has sent. -/
theorem shown_iff_reads_eq_writes
    (h : Reaches (Session.step programs) (fun _ _ => True) .start s) (hstream : s.stream = [])
    (hplain : ∀ piece ∈ s.typed, 0 ∉ piece.dropLast) :
    s.shown = s.typed.map List.dropLast ↔ s.reads = s.writes := by
  have hflowing := flowing_of_reaches h
  have hbytes : s.reads.flatten = s.writes.flatten := by
    rw [← hflowing.bytes, hstream, List.append_nil]
  have hlengths : s.writes.map List.length = s.typed.map List.length := by
    rw [hflowing.writes, List.map_map]
    exact List.map_congr_left fun piece hpiece => length_sent (hflowing.typed piece hpiece)
  constructor
  · intro hshown
    rw [hflowing.shown] at hshown
    have hleast := forall₂_of_printed hflowing.typed hflowing.reads hshown
    have hlength : s.reads.flatten.length = s.typed.flatten.length := by
      rw [hbytes, List.length_flatten, List.length_flatten, hlengths]
    refine List.eq_iff_flatten_eq.mpr ⟨hbytes, ?_⟩
    rw [← map_length_eq hleast hlength, hlengths]
  · intro hreads
    rw [hflowing.shown, hreads, hflowing.writes, List.map_map]
    refine List.map_congr_left fun piece hpiece => ?_
    have hprinted : printed (programs.sent piece) = cstr piece.dropLast := by
      rw [printed, dropLast_sent]
    exact hprinted.trans (cstr_of_notMem (hplain piece hpiece))

/-- Two lines that are read at once. -/
def joinedRun : List Action := [.type (ascii "hi\n"), .type (ascii "you\n"), .read 7]

theorem joinedRun_shown :
    (runGuarded (Session.step internet) (fun _ _ => True) .start joinedRun).state?.map
      (fun s => (s.stream, s.typed, s.shown)) =
    some ([], [ascii "hi\n", ascii "you\n"], [ascii "hi"]) := by
  decide +kernel

/-- The second line is not shown, since a read returned what two writes have sent. -/
theorem shown_iff_reads_eq_writes_joinedRun : ∃ s,
    Reaches (Session.step internet) (fun _ _ => True) .start s ∧
      s.typed = [ascii "hi\n", ascii "you\n"] ∧ s.shown = [ascii "hi"] ∧
      s.reads ≠ s.writes := by
  obtain ⟨s, hrun, hs⟩ := exists_next_of_map joinedRun_shown
  obtain ⟨hstream, hs⟩ := Prod.mk.inj hs
  obtain ⟨htyped, hshown⟩ := Prod.mk.inj hs
  have hreach := Reaches.of_runGuarded _ _ hrun
  have hplain : ∀ piece ∈ s.typed, 0 ∉ piece.dropLast := by
    rw [htyped]
    decide
  refine ⟨s, hreach, htyped, hshown, fun hreads => ?_⟩
  have hall := (shown_iff_reads_eq_writes hreach hstream hplain).mpr hreads
  rw [htyped, hshown] at hall
  exact absurd (congrArg List.length hall) (by decide)

end NetworkCode.OneToOne
