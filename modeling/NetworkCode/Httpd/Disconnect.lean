import NetworkCode.Httpd.Framing

/-!
# The readers on a connection that is gone

When `recv` returns 0 or -1 the loop of `get_line` changes nothing and tries again,
so nothing ends that waits for more. Each reader returns exactly if what it waits
for had arrived before the client disconnected.
-/

namespace NetworkCode.Httpd

open Prog LineStream Text

variable {env : Env} {w : World} {buf : Bytes} {size : Nat}

/-- The number of complete lines that look empty to a reader of the header section. -/
def emptyLooking (inbox : Bytes) : Nat := (lines true inbox).countP (endsEmpty 1022)

/-- `get_line` returns if a line end has arrived, or enough bytes to fill its array. -/
theorem halts_getLine_iff (hpos : 0 < buf.length) (hbuf : size ≤ buf.length)
    (hgone : w.ending.seen = true) : (getLine buf size).Halts w ↔
      LF ∈ w.inbox ∨ CR ∈ w.inbox ∨ size - 1 ≤ w.inbox.length := by
  rw [← takeChunk_isSome_iff, Option.isSome_iff_exists]
  constructor
  · rintro ⟨r, w', h⟩
    obtain ⟨s, rest, hchunk, -⟩ := (returns_getLine hpos hbuf).mp h
    rw [hgone] at hchunk
    exact ⟨_, hchunk⟩
  · rintro ⟨⟨s, rest⟩, hchunk⟩
    rw [← hgone] at hchunk
    exact ⟨_, _, (returns_getLine hpos hbuf).mpr ⟨s, rest, hchunk, rfl, rfl⟩⟩

/-- The header section can be drained if a line that looks empty has arrived. -/
theorem exists_reads_iff_of_gone (hgone : w.ending.seen = true) :
    (∃ w' cs, Reads w cs w') ↔ 0 < emptyLooking w.inbox := by
  rw [emptyLooking, ← exists_skips_iff, ← hgone]
  constructor
  · rintro ⟨w', cs, h⟩
    obtain ⟨ts, hts⟩ := exists_reads_iff.mp ⟨cs, w', h, rfl⟩
    exact ⟨ts, w'.inbox, hts⟩
  · rintro ⟨ts, rest, h⟩
    obtain ⟨cs, w', hcs, -⟩ := exists_reads_of_skips h
    exact ⟨w', cs, hcs⟩

/-- `clean_hander` ends when a line looks empty to it. -/
theorem halts_cleanHander_iff (hgone : w.ending.seen = true) :
    cleanHander.Halts w ↔ 0 < emptyLooking w.inbox := by
  rw [← exists_reads_iff_of_gone hgone]
  simp only [Halts, returns_cleanHander, exists_const]

/-- The loop over the headers ends when a line looks empty to it. -/
theorem halts_readHeaders_iff (hgone : w.ending.seen = true) :
    readHeaders.Halts w ↔ 0 < emptyLooking w.inbox := by
  rw [← exists_reads_iff_of_gone hgone]
  simp only [Halts, returns_readHeaders]
  constructor
  · rintro ⟨n, w', cs, hcs, -⟩
    exact ⟨w', cs, hcs⟩
  · rintro ⟨w', cs, hcs⟩
    exact ⟨seenLength cs, w', cs, hcs, rfl⟩

/-- The calls of the route of a request line, when `rest` is behind the line and `left` behind the
header section. -/
def behindHeaders (env : Env) (line rest left : Bytes) : List Event :=
  routeEvents env (lines true rest)
    (bodyBytes (routeBody env (lines true rest) (lineRoute env line)) 0 left) (lineRoute env line)

/-- `HandleSock` returns if a request line has arrived, and behind it as many lines
that look empty as its route drains, and the calls of the route are let through. -/
theorem halts_handleSock_iff (hgone : w.ending.seen = true) : (handleSock env).Halts w ↔
    ∃ line rest, takeChunk true 1024 w.inbox = some (line, rest) ∧
      routeDrains (lines true rest) (lineRoute env line) ≤ emptyLooking rest ∧
        ∀ left, SkipsTimes true 1022 (routeDrains (lines true rest) (lineRoute env line)) rest
          left → w.conduct.allows (behindHeaders env line rest left) = true := by
  have hroute (line rest : Bytes) : (perform env (lineRoute env line)).Halts (w.afterLine rest) ↔
      routeDrains (lines true rest) (lineRoute env line) ≤ emptyLooking rest ∧
        ∀ left, SkipsTimes true 1022 (routeDrains (lines true rest) (lineRoute env line)) rest
          left → w.conduct.allows (behindHeaders env line rest left) = true := by
    have hserving (left : Bytes) : servingEvents env (lineRoute env line) (w.afterLine rest) left =
        behindHeaders env line rest left := by
      rw [servingEvents, behindHeaders, World.afterLine, hgone]
    have hiff := @halts_perform_iff_of_seen env (w.afterLine rest) (lineRoute env line) hgone
    simp only [hserving] at hiff
    exact hiff
  constructor
  · rintro ⟨r, w', h⟩
    obtain ⟨line, rest, hchunk, hperform⟩ := returns_handleSock.mp h
    rw [hgone] at hchunk
    exact ⟨line, rest, hchunk, (hroute line rest).mp ⟨r, w', hperform⟩⟩
  · rintro ⟨line, rest, hchunk, hle⟩
    obtain ⟨r, w', hperform⟩ := (hroute line rest).mpr hle
    rw [← hgone] at hchunk
    exact ⟨r, w', returns_handleSock.mpr ⟨line, rest, hchunk, hperform⟩⟩

/-- When the client has disconnected, each reader terminates if and only if the bytes
that arrived hold a line end or fill the array (`get_line`), a line that looks empty
(`clean_hander` and the header loop of `excu_cgi`), a request line with as many lines
that look empty behind it as the route drains (`HandleSock`), whose calls are let through. -/
theorem readers_halt_iff (env : Env) (inbox : Bytes) (why : Gone) (c : Conduct) (tr : List Event)
    (hpos : 0 < buf.length) (hbuf : size ≤ buf.length) :
    ((getLine buf size).Halts ⟨inbox, .gone why, c, tr⟩ ↔
      LF ∈ inbox ∨ CR ∈ inbox ∨ size - 1 ≤ inbox.length) ∧
    (cleanHander.Halts ⟨inbox, .gone why, c, tr⟩ ↔ 0 < emptyLooking inbox) ∧
    (readHeaders.Halts ⟨inbox, .gone why, c, tr⟩ ↔ 0 < emptyLooking inbox) ∧
    ((handleSock env).Halts ⟨inbox, .gone why, c, tr⟩ ↔
      ∃ line rest, takeChunk true 1024 inbox = some (line, rest) ∧
        routeDrains (lines true rest) (lineRoute env line) ≤ emptyLooking rest ∧
          ∀ left, SkipsTimes true 1022 (routeDrains (lines true rest) (lineRoute env line)) rest
            left → c.allows (behindHeaders env line rest left) = true) := by
  refine ⟨?_, ?_, ?_, ?_⟩
  · exact halts_getLine_iff hpos hbuf rfl
  · exact halts_cleanHander_iff rfl
  · exact halts_readHeaders_iff rfl
  · exact halts_handleSock_iff rfl

/-- A client that disconnects behind its request line. -/
theorem readers_halt_iff_request_line :
    (getLine (zeros 1025) 1025).Halts ⟨ascii "GET /\n", .gone .closed, .willing, []⟩ := by
  have hlen := length_zeros 1025
  exact (readers_halt_iff emptyDisk (ascii "GET /\n") .closed .willing [] (by omega)
    (by omega)).1.mpr (by decide)

/-- A client that disconnects within its request line keeps the thread busy for ever. -/
theorem truncated_request_line_never_ends :
    ¬ (getLine (zeros 1025) 1025).Halts (connected (ascii "GET") (.gone .closed)) ∧
      ¬ (handleSock emptyDisk).Halts (connected (ascii "GET") (.gone .closed)) := by
  have hnone : ¬ (LF ∈ ascii "GET" ∨ CR ∈ ascii "GET" ∨ 1024 ≤ (ascii "GET").length) := by
    decide
  have hlen := length_zeros 1025
  constructor
  · rw [halts_getLine_iff (by omega) (by omega) rfl]
    exact hnone
  · rw [halts_handleSock_iff rfl]
    rintro ⟨line, rest, hchunk, -⟩
    exact hnone (takeChunk_isSome_iff.mp (Option.isSome_iff_exists.mpr ⟨_, hchunk⟩))

end NetworkCode.Httpd
