import NetworkCode.Httpd.HeaderBoundary

/-!
# Request framing

A client sends a request and nothing more, and keeps the connection open. What
`HandleSock` reads as lines should be exactly the request line and the header
section. The route decides how often the header section is drained: `echo_code`
drains it for `HandleSock`, which drains it again when the file is missing, and
for `excu_cgi`, which has read it already when no length was announced.
-/

namespace NetworkCode.Httpd

open Prog LineStream Text

/-- A request as a client sends it: `further` is its body. -/
structure Request extends HeaderSection where
  requestLine : Line
  lineEnded : requestLine.eol = .cr → toHeaderSection.stream.head? ≠ some LF

namespace Request

/-- All bytes of the request. -/
def sent (q : Request) : Bytes := q.requestLine.bytes ++ q.stream

/-- What `HandleSock` reads as the request line. -/
def line (q : Request) : Bytes := (q.requestLine.text ++ [LF]).take 1024

/-- What is left of a request line that is too long, as a line. -/
def residue (q : Request) : List Line :=
  if q.requestLine.text.length < 1024 then []
  else
    [{ text := q.requestLine.text.drop 1024
       eol := q.requestLine.eol
       plain := ⟨fun h => q.requestLine.plain.1 (List.mem_of_mem_drop h),
        fun h => q.requestLine.plain.2 (List.mem_of_mem_drop h)⟩ }]

/-- The lines in front of the empty line that `HandleSock` reads behind the request line. -/
def ahead (q : Request) : List Line := q.residue ++ q.headers

/-- The route of the request. -/
def route (q : Request) (env : Env) : Route := lineRoute env q.line

/-- The length of the body that the header section announces. -/
def length (q : Request) : Int := announced ((q.ahead ++ [emptyLine q.blank]).map Line.text)

/-- The file is missing, or a POST announces no length: `echo_code` drains the
header section although it is drained already, or will be. -/
def drainedTwice (q : Request) (env : Env) : Bool :=
  match q.route env with
  | .missing _ => true
  | .cgi _ _ method _ => !isGet method && q.length == 0
  | _ => false

/-- How many bytes of its body the request has handed to a CGI program. -/
def handed (q : Request) (env : Env) : Nat :=
  match q.route env with
  | .cgi _ _ method _ => if isGet method then 0 else bodyLength env method q.length
  | _ => 0

/-- The calls of the route of the request, with that much of the body handed over. -/
def calls (q : Request) (env : Env) : List Event :=
  routeEvents env ((q.ahead ++ [emptyLine q.blank]).map Line.text)
    (q.further.take (q.handed env)) (q.route env)

end Request

/-- `HandleSock` reaches its end, every line it reads starts before the end of the
header section, and the last one ends there. -/
def Framed (env : Env) (q : Request) (c : Conduct) : Prop :=
  ∃ r w, (handleSock env).Returns (connected q.sent .silent c) r w ∧
    (∀ e ∈ w.readings, ∃ before after, e = .line before after ∧ q.further.length < before) ∧
      ∃ before, w.readings.getLast? = some (.line before q.further.length)

variable {env : Env} {q : Request} {ends : Bool} {e : Ending} {c : Conduct}

namespace Request

/-- The bytes behind the request line. -/
def remaining (q : Request) : Bytes := bytes (q.ahead ++ [emptyLine q.blank]) ++ q.further

/-- A request is not empty. -/
theorem stream_ne_nil (q : Request) : q.stream ≠ [] :=
  bytes_append_ne_nil q.headers (emptyLine q.blank) q.further

/-- `HandleSock` reads the request line, or its first 1024 bytes. -/
theorem takeChunk_sent (q : Request) (ends : Bool) :
    takeChunk ends 1024 q.sent = some (q.line, q.remaining) := by
  have htake : takeLine ends q.sent = some (q.requestLine.text, q.stream) :=
    takeLine_line _ q.lineEnded fun _ hnil => absurd hnil q.stream_ne_nil
  by_cases hlt : q.requestLine.text.length < 1024
  · have hline : q.line = q.requestLine.text ++ [LF] :=
      List.take_of_length_le (by rw [List.length_append]; exact hlt)
    rw [takeChunk_of_short htake hlt, hline, remaining, ahead, residue, if_pos hlt]
    rfl
  · have hle : 1024 ≤ q.requestLine.text.length := by omega
    have hline : q.line = q.requestLine.text.take 1024 := List.take_append_of_le_length hle
    have hdrop : q.sent.drop 1024 = q.remaining := by
      rw [sent, Line.bytes, List.append_assoc, List.drop_append_of_le_length hle, remaining,
        ahead, residue, if_neg hlt]
      simp [bytes, Line.bytes, HeaderSection.stream]
    rw [(takeChunk_of_long htake hle).1, hline, hdrop]

/-- The lines of the request end where they should. -/
theorem wellEnded_ahead (q : Request) :
    WellEnded (q.ahead ++ [emptyLine q.blank]) q.further := by
  unfold ahead residue
  split
  · exact q.ended
  · exact ⟨q.lineEnded, q.ended⟩

/-- The server finds the announced length, if it sees the end of the header section. -/
theorem announced_remaining (hends : q.blank = .cr → q.further = [] → ends = true) :
    announced (lines ends q.remaining) = q.length := by
  have hempty : endsEmpty 1022 (emptyLine q.blank).text = true := rfl
  have hmem : (emptyLine q.blank).text ∈ (q.ahead ++ [emptyLine q.blank]).map Line.text :=
    List.mem_map_of_mem (List.mem_append_right _ List.mem_cons_self)
  rw [remaining, lines_bytes q.wellEnded_ahead hends, announced, firstSection_append hmem hempty]
  rfl

/-- The blank line is one more line that looks empty. -/
theorem emptyEnds_remaining (q : Request) :
    emptyEnds 1022 (q.ahead ++ [emptyLine q.blank]) = emptyEnds 1022 q.ahead + 1 := by
  rw [emptyEnds_append]
  rfl

/-- How often the route reads a header section. -/
theorem routeDrains_eq (hends : q.blank = .cr → q.further = [] → ends = true) :
    routeDrains (lines ends q.remaining) (q.route env) =
      if q.drainedTwice env then 2 else 1 := by
  have hlength := announced_remaining hends
  unfold drainedTwice routeDrains
  cases q.route env <;> simp [hlength]

/-- How much of the body the route reads. -/
theorem routeBody_eq (hends : q.blank = .cr → q.further = [] → ends = true) :
    routeBody env (lines ends q.remaining) (q.route env) = q.handed env := by
  have hlength := announced_remaining hends
  unfold handed routeBody
  cases q.route env <;> simp [hlength]

/-- The route makes the calls of the request when its whole body is behind the header section. -/
theorem calls_eq (hends : q.blank = .cr → q.further = [] → ends = true)
    (hbody : q.handed env ≤ q.further.length) :
    routeEvents env (lines ends q.remaining)
      (bodyBytes (routeBody env (lines ends q.remaining) (q.route env)) 0 q.further)
      (q.route env) = q.calls env := by
  have hlength : announced (lines ends q.remaining) =
      announced ((q.ahead ++ [emptyLine q.blank]).map Line.text) := announced_remaining hends
  rw [routeBody_eq hends, bodyBytes_eq_take_iff.mpr hbody, routeEvents_congr hlength]
  rfl

end Request

/-- `HandleSock` serves the route of the request behind its request line. -/
theorem returns_handleSock_sent {r : Int} {w : World} :
    (handleSock env).Returns (connected q.sent e c) r w ↔
      (perform env (q.route env)).Returns ((connected q.sent e c).afterLine q.remaining) r w := by
  rw [returns_handleSock]
  constructor
  · rintro ⟨line, rest, hchunk, hperform⟩
    obtain ⟨rfl, rfl⟩ : q.line = line ∧ q.remaining = rest := by
      simpa [connected, q.takeChunk_sent e.seen] using hchunk
    exact hperform
  · intro hperform
    exact ⟨_, _, q.takeChunk_sent e.seen, hperform⟩

/-- A request is framed when draining the header section as often as the route
does leaves the body, which is long enough, and the calls of the route are let through. -/
theorem framed_iff_skips : Framed env q c ↔
    ∃ rest, SkipsTimes false 1022 (routeDrains (lines false q.remaining) (q.route env))
      q.remaining rest ∧ rest.length = q.further.length ∧
        routeBody env (lines false q.remaining) (q.route env) ≤ q.further.length ∧
        c.allows (routeEvents env (lines false q.remaining)
          (bodyBytes (routeBody env (lines false q.remaining) (q.route env)) 0 rest)
          (q.route env)) = true := by
  constructor
  · rintro ⟨r, w, hrun, -, before, hlast⟩
    obtain ⟨rest, hrest⟩ := performed_of_returns (returns_handleSock_sent.mp hrun)
    obtain ⟨ls, b, hreadings, -, hend⟩ := hrest.readings
    rw [hreadings, List.getLast?_append, hend] at hlast
    obtain ⟨-, hlen⟩ : b = before ∧ rest.length = q.further.length := by simpa using hlast
    exact ⟨rest, hrest.skips, hlen, hlen ▸ hrest.available rfl, hrest.allowed⟩
  · rintro ⟨rest, hskips, hlen, hbody, hallows⟩
    obtain ⟨r, w, hperform⟩ : (perform env (q.route env)).Halts
        ((connected q.sent .silent c).afterLine q.remaining) :=
      halts_perform_iff.mpr ⟨rest, hskips, fun _ => hlen ▸ hbody, hallows⟩
    obtain ⟨rest', hrest⟩ := performed_of_returns hperform
    obtain rfl : rest = rest' := hskips.unique hrest.skips
    obtain ⟨ls, b, hreadings, hall, hend⟩ := hrest.readings
    have hlt : rest.length < q.sent.length :=
      hskips.length_le.trans_lt (takeChunk_length_lt (q.takeChunk_sent false))
    refine ⟨r, w, returns_handleSock_sent.mpr hperform, ?_, b, ?_⟩
    · intro e he
      rw [hreadings] at he
      rw [← hlen]
      rcases List.mem_append.mp he with h | h
      · exact ⟨_, _, List.mem_singleton.mp h, hlt⟩
      · exact hall e h
    · rw [hreadings, List.getLast?_append, hend, hlen]
      rfl

/-- The first section, and a second one if it is drained too. -/
theorem drains_succ (env : Env) (q : Request) : (if q.drainedTwice env then 2 else 1) =
    (if q.drainedTwice env then 1 else 0) + 1 := by
  split <;> rfl

/-- A framed request has as many lines that look empty as its route needs, and its calls are let
through. -/
theorem Framed.emptyEnds_eq (h : Framed env q c) :
    emptyEnds 1022 q.ahead = (if q.drainedTwice env then 1 else 0) ∧
      q.handed env ≤ q.further.length ∧ ¬ (q.blank = .cr ∧ q.further = []) ∧
        c.allows (q.calls env) = true := by
  have hblank : 1022 ∣ (emptyLine q.blank).text.length := ⟨0, rfl⟩
  obtain ⟨rest, hskips, hlen, hbody, hallows⟩ := framed_iff_skips.mp h
  obtain ⟨hcount, hseen⟩ :=
    (skipsTimes_lines_iff hblank q.wellEnded_ahead).mp ⟨rest, hskips, hlen⟩
  have hfurther := skipsTimes_lines hblank q.wellEnded_ahead hseen
  rw [hcount] at hfurther
  obtain rfl : rest = q.further := hskips.unique hfurther
  rw [q.emptyEnds_remaining, Request.routeDrains_eq hseen, drains_succ] at hcount
  rw [Request.routeBody_eq hseen] at hbody
  rw [Request.calls_eq hseen hbody] at hallows
  refine ⟨Nat.succ.inj hcount, hbody, ?_, hallows⟩
  rintro ⟨hcr, hnil⟩
  exact absurd (hseen hcr hnil) (by decide)

/-- A request is framed if and only if no line in front of the empty line looks empty
to the reader, or just one when the header section is drained twice, the body that is
handed over is there, the end of the empty line can be seen, and the client and the CGI program
let the calls of the route through. -/
theorem framed_iff (env : Env) (q : Request) (c : Conduct) : Framed env q c ↔
    emptyEnds 1022 q.ahead = (if q.drainedTwice env then 1 else 0) ∧
      q.handed env ≤ q.further.length ∧ ¬ (q.blank = .cr ∧ q.further = []) ∧
        c.allows (q.calls env) = true := by
  constructor
  · exact Framed.emptyEnds_eq
  · rintro ⟨hcount, hbody, hlone, hallows⟩
    have hblank : 1022 ∣ (emptyLine q.blank).text.length := ⟨0, rfl⟩
    have hseen : q.blank = .cr → q.further = [] → false = true :=
      fun hcr hnil => absurd ⟨hcr, hnil⟩ hlone
    have hskips := skipsTimes_lines hblank q.wellEnded_ahead hseen
    rw [q.emptyEnds_remaining, hcount, ← drains_succ] at hskips
    refine framed_iff_skips.mpr ⟨q.further, ?_, rfl, ?_, ?_⟩
    · rwa [Request.routeDrains_eq hseen]
    · rwa [Request.routeBody_eq hseen]
    · rwa [Request.calls_eq hseen hbody]

/-- `GET /x` with one header line. -/
def missingPage : Request where
  headers := [{ text := ascii "Host: a", eol := .crlf, plain := by decide }]
  blank := .crlf
  further := []
  nonempty := by decide
  ended := ⟨fun h => absurd h (by decide), fun h => absurd h (by decide), trivial⟩
  requestLine := { text := ascii "GET /x HTTP/1.0", eol := .crlf, plain := by decide }
  lineEnded h := absurd h (by decide)

/-- A missing page drains the section twice. -/
theorem missingPage_drainedTwice : missingPage.drainedTwice emptyDisk = true := by
  decide +kernel

/-- For a missing file the header section is drained a second time. -/
theorem missing_file_not_framed : ¬ Framed emptyDisk missingPage .willing := by
  intro h
  have hcount := h.emptyEnds_eq.1
  rw [missingPage_drainedTwice] at hcount
  exact absurd hcount (by decide)

end NetworkCode.Httpd
