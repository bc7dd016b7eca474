import NetworkCode.Httpd.Framing

/-!
# One response and one close for each connection

The trace of a connection that was served tells how many status lines were sent,
how often the socket was closed and which ends of pipes are still open. Which
routes leave a trace as it should be depends on the files that can be opened and
on the system calls that fail.
-/

namespace NetworkCode.Httpd

open Prog LineStream Text

variable {env : Env} {path method query input : Bytes} {texts : List Bytes}

/-- A trace with one status line and one close of the socket, that leaves no pipe open. -/
structure Responds (es : List Event) : Prop where
  status : es.count (.sent statusLine) = 1
  closed : es.count (.closed .sock) = 1
  readEnds : ∀ p, es.count (.opened (.readEnd p)) = es.count (.closed (.readEnd p))
  writeEnds : ∀ p, es.count (.opened (.writeEnd p)) = es.count (.closed (.writeEnd p))

/-- `HandleSock` returns from the connection with such a trace. -/
def Answered (env : Env) (q : Request) (e : Ending) (c : Conduct) : Prop :=
  ∃ r w, (handleSock env).Returns (connected q.sent e c) r w ∧ Responds w.trace

/-- The file that the route opens can be opened, and with a CGI program either the first
pipe fails or nothing does. -/
def answers (env : Env) (texts : List Bytes) : Route → Bool
  | .unsupported => false
  | .missing _ => (env.content page404).isSome
  | .page _ path _ => (env.content path).isSome
  | .cgi _ _ method _ =>
    if !isGet method && announced texts == 0 then (env.content page404).isSome
    else !env.pipe .cgiIn || started env

/-! ### Counting events -/

/-- The bytes of a body are no other calls. -/
theorem count_passed {e : Event} (he : ∀ b, e ≠ .passed b) (input : Bytes) :
    (input.map Event.passed).count e = 0 := by
  rw [List.count_eq_zero]
  intro h
  obtain ⟨b, -, rfl⟩ := List.mem_map.mp h
  exact he b rfl

/-- What a CGI program writes is sent byte by byte. -/
theorem count_output {e : Event} (he : ∀ ch, e ≠ .sent [ch]) (output : Bytes) :
    (output.map fun ch => Event.sent [ch]).count e = 0 := by
  rw [List.count_eq_zero]
  intro h
  obtain ⟨ch, -, rfl⟩ := List.mem_map.mp h
  exact he ch rfl

/-- The status line is longer than a byte. -/
theorem statusLine_ne (ch : UInt8) : Event.sent statusLine ≠ .sent [ch] := by
  intro h
  have hlen : statusLine.length = 1 := congrArg List.length (Event.sent.inj h)
  exact absurd hlen (by decide)

/-- A started CGI program closes the four ends of its pipes, whatever it is given. -/
theorem count_servedEvents {e : Event} (hpassed : ∀ b, e ≠ .passed b)
    (hsent : ∀ ch, e ≠ .sent [ch]) (clength : Int) :
    (servedEvents env path method query clength input).count e =
      (startEvents path ++ endEvents).count e := by
  simp only [servedEvents, List.count_append, count_passed hpassed, count_output hsent]
  omega

/-- Looking up paths is no other call. -/
theorem count_stats {e : Event} (he : ∀ p, e ≠ .stat p) {es : List Event}
    (hes : ∀ e ∈ es, ∃ p, e = .stat p) : es.count e = 0 := by
  rw [List.count_eq_zero]
  intro h
  obtain ⟨p, rfl⟩ := hes e h
  exact he p rfl

/-- A page is the answer if its file opens. -/
theorem responds_page_iff {es : List Event} {size : Nat} (hes : ∀ e ∈ es, ∃ p, e = .stat p) :
    Responds (es ++ pageEvents env path size ++ [.closed .sock]) ↔
      (env.content path).isSome = true := by
  have hcount (e : Event) (he : ∀ p, e ≠ .stat p) :
      (es ++ pageEvents env path size ++ [Event.closed .sock]).count e =
        (pageEvents env path size).count e + [Event.closed .sock].count e := by
    rw [List.count_append, List.count_append, count_stats he hes, Nat.zero_add]
  constructor
  · intro h
    have hstatus := h.status
    rw [hcount _ (by simp)] at hstatus
    cases hc : env.content path with
    | none => simp [pageEvents, hc] at hstatus
    | some content => rfl
  · intro h
    obtain ⟨content, hc⟩ := Option.isSome_iff_exists.mp h
    constructor
    · rw [hcount _ (by simp)]
      simp [pageEvents, hc]
    · rw [hcount _ (by simp)]
      simp [pageEvents, hc]
    · intro p
      rw [hcount _ (by simp), hcount _ (by simp)]
      simp [pageEvents, hc]
    · intro p
      rw [hcount _ (by simp), hcount _ (by simp)]
      simp [pageEvents, hc]

/-- A CGI program is the answer unless the second pipe or `fork` fails: then the ends
of the pipes that were opened stay open. -/
theorem responds_cgi_iff {asked : Bytes} {clength : Int} :
    Responds (.stat asked :: cgiEvents env path method query clength input ++ [.closed .sock]) ↔
      (!env.pipe .cgiIn || started env) = true := by
  have hserved (e : Event) (hpassed : ∀ b, e ≠ .passed b) (hsent : ∀ ch, e ≠ .sent [ch]) :
      (servedEvents env path method query clength input).count e =
        [.execl path, .closed (.readEnd .cgiIn), .closed (.writeEnd .cgiOut), .outputEnded,
          .closed (.writeEnd .cgiIn), .closed (.readEnd .cgiOut), .waited].count e :=
    count_servedEvents hpassed hsent clength
  cases hin : env.pipe .cgiIn with
  | false =>
    simp only [started, hin, Bool.not_false, Bool.false_and, Bool.or_false, iff_true]
    constructor <;> simp [cgiEvents, hin]
  | true =>
    cases hout : env.pipe .cgiOut with
    | false =>
      simp only [started, hin, hout, Bool.not_true, Bool.and_false, Bool.false_and, Bool.or_self,
        Bool.false_eq_true, iff_false]
      intro h
      simpa [cgiEvents, hin, hout, List.count_cons] using h.readEnds .cgiIn
    | true =>
      cases hfork : env.fork with
      | false =>
        simp only [started, hin, hout, hfork, Bool.not_true, Bool.and_false, Bool.or_self,
          Bool.false_eq_true, iff_false]
        intro h
        simpa [cgiEvents, hin, hout, hfork, List.count_cons] using h.readEnds .cgiIn
      | true =>
        simp only [started, hin, hout, hfork, Bool.and_self, Bool.or_true, iff_true]
        constructor
        · simp [cgiEvents, hin, hout, hfork, hserved (.sent statusLine) (by simp) statusLine_ne]
        · simp [cgiEvents, hin, hout, hfork, hserved (.closed .sock) (by simp) (by simp)]
        · rintro (_ | _) <;> simp [cgiEvents, hin, hout, hfork, hserved]
        · rintro (_ | _) <;> simp [cgiEvents, hin, hout, hfork, hserved]

/-- Which routes answer. -/
theorem responds_routeEvents_iff (route : Route) :
    Responds (routeEvents env texts input route) ↔ answers env texts route = true := by
  have hcode (asked : Bytes) :
      Responds (.stat asked :: codeEvents env ++ [.closed .sock]) ↔
        (env.content page404).isSome = true :=
    have hstats : ∀ e ∈ [Event.stat asked, .stat page404], ∃ p, e = .stat p := by simp
    responds_page_iff hstats
  cases route with
  | unsupported =>
    simp only [answers, Bool.false_eq_true, iff_false]
    intro h
    have hclosed := h.closed
    cases hc : env.content page404 <;>
      simp [routeEvents, codeEvents, pageEvents, hc] at hclosed
  | missing asked => exact hcode asked
  | page asked path size =>
    have hstat : ∀ e ∈ [Event.stat asked], ∃ p, e = .stat p := by simp
    exact responds_page_iff hstat
  | cgi asked path method query =>
    simp only [routeEvents, answers]
    cases hget : isGet method with
    | true => simpa using responds_cgi_iff
    | false =>
      cases hz : announced texts == 0 with
      | true => simpa using hcode asked
      | false => simpa using responds_cgi_iff

/-- The first call on the socket of a route that answers is the status line. -/
theorem find?_routeEvents {route : Route} (h : answers env texts route = true) :
    (routeEvents env texts input route).find? Event.isSend = some (.sent statusLine) := by
  have hpage {path : Bytes} {size : Nat} (more : List Event)
      (hopens : (env.content path).isSome = true) :
      (pageEvents env path size ++ more).find? Event.isSend = some (.sent statusLine) := by
    obtain ⟨content, hc⟩ := Option.isSome_iff_exists.mp hopens
    rw [pageEvents, hc]
    rfl
  cases route with
  | unsupported => cases h
  | missing asked => exact hpage _ h
  | page asked path size => exact hpage _ h
  | cgi asked path method query =>
    rw [answers] at h
    rw [routeEvents]
    cases hget : isGet method with
    | true => rfl
    | false =>
      cases hz : announced texts == 0 with
      | true =>
        rw [hget, hz] at h
        exact hpage _ h
      | false => rfl

/-- No route sends a second status line. -/
theorem count_status_le (route : Route) :
    (routeEvents env texts input route).count (.sent statusLine) ≤ 1 := by
  have hpage (path : Bytes) (size : Nat) :
      (pageEvents env path size).count (.sent statusLine) ≤ 1 := by
    unfold pageEvents
    cases env.content path <;> simp
  have hcode (asked : Bytes) : (Event.stat asked :: codeEvents env ++ [Event.closed .sock]).count
      (Event.sent statusLine) ≤ 1 := by
    simpa [codeEvents] using hpage page404 (size404 env)
  have hcgi (asked path method query : Bytes) (clength : Int) :
      (Event.stat asked :: cgiEvents env path method query clength input ++
        [Event.closed .sock]).count (Event.sent statusLine) ≤ 1 := by
    have hserved : (servedEvents env path method query clength input).count
        (Event.sent statusLine) = 0 := by
      rw [count_servedEvents (by simp) statusLine_ne]
      simp [startEvents, endEvents]
    unfold cgiEvents
    cases env.pipe .cgiIn <;> cases env.pipe .cgiOut <;> cases env.fork <;> simp [hserved]
  cases route with
  | unsupported => simpa [routeEvents, codeEvents] using hpage page404 (size404 env)
  | missing asked => exact hcode asked
  | page asked path size => simpa [routeEvents] using hpage path size
  | cgi asked path method query =>
    rw [routeEvents]
    split
    · exact hcgi ..
    · split
      · exact hcode asked
      · exact hcgi ..

/-- The trace of a route is that of a response exactly if the route answers and the call that sends
the status line does not fail. -/
theorem responds_kept_iff {c : Conduct} (route : Route) :
    Responds (c.kept (routeEvents env texts input route)) ↔
      answers env texts route = true ∧ c.sends.head? ≠ some .refused := by
  have hcount (e : Event) (he : e.isSend = false) :
      (c.kept (routeEvents env texts input route)).count e =
        (routeEvents env texts input route).count e := Conduct.count_kept he _
  have hall (h : (routeEvents env texts input route).count (.sent statusLine) = 1) :
      Responds (c.kept (routeEvents env texts input route)) →
        Responds (routeEvents env texts input route) := fun hkept =>
    ⟨h, (hcount _ rfl).symm.trans hkept.closed,
      fun p => by rw [← hcount _ rfl, ← hcount _ rfl]; exact hkept.readEnds p,
      fun p => by rw [← hcount _ rfl, ← hcount _ rfl]; exact hkept.writeEnds p⟩
  constructor
  · intro hkept
    have hle := (Conduct.kept_sublist c (routeEvents env texts input route)).count_le
      (.sent statusLine)
    rw [hkept.status] at hle
    have hone : (routeEvents env texts input route).count (.sent statusLine) = 1 :=
      Nat.le_antisymm (count_status_le route) hle
    have hanswers := (responds_routeEvents_iff route).mp (hall hone hkept)
    exact ⟨hanswers, (Conduct.count_kept_first (find?_routeEvents hanswers) hone).mp hkept.status⟩
  · rintro ⟨hanswers, hhead⟩
    have h : Responds (routeEvents env texts input route) :=
      (responds_routeEvents_iff route).mpr hanswers
    exact ⟨(Conduct.count_kept_first (find?_routeEvents hanswers) h.status).mpr hhead,
      (hcount _ rfl).trans h.closed,
      fun p => by rw [hcount _ rfl, hcount _ rfl]; exact h.readEnds p,
      fun p => by rw [hcount _ rfl, hcount _ rfl]; exact h.writeEnds p⟩

/-! ### Connections -/

/-- Only the events besides `get_line` matter for the response. -/
theorem responds_of_count {es es' : List Event}
    (h : ∀ e, e.isLine = false → es.count e = es'.count e) (hes : Responds es) :
    Responds es' where
  status := (h (.sent statusLine) rfl).symm.trans hes.status
  closed := (h (.closed .sock) rfl).symm.trans hes.closed
  readEnds p := by
    rw [← h _ rfl, ← h _ rfl]
    exact hes.readEnds p
  writeEnds p := by
    rw [← h _ rfl, ← h _ rfl]
    exact hes.writeEnds p

/-- The calls of `get_line` are no part of a response. -/
theorem responds_doings_iff {w : World} : Responds w.doings ↔ Responds w.trace := by
  have h (e : Event) (he : e.isLine = false) : w.doings.count e = w.trace.count e :=
    List.count_filter (by rw [he]; rfl)
  exact ⟨responds_of_count h, responds_of_count fun e he => (h e he).symm⟩

variable {q : Request} {e : Ending} {c : Conduct}

/-- The lines that the server sees behind the request line. -/
def Request.seenLines (q : Request) (e : Ending) : List Bytes := lines e.seen q.remaining

/-- The calls of the route of the request, when `rest` is behind the header section. -/
def Request.callsBehind (q : Request) (env : Env) (e : Ending) (rest : Bytes) : List Event :=
  routeEvents env (q.seenLines e)
    (bodyBytes (routeBody env (q.seenLines e) (q.route env)) 0 rest) (q.route env)

/-- Behind the request line there are as many lines that look empty as the route drains,
on a connection that stays open the body it hands over is behind them, and the calls of the route
are let through. -/
def Suffices (env : Env) (q : Request) (e : Ending) (c : Conduct) : Prop :=
  ∃ rest, SkipsTimes e.seen 1022 (routeDrains (q.seenLines e) (q.route env)) q.remaining rest ∧
    (e.seen = false → routeBody env (q.seenLines e) (q.route env) ≤ rest.length) ∧
      c.allows (q.callsBehind env e rest) = true

/-- A route ends when what it waits for comes. -/
theorem halts_route_iff :
    (perform env (q.route env)).Halts ((connected q.sent e c).afterLine q.remaining) ↔
      Suffices env q e c := halts_perform_iff

/-- A served connection responds if its route answers and the status line is sent. -/
theorem responds_iff_answers {r : Int} {w : World}
    (h : (handleSock env).Returns (connected q.sent e c) r w) :
    Responds w.trace ↔ answers env (q.seenLines e) (q.route env) = true ∧
      c.sends.head? ≠ some .refused := by
  obtain ⟨rest, hrest⟩ := performed_of_returns (returns_handleSock_sent.mp h)
  rw [← responds_doings_iff, hrest.doings]
  exact responds_kept_iff (q.route env)

/-- A request gets one status line and its connection one close, and no pipe stays open,
if and only if its method is supported, the file to send opens, neither the second pipe
nor `fork` fails behind a first pipe, there is enough for the route to read, the client and the
CGI program let its calls through, and the one that sends the status line does not fail. -/
theorem answered_iff (env : Env) (q : Request) (e : Ending) (c : Conduct) : Answered env q e c ↔
    (answers env (q.seenLines e) (q.route env) = true ∧ c.sends.head? ≠ some .refused) ∧
      Suffices env q e c := by
  constructor
  · rintro ⟨r, w, hrun, hresponds⟩
    exact ⟨(responds_iff_answers hrun).mp hresponds,
      halts_route_iff.mp ⟨r, w, returns_handleSock_sent.mp hrun⟩⟩
  · rintro ⟨hanswers, hsuffices⟩
    obtain ⟨r, w, hperform⟩ := halts_route_iff.mpr hsuffices
    have hrun := returns_handleSock_sent.mpr hperform
    exact ⟨r, w, hrun, (responds_iff_answers hrun).mpr hanswers⟩

/-- A system with the page for missing files and nothing else. -/
def onlyPage404 : Env where
  stat path := if path = page404 then some ⟨false, false, false, false, 4⟩ else none
  content path := if path = page404 then some (ascii "none") else none
  stat_of_content := by
    intro path h
    split
    · rfl
    · simp_all
  pipe _ := true
  fork := true
  cgi _ _ := []

/-- `PUT /`. -/
def putRequest : Request where
  headers := []
  blank := .crlf
  further := []
  nonempty := by simp
  ended := ⟨fun h => absurd h (by decide), trivial⟩
  requestLine := { text := ascii "PUT / HTTP/1.0", eol := .crlf, plain := by decide }
  lineEnded h := absurd h (by decide)

/-- A PUT is not supported. -/
theorem putRequest_route : putRequest.route onlyPage404 = .unsupported := by
  decide +kernel

/-- For a method that is neither GET nor POST the socket is not closed. -/
theorem unsupported_method_leaves_socket_open :
    ¬ Answered onlyPage404 putRequest (.gone .closed) .willing := by
  rintro ⟨r, w, hrun, hresponds⟩
  have hanswers := ((responds_iff_answers hrun).mp hresponds).1
  rw [putRequest_route] at hanswers
  exact absurd hanswers Bool.false_ne_true

end NetworkCode.Httpd
