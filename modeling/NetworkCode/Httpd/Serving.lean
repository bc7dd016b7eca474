import NetworkCode.Httpd.Answering

/-!
# What serving a route reads and does

Each route drains the header section once or twice. The route terminates exactly
when enough lines that end empty are ahead and, for the body of a POST, enough
bytes are behind them, and the client and the CGI program let the thread make the
calls of the route. The trace of a terminated run is known exactly up to the
single calls of `get_line`.
-/

namespace NetworkCode.Httpd

open Prog LineStream Text

variable {env : Env} {w w' : World} {path method query : Bytes}

/-! ### Draining the header section -/

/-- Whether an event is a call of `get_line`. -/
def Event.isLine : Event → Bool
  | .line _ _ => true
  | _ => false

/-- The calls of `get_line` so far. -/
def World.readings (w : World) : List Event := w.trace.filter Event.isLine

/-- Everything else that was done so far. -/
def World.doings (w : World) : List Event := w.trace.filter fun e => !e.isLine

/-- The length announced by the first section of the lines ahead, as `excu_cgi` finds it. -/
def announced (texts : List Bytes) : Int :=
  seenLength ((firstSection 1022 texts).flatMap (pieces 1022))

/-- What is known of a connection behind one that was drained `n` times, when the
calls `es` were made between. -/
structure Drained (n : Nat) (w w' : World) (es : List Event) : Prop where
  ending : w'.ending = w.ending
  allowed : w.conduct.allows es = true
  conduct : w'.conduct = w.conduct.behind es
  skips : SkipsTimes w.ending.seen 1022 n w.inbox w'.inbox
  doings : w'.doings = w.doings ++ w.conduct.kept es
  readings : ∃ ls, w'.readings = w.readings ++ ls ∧
    (∀ e ∈ ls, ∃ before after, e = .line before after ∧ w'.inbox.length < before) ∧
      (0 < n → ∃ before, ls.getLast? = some (.line before w'.inbox.length))

/-- Calls of `get_line` are all of one kind. -/
theorem LineEvents.all_isLine {es : List Event} {n : Nat} (h : LineEvents es n) :
    ∀ e ∈ es, e.isLine = true := by
  intro e he
  obtain ⟨_, _, rfl, -⟩ := h.1 e he
  rfl

/-- Nothing else is among the calls of `get_line`. -/
theorem LineEvents.filter_isLine {es : List Event} {n : Nat} (h : LineEvents es n) :
    es.filter Event.isLine = es ∧ es.filter (fun e => !e.isLine) = [] := by
  constructor
  · exact List.filter_eq_self.mpr h.all_isLine
  · exact List.filter_eq_nil_iff.mpr fun e he => by simp [h.all_isLine e he]

/-- Nothing was drained yet. -/
theorem Drained.refl (w : World) : Drained 0 w w [] :=
  ⟨rfl, rfl, rfl, .zero _, by simp, [], by simp, by simp, fun h => absurd h (Nat.lt_irrefl 0)⟩

/-- More events that are not calls of `get_line`. -/
theorem Drained.log {n : Nat} {w w₁ : World} {es es' : List Event} (h : Drained n w w₁ es)
    (hallows : w₁.conduct.allows es' = true) (hes : ∀ e ∈ es', e.isLine = false) :
    Drained n w (w₁.log es') (es ++ es') := by
  obtain ⟨hending, hallowed, hconduct, hskips, hdoings, ls, hreadings, hls⟩ := h
  have hkept (e : Event) (he : e ∈ w₁.conduct.kept es') : e.isLine = false :=
    hes e (Conduct.mem_of_mem_kept he)
  have hline : (w₁.conduct.kept es').filter Event.isLine = [] :=
    List.filter_eq_nil_iff.mpr fun e he => by simp [hkept e he]
  have hother : (w₁.conduct.kept es').filter (fun e => !e.isLine) = w₁.conduct.kept es' :=
    List.filter_eq_self.mpr fun e he => by simp [hkept e he]
  refine ⟨?_, ?_, ?_, ?_, ?_, ls, ?_, ?_⟩
  · rwa [log_ending]
  · rw [Conduct.allows_append, hallowed, ← hconduct, hallows, Bool.and_self]
  · rw [log_conduct, hconduct, Conduct.behind_append]
  · rwa [log_inbox]
  · rw [World.doings, log_trace, List.filter_append, hother, Conduct.kept_append, ← hconduct,
      ← List.append_assoc, ← hdoings]
    rfl
  · rw [World.readings, log_trace, List.filter_append, hline, List.append_nil, ← hreadings]
    rfl
  · rwa [log_inbox]

/-- One more drain. -/
theorem Drained.reads {n : Nat} {w w₁ w₂ : World} {es : List Event} {cs : List Bytes}
    (h : Drained n w w₁ es) (hr : Reads w₁ cs w₂) : Drained (n + 1) w w₂ es := by
  obtain ⟨hending, hallowed, hconduct, hskips, hdoings, ls, hreadings, hls⟩ := h
  obtain ⟨hending', hreads, ls', htrace, hls'⟩ := hr.effect
  obtain ⟨ts, hts, -⟩ := (readsTo_iff (by omega)).mp hreads
  obtain ⟨hline, hother⟩ := hls'.filter_isLine
  rw [hending] at hts
  obtain ⟨hall, before, hlast⟩ := hls'
  refine ⟨hending'.trans hending, hallowed, hr.conduct_eq.trans hconduct, hskips.snoc hts, ?_,
    ls ++ ls', ?_, fun e he => ?_, fun _ => ?_⟩
  · rw [World.doings, htrace, List.filter_append, hother, List.append_nil, ← hdoings]
    rfl
  · rw [World.readings, htrace, List.filter_append, hline, ← List.append_assoc, ← hreadings]
    rfl
  · rcases List.mem_append.mp he with he | he
    · obtain ⟨b, a, rfl, hlt⟩ := hls.1 e he
      exact ⟨b, a, rfl, hts.length_lt.trans hlt⟩
    · exact hall e he
  · exact ⟨before, by simp [List.getLast?_append, hlast]⟩

/-- A drain finds the announced length. -/
theorem Reads.seenLength_eq {cs : List Bytes} (h : Reads w cs w') :
    seenLength cs = announced (lines w.ending.seen w.inbox) := by
  obtain ⟨-, hreads, -⟩ := h.effect
  obtain ⟨ts, hts, rfl⟩ := (readsTo_iff (by omega)).mp hreads
  rw [announced, ← hts.eq_firstSection]

/-- What can be skipped can be drained. -/
theorem exists_reads_of_skips {ts : List Bytes} {rest : Bytes}
    (h : Skips w.ending.seen 1022 w.inbox ts rest) : ∃ cs w', Reads w cs w' ∧ w'.inbox = rest :=
  exists_reads_iff.mpr ⟨ts, h⟩

/-! ### Routes -/

/-- How often a route drains the header section, with these lines ahead. -/
def routeDrains (texts : List Bytes) : Route → Nat
  | .missing _ => 2
  | .cgi _ _ method _ => if !isGet method && announced texts == 0 then 2 else 1
  | _ => 1

/-- How many bytes of the body a route hands to a CGI program. -/
def routeBody (env : Env) (texts : List Bytes) : Route → Nat
  | .cgi _ _ method _ => if isGet method then 0 else bodyLength env method (announced texts)
  | _ => 0

/-- The events of `echo_code`. -/
def codeEvents (env : Env) : List Event :=
  .stat page404 :: pageEvents env page404 (size404 env)

/-- The events of a route besides reading lines, when `input` is the body handed over. -/
def routeEvents (env : Env) (texts : List Bytes) (input : Bytes) : Route → List Event
  | .unsupported => codeEvents env
  | .missing asked => .stat asked :: codeEvents env ++ [.closed .sock]
  | .page asked path size => .stat asked :: pageEvents env path size ++ [.closed .sock]
  | .cgi asked path method query =>
    if isGet method then .stat asked :: cgiEvents env path method query 0 input ++ [.closed .sock]
    else if announced texts == 0 then .stat asked :: codeEvents env ++ [.closed .sock]
    else
      .stat asked :: cgiEvents env path method query (announced texts) input ++ [.closed .sock]

/-- Of the lines ahead only the announced length matters for the events of a route. -/
theorem routeEvents_congr {texts texts' : List Bytes} (h : announced texts = announced texts')
    (input : Bytes) (route : Route) :
    routeEvents env texts input route = routeEvents env texts' input route := by
  unfold routeEvents
  rw [h]

/-- The events of a route besides reading lines, when `rest` is behind the header section. -/
def servingEvents (env : Env) (route : Route) (w : World) (rest : Bytes) : List Event :=
  routeEvents env (lines w.ending.seen w.inbox)
    (bodyBytes (routeBody env (lines w.ending.seen w.inbox) route) 0 rest) route

/-- What is known of a connection behind a route. -/
structure Performed (env : Env) (route : Route) (w w' : World) (rest : Bytes) : Prop where
  available : w.ending.seen = false →
    routeBody env (lines w.ending.seen w.inbox) route ≤ rest.length
  inbox_eq : w'.inbox = rest.drop (routeBody env (lines w.ending.seen w.inbox) route)
  skips : SkipsTimes w.ending.seen 1022 (routeDrains (lines w.ending.seen w.inbox) route)
    w.inbox rest
  allowed : w.conduct.allows (servingEvents env route w rest) = true
  doings : w'.doings = w.doings ++ w.conduct.kept (servingEvents env route w rest)
  readings : ∃ ls before, w'.readings = w.readings ++ ls ∧
    (∀ e ∈ ls, ∃ before after, e = .line before after ∧ rest.length < before) ∧
      ls.getLast? = some (.line before rest.length)

/-- A page makes no call of `get_line`. -/
theorem pageEvents_not_line (env : Env) (path : Bytes) (size : Nat) :
    ∀ e ∈ pageEvents env path size, e.isLine = false := by
  unfold pageEvents
  cases env.content path <;> simp [Event.isLine]

/-- A program that was started makes no call of `get_line`. -/
theorem servedEvents_not_line (env : Env) (path method query : Bytes) (clength : Int)
    (input : Bytes) : ∀ e ∈ servedEvents env path method query clength input,
      e.isLine = false := by
  intro e he
  simp only [servedEvents, startEvents, endEvents, List.mem_append, List.mem_map, List.mem_cons,
    List.not_mem_nil, or_false] at he
  rcases he with (((rfl | rfl | rfl) | ⟨_, _, rfl⟩) | ⟨_, _, rfl⟩) | rfl | rfl | rfl | rfl <;> rfl

/-- Running a program makes no call of `get_line`. -/
theorem cgiEvents_not_line (env : Env) (path method query : Bytes) (clength : Int)
    (input : Bytes) : ∀ e ∈ cgiEvents env path method query clength input, e.isLine = false := by
  unfold cgiEvents
  cases env.pipe .cgiIn <;> cases env.pipe .cgiOut <;> cases env.fork <;>
    simp [Event.isLine]
  exact servedEvents_not_line env path method query clength input

/-- A drained connection on which the rest of a route happened. -/
theorem Drained.performed {route : Route} {n k : Nat} {w₁ : World} {es es' : List Event}
    (h : Drained n w w₁ es) (hpos : 0 < n)
    (hn : routeDrains (lines w.ending.seen w.inbox) route = n)
    (hk : routeBody env (lines w.ending.seen w.inbox) route = k)
    (havail : w.ending.seen = false → k ≤ w₁.inbox.length)
    (hevents : routeEvents env (lines w.ending.seen w.inbox) (bodyBytes k 0 w₁.inbox) route =
      es ++ es')
    (hallows : w₁.conduct.allows es' = true) (hes : ∀ e ∈ es', e.isLine = false) :
    Performed env route w ((w₁.skip k).log es') w₁.inbox := by
  have hlog : (w₁.skip k).log es' = (w₁.log es').skip k := by
    rw [log_eq, log_eq]
    rfl
  obtain ⟨ls, hls, hall, hlast⟩ := (h.log hallows hes).readings
  obtain ⟨before, hline⟩ := hlast hpos
  rw [log_inbox] at hall hline
  subst hk
  have hserving : servingEvents env route w w₁.inbox = es ++ es' := hevents
  rw [hlog]
  refine ⟨havail, ?_, hn ▸ h.skips, ?_, ?_, ls, before, hls, hall, hline⟩
  · rw [World.skip, log_inbox]
  · rw [hserving]
    exact (h.log hallows hes).allowed
  · rw [hserving]
    exact (h.log hallows hes).doings

/-- Closing a descriptor needs nobody else. -/
theorem allows_closed {c : Conduct} {es : List Event} {d : Descriptor} (h : c.allows es = true) :
    c.allows (es ++ [.closed d]) = true := by
  rw [Conduct.allows_append, h]
  rfl

/-- Events that are not calls of `get_line`, one after the other. -/
theorem forall_append_singleton {es : List Event} {e : Event}
    (hes : ∀ e ∈ es, e.isLine = false) (he : e.isLine = false) :
    ∀ e' ∈ es ++ [e], e'.isLine = false := by
  intro e' he'
  rcases List.mem_append.mp he' with h | h
  · exact hes e' h
  · rw [List.mem_singleton.mp h, he]

/-- A CGI program requested by GET gets no body. -/
theorem returns_excuCgi_get {r : Int} (hget : isGet method = true) :
    (excuCgi env path method query).Returns w r w' ↔
      ∃ w₁, (∃ cs, Reads w cs w₁) ∧
        w₁.conduct.allows (cgiEvents env path method query 0 []) = true ∧
        r = (if started env then 0 else -1) ∧
        w' = w₁.log (cgiEvents env path method query 0 []) := by
  rw [isGet] at hget
  have hzero : bodyLength env method 0 = 0 := by simp [bodyLength]
  have hskip (w : World) : w.skip 0 = w := rfl
  simp only [excuCgi, hget, if_true, returns_bind, returns_cleanHander, returns_runCgi, hzero,
    bodyBytes, hskip, Nat.zero_le, implies_true, true_and]
  constructor
  · rintro ⟨_, w₁, hcs, h⟩
    exact ⟨w₁, hcs, h⟩
  · rintro ⟨w₁, hcs, h⟩
    exact ⟨(), w₁, hcs, h⟩

/-- A CGI program requested by POST is not run when no length was announced. -/
theorem returns_excuCgi_post {r : Int} (hget : isGet method = false) :
    (excuCgi env path method query).Returns w r w' ↔
      ∃ w₁ cs, Reads w cs w₁ ∧ if seenLength cs = 0 then
        (∃ r' : Int, (echoCode env).Returns w₁ r' w') ∧ r = -1
      else (runCgi env path method query (seenLength cs)).Returns w₁ r w' := by
  rw [isGet] at hget
  simp only [excuCgi, hget, returns_bind, returns_readHeaders, Bool.false_eq_true, if_false]
  constructor
  · rintro ⟨_, w₁, ⟨cs, hcs, rfl⟩, h⟩
    refine ⟨w₁, cs, hcs, ?_⟩
    by_cases hz : seenLength cs = 0
    · simpa [hz] using h
    · simpa [hz] using h
  · rintro ⟨w₁, cs, hcs, h⟩
    refine ⟨_, w₁, ⟨cs, hcs, rfl⟩, ?_⟩
    by_cases hz : seenLength cs = 0
    · simpa [hz] using h
    · simpa [hz] using h

/-- Looking a file up needs nobody else. -/
theorem allows_stat {c : Conduct} (asked : Bytes) : c.allows [.stat asked] = true := rfl

/-- The request was looked up in the file system, and nothing more was read. -/
theorem drained_stat (w : World) (asked : Bytes) :
    Drained 0 w (w.log [.stat asked]) [.stat asked] :=
  (Drained.refl w).log (allows_stat asked) (by simp [Event.isLine])

/-- A CGI program that gets a body does what it is known for. -/
theorem performed_of_post {asked path method query : Bytes} {r : Int} {w₂ : World}
    (hget : isGet method = false)
    (h : (excuCgi env path method query).Returns (w.log [.stat asked]) r w₂) :
    ∃ rest, Performed env (.cgi asked path method query) w (w₂.log [.closed .sock]) rest := by
  rw [returns_excuCgi_post hget] at h
  obtain ⟨w₁, cs, hcs, hrest⟩ := h
  have hseen := hcs.seenLength_eq
  rw [log_inbox, log_ending] at hseen
  by_cases hz : seenLength cs = 0
  · rw [if_pos hz] at hrest
    obtain ⟨⟨_, hcode⟩, -⟩ := hrest
    obtain ⟨w₃, ⟨cs', hcs'⟩, -, hpage, rfl⟩ := returns_echoCode.mp hcode
    rw [log_log]
    have hmid : Drained 1 w (w₁.log [.stat page404]) ([.stat asked] ++ [.stat page404]) :=
      ((drained_stat w asked).reads hcs).log (allows_stat page404) (by simp [Event.isLine])
    have hd := hmid.reads hcs'
    rw [hseen] at hz
    refine ⟨_, hd.performed (k := 0) (by omega) ?_ ?_ (fun _ => Nat.zero_le _) ?_
      (allows_closed hpage) (forall_append_singleton (pageEvents_not_line env page404 _) rfl)⟩
    · simp [routeDrains, hget, hz]
    · simp [routeBody, hget, hz, bodyLength]
    · simp [routeEvents, hget, hz, codeEvents]
  · rw [if_neg hz, returns_runCgi] at hrest
    obtain ⟨havail, hcgi, -, rfl⟩ := hrest
    have hd := (drained_stat w asked).reads hcs
    rw [log_log]
    rw [hseen] at hz havail hcgi ⊢
    refine ⟨_, hd.performed (by omega) ?_ ?_ ?_ ?_ (allows_closed hcgi)
      (forall_append_singleton (cgiEvents_not_line env path method query _ _) rfl)⟩
    · simp [routeDrains, hget, hz]
    · simp [routeBody, hget]
    · rwa [hd.ending] at havail
    · simp [routeEvents, hget, hz]

/-- The end of every route that closes its connection. -/
theorem makes_finish : Makes (do close .sock; return (0 : Int)) [.closed .sock] 0 :=
  makes_close.bind makes_pure

/-- A route that terminates does what it is known for. -/
theorem performed_of_returns {route : Route} {r : Int} (h : (perform env route).Returns w r w') :
    ∃ rest, Performed env route w w' rest := by
  cases route with
  | unsupported =>
    simp only [perform, returns_bind, returns_echoCode, returns_pure] at h
    obtain ⟨_, _, ⟨w₁, ⟨cs, hcs⟩, -, hpage, rfl⟩, -, rfl⟩ := h
    have hd := (drained_stat w page404).reads hcs
    exact ⟨_, hd.performed (k := 0) (by omega) rfl rfl (fun _ => Nat.zero_le _) rfl hpage
      (pageEvents_not_line env page404 _)⟩
  | missing asked =>
    rw [perform, (makes_record rfl).bind_iff, returns_bind] at h
    obtain ⟨-, _, _, hcode, hrest⟩ := h
    obtain ⟨_, w₂, hdrain, hclose⟩ := returns_bind.mp hrest
    obtain ⟨w₁, ⟨cs, hcs⟩, -, hpage, rfl⟩ := returns_echoCode.mp hcode
    obtain ⟨cs', hcs'⟩ := returns_cleanHander.mp hdrain
    obtain ⟨-, -, rfl⟩ := (makes_finish _ _ _).mp hclose
    rw [log_log] at hcs
    have htwo : Drained 0 w (w.log [.stat asked, .stat page404]) [.stat asked, .stat page404] :=
      (Drained.refl w).log rfl (by simp [Event.isLine])
    have hd := ((htwo.reads hcs).log hpage
      (pageEvents_not_line env page404 (size404 env))).reads hcs'
    refine ⟨_, hd.performed (k := 0) (by omega) rfl rfl (fun _ => Nat.zero_le _) ?_ rfl
      (by simp [Event.isLine])⟩
    simp [routeEvents, codeEvents]
  | page asked path size =>
    rw [perform, (makes_record rfl).bind_iff, returns_bind] at h
    obtain ⟨-, _, _, hhtml, hclose⟩ := h
    obtain ⟨w₁, ⟨cs, hcs⟩, hpage, rfl⟩ := returns_echoHtml.mp hhtml
    obtain ⟨-, -, rfl⟩ := (makes_finish _ _ _).mp hclose
    have hd := (drained_stat w asked).reads hcs
    rw [log_log]
    exact ⟨_, hd.performed (k := 0) (by omega) rfl rfl (fun _ => Nat.zero_le _) rfl
      (allows_closed hpage) (forall_append_singleton (pageEvents_not_line env path size) rfl)⟩
  | cgi asked path method query =>
    rw [perform, (makes_record rfl).bind_iff, returns_bind] at h
    obtain ⟨-, _, w₂, hcgi, hclose⟩ := h
    obtain ⟨-, -, rfl⟩ := (makes_finish _ _ _).mp hclose
    cases hget : isGet method with
    | true =>
      obtain ⟨w₁, ⟨cs, hcs⟩, hallows, -, rfl⟩ := (returns_excuCgi_get hget).mp hcgi
      rw [log_log]
      refine ⟨_, ((drained_stat w asked).reads hcs).performed (k := 0) (by omega) ?_ ?_
        (fun _ => Nat.zero_le _) ?_ (allows_closed hallows)
        (forall_append_singleton (cgiEvents_not_line env path method query 0 []) rfl)⟩
      · simp [routeDrains, hget]
      · simp [routeBody, hget]
      · simp [routeEvents, hget, bodyBytes]
    | false => exact performed_of_post hget hcgi

/-- One drain that the lines ahead allow. -/
theorem exists_drain {rest : Bytes} (h : SkipsTimes w.ending.seen 1022 1 w.inbox rest)
    (es : List Event) : ∃ w₁, (∃ cs, Reads (w.log es) cs w₁) ∧ w₁.inbox = rest ∧
      w₁.ending = w.ending ∧ w₁.conduct = w.conduct.behind es := by
  obtain ⟨ts, hts⟩ := skipsTimes_one_iff.mp h
  rw [← log_ending w es, ← log_inbox w es] at hts
  obtain ⟨cs, w₁, hcs, hrest⟩ := exists_reads_of_skips hts
  refine ⟨w₁, ⟨cs, hcs⟩, hrest, ?_, ?_⟩
  · rw [hcs.effect.1, log_ending]
  · rw [hcs.conduct_eq, log_conduct]

/-- Two drains that the lines ahead allow. -/
theorem exists_drain_twice {rest : Bytes} (h : SkipsTimes w.ending.seen 1022 2 w.inbox rest)
    (es es' : List Event) : ∃ w₁ w₂, (∃ cs, Reads (w.log es) cs w₁) ∧
      (∃ cs, Reads (w₁.log es') cs w₂) ∧ w₂.inbox = rest ∧
        w₁.conduct = w.conduct.behind es ∧ w₂.conduct = w.conduct.behind (es ++ es') := by
  obtain ⟨ts, mid, ts', hts, hts'⟩ := skipsTimes_two_iff.mp h
  obtain ⟨w₁, hcs, rfl, hending, hconduct⟩ := exists_drain (skipsTimes_one_iff.mpr ⟨ts, hts⟩) es
  rw [← hending] at hts'
  obtain ⟨w₂, hcs', hrest, -, hconduct'⟩ := exists_drain (skipsTimes_one_iff.mpr ⟨ts', hts'⟩) es'
  refine ⟨w₁, w₂, hcs, hcs', hrest, hconduct, ?_⟩
  rw [hconduct', hconduct, Conduct.behind_append]

/-- What is let through in a row is let through in its parts. -/
theorem allows_parts {c : Conduct} {es mid es' : List Event}
    (h : c.allows (es ++ mid ++ es') = true) :
    (c.behind es).allows mid = true ∧ (c.behind (es ++ mid)).allows es' = true := by
  simp only [Conduct.allows_append, Bool.and_eq_true, Conduct.behind_append] at h
  exact ⟨h.1.2, by rw [Conduct.behind_append]; exact h.2⟩

/-- A CGI program that gets a body terminates when the lines and the body are ahead, and its calls
are let through. -/
theorem halts_post {asked path method query rest : Bytes} (hget : isGet method = false)
    (hskips : SkipsTimes w.ending.seen 1022
      (routeDrains (lines w.ending.seen w.inbox) (.cgi asked path method query)) w.inbox rest)
    (havail : w.ending.seen = false → routeBody env (lines w.ending.seen w.inbox)
      (.cgi asked path method query) ≤ rest.length)
    (hallows : w.conduct.allows (servingEvents env (.cgi asked path method query) w rest) = true) :
    (excuCgi env path method query).Halts (w.log [.stat asked]) := by
  by_cases hz : announced (lines w.ending.seen w.inbox) = 0
  · simp only [routeDrains, hget, hz] at hskips
    have hevents : servingEvents env (.cgi asked path method query) w rest =
        [.stat asked, .stat page404] ++ pageEvents env page404 (size404 env) ++
          [.closed .sock] := by
      simp [servingEvents, routeEvents, hget, hz, codeEvents]
    rw [hevents] at hallows
    obtain ⟨w₁, w₂, ⟨cs, hcs⟩, hcs', -, -, hconduct⟩ := exists_drain_twice hskips [.stat asked]
      [.stat page404]
    have hpage : w₂.conduct.allows (pageEvents env page404 (size404 env)) = true := by
      rw [hconduct]
      exact (allows_parts hallows).1
    refine ⟨-1, w₂.log (pageEvents env page404 (size404 env)),
      (returns_excuCgi_post hget).mpr ⟨w₁, cs, hcs, ?_⟩⟩
    have hseen := hcs.seenLength_eq
    rw [log_ending, log_inbox] at hseen
    rw [if_pos (hseen.trans hz)]
    exact ⟨⟨_, returns_echoCode.mpr ⟨w₂, hcs', rfl, hpage, rfl⟩⟩, rfl⟩
  · simp only [routeDrains, hget, beq_eq_false_iff_ne.mpr hz] at hskips
    obtain ⟨w₁, ⟨cs, hcs⟩, rfl, hending, hconduct⟩ := exists_drain hskips [.stat asked]
    have hseen : seenLength cs = announced (lines w.ending.seen w.inbox) := by
      rw [hcs.seenLength_eq, log_ending, log_inbox]
    have hlength : routeBody env (lines w.ending.seen w.inbox) (.cgi asked path method query) =
        bodyLength env method (seenLength cs) := by
      simp [routeBody, hget, hseen]
    have hevents : servingEvents env (.cgi asked path method query) w w₁.inbox =
        [.stat asked] ++ cgiEvents env path method query (seenLength cs)
          (bodyBytes (bodyLength env method (seenLength cs)) 0 w₁.inbox) ++ [.closed .sock] := by
      simp [servingEvents, routeEvents, hget, hz, hseen, routeBody]
    rw [hevents] at hallows
    have hbody : w₁.ending.seen = false →
        bodyLength env method (seenLength cs) ≤ w₁.inbox.length := by
      rw [hending, ← hlength]
      exact havail
    have hcgi : w₁.conduct.allows (cgiEvents env path method query (seenLength cs)
        (bodyBytes (bodyLength env method (seenLength cs)) 0 w₁.inbox)) = true := by
      rw [hconduct]
      exact (allows_parts hallows).1
    have hrun : (runCgi env path method query (seenLength cs)).Returns w₁ _ _ :=
      returns_runCgi.mpr ⟨hbody, hcgi, rfl, rfl⟩
    exact ⟨_, _, (returns_excuCgi_post hget).mpr
      ⟨w₁, cs, hcs, (if_neg (hseen.trans_ne hz)).mpr hrun⟩⟩

/-- A route terminates exactly when the lines it drains are ahead, the body it hands over is
behind them, and its calls are let through. -/
theorem halts_perform_iff {route : Route} : (perform env route).Halts w ↔
    ∃ rest, SkipsTimes w.ending.seen 1022 (routeDrains (lines w.ending.seen w.inbox) route)
      w.inbox rest ∧ (w.ending.seen = false →
        routeBody env (lines w.ending.seen w.inbox) route ≤ rest.length) ∧
          w.conduct.allows (servingEvents env route w rest) = true := by
  constructor
  · rintro ⟨r, w', h⟩
    obtain ⟨rest, hrest⟩ := performed_of_returns h
    exact ⟨rest, hrest.skips, hrest.available, hrest.allowed⟩
  · rintro ⟨rest, hskips, havail, hallows⟩
    have hclose (t : World) : (do close .sock; return 0 : Prog World Int).Returns t 0
        (t.log [.closed .sock]) := (makes_finish _ _ _).mpr ⟨rfl, rfl, rfl⟩
    have hstat (asked : Bytes) : (record (.stat asked)).Returns w () (w.log [.stat asked]) :=
      (makes_record rfl _ _ _).mpr ⟨rfl, rfl, rfl⟩
    cases route with
    | unsupported =>
      obtain ⟨w₁, hcs, -, -, hconduct⟩ := exists_drain hskips [.stat page404]
      have hpage : w₁.conduct.allows (pageEvents env page404 (size404 env)) = true := by
        rw [hconduct]
        exact hallows
      exact ⟨-1, _, returns_bind.mpr ⟨_, _, returns_echoCode.mpr ⟨w₁, hcs, rfl, hpage, rfl⟩,
        returns_pure.mpr ⟨rfl, rfl⟩⟩⟩
    | missing asked =>
      have hevents : servingEvents env (.missing asked) w rest = [.stat asked, .stat page404] ++
          pageEvents env page404 (size404 env) ++ [.closed .sock] := rfl
      rw [hevents] at hallows
      obtain ⟨w₁, w₂, hcs, hcs', -, hconduct, -⟩ := exists_drain_twice hskips
        [.stat asked, .stat page404] (pageEvents env page404 (size404 env))
      have hsplit : w.log [.stat asked, .stat page404] =
          (w.log [.stat asked]).log [.stat page404] := by simp
      rw [hsplit] at hcs
      have hpage : w₁.conduct.allows (pageEvents env page404 (size404 env)) = true := by
        rw [hconduct]
        exact (allows_parts hallows).1
      exact ⟨0, _, returns_bind.mpr ⟨(), _, hstat asked, returns_bind.mpr
        ⟨_, _, returns_echoCode.mpr ⟨w₁, hcs, rfl, hpage, rfl⟩, returns_bind.mpr
          ⟨(), _, returns_cleanHander.mpr hcs', hclose w₂⟩⟩⟩⟩
    | page asked path size =>
      obtain ⟨w₁, hcs, -, -, hconduct⟩ := exists_drain hskips [.stat asked]
      have hpage : w₁.conduct.allows (pageEvents env path size) = true := by
        rw [hconduct]
        have hevents : w.conduct.allows
            ([.stat asked] ++ pageEvents env path size ++ [.closed .sock]) = true := hallows
        exact (allows_parts hevents).1
      exact ⟨0, _, returns_bind.mpr ⟨(), _, hstat asked, returns_bind.mpr
        ⟨(), _, returns_echoHtml.mpr ⟨w₁, hcs, hpage, rfl⟩, hclose _⟩⟩⟩
    | cgi asked path method query =>
      suffices hcgi : (excuCgi env path method query).Halts (w.log [.stat asked]) by
        obtain ⟨r, w₁, hr⟩ := hcgi
        exact ⟨0, _, returns_bind.mpr ⟨(), _, hstat asked, returns_bind.mpr
          ⟨r, w₁, hr, hclose w₁⟩⟩⟩
      cases hget : isGet method with
      | true =>
        simp only [routeDrains, hget] at hskips
        obtain ⟨w₁, hcs, -, -, hconduct⟩ := exists_drain hskips [.stat asked]
        have hevents : servingEvents env (.cgi asked path method query) w rest =
            [.stat asked] ++ cgiEvents env path method query 0 [] ++ [.closed .sock] := by
          simp [servingEvents, routeEvents, routeBody, hget, bodyBytes]
        rw [hevents] at hallows
        have hrun : w₁.conduct.allows (cgiEvents env path method query 0 []) = true := by
          rw [hconduct]
          exact (allows_parts hallows).1
        exact ⟨_, _, (returns_excuCgi_get hget).mpr ⟨w₁, hcs, hrun, rfl, rfl⟩⟩
      | false => exact halts_post hget hskips havail hallows

/-- A route terminates exactly when enough lines that end empty are ahead, on a connection that
ends, and its calls are let through. -/
theorem halts_perform_iff_of_seen {route : Route} (hs : w.ending.seen = true) :
    (perform env route).Halts w ↔ routeDrains (lines true w.inbox) route ≤
      (lines true w.inbox).countP (endsEmpty 1022) ∧
        ∀ rest, SkipsTimes true 1022 (routeDrains (lines true w.inbox) route) w.inbox rest →
          w.conduct.allows (servingEvents env route w rest) = true := by
  rw [halts_perform_iff, ← exists_skipsTimes_iff, hs]
  constructor
  · rintro ⟨rest, hskips, -, hallows⟩
    refine ⟨⟨rest, hskips⟩, fun rest' hskips' => ?_⟩
    rwa [hskips'.unique hskips]
  · rintro ⟨⟨rest, hskips⟩, hallows⟩
    exact ⟨rest, hskips, fun hf => absurd hf Bool.noConfusion, hallows rest hskips⟩

end NetworkCode.Httpd
