import NetworkCode.Httpd.CgiAdd
import NetworkCode.Httpd.Emits
import NetworkCode.Httpd.Framing
import NetworkCode.Httpd.RequestLine

/-!
# A directory with and without its slash

A URL of a directory stands for the index page in it. With a slash at its end the name of the
page is appended before `stat`, so the page decides what happens. Without one it is appended
behind `stat`, and the size, the existence and the permissions are those of the directory.
-/

namespace NetworkCode.Httpd

open Prog LineStream Text

/-! ### Requests -/

/-- A URL without a query, as one word. -/
structure Url where
  bytes : Bytes
  nonempty : bytes ≠ []
  plain : ∀ b ∈ bytes, isspace b = false ∧ b ≠ 0 ∧ b ≠ 63

namespace Url

/-- A URL with a slash at its end is not empty. -/
theorem slashed_nonempty (u : Url) : u.bytes ++ [47] ≠ [] := by
  simp

/-- A slash is a plain byte. -/
theorem slashed_plain (u : Url) : ∀ b ∈ u.bytes ++ [47], isspace b = false ∧ b ≠ 0 ∧ b ≠ 63 := by
  intro b hb
  rcases List.mem_append.mp hb with hmem | hslash
  · exact u.plain b hmem
  · rw [List.mem_singleton.mp hslash]
    decide

/-- The URL with a slash at its end. -/
def slashed (u : Url) : Url := ⟨u.bytes ++ [47], u.slashed_nonempty, u.slashed_plain⟩

/-- The text of a request line for the URL. -/
def lineText (u : Url) : Bytes := ascii "GET " ++ (u.bytes ++ ascii " HTTP/1.0")

/-- The request line has no line end in it. -/
theorem lineText_plain (u : Url) : LF ∉ u.lineText ∧ CR ∉ u.lineText := by
  have hurl {b : UInt8} (hb : b ∈ u.bytes) : b ≠ LF ∧ b ≠ CR := by
    have hspace := (u.plain b hb).1
    constructor <;> rintro rfl <;> exact absurd hspace (by decide)
  constructor
  · intro h
    rcases List.mem_append.mp h with hget | hrest
    · exact absurd hget (by decide)
    · rcases List.mem_append.mp hrest with hmem | hversion
      · exact (hurl hmem).1 rfl
      · exact absurd hversion (by decide)
  · intro h
    rcases List.mem_append.mp h with hget | hrest
    · exact absurd hget (by decide)
    · rcases List.mem_append.mp hrest with hmem | hversion
      · exact (hurl hmem).2 rfl
      · exact absurd hversion (by decide)

/-- The request line of a GET. -/
def requestLine (u : Url) : Line := ⟨u.lineText, .crlf, u.lineText_plain⟩

/-- The request line ends with its line end. -/
theorem requestLine_ended (u : Url) (s : HeaderSection) :
    u.requestLine.eol = .cr → s.stream.head? ≠ some LF := by
  intro h
  cases h

/-- A GET for the URL with the given header section. -/
def get (u : Url) (s : HeaderSection) : Request := ⟨s, u.requestLine, u.requestLine_ended s⟩

/-! ### The words of the request line -/

theorem firstToken_get (rest : Bytes) : firstToken (ascii "GET " ++ rest) = ascii "GET" := rfl

theorem nextToken_get (rest : Bytes) :
    nextToken (ascii "GET " ++ rest) = firstToken (rest.dropWhile isspace) := rfl

/-- The line that `get_line` gives for this URL. -/
theorem line_get (u : Url) (s : HeaderSection) : (u.get s).line =
    ascii "GET " ++ (u.bytes ++ 32 :: ascii "HTTP/1.0\n").take 1020 := by
  have htext : (u.get s).requestLine.text ++ [LF] =
      ascii "GET " ++ (u.bytes ++ 32 :: ascii "HTTP/1.0\n") := by
    change ascii "GET " ++ (u.bytes ++ ascii " HTTP/1.0") ++ [LF] = _
    rw [List.append_assoc, List.append_assoc]
    rfl
  have hlen : (ascii "GET ").length = 4 := rfl
  rw [Request.line, htext, List.take_append, List.take_of_length_le (by omega), hlen]

/-- The URL is followed by white space. -/
theorem firstToken_url (u : Url) (rest : Bytes) : firstToken (u.bytes ++ 32 :: rest) = u.bytes := by
  have hall : ∀ b ∈ u.bytes, (!isspace b) = true := by
    intro b hb
    rw [(u.plain b hb).1]
    rfl
  rw [firstToken, List.takeWhile_append_of_pos hall, List.takeWhile_cons_of_neg (by decide),
    List.append_nil]

/-- The first word of a line that was cut. -/
theorem firstToken_take (t : Bytes) (n : Nat) : firstToken (t.take n) = (firstToken t).take n :=
  List.take_takeWhile.symm

/-- The server sees the first 254 bytes of the URL. -/
theorem route_get (u : Url) (s : HeaderSection) (env : Env) :
    (u.get s).route env = routeOf env (ascii "GET") (u.bytes.take 254) := by
  obtain ⟨b, bs, hb⟩ := List.exists_cons_of_ne_nil u.nonempty
  have hhead := (u.plain b (hb ▸ List.mem_cons_self)).1
  have hskip : ((u.bytes ++ 32 :: ascii "HTTP/1.0\n").take 1020).dropWhile isspace =
      (u.bytes ++ 32 :: ascii "HTTP/1.0\n").take 1020 := by
    rw [hb, List.cons_append, List.take_succ_cons, List.dropWhile_cons_of_neg]
    simp [hhead]
  have hnot : 0 ∉ (u.get s).line := by
    rw [line_get, List.mem_append]
    rintro (hget | hrest)
    · exact absurd hget (by decide)
    · rcases List.mem_append.mp (List.mem_of_mem_take hrest) with hmem | hversion
      · exact (u.plain 0 hmem).2.1 rfl
      · exact absurd hversion (by decide)
  have hchunk := (u.get s).takeChunk_sent true
  have hle := takeChunk_length_le hchunk
  have hline := (takeChunk_shape hchunk).2
  have hmethod : firstToken (u.get s).line = ascii "GET" := by
    rw [line_get, firstToken_get]
  have hurl : (nextToken (u.get s).line).take 254 = u.bytes.take 254 := by
    rw [line_get, nextToken_get, hskip, firstToken_take, firstToken_url, List.take_take]
    rfl
  have hshort : (firstToken (u.get s).line).length ≤ 254 := by
    rw [hmethod]
    decide
  rw [Request.route, lineRoute, methodWord_eq hle hline hshort,
    cstr_urlWord_eq hnot hle hline hshort, hmethod, hurl]
  rfl

end Url

/-! ### Answers -/

/-- What a client gets: the bytes that are sent to it and the programs that are executed. -/
structure Answer where
  sent : Bytes
  executed : List Bytes
  deriving DecidableEq, Repr

/-- The path that an event executes. -/
def Event.executed? : Event → Option Bytes
  | .execl path => some path
  | _ => none

/-- The answer in a trace. -/
def answerIn (es : List Event) : Answer := ⟨es.flatMap Event.bytes, es.filterMap Event.executed?⟩

/-- An event that is not seen by the client and executes nothing. -/
def Event.Unseen (e : Event) : Prop := e.bytes = [] ∧ e.executed? = none

/-- The answer to a GET: what the connection of a client that takes it, and whose CGI program ends,
shows in the long run. -/
def Answers (env : Env) (u : Url) (s : HeaderSection) (e : Ending) (a : Answer) : Prop :=
  (handleSock env).Eventually (connected (u.get s).sent e) fun w => answerIn w.trace = a

/-- The answer of a route to a GET. -/
def Route.answer (env : Env) (route : Route) : Answer := answerIn (routeEvents env [] [] route)

variable {env : Env} {w : World} {es es' : List Event} {u : Url} {s : HeaderSection} {e : Ending}

/-- The answer of calls in a row. -/
theorem answerIn_append : answerIn (es ++ es') =
    ⟨(answerIn es).sent ++ (answerIn es').sent,
      (answerIn es).executed ++ (answerIn es').executed⟩ := by
  rw [answerIn, List.flatMap_append, List.filterMap_append]
  rfl

/-- Calls that the client does not see answer nothing. -/
theorem answerIn_unseen (h : ∀ e ∈ es, e.Unseen) : answerIn es = ⟨[], []⟩ := by
  have hbytes : es.flatMap Event.bytes = [] := List.flatMap_eq_nil_iff.mpr fun e he => (h e he).1
  have hexecuted : es.filterMap Event.executed? = [] :=
    List.filterMap_eq_nil_iff.mpr fun e he => (h e he).2
  rw [answerIn, hbytes, hexecuted]

/-- Unseen calls behind others add nothing to the answer. -/
theorem answerIn_append_unseen (h : ∀ e ∈ es', e.Unseen) : answerIn (es ++ es') = answerIn es := by
  rw [answerIn_append, answerIn_unseen h, List.append_nil, List.append_nil]

theorem line_unseen (before after : Nat) : (Event.line before after).Unseen := ⟨rfl, rfl⟩

theorem closed_unseen : ∀ e ∈ [Event.closed .sock], e.Unseen := by
  intro e he
  rw [List.mem_singleton.mp he]
  exact ⟨rfl, rfl⟩

/-- The calls of `get_line` do not matter for the answer. -/
theorem answerIn_doings (w : World) : answerIn w.doings = answerIn w.trace := by
  have hfilter (es : List Event) : answerIn (es.filter fun e => !e.isLine) = answerIn es := by
    induction es with
    | nil => rfl
    | cons e es ih =>
      have hsplit (es : List Event) : answerIn (e :: es) = answerIn ([e] ++ es) := rfl
      cases hline : e.isLine with
      | true =>
        have hunseen : ∀ e' ∈ [e], e'.Unseen := by
          intro e' he'
          rw [List.mem_singleton.mp he']
          cases e <;> first | exact ⟨rfl, rfl⟩ | cases hline
        rw [List.filter_cons_of_neg (by simp [hline]), ih, hsplit, answerIn_append,
          answerIn_unseen hunseen]
        rfl
      | false =>
        rw [List.filter_cons_of_pos (by simp [hline]), hsplit, hsplit, answerIn_append,
          answerIn_append, ih]
  exact hfilter w.trace

/-- Two answers that a connection shows in the long run are the same. -/
theorem Answers.unique {a b : Answer} (h : Answers env u s e a) (h' : Answers env u s e b) :
    a = b := by
  obtain ⟨n, hn⟩ := h
  obtain ⟨m, hm⟩ := h'
  exact (hn _ (Nat.le_max_left n m)).symm.trans (hm _ (Nat.le_max_right n m))

/-! ### What a route shows in the long run -/

/-- A route of a GET. -/
def Route.ofGet : Route → Bool
  | .unsupported => false
  | .cgi _ _ method _ => isGet method
  | _ => true

/-- A GET reads no body, and its header section once unless the file is missing. -/
theorem Route.once (env : Env) {route : Route} (hget : route.ofGet = true)
    (hfound : ∀ p, route ≠ .missing p) (texts : List Bytes) : routeDrains texts route = 1 ∧
      routeBody env texts route = 0 ∧
        routeEvents env texts [] route = routeEvents env [] [] route := by
  cases route with
  | unsupported => cases hget
  | missing asked => exact absurd rfl (hfound asked)
  | page asked path size => exact ⟨rfl, rfl, rfl⟩
  | cgi asked path method query =>
    have hisGet : isGet method = true := hget
    simp [routeDrains, routeBody, routeEvents, hisGet]

/-- A route of a GET that returns has given its answer. -/
theorem eventually_perform_of_found {route : Route} (hw : w.conduct = .willing)
    (hget : route.ofGet = true) (hfound : ∀ p, route ≠ .missing p)
    (hdrain : ∃ ts rest, Skips w.ending.seen 1022 w.inbox ts rest) :
    (perform env route).Eventually w fun t =>
      answerIn t.trace = answerIn (w.trace ++ routeEvents env [] [] route) := by
  obtain ⟨ts, rest, hskips⟩ := hdrain
  obtain ⟨hdrains, hbody, hevents⟩ :=
    Route.once env hget hfound (lines w.ending.seen w.inbox)
  have hhalts : (perform env route).Halts w := by
    refine halts_perform_iff.mpr ⟨rest, ?_, ?_⟩
    · rw [hdrains]
      exact skipsTimes_one_iff.mpr ⟨ts, hskips⟩
    · rw [hbody]
      exact ⟨fun _ => Nat.zero_le _, allows_of_willing hw _⟩
  obtain ⟨r, t, hreturns⟩ := hhalts
  obtain ⟨rest', hperformed⟩ := performed_of_returns hreturns
  have hdoings := hperformed.doings
  rw [hw, Conduct.willing_kept, servingEvents, hbody, bodyBytes, hevents] at hdoings
  refine hreturns.eventually ?_
  rw [← answerIn_doings, hdoings, answerIn_append, answerIn_append, answerIn_doings]

/-- For a missing file the answer is given before the header section is drained again. -/
theorem eventually_perform_missing (asked : Bytes) (hw : w.conduct = .willing)
    (hdrain : ∃ ts rest, Skips w.ending.seen 1022 w.inbox ts rest) :
    (perform env (.missing asked)).Eventually w fun t =>
      answerIn t.trace = answerIn (w.trace ++ routeEvents env [] [] (.missing asked)) := by
  obtain ⟨ts, rest, hskips⟩ := hdrain
  obtain ⟨w₁, ⟨cs, hcs⟩, -, -, hconduct⟩ := exists_drain (skipsTimes_one_iff.mpr ⟨ts, hskips⟩)
    [.stat asked, .stat page404]
  have hstats : Drained 0 w (w.log [.stat asked, .stat page404]) [.stat asked, .stat page404] :=
    (Drained.refl w).log (allows_of_willing hw _) (by simp [Event.isLine])
  rw [hw, Conduct.willing_behind] at hconduct
  have hpage := allows_of_willing hconduct (pageEvents env page404 (size404 env))
  have hdrained := (hstats.reads hcs).log hpage (pageEvents_not_line env page404 (size404 env))
  have hdoings := hdrained.doings
  rw [hw, Conduct.willing_kept] at hdoings
  have hreads : Reads ((w.log [.stat asked]).log [.stat page404]) cs w₁ := by
    rwa [log_log]
  have hcode : (echoCode env).Returns (w.log [.stat asked]) _
      (w₁.log (pageEvents env page404 (size404 env))) :=
    returns_echoCode.mpr ⟨w₁, ⟨cs, hreads⟩, rfl, hpage, rfl⟩
  have hlog : (record (.stat asked)).Returns w () (w.log [.stat asked]) :=
    (makes_record rfl).returns rfl
  refine Eventually.bind hlog (Eventually.bind hcode (Always.eventually fun n => ?_))
  have hrest : Emits (do cleanHander; close .sock; return 0 : Prog World Int) Event.Unseen :=
    (emits_cleanHander line_unseen).bind fun _ => (emits_record ⟨rfl, rfl⟩).bind fun _ => emits_pure
  obtain ⟨es, htrace, hes⟩ := hrest.exists_events n (w₁.log (pageEvents env page404 (size404 env)))
  have hgiven : answerIn (routeEvents env [] [] (.missing asked)) =
      answerIn ([.stat asked, .stat page404] ++ pageEvents env page404 (size404 env)) :=
    answerIn_append_unseen closed_unseen
  rw [htrace, answerIn_append_unseen hes, ← answerIn_doings, hdoings, answerIn_append,
    answerIn_doings, ← hgiven, ← answerIn_append]

/-- Every route of a GET gives its answer, if the header section can be drained. -/
theorem eventually_perform (env : Env) {route : Route} (hw : w.conduct = .willing)
    (hget : route.ofGet = true) (hdrain : ∃ ts rest, Skips w.ending.seen 1022 w.inbox ts rest) :
    (perform env route).Eventually w fun t =>
      answerIn t.trace = answerIn (w.trace ++ routeEvents env [] [] route) := by
  by_cases hmissing : ∃ p, route = .missing p
  · obtain ⟨asked, rfl⟩ := hmissing
    exact eventually_perform_missing asked hw hdrain
  · push Not at hmissing
    exact eventually_perform_of_found hw hget hmissing hdrain

/-- The end of the header section can be seen. -/
def Shown (s : HeaderSection) (e : Ending) : Prop :=
  s.blank = .cr → s.further = [] → e.seen = true

/-- Behind the request line there is a header section. -/
theorem exists_skips_remaining (hshown : Shown s e) (u : Url) :
    ∃ ts rest, Skips e.seen 1022 (u.get s).remaining ts rest := by
  rw [exists_skips_iff, Request.remaining, lines_bytes (u.get s).wellEnded_ahead hshown]
  refine List.countP_pos_iff.mpr ⟨[], List.mem_append_left _ ?_, rfl⟩
  exact List.mem_map.mpr ⟨emptyLine s.blank, List.mem_append_right _ List.mem_cons_self, rfl⟩

/-- The route of a GET is one of a GET. -/
theorem ofGet_routeOf (env : Env) (url : Bytes) : (routeOf env (ascii "GET") url).ofGet = true := by
  have hget : isGet (ascii "GET") = true := by decide
  unfold routeOf
  rw [hget]
  simp only [Bool.not_true, Bool.false_and, Bool.false_eq_true, if_false]
  cases env.stat (askedPath (ascii "GET") url) with
  | none => rfl
  | some st =>
    dsimp only
    split
    · exact hget
    · rfl

/-- The answer to a GET is that of its route. -/
theorem answers_route (hshown : Shown s e) (u : Url) :
    Answers env u s e ((routeOf env (ascii "GET") (u.bytes.take 254)).answer env) := by
  let w := (connected (u.get s).sent e).afterLine (u.get s).remaining
  have halike := alike_handleSock (w := connected (u.get s).sent e) env
    ((u.get s).takeChunk_sent e.seen)
  have hroute : lineRoute env (u.get s).line = routeOf env (ascii "GET") (u.bytes.take 254) :=
    u.route_get s env
  have hline : answerIn w.trace = ⟨[], []⟩ := by
    apply answerIn_unseen
    intro event hevent
    rw [List.mem_singleton.mp hevent]
    exact line_unseen _ _
  have hperform := eventually_perform (w := w) env rfl (ofGet_routeOf env (u.bytes.take 254))
    (exists_skips_remaining hshown u)
  rw [hroute] at halike
  rw [answerIn_append, hline] at hperform
  exact halike.eventually_iff.mpr hperform

/-! ### Index pages -/

/-- What is sent for a file of which `size` bytes are sent, if it can be opened. -/
def pageBytes (env : Env) (path : Bytes) (size : Nat) : Bytes :=
  match env.content path with
  | none => []
  | some content => statusLine ++ content.take size

/-- The answer for a file that does not exist. -/
def notFound (env : Env) : Answer := ⟨pageBytes env page404 (size404 env), []⟩

/-- The answer of a CGI program without a query, if it can be started. -/
def cgiAnswer (env : Env) (path : Bytes) : Answer :=
  if started env then
    ⟨statusLine ++ env.cgi ⟨path, cgiEnvironment (ascii "GET") [] 0⟩ [], [path]⟩
  else ⟨statusLine, []⟩

/-- The answer with a whole file. -/
def wholeFile (content : Bytes) : Answer := ⟨statusLine ++ content, []⟩

/-- Whether some execute bit is set. -/
def Stat.executable (st : Stat) : Bool := st.xusr || st.xgrp || st.xoth

/-- The path of the index page of a directory under `wwwroot`. -/
def Url.index (u : Url) : Bytes := ascii "wwwroot" ++ u.bytes ++ ascii "/index.html"

/-- The answer that an index page should get: the page for missing files when it does not
exist, its execution when it is an executable file, and all of its bytes when it is another
file that can be opened. -/
def Wanted (env : Env) (index : Bytes) (a : Answer) : Prop :=
  match env.stat index with
  | none => a = notFound env
  | some st =>
    if st.isDir then True
    else if st.executable then a = cgiAnswer env index
    else ∀ content, env.content index = some content → a = wholeFile content

/-- The URL names a directory under `wwwroot` and has no slash at its end. -/
structure NamesDirectory (env : Env) (u : Url) (dir : Stat) : Prop where
  unslashed : u.bytes.getLast? ≠ some 47
  found : env.stat (ascii "wwwroot" ++ u.bytes) = some dir
  isDir : dir.isDir = true

/-- A GET for the URL and one for the URL with a slash get the same answer, and it is the one
that the index page should get. -/
def Agree (env : Env) (u : Url) (s : HeaderSection) (e : Ending) : Prop :=
  ∃ a, Answers env u s e a ∧ Answers env u.slashed s e a ∧ Wanted env u.index a

variable {path : Bytes} {size : Nat}

/-- The answer of a page. -/
theorem answerIn_pageEvents :
    answerIn (pageEvents env path size) = ⟨pageBytes env path size, []⟩ := by
  unfold pageEvents pageBytes
  cases env.content path with
  | none => rfl
  | some content => simp [answerIn, Event.bytes, Event.executed?]

/-- What stands around the events of an answer is not seen. -/
theorem answerIn_around {before after : List Event} (hbefore : ∀ e ∈ before, e.Unseen)
    (hafter : ∀ e ∈ after, e.Unseen) : answerIn (before ++ es ++ after) = answerIn es := by
  rw [answerIn_append_unseen hafter, answerIn_append, answerIn_unseen hbefore]
  rfl

theorem stat_unseen (path : Bytes) : ∀ e ∈ [Event.stat path], e.Unseen := by
  intro e he
  rw [List.mem_singleton.mp he]
  exact ⟨rfl, rfl⟩

/-- The answer of a route to a page. -/
theorem answer_page (env : Env) (asked path : Bytes) (size : Nat) :
    (Route.page asked path size).answer env = ⟨pageBytes env path size, []⟩ := by
  rw [← answerIn_pageEvents]
  exact answerIn_around (stat_unseen asked) closed_unseen

/-- The answer of a route to nothing. -/
theorem answer_missing (asked : Bytes) : (Route.missing asked).answer env = notFound env := by
  have hstats : ∀ e ∈ [Event.stat asked, .stat page404], e.Unseen := by
    intro e he
    rcases List.mem_cons.mp he with rfl | he
    · exact ⟨rfl, rfl⟩
    · exact stat_unseen page404 e he
  rw [notFound, ← answerIn_pageEvents]
  exact answerIn_around hstats closed_unseen

/-- The answer of a program. -/
theorem answerIn_cgiEvents :
    answerIn (cgiEvents env path (ascii "GET") [] 0 []) = cgiAnswer env path := by
  unfold cgiAnswer
  split
  · rename_i hs
    have hsent (output : Bytes) :
        (output.map fun ch => Event.sent [ch]).filterMap Event.executed? = [] := by
      rw [List.filterMap_map, List.filterMap_eq_nil_iff]
      intro ch _
      rfl
    have hexecuted : (cgiEvents env path (ascii "GET") [] 0 []).filterMap Event.executed? =
        [path] := by
      rw [cgiEvents_of_started hs, servedEvents, List.filterMap_append, List.filterMap_append,
        List.filterMap_append, hsent]
      rfl
    rw [answerIn, flatMap_cgiEvents hs, hexecuted]
  · rename_i hs
    have hquiet : cgiEvents env path (ascii "GET") [] 0 [] =
        .sent statusLine :: (cgiEvents env path (ascii "GET") [] 0 []).tail ∧
          ∀ e ∈ (cgiEvents env path (ascii "GET") [] 0 []).tail, e.Unseen := by
      refine ⟨rfl, ?_⟩
      unfold cgiEvents
      cases hin : env.pipe .cgiIn with
      | false => simp
      | true =>
        cases hout : env.pipe .cgiOut with
        | false => simp [Event.Unseen, Event.bytes, Event.executed?]
        | true =>
          have hfork : env.fork = false := by simpa [started, hin, hout] using hs
          simp [hfork, Event.Unseen, Event.bytes, Event.executed?]
    have hone : answerIn ([Event.sent statusLine] ++ _) = answerIn [Event.sent statusLine] :=
      answerIn_append_unseen hquiet.2
    rw [hquiet.1]
    exact hone

/-- The answer of a route to a program. -/
theorem answer_cgi (env : Env) (asked path : Bytes) :
    (Route.cgi asked path (ascii "GET") []).answer env = cgiAnswer env path := by
  rw [← answerIn_cgiEvents]
  exact answerIn_around (stat_unseen asked) closed_unseen

/-! ### The routes of a directory -/

variable {dir st : Stat}

/-- The index page of a URL with a slash at its end. -/
theorem index_eq (u : Url) :
    ascii "wwwroot" ++ (u.bytes ++ [47]) ++ ascii "index.html" = u.index := by
  rw [Url.index, ← List.append_assoc, List.append_assoc]
  rfl

/-- The path of a URL without a slash at its end. -/
theorem askedPath_url (hunslashed : u.bytes.getLast? ≠ some 47) :
    askedPath (ascii "GET") u.bytes = ascii "wwwroot" ++ u.bytes := by
  have hmark : 63 ∉ u.bytes := fun hmem => (u.plain 63 hmem).2.2 rfl
  have hlast : (ascii "wwwroot" ++ u.bytes).getLast? ≠ some 47 := by
    rwa [List.getLast?_append_of_ne_nil _ u.nonempty]
  have hfile : fileUrl (ascii "GET") u.bytes = u.bytes := (query_of_notMem hmark).1
  rw [askedPath, hfile, pathOf, if_neg hlast]

/-- The path of a URL with a slash at its end. -/
theorem askedPath_slashed (u : Url) : askedPath (ascii "GET") u.slashed.bytes = u.index := by
  have hmark : 63 ∉ u.slashed.bytes := fun hmem => (u.slashed.plain 63 hmem).2.2 rfl
  have hlast : (ascii "wwwroot" ++ u.slashed.bytes).getLast? = some 47 := by
    rw [List.getLast?_append_of_ne_nil _ u.slashed.nonempty]
    exact List.getLast?_concat
  have hfile : fileUrl (ascii "GET") u.slashed.bytes = u.slashed.bytes := (query_of_notMem hmark).1
  rw [askedPath, hfile, pathOf, if_pos hlast]
  exact index_eq u

/-- The route of a GET for a file that exists. -/
theorem routeOf_get (u : Url) (hfound : env.stat (askedPath (ascii "GET") u.bytes) = some st) :
    routeOf env (ascii "GET") u.bytes =
      let path := if st.isDir then askedPath (ascii "GET") u.bytes ++ ascii "/index.html"
        else askedPath (ascii "GET") u.bytes
      if !st.isDir && st.executable then
        .cgi (askedPath (ascii "GET") u.bytes) path (ascii "GET") []
      else .page (askedPath (ascii "GET") u.bytes) path st.size := by
  have hmark : 63 ∉ u.bytes := fun hmem => (u.plain 63 hmem).2.2 rfl
  have hget : isGet (ascii "GET") = true := by decide
  have hpost : isPost (ascii "GET") = false := by decide
  have hquery : afterQuery u.bytes = [] := (query_of_notMem hmark).2
  simp [routeOf, hget, hpost, hfound, hmark, hquery, Stat.executable]

/-- The answer to a GET for the directory without a slash. -/
theorem answer_directory (h : NamesDirectory env u dir) :
    (routeOf env (ascii "GET") u.bytes).answer env = ⟨pageBytes env u.index dir.size, []⟩ := by
  have hasked := askedPath_url h.unslashed
  have hfound : env.stat (askedPath (ascii "GET") u.bytes) = some dir := hasked ▸ h.found
  rw [routeOf_get u hfound, h.isDir, hasked]
  exact answer_page env _ u.index dir.size

/-- The answer to a GET for the directory with a slash. -/
theorem answer_slashed (u : Url) : (routeOf env (ascii "GET") u.slashed.bytes).answer env =
    match env.stat u.index with
    | none => notFound env
    | some st =>
      if st.isDir then ⟨pageBytes env (u.index ++ ascii "/index.html") st.size, []⟩
      else if st.executable then cgiAnswer env u.index
      else ⟨pageBytes env u.index st.size, []⟩ := by
  have hasked := askedPath_slashed u
  cases hst : env.stat u.index with
  | none =>
    have hget : isGet (ascii "GET") = true := by decide
    have hroute : routeOf env (ascii "GET") u.slashed.bytes = .missing u.index := by
      simp [routeOf, hget, hasked, hst]
    rw [hroute]
    exact answer_missing u.index
  | some st =>
    have hfound : env.stat (askedPath (ascii "GET") u.slashed.bytes) = some st := hasked ▸ hst
    rw [routeOf_get u.slashed hfound, hasked]
    cases hdir : st.isDir with
    | true =>
      simp only [hdir, if_true]
      exact answer_page env u.index (u.index ++ ascii "/index.html") st.size
    | false =>
      cases hexec : st.executable with
      | true =>
        simp only [hdir, hexec, if_true]
        exact answer_cgi env u.index u.index
      | false =>
        simp only [hdir, hexec, Bool.false_eq_true, if_false]
        exact answer_page env u.index u.index st.size

/-! ### When the two answers agree -/

/-- What has to hold of the index page and of the directory: a page that does not exist gets no
answer in either case; the size of the directory is enough for a page that is sent; an
executable page is not executed, and nothing of it is sent; or the page is a directory
itself, and what is sent happens to be the same. -/
def SameIndex (env : Env) (u : Url) (dir : Stat) : Prop :=
  match env.stat u.index with
  | none => env.content page404 = none
  | some st =>
    if st.isDir then
      pageBytes env u.index dir.size = pageBytes env (u.index ++ ascii "/index.html") st.size
    else if st.executable then
      started env = false ∧ ∃ content, env.content u.index = some content ∧
        content.take dir.size = []
    else ∀ content, env.content u.index = some content →
      content.length ≤ dir.size ∧ content.length ≤ st.size

/-- Nothing is sent when the file cannot be opened. -/
theorem pageBytes_eq_nil_iff (size : Nat) :
    pageBytes env path size = [] ↔ env.content path = none := by
  unfold pageBytes
  cases env.content path with
  | none => simp
  | some content => simp [statusLine, ascii]

/-- Only the status line is sent when the file has nothing to send. -/
theorem pageBytes_eq_statusLine_iff : pageBytes env path size = statusLine ↔
    ∃ content, env.content path = some content ∧ content.take size = [] := by
  unfold pageBytes
  cases env.content path with
  | none => simp [statusLine, ascii]
  | some content => simp

/-- The status line, and the beginning of the file. -/
theorem pageBytes_some {content : Bytes} (h : env.content path = some content) :
    pageBytes env path size = statusLine ++ content.take size := by
  rw [pageBytes, h]

/-- An executable index page gets the same answer only if it is not executed. -/
theorem cgiAnswer_iff : (⟨pageBytes env path size, []⟩ : Answer) = cgiAnswer env path ↔
    started env = false ∧ ∃ content, env.content path = some content ∧ content.take size = [] := by
  rw [← pageBytes_eq_statusLine_iff, cgiAnswer]
  cases started env with
  | true => simp
  | false => simp

/-- A page that is sent gets the same answer if its size and that of the directory are enough
for all of it. -/
theorem wholeFile_iff {n m : Nat} :
    ((⟨pageBytes env path n, []⟩ : Answer) = ⟨pageBytes env path m, []⟩ ∧
      ∀ content, env.content path = some content →
        (⟨pageBytes env path n, []⟩ : Answer) = wholeFile content) ↔
    ∀ content, env.content path = some content → content.length ≤ n ∧ content.length ≤ m := by
  cases hc : env.content path with
  | none =>
    have hnil (k : Nat) : pageBytes env path k = [] := (pageBytes_eq_nil_iff k).mpr hc
    simp [hnil]
  | some content =>
    have hsent (k : Nat) : (⟨pageBytes env path k, []⟩ : Answer) = wholeFile content ↔
        content.length ≤ k := by
      rw [pageBytes_some hc, wholeFile]
      simp
    constructor
    · rintro ⟨hsame, hwhole⟩ c hcontent
      obtain rfl := Option.some.inj hcontent
      have hn := hwhole content rfl
      exact ⟨(hsent n).mp hn, (hsent m).mp (hsame.symm.trans hn)⟩
    · intro hlen
      obtain ⟨hn, hm⟩ := hlen content rfl
      refine ⟨((hsent n).mpr hn).trans ((hsent m).mpr hm).symm, ?_⟩
      intro c hcontent
      obtain rfl := Option.some.inj hcontent
      exact (hsent n).mpr hn

/-- The two answers to URLs that are not cut. -/
theorem sameIndex_iff (h : NamesDirectory env u dir) :
    ((routeOf env (ascii "GET") u.bytes).answer env =
        (routeOf env (ascii "GET") u.slashed.bytes).answer env ∧
      Wanted env u.index ((routeOf env (ascii "GET") u.bytes).answer env)) ↔
        SameIndex env u dir := by
  rw [answer_directory h, answer_slashed, Wanted, SameIndex]
  cases hst : env.stat u.index with
  | none =>
    have hnone : env.content u.index = none := by
      by_contra hsome
      have hfound := env.stat_of_content u.index (Option.isSome_iff_ne_none.mpr hsome)
      rw [hst] at hfound
      cases hfound
    have hnil : pageBytes env u.index dir.size = [] := (pageBytes_eq_nil_iff dir.size).mpr hnone
    have hpage : (⟨pageBytes env u.index dir.size, []⟩ : Answer) = notFound env ↔
        env.content page404 = none := by
      rw [hnil, notFound, ← pageBytes_eq_nil_iff (size404 env)]
      exact ⟨fun heq => (Answer.mk.inj heq).1.symm, fun heq => by rw [heq]⟩
    simp only [hpage, and_self]
  | some st =>
    dsimp only
    cases hdir : st.isDir with
    | true => simp
    | false =>
      cases hexec : st.executable with
      | true => simp only [Bool.false_eq_true, if_false, if_true, and_self, cgiAnswer_iff]
      | false => simp only [Bool.false_eq_true, if_false, wholeFile_iff]

/-- The answers to the two requests are those of their routes. -/
theorem agree_iff_routes (env : Env) (u : Url) (hshown : Shown s e) : Agree env u s e ↔
    (routeOf env (ascii "GET") (u.bytes.take 254)).answer env =
        (routeOf env (ascii "GET") (u.slashed.bytes.take 254)).answer env ∧
      Wanted env u.index ((routeOf env (ascii "GET") (u.bytes.take 254)).answer env) := by
  constructor
  · rintro ⟨a, hplain, hslashed, hwanted⟩
    have ha := hplain.unique (answers_route hshown u)
    have hb := hslashed.unique (answers_route hshown u.slashed)
    exact ⟨ha.symm.trans hb, ha ▸ hwanted⟩
  · rintro ⟨hsame, hwanted⟩
    exact ⟨_, answers_route hshown u, hsame ▸ answers_route hshown u.slashed, hwanted⟩

/-- A GET for a directory without a slash and one with it get the same answer, the one that the
index page should get, exactly if the page is as described above; or if the URL is so long that
the slash is cut off, and the URL that is left happens to get this answer. -/
theorem agree_iff (h : NamesDirectory env u dir) (hshown : Shown s e) : Agree env u s e ↔
    u.bytes.length < 254 ∧ SameIndex env u dir ∨
      254 ≤ u.bytes.length ∧
        Wanted env u.index ((routeOf env (ascii "GET") (u.bytes.take 254)).answer env) := by
  rw [agree_iff_routes env u hshown]
  rcases Nat.lt_or_ge u.bytes.length 254 with hshort | hlong
  · have hlen : u.slashed.bytes.length = u.bytes.length + 1 := List.length_append
    rw [List.take_of_length_le (by omega), List.take_of_length_le (by omega), sameIndex_iff h]
    simp [hshort]
  · have hcut : u.slashed.bytes.take 254 = u.bytes.take 254 :=
      List.take_append_of_le_length hlong
    rw [hcut]
    simp [hlong]

/-! ### A directory -/

theorem directoryUrl_nonempty : ascii "/d" ≠ [] := by
  decide

theorem directoryUrl_plain : ∀ b ∈ ascii "/d", isspace b = false ∧ b ≠ 0 ∧ b ≠ 63 := by
  simp [ascii, isspace]

/-- `/d`. -/
def directoryUrl : Url := ⟨ascii "/d", directoryUrl_nonempty, directoryUrl_plain⟩

/-- The files of a system with the directory `/d` and the page for missing files, and with an
index page or none. -/
def directoryFiles (index : Option Bytes) (path : Bytes) : Option Bytes :=
  if path = ascii "wwwroot/d" then some []
  else if path = page404 then some (ascii "none")
  else if path = ascii "wwwroot/d/index.html" then index
  else none

theorem directoryFiles_stat (index : Option Bytes) (path : Bytes)
    (h : (directoryFiles index path).isSome) : ((directoryFiles index path).map fun content =>
      (⟨path == ascii "wwwroot/d", false, false, false, max 2 content.length⟩ : Stat)).isSome := by
  rwa [Option.isSome_map]

/-- A system with these files. -/
def directoryDisk (index : Option Bytes) : Env where
  stat path := (directoryFiles index path).map fun content =>
    ⟨path == ascii "wwwroot/d", false, false, false, max 2 content.length⟩
  content := directoryFiles index
  stat_of_content := directoryFiles_stat index
  pipe _ := true
  fork := true
  cgi _ _ := []

/-- The URL names a directory of this disk. -/
theorem namesDirectory_directoryDisk (index : Option Bytes) :
    NamesDirectory (directoryDisk index) directoryUrl ⟨true, false, false, false, 2⟩ where
  unslashed := by decide
  found := rfl
  isDir := rfl

/-- The end of this section can be seen. -/
theorem shown_bareSection (e : Ending) : Shown bareSection e := by
  intro h
  cases h

/-- The directory has room for the two bytes of this page. -/
theorem agree_short_page :
    Agree (directoryDisk (some (ascii "hi"))) directoryUrl bareSection .silent := by
  refine (agree_iff (namesDirectory_directoryDisk _) (shown_bareSection _)).mpr (.inl ⟨?_, ?_⟩)
  · decide
  · intro content hcontent
    obtain rfl : ascii "hi" = content := Option.some.inj hcontent
    decide

/-- Without an index page the request without a slash gets no answer. -/
theorem not_agree_without_index :
    ¬ Agree (directoryDisk none) directoryUrl bareSection (.gone .closed) := by
  rw [agree_iff_routes _ _ (shown_bareSection _)]
  rintro ⟨hsame, -⟩
  exact absurd (congrArg Answer.sent hsame) (by decide +kernel)

end NetworkCode.Httpd
