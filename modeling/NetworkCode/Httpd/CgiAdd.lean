import NetworkCode.Httpd.HeaderBoundary

/-!
# The CGI program that adds

`cgi_add` is told by `REQUEST_METHOD` where its argument is: in `QUERY_STRING`, or on its
standard input as many bytes as `CONTENT_LENGTH` says. `exec_calc` looks for the `&` of the
argument among its first `CONTENT_LENGTH` bytes, also when the argument is a query. The
server sets this variable for a POST only.
-/

namespace NetworkCode.Httpd

open Prog LineStream Text

/-! ### The program -/

/-- `getenv(name)`. -/
def getenv (environment : List Bytes) (name : Bytes) : Option Bytes :=
  (environment.find? fun entry => (name ++ [61]).isPrefixOf entry).map fun entry =>
    cstr (entry.drop (name.length + 1))

/-- The string that starts at `array[i]`, which must be terminated. -/
def stringAt (array : Bytes) (i : Nat) : Option Bytes :=
  if 0 ∈ array.drop i then some (cstr (array.drop i)) else none

/-- A signed sum that does not overflow. -/
def addInt (a b : Int) : Option Int :=
  if -2 ^ 31 ≤ a + b ∧ a + b < 2 ^ 31 then some (a + b) else none

/-- `exec_calc(arg)` for an array `arg`: what it prints, and whether it exits. There is no
result when the behaviour is undefined. -/
def execCalc (environment : List Bytes) (arg : Bytes) : Option (Bytes × Bool) := do
  if (← arg.head?) == 0 then
    return (ascii "<p>not cgi arg<br/>\n", true)
  else
    -- `atoi(NULL)` is undefined
    let clength := atoi (← getenv environment (ascii "CONTENT_LENGTH"))
    -- without an `&` among these bytes `v2` is never set
    let i ← (arg.take clength.toNat).findIdx? (· == 38)
    let arg := arg.set i 0
    let v1 ← stringAt arg 0
    let v2 ← stringAt arg (i + 1)
    let num1 := atoi (← stringAt arg 3)
    let num2 := atoi (← stringAt arg (i + 1 + 3))
    let sum ← addInt num1 num2
    return (v1 ++ ascii "<br/>\n" ++ v2 ++ ascii "<br/>\n" ++
      ascii "<p>v1+v2=" ++ ascii (toString sum) ++ ascii "<br/>\n", false)

/-- The loop that reads `n` bytes of the standard input. Behind the last byte `read` leaves
`ch` as it is, which has no value at the start. -/
def readPostData : Nat → Option UInt8 → Bytes → Option Bytes
  | 0, _, _ => some []
  | n + 1, _, b :: input => (readPostData n (some b) input).map (b :: ·)
  | n + 1, ch, [] => do
    let c ← ch
    (readPostData n ch []).map (c :: ·)

/-- The array `post_data` with this string in it. -/
def postData (s : Bytes) : Option Bytes :=
  if s.length < 1024 then some (s ++ zeros (1024 - s.length)) else none

/-- The part of `main` that fills `post_data`; `foldlM_postBranch` has its second branch with the
assignments as they are made. -/
def cgiArgument (environment : List Bytes) (method input : Bytes) : Option Bytes := do
  if sameIgnoringCase (ascii "GET") method then
    postData (← getenv environment (ascii "QUERY_STRING"))
  else
    let clength := atoi (← getenv environment (ascii "CONTENT_LENGTH"))
    postData (← readPostData clength.toNat none input)

/-- `main` of `cgi_add`: what it writes when it is started in this environment and reads this
input. There is no result when the behaviour is undefined. -/
def cgiAdd (environment : List Bytes) (input : Bytes) : Option Bytes := do
  let start := ascii "<html><br/>\n<body background=\"./pika.jpg\"><br/>"
  match getenv environment (ascii "REQUEST_METHOD") with
  | none => return start ++ ascii "<p>method error<br/>\n"
  | some method =>
    -- `strcpy` to an array of 256 bytes
    if 256 ≤ method.length then
      none
    else
      let (page, exits) ← execCalc environment (← cgiArgument environment method input)
      return if exits then start ++ page
        else start ++ page ++ ascii "</body><br/>\n</html><br/>\n"

/-! ### The program behind the server -/

/-- The bytes that an event sends to the client. -/
def Event.bytes : Event → Bytes
  | .sent bytes => bytes
  | .sentFile bytes => bytes
  | _ => []

/-- What the client has received. -/
def World.response (w : World) : Bytes := w.trace.flatMap Event.bytes

/-- The path of `cgi_add` that `HandleSock` builds. -/
def addPath : Bytes := ascii "wwwroot/cgi/cgi_add"

/-- The system runs `cgi_add` under its path. Nothing is known of its output when its
behaviour is undefined. -/
def RunsAdd (env : Env) : Prop :=
  ∀ environment input page, cgiAdd environment input = some page →
    env.cgi ⟨addPath, environment⟩ input = page

/-- Whatever the system is, if only it runs `cgi_add` under its path, `excu_cgi` answers a
client that has sent these bytes behind its request line, and takes what it is sent, with this
page of the program. -/
def AnsweredBy (method query inbox page : Bytes) : Prop :=
  ∀ env, started env = true → RunsAdd env → ∃ r w,
    (excuCgi env addPath method query).Returns (connected inbox .silent) r w ∧
      w.response = statusLine ++ page

/-- A header section that announces the length of the body behind it. -/
structure Posted extends HeaderSection where
  announces : announced (lines false toHeaderSection.stream) = further.length

variable {env : Env} {w w' : World} {path method query inbox page input : Bytes}

@[simp] theorem response_connected (inbox : Bytes) (e : Ending) :
    (connected inbox e).response = [] := rfl

/-- A client that takes everything receives what it is sent. -/
theorem response_log (hw : w.conduct = .willing) (es : List Event) :
    (w.log es).response = w.response ++ es.flatMap Event.bytes := by
  rw [World.response, log_trace, hw, Conduct.willing_kept, List.flatMap_append]
  rfl

/-- A client that takes everything still does so when lines have been read. -/
theorem Reads.willing {cs : List Bytes} (h : Reads w cs w') (hw : w.conduct = .willing) :
    w'.conduct = .willing :=
  h.conduct_eq.trans hw

/-- It lets a thread make all of its calls. -/
theorem allows_of_willing (hw : w.conduct = .willing) (es : List Event) :
    w.conduct.allows es = true := by
  rw [hw, Conduct.willing_allows]

/-- Reading lines sends nothing. -/
theorem Reads.response_eq {cs : List Bytes} (h : Reads w cs w') : w'.response = w.response := by
  obtain ⟨-, -, es, htrace, hes⟩ := h.effect
  have hnil : es.flatMap Event.bytes = [] := by
    refine List.flatMap_eq_nil_iff.mpr fun e he => ?_
    obtain ⟨_, _, rfl, -⟩ := hes.1 e he
    rfl
  rw [World.response, htrace, List.flatMap_append, hnil, List.append_nil]
  rfl

/-- The client of a CGI program receives what the program writes. -/
theorem flatMap_cgiEvents (hs : started env = true) (clength : Int) :
    (cgiEvents env path method query clength input).flatMap Event.bytes =
      statusLine ++ env.cgi ⟨path, cgiEnvironment method query clength⟩ input := by
  have hpassed : (input.map Event.passed).flatMap Event.bytes = [] := by
    rw [List.flatMap_map]
    exact List.flatMap_eq_nil_iff.mpr fun _ _ => rfl
  have hsent (output : Bytes) :
      (output.map fun ch => Event.sent [ch]).flatMap Event.bytes = output := by
    rw [List.flatMap_map]
    exact List.flatMap_singleton' output
  rw [cgiEvents_of_started hs, servedEvents, List.flatMap_append, List.flatMap_append,
    List.flatMap_append, List.flatMap_append, hpassed, hsent]
  simp [forkEvents, startEvents, endEvents, Event.bytes]

/-- A system that runs `cgi_add`, where undefined behaviour writes these bytes. -/
def addDisk (bytes : Bytes) : Env :=
  { emptyDisk with cgi := fun call input => (cgiAdd call.environment input).getD bytes }

/-- A disk on which the program is `cgi_add`. -/
theorem runsAdd_addDisk (bytes : Bytes) : RunsAdd (addDisk bytes) := by
  intro environment input page hpage
  change (cgiAdd environment input).getD bytes = page
  rw [hpage, Option.getD_some]

theorem started_addDisk (bytes : Bytes) : started (addDisk bytes) = true := rfl

/-- What every system that runs `cgi_add` writes is what `cgi_add` writes. -/
theorem cgiAdd_eq_some {environment : List Bytes}
    (h : ∀ bytes, (addDisk bytes).cgi ⟨addPath, environment⟩ input = page) :
    cgiAdd environment input = some page := by
  have hempty := h []
  have hzero := h [0]
  simp only [addDisk] at hempty hzero
  cases hadd : cgiAdd environment input with
  | none =>
    rw [hadd, Option.getD_none] at hempty hzero
    exact absurd (hempty.trans hzero.symm) (by decide)
  | some written =>
    rw [hadd, Option.getD_some] at hempty
    rw [hempty]

/-! ### The two requests -/

/-- A GET is answered by the page of a program that gets the query and no input. -/
theorem answeredBy_get_iff : AnsweredBy (ascii "GET") query inbox page ↔
    (∃ w cs, Reads (connected inbox .silent) cs w) ∧
      cgiAdd (cgiEnvironment (ascii "GET") query 0) [] = some page := by
  have hget : isGet (ascii "GET") = true := rfl
  have hresponse {env : Env} {w : World} {cs : List Bytes} (hs : started env = true)
      (hcs : Reads (connected inbox .silent) cs w) :
      (w.log (cgiEvents env addPath (ascii "GET") query 0 [])).response =
        statusLine ++ env.cgi ⟨addPath, cgiEnvironment (ascii "GET") query 0⟩ [] := by
    rw [response_log (hcs.willing rfl), hcs.response_eq, flatMap_cgiEvents hs, response_connected,
      List.nil_append]
  constructor
  · intro h
    refine ⟨?_, cgiAdd_eq_some fun bytes => ?_⟩
    · obtain ⟨_, _, hret, -⟩ := h (addDisk []) (started_addDisk []) (runsAdd_addDisk [])
      obtain ⟨w, ⟨cs, hcs⟩, -⟩ := (returns_excuCgi_get hget).mp hret
      exact ⟨w, cs, hcs⟩
    · obtain ⟨_, _, hret, hpage⟩ := h _ (started_addDisk bytes) (runsAdd_addDisk bytes)
      obtain ⟨w, ⟨cs, hcs⟩, -, -, rfl⟩ := (returns_excuCgi_get hget).mp hret
      rw [hresponse (started_addDisk bytes) hcs] at hpage
      exact List.append_cancel_left hpage
  · rintro ⟨⟨w, cs, hcs⟩, hadd⟩ env hs hruns
    have hallows := allows_of_willing (hcs.willing rfl)
      (cgiEvents env addPath (ascii "GET") query 0 [])
    refine ⟨_, _, (returns_excuCgi_get hget).mpr ⟨w, ⟨cs, hcs⟩, hallows, rfl, rfl⟩, ?_⟩
    rw [hresponse hs hcs, hruns _ _ _ hadd]

/-- A drain that stops behind the header section leaves the body. -/
theorem StopsBehind.inbox_eq {s : HeaderSection} {e : Ending} {cs : List Bytes}
    (h : StopsBehind s e) (hcs : Reads (connected s.stream e) cs w) : w.inbox = s.further := by
  obtain ⟨ts, hts⟩ := exists_reads_iff.mp ⟨cs, w, hcs, rfl⟩
  exact (skipsTimes_one_iff.mpr ⟨ts, hts⟩).unique (stopsBehind_iff_skips.mp h)

/-- A body of the announced length is handed over as it is. -/
theorem bodyBytes_length (ch : UInt8) (body : Bytes) : bodyBytes body.length ch body = body := by
  induction body generalizing ch with
  | nil => rfl
  | cons b body ih => rw [List.length_cons, bodyBytes, ih]

/-- A POST with a body is handed to the program. -/
theorem returns_excuCgi_posted {post : Posted} {r : Int} (hs : started env = true)
    (hstops : StopsBehind post.toHeaderSection .silent) (hne : post.further ≠ []) :
    (excuCgi env path (ascii "POST") query).Returns (connected post.stream .silent) r w ↔
      ∃ w₁, (∃ cs, Reads (connected post.stream .silent) cs w₁) ∧ r = 0 ∧
        w = (w₁.skip post.further.length).log
          (cgiEvents env path (ascii "POST") query post.further.length post.further) := by
  have hlength {w₁ : World} {cs : List Bytes} (hcs : Reads (connected post.stream .silent) cs w₁) :
      seenLength cs = post.further.length ∧ w₁.inbox = post.further ∧
        bodyLength env (ascii "POST") post.further.length = post.further.length := by
    refine ⟨hcs.seenLength_eq.trans post.announces, hstops.inbox_eq hcs, ?_⟩
    rw [bodyLength, hs]
    rfl
  have hpos : (post.further.length : Int) ≠ 0 := by simpa using hne
  rw [returns_excuCgi_post rfl]
  constructor
  · rintro ⟨w₁, cs, hcs, hrun⟩
    obtain ⟨hseen, hinbox, hbody⟩ := hlength hcs
    rw [hseen, if_neg hpos, returns_runCgi, hinbox, hbody, bodyBytes_length, hs] at hrun
    obtain ⟨-, -, hr, hw⟩ := hrun
    exact ⟨w₁, ⟨cs, hcs⟩, hr, hw⟩
  · rintro ⟨w₁, ⟨cs, hcs⟩, hr, hw⟩
    obtain ⟨hseen, hinbox, hbody⟩ := hlength hcs
    refine ⟨w₁, cs, hcs, ?_⟩
    rw [hseen, if_neg hpos, returns_runCgi, hinbox, hbody, bodyBytes_length, hs]
    exact ⟨fun _ => le_rfl, allows_of_willing (hcs.willing rfl) _, hr, hw⟩

/-- A POST with a body is answered by the page of a program that gets the body as its input
and its length in the environment. -/
theorem answeredBy_post_iff {post : Posted} (hstops : StopsBehind post.toHeaderSection .silent)
    (hne : post.further ≠ []) : AnsweredBy (ascii "POST") query post.stream page ↔
      cgiAdd (cgiEnvironment (ascii "POST") query post.further.length) post.further =
        some page := by
  have hresponse {env : Env} {w : World} {cs : List Bytes} (hs : started env = true)
      (hcs : Reads (connected post.stream .silent) cs w) :
      ((w.skip post.further.length).log
        (cgiEvents env addPath (ascii "POST") query post.further.length post.further)).response =
          statusLine ++ env.cgi
            ⟨addPath, cgiEnvironment (ascii "POST") query post.further.length⟩ post.further := by
    have hnil : (w.skip post.further.length).response = [] := hcs.response_eq
    have hwilling : (w.skip post.further.length).conduct = .willing := hcs.willing rfl
    rw [response_log hwilling, hnil, flatMap_cgiEvents hs, List.nil_append]
  constructor
  · intro h
    refine cgiAdd_eq_some fun bytes => ?_
    have hs := started_addDisk bytes
    obtain ⟨_, _, hret, hpage⟩ := h _ hs (runsAdd_addDisk bytes)
    obtain ⟨w, ⟨cs, hcs⟩, -, rfl⟩ := (returns_excuCgi_posted hs hstops hne).mp hret
    rw [hresponse hs hcs] at hpage
    exact List.append_cancel_left hpage
  · intro hadd env hs hruns
    have ⟨w, hw, _⟩ := hstops
    obtain ⟨cs, hcs⟩ := returns_cleanHander.mp hw
    refine ⟨_, _, (returns_excuCgi_posted hs hstops hne).mpr ⟨w, ⟨cs, hcs⟩, rfl, rfl⟩, ?_⟩
    rw [hresponse hs hcs, hruns _ _ _ hadd]

/-- A POST without a body is not answered by the program. -/
theorem not_answeredBy_post {post : Posted} (hnil : post.further = []) :
    ¬ AnsweredBy (ascii "POST") query post.stream page := by
  intro h
  have hget : isGet (ascii "POST") = false := rfl
  obtain ⟨_, _, hret, hpage⟩ := h (addDisk []) (started_addDisk []) (runsAdd_addDisk [])
  obtain ⟨w, cs, hcs, hrest⟩ := (returns_excuCgi_post hget).mp hret
  have hzero : seenLength cs = 0 := by
    rw [hcs.seenLength_eq]
    exact post.announces.trans (by rw [hnil]; rfl)
  rw [if_pos hzero] at hrest
  obtain ⟨⟨_, hcode⟩, -⟩ := hrest
  obtain ⟨w', ⟨cs', hcs'⟩, -, -, rfl⟩ := returns_echoCode.mp hcode
  have hw : w.conduct = .willing := hcs.willing rfl
  have hw' : w'.conduct = .willing := hcs'.willing (by rw [log_conduct, hw]; rfl)
  -- there is no page to send
  rw [response_log hw', hcs'.response_eq, response_log hw, hcs.response_eq] at hpage
  exact absurd hpage (by simp [pageEvents, addDisk, emptyDisk, Event.bytes, statusLine, ascii])

/-- The environment of a GET. -/
theorem getenv_get (query : Bytes) (clength : Int) :
    getenv (cgiEnvironment (ascii "GET") query clength) (ascii "REQUEST_METHOD") =
        some (ascii "GET") ∧
      getenv (cgiEnvironment (ascii "GET") query clength) (ascii "QUERY_STRING") =
        some (cstr query) ∧
      getenv (cgiEnvironment (ascii "GET") query clength) (ascii "CONTENT_LENGTH") = none := by
  refine ⟨rfl, rfl, rfl⟩

/-- `exec_calc` needs `CONTENT_LENGTH` for every argument that is not empty. -/
theorem execCalc_eq_none {environment : List Bytes} {c : UInt8} {arg : Bytes} (hc : c ≠ 0)
    (h : getenv environment (ascii "CONTENT_LENGTH") = none) :
    execCalc environment (c :: arg) = none := by
  simp [execCalc, hc, h]

/-- `cgi_add` is undefined when `exec_calc` is for its argument. -/
theorem cgiAdd_eq_none {environment : List Bytes}
    (hmethod : getenv environment (ascii "REQUEST_METHOD") = some method)
    (h : ∀ arg, cgiArgument environment method input = some arg →
      execCalc environment arg = none) : cgiAdd environment input = none := by
  cases harg : cgiArgument environment method input with
  | none => simp [cgiAdd, hmethod, harg]
  | some arg => simp [cgiAdd, hmethod, harg, h arg harg]

/-- Behind a GET `cgi_add` is defined only without an argument. -/
theorem cstr_eq_nil_of_cgiAdd {clength : Int}
    (h : cgiAdd (cgiEnvironment (ascii "GET") query clength) input = some page) :
    cstr query = [] := by
  obtain ⟨hmethod, hquery, hlength⟩ := getenv_get query clength
  by_contra hne
  obtain ⟨c, rest, htext⟩ := List.exists_cons_of_ne_nil hne
  have hc : c ≠ 0 := by
    have hmem : c ∈ cstr query := htext ▸ List.mem_cons_self
    simpa using List.mem_takeWhile_imp hmem
  have hnone : cgiAdd (cgiEnvironment (ascii "GET") query clength) input = none := by
    refine cgiAdd_eq_none hmethod fun arg harg => ?_
    have hget : sameIgnoringCase (ascii "GET") (ascii "GET") = true := rfl
    have hpost : postData (c :: rest) = some arg := by
      rw [← htext]
      simpa [cgiArgument, hquery, hget] using harg
    unfold postData at hpost
    split at hpost
    · cases hpost
      exact execCalc_eq_none hc hlength
    · cases hpost
  rw [hnone] at h
  cases h

example : cgiAdd (cgiEnvironment (ascii "GET") [] 0) [] =
    some (ascii ("<html><br/>\n<body background=\"./pika.jpg\"><br/>" ++
      "<p>not cgi arg<br/>\n")) := by
  decide +kernel

/-- No page is the answer both to the GET of an argument and to its POST: behind a GET
`exec_calc` has no `CONTENT_LENGTH`, and the POST of an empty argument does not reach it. -/
theorem no_common_page (get : HeaderSection) (post : Posted) (query : Bytes)
    (hnul : 0 ∉ post.further) :
    ¬ ∃ page, AnsweredBy (ascii "GET") post.further get.stream page ∧
      AnsweredBy (ascii "POST") query post.stream page := by
  rintro ⟨page, hget, hpost⟩
  have htext : cstr post.further = post.further :=
    List.takeWhile_eq_self_iff.mpr fun c hc => by simpa using fun he : c = 0 => hnul (he ▸ hc)
  have hnil := cstr_eq_nil_of_cgiAdd (answeredBy_get_iff.mp hget).2
  rw [htext] at hnil
  exact not_answeredBy_post hnil hpost

/-- A section without headers. -/
theorem wellEnded_bare : WellEnded [emptyLine .crlf] [] :=
  ⟨fun h => absurd h (by decide), trivial⟩

/-- A header section without a header line. -/
def bareSection : HeaderSection where
  headers := []
  blank := .crlf
  further := []
  nonempty := List.forall_mem_nil _
  ended := wellEnded_bare

/-- The POST of the argument `v1=1&v2=2`. -/
def addPost : Posted where
  headers := [{ text := ascii "Content-Length: 9", eol := .crlf, plain := by decide }]
  blank := .crlf
  further := ascii "v1=1&v2=2"
  nonempty := by decide
  ended := ⟨fun h => absurd h (by decide), fun h => absurd h (by decide), trivial⟩
  announces := by decide +kernel

/-- The page for the argument `v1=1&v2=2`. -/
def addPage : Bytes := ascii ("<html><br/>\n<body background=\"./pika.jpg\"><br/>" ++
  "v1=1<br/>\nv2=2<br/>\n<p>v1+v2=3<br/>\n</body><br/>\n</html><br/>\n")

/-- The GET and the POST of these numbers have no common page. -/
theorem no_common_page_addPost : 0 ∉ addPost.further ∧
    ¬ ∃ page, AnsweredBy (ascii "GET") addPost.further bareSection.stream page ∧
      AnsweredBy (ascii "POST") (ascii "/cgi/cgi_add") addPost.stream page :=
  have hnul : 0 ∉ addPost.further := by decide
  ⟨hnul, no_common_page bareSection addPost (ascii "/cgi/cgi_add") hnul⟩

/-- The POST of `v1=1&v2=2` is answered by the page with the sum, the GET by no page. -/
theorem sum_for_post_only :
    AnsweredBy (ascii "POST") (ascii "/cgi/cgi_add") addPost.stream addPage ∧
      ∀ page, ¬ AnsweredBy (ascii "GET") (ascii "v1=1&v2=2") bareSection.stream page := by
  constructor
  · have hstops : StopsBehind addPost.toHeaderSection .silent := by
      refine (cleanHander_stops_iff _ _).mpr ⟨by decide, fun h => ?_⟩
      exact absurd h.2.2 (by decide)
    rw [answeredBy_post_iff hstops (by decide)]
    decide +kernel
  · intro page h
    have htext := cstr_eq_nil_of_cgiAdd (answeredBy_get_iff.mp h).2
    exact absurd htext (by decide)

end NetworkCode.Httpd
