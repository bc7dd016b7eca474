import NetworkCode.Httpd.Request

/-!
# What sending a file and running a CGI program do

Behind the header section `HandleSock` sends a file, or starts a CGI program, hands it the body of
a POST and sends what it writes. Which calls this makes is known before: it terminates exactly
when the body arrives and the client and the program let each of these calls through. The father
closes the input of the program only behind its output, so a program that waits for the end of its
input is waited for.
-/

namespace NetworkCode.Httpd

open Prog LineStream Text

variable {env : Env} {w w' : World} {path method query : Bytes}

/-! ### Files -/

/-- The events of opening a file and sending its first `size` bytes. -/
def pageEvents (env : Env) (path : Bytes) (size : Nat) : List Event :=
  .openPath path :: match env.content path with
    | none => []
    | some content =>
      [.opened .file, .sent statusLine, .sentFile (content.take size), .closed .file]

/-- The size of the page that is sent when there is nothing else to send. -/
def size404 (env : Env) : Nat := ((env.stat page404).map Stat.size).getD 0

/-- `stat` makes its call. -/
theorem makes_stat : Makes (stat env path) [.stat path] (env.stat path) :=
  (makes_record rfl).bind makes_pure

/-- A file that is opened is recorded. -/
theorem makes_openFile_some {content : Bytes} (h : env.content path = some content) :
    Makes (openFile env path) [.openPath path, .opened .file] (some content) := by
  rw [openFile, h]
  exact (makes_record rfl).bind ((makes_record rfl).bind makes_pure)

/-- A file that is missing is not opened. -/
theorem makes_openFile_none (h : env.content path = none) :
    Makes (openFile env path) [.openPath path] none := by
  rw [openFile, h]
  exact (makes_record rfl).bind makes_pure

/-- `close` makes its call. -/
theorem makes_close {d : Descriptor} : Makes (close d) [.closed d] () := makes_record rfl

/-- The status line and the file are sent, and the file is closed. -/
theorem makes_sendPage {content : Bytes} {size : Nat} :
    Makes (do send statusLine; sendfile content size; close .file)
      [.sent statusLine, .sentFile (content.take size), .closed .file] () :=
  makes_attempt.bind (makes_attempt.bind makes_close)

/-- `echo_html` drains the header section and sends the file. -/
theorem returns_echoHtml {size : Nat} {r : Unit} : (echoHtml env path size).Returns w r w' ↔
    ∃ w₁, (∃ cs, Reads w cs w₁) ∧ w₁.conduct.allows (pageEvents env path size) = true ∧
      w' = w₁.log (pageEvents env path size) := by
  have hpage : Makes (openFile env path >>= fun
      | none => pure ()
      | some content => do send statusLine; sendfile content size; close .file)
      (pageEvents env path size) () := by
    rw [pageEvents]
    cases hc : env.content path with
    | none => exact (makes_openFile_none hc).bind makes_pure
    | some content => exact (makes_openFile_some hc).bind makes_sendPage
  rw [echoHtml, returns_bind]
  constructor
  · rintro ⟨_, w₁, hdrain, hrest⟩
    obtain ⟨hallows, -, rfl⟩ := (hpage _ _ _).mp hrest
    exact ⟨w₁, returns_cleanHander.mp hdrain, hallows, rfl⟩
  · rintro ⟨w₁, hcs, hallows, rfl⟩
    exact ⟨(), w₁, returns_cleanHander.mpr hcs, (hpage _ _ _).mpr ⟨hallows, rfl, rfl⟩⟩

/-- The result of `echo_code`. -/
def codeResult (env : Env) : Int := if (env.content page404).isSome then 0 else -2

/-- Behind its drain `echo_code` sends its page. -/
theorem makes_echoCode_page : Makes (openFile env page404 >>= fun
    | none => pure (-2)
    | some content => do
      send statusLine
      match env.stat page404 with
      | some st => sendfile content st.size
      | none => undefinedBehaviour
      close .file
      return (0 : Int))
    (pageEvents env page404 (size404 env)) (codeResult env) := by
  rw [pageEvents, codeResult, size404]
  cases hc : env.content page404 with
  | none => exact (makes_openFile_none hc).bind makes_pure
  | some content =>
    obtain ⟨st, hst⟩ := Option.isSome_iff_exists.mp (env.stat_of_content page404 (by simp [hc]))
    rw [hst]
    exact (makes_openFile_some hc).bind
      (makes_attempt.bind (makes_attempt.bind (makes_close.bind makes_pure)))

/-- `echo_code` drains the header section and sends its page. -/
theorem returns_echoCode {r : Int} : (echoCode env).Returns w r w' ↔
    ∃ w₁, (∃ cs, Reads (w.log [.stat page404]) cs w₁) ∧ r = codeResult env ∧
      w₁.conduct.allows (pageEvents env page404 (size404 env)) = true ∧
        w' = w₁.log (pageEvents env page404 (size404 env)) := by
  rw [echoCode, makes_stat.bind_iff, returns_bind]
  constructor
  · rintro ⟨-, _, w₁, hdrain, hrest⟩
    obtain ⟨hallows, rfl, rfl⟩ := (makes_echoCode_page _ _ _).mp hrest
    exact ⟨w₁, returns_cleanHander.mp hdrain, rfl, hallows, rfl⟩
  · rintro ⟨w₁, hcs, rfl, hallows, rfl⟩
    exact ⟨rfl, (), w₁, returns_cleanHander.mpr hcs,
      (makes_echoCode_page _ _ _).mpr ⟨hallows, rfl, rfl⟩⟩

/-! ### CGI programs -/

/-- The bytes that the body loop of `excu_cgi` hands over: what the client sent,
and then its last byte again and again. -/
def bodyBytes : Nat → UInt8 → Bytes → Bytes
  | 0, _, _ => []
  | n + 1, ch, [] => ch :: bodyBytes n ch []
  | n + 1, _, b :: inbox => b :: bodyBytes n b inbox

/-- As many bytes are handed on as were announced. -/
theorem length_bodyBytes (n : Nat) (ch : UInt8) (inbox : Bytes) :
    (bodyBytes n ch inbox).length = n := by
  induction n generalizing ch inbox with
  | zero => rfl
  | succ n ih => cases inbox <;> simp [bodyBytes, ih]

/-- What the body loop hands over is the beginning of the body exactly if the body is long
enough. -/
theorem bodyBytes_eq_take_iff {n : Nat} {ch : UInt8} {inbox : Bytes} :
    bodyBytes n ch inbox = inbox.take n ↔ n ≤ inbox.length := by
  constructor
  · intro h
    have hlen := congrArg List.length h
    rw [length_bodyBytes, List.length_take] at hlen
    omega
  · intro h
    induction n generalizing ch inbox with
    | zero => rfl
    | succ n ih =>
      cases inbox with
      | nil => cases h
      | cons b bs => rw [bodyBytes, List.take_succ_cons, ih (Nat.le_of_succ_le_succ h)]

/-- What the body of the loop does with its byte. -/
theorem makes_handOver (v : BodyVars) (ch : UInt8) :
    Makes (do feed ch; return (⟨v.i + 1, ch, v.handed ++ [ch]⟩ : BodyVars)) [.passed ch]
      ⟨v.i + 1, ch, v.handed ++ [ch]⟩ :=
  makes_attempt.bind makes_pure

/-- A byte of the body is handed over when the program takes it. -/
theorem returns_forwardByte_cons {v y : BodyVars} {b : UInt8} {bs : Bytes} {e : Ending}
    {k : Conduct} {tr : List Event} : (forwardByte v).Returns ⟨b :: bs, e, k, tr⟩ y w' ↔
      k.allows [.passed b] = true ∧ y = ⟨v.i + 1, b, v.handed ++ [b]⟩ ∧
        w' = World.log ⟨bs, e, k, tr⟩ [.passed b] := by
  have hrecv : (recv false v.ch).Returns ⟨b :: bs, e, k, tr⟩ (1, b) ⟨bs, e, k, tr⟩ :=
    returns_recv_cons.mpr ⟨rfl, rfl⟩
  rw [forwardByte, hrecv.bind_iff]
  exact makes_handOver v b _ _ _

/-- Behind the end of the connection the last byte is handed over again. -/
theorem returns_forwardByte_nil {v y : BodyVars} {e : Ending} {k : Conduct} {tr : List Event} :
    (forwardByte v).Returns ⟨[], e, k, tr⟩ y w' ↔ e.seen = true ∧
      k.allows [.passed v.ch] = true ∧ y = ⟨v.i + 1, v.ch, v.handed ++ [v.ch]⟩ ∧
        w' = World.log ⟨[], e, k, tr⟩ [.passed v.ch] := by
  rw [forwardByte, returns_bind]
  constructor
  · rintro ⟨_, _, hrecv, hrest⟩
    obtain ⟨hs, rfl, rfl⟩ := returns_recv_nil.mp hrecv
    exact ⟨hs, (makes_handOver v v.ch _ _ _).mp hrest⟩
  · rintro ⟨hs, hrest⟩
    exact ⟨_, _, returns_recv_nil.mpr ⟨hs, rfl, rfl⟩, (makes_handOver v v.ch _ _ _).mpr hrest⟩

/-- The variables of the body loop when `n` more bytes were handed over. -/
def BodyVars.behind (v : BodyVars) (n : Nat) (inbox : Bytes) : BodyVars :=
  ⟨v.i + n, (bodyBytes n v.ch inbox).getLast?.getD v.ch, v.handed ++ bodyBytes n v.ch inbox⟩

/-- The variables behind a byte that was received. -/
theorem BodyVars.behind_cons (v : BodyVars) (n : Nat) (b : UInt8) (bs : Bytes) :
    v.behind (n + 1) (b :: bs) = BodyVars.behind ⟨v.i + 1, b, v.handed ++ [b]⟩ n bs := by
  have hi : v.i + (n + 1 : Nat) = v.i + 1 + n := by omega
  simp only [BodyVars.behind, hi, bodyBytes]
  simp [List.getLast?_cons]

/-- The variables behind the end of what is received: the last byte is handed on again. -/
theorem BodyVars.behind_nil (v : BodyVars) (n : Nat) :
    v.behind (n + 1) [] = BodyVars.behind ⟨v.i + 1, v.ch, v.handed ++ [v.ch]⟩ n [] := by
  have hi : v.i + (n + 1 : Nat) = v.i + 1 + n := by omega
  simp only [BodyVars.behind, hi, bodyBytes]
  simp [List.getLast?_cons]

/-- Handing over a byte, and then others. -/
theorem log_passed_cons (inbox : Bytes) (e : Ending) (k : Conduct) (tr : List Event) (b : UInt8)
    (n : Nat) (bytes : Bytes) : ((World.log ⟨inbox, e, k, tr⟩ [.passed b]).skip n).log
      (bytes.map .passed) = World.log ⟨inbox.drop n, e, k, tr⟩ ((b :: bytes).map .passed) := rfl

/-- The body loop hands over as many bytes as it was told, if they arrive or the
connection ends, and the program takes them. -/
theorem returns_bodyLoop {clength : Int} {v y : BodyVars} {n : Nat}
    (hn : (clength - v.i).toNat = n) :
    (whileLoop (bodyTest clength) forwardByte v).Returns w y w' ↔
      (w.ending.seen = false → n ≤ w.inbox.length) ∧
        w.conduct.allows ((bodyBytes n v.ch w.inbox).map .passed) = true ∧
        y = v.behind n w.inbox ∧
        w' = (w.skip n).log ((bodyBytes n v.ch w.inbox).map .passed) := by
  induction n generalizing v w with
  | zero =>
    have hstop : (bodyTest clength v).Returns w false w := by
      simp only [bodyTest, returns_pure, and_true]
      simp
      omega
    rw [returns_whileLoop_of_false hstop]
    simp [BodyVars.behind, bodyBytes, World.skip]
  | succ n ih =>
    have hgo : (bodyTest clength v).Returns w true w := by
      simp only [bodyTest, returns_pure, and_true]
      simp
      omega
    rw [returns_whileLoop_of_true hgo]
    obtain ⟨inbox, e, k, tr⟩ := w
    have hrest : (clength - (v.i + 1)).toNat = n := by omega
    have hsplit (b : UInt8) (bytes : Bytes) : k.allows ((b :: bytes).map .passed) = true ↔
        k.allows [.passed b] = true ∧ (k.behind [.passed b]).allows (bytes.map .passed) = true := by
      rw [List.map_cons, ← List.singleton_append, Conduct.allows_append, Bool.and_eq_true]
    cases inbox with
    | nil =>
      simp only [returns_forwardByte_nil]
      constructor
      · rintro ⟨_, _, ⟨hs, hlets, rfl, rfl⟩, h⟩
        obtain ⟨-, hallows, rfl, rfl⟩ := (ih (v := ⟨v.i + 1, v.ch, v.handed ++ [v.ch]⟩) hrest).mp h
        rw [log_conduct, log_inbox] at hallows
        refine ⟨fun hf => ?_, (hsplit _ _).mpr ⟨hlets, hallows⟩, ?_, ?_⟩
        · rw [hs] at hf
          cases hf
        · rw [log_inbox]
          exact (BodyVars.behind_nil v n).symm
        · rw [log_inbox, log_passed_cons, List.drop_nil]
          rfl
      · rintro ⟨h, hallows, rfl, rfl⟩
        have hs : e.seen = true := by
          by_contra hs
          simpa using h (by simpa using hs)
        obtain ⟨hlets, hallows⟩ := (hsplit _ _).mp hallows
        refine ⟨_, _, ⟨hs, hlets, rfl, rfl⟩, (ih hrest).mpr ⟨?_, ?_, ?_, ?_⟩⟩
        · intro hf
          rw [log_ending] at hf
          exact absurd hs (by rw [hf]; exact Bool.false_ne_true)
        · rw [log_conduct, log_inbox]
          exact hallows
        · rw [log_inbox]
          exact BodyVars.behind_nil v n
        · rw [log_inbox, log_passed_cons, List.drop_nil]
          rfl
    | cons b bs =>
      simp only [returns_forwardByte_cons]
      constructor
      · rintro ⟨_, _, ⟨hlets, rfl, rfl⟩, h⟩
        obtain ⟨hlen, hallows, rfl, rfl⟩ := (ih (v := ⟨v.i + 1, b, v.handed ++ [b]⟩) hrest).mp h
        rw [log_conduct, log_inbox] at hallows
        refine ⟨fun hs => ?_, (hsplit _ _).mpr ⟨hlets, hallows⟩, ?_, ?_⟩
        · have hle := hlen (by rw [log_ending]; exact hs)
          rw [log_inbox] at hle
          exact Nat.succ_le_succ hle
        · rw [log_inbox]
          exact (BodyVars.behind_cons v n b bs).symm
        · rw [log_inbox, log_passed_cons]
          rfl
      · rintro ⟨hlen, hallows, rfl, rfl⟩
        obtain ⟨hlets, hallows⟩ := (hsplit _ _).mp hallows
        refine ⟨_, _, ⟨hlets, rfl, rfl⟩, (ih hrest).mpr ⟨fun hs => ?_, ?_, ?_, ?_⟩⟩
        · rw [log_ending] at hs
          rw [log_inbox]
          exact Nat.le_of_succ_le_succ (hlen hs)
        · rw [log_conduct, log_inbox]
          exact hallows
        · rw [log_inbox]
          exact BodyVars.behind_cons v n b bs
        · rw [log_inbox, log_passed_cons]
          rfl

/-- The body of a POST is handed over when enough bytes arrive or the connection ends, and the
program takes them. -/
theorem returns_forwardBody {clength : Int} {r : Bytes} : (forwardBody clength).Returns w r w' ↔
    (w.ending.seen = false → clength.toNat ≤ w.inbox.length) ∧
      w.conduct.allows ((bodyBytes clength.toNat 0 w.inbox).map .passed) = true ∧
      r = bodyBytes clength.toNat 0 w.inbox ∧
      w' = (w.skip clength.toNat).log ((bodyBytes clength.toNat 0 w.inbox).map .passed) := by
  have hloop (y : BodyVars) (t : World) :
      (whileLoop (bodyTest clength) forwardByte ⟨0, 0, []⟩).Returns w y t ↔ _ :=
    returns_bodyLoop (congrArg Int.toNat (Int.sub_zero clength))
  simp only [forwardBody, returns_bind, hloop, returns_pure]
  constructor
  · rintro ⟨_, _, ⟨hlen, hallows, rfl, rfl⟩, rfl, rfl⟩
    exact ⟨hlen, hallows, rfl, rfl⟩
  · rintro ⟨hlen, hallows, rfl, rfl⟩
    exact ⟨_, _, ⟨hlen, hallows, rfl, rfl⟩, rfl, rfl⟩

/-- What the program writes is sent byte by byte, and then its end is waited for. -/
theorem makes_forwardOutput (output : Bytes) : Makes (forwardOutput output)
    (output.map (fun ch => .sent [ch]) ++ [.outputEnded]) () := by
  induction output with
  | nil => exact makes_attempt
  | cons ch output ih => exact makes_attempt.bind ih

/-- Whether the CGI program is started. -/
def started (env : Env) : Bool := env.pipe .cgiIn && env.pipe .cgiOut && env.fork

/-- How many bytes of the body are handed to the CGI program. -/
def bodyLength (env : Env) (method : Bytes) (clength : Int) : Nat :=
  if started env && sameIgnoringCase (ascii "POST") method then clength.toNat else 0

/-- The events of starting a CGI program. -/
def startEvents (path : Bytes) : List Event :=
  [.execl path, .closed (.readEnd .cgiIn), .closed (.writeEnd .cgiOut)]

/-- The events behind the output of a CGI program: its input is closed only then. -/
def endEvents : List Event :=
  [.outputEnded, .closed (.writeEnd .cgiIn), .closed (.readEnd .cgiOut), .waited]

/-- The events of serving a started CGI program, which gets `input`. -/
def servedEvents (env : Env) (path method query : Bytes) (clength : Int) (input : Bytes) :
    List Event :=
  startEvents path ++ input.map .passed ++
    (env.cgi ⟨path, cgiEnvironment method query clength⟩ input).map (fun ch => .sent [ch]) ++
    endEvents

/-- The events of running a CGI program. -/
def cgiEvents (env : Env) (path method query : Bytes) (clength : Int) (input : Bytes) :
    List Event :=
  .sent statusLine ::
    if env.pipe .cgiIn then
      .opened (.readEnd .cgiIn) :: .opened (.writeEnd .cgiIn) ::
        if env.pipe .cgiOut then
          .opened (.readEnd .cgiOut) :: .opened (.writeEnd .cgiOut) ::
            if env.fork then servedEvents env path method query clength input else []
        else []
    else []

/-- The input of the program is handed on when it can be read, and when the program takes it. -/
theorem returns_cgiInput {clength : Int} {r : Bytes} (hs : started env = true) :
    (cgiInput method clength).Returns w r w' ↔
      (w.ending.seen = false → bodyLength env method clength ≤ w.inbox.length) ∧
        w.conduct.allows
          ((bodyBytes (bodyLength env method clength) 0 w.inbox).map .passed) = true ∧
        r = bodyBytes (bodyLength env method clength) 0 w.inbox ∧
        w' = (w.skip (bodyLength env method clength)).log
          ((bodyBytes (bodyLength env method clength) 0 w.inbox).map .passed) := by
  unfold cgiInput bodyLength
  by_cases hp : sameIgnoringCase (ascii "POST") method = true
  · simp only [hp, hs, Bool.and_self, if_true]
    exact returns_forwardBody
  · simp [hp, bodyBytes, World.skip]

/-- The father closes the input of the program behind its output, and waits for its end. -/
theorem makes_behindInput (call : CgiCall) (input : Bytes) : Makes
    (do forwardOutput (env.cgi call input); close (.writeEnd .cgiIn); close (.readEnd .cgiOut)
        waitpid; return (0 : Int))
    ((env.cgi call input).map (fun ch => .sent [ch]) ++ endEvents) 0 := by
  suffices h : Makes (do
      forwardOutput (env.cgi call input); close (.writeEnd .cgiIn); close (.readEnd .cgiOut)
      waitpid; return (0 : Int))
      ((env.cgi call input).map (fun ch => .sent [ch]) ++ [.outputEnded] ++
        [.closed (.writeEnd .cgiIn), .closed (.readEnd .cgiOut), .waited]) 0 by
    rwa [List.append_assoc] at h
  exact (makes_forwardOutput _).bind
    (makes_close.bind (makes_close.bind (makes_attempt.bind makes_pure)))

/-- In front of the input the father closes the ends of the pipes that the program has. -/
theorem makes_startCgi : Makes
    (do record (.execl path); close (.readEnd .cgiIn); close (.writeEnd .cgiOut))
    (startEvents path) () :=
  (makes_record rfl).bind (makes_close.bind makes_close)

/-- Behind calls that were made, the rest is read as before. -/
theorem log_skip_log (w : World) (es es' : List Event) (n : Nat) :
    ((w.log es).skip n).log es' = (w.skip n).log (es ++ es') := by
  rw [log_eq, log_eq, log_eq, World.skip, World.skip]
  simp

/-- Serving a started program ends when the body arrives, and the program and the client let the
father make its calls. -/
theorem returns_fatherProc {clength r : Int} (hs : started env = true) :
    (fatherProc env path method query clength).Returns w r w' ↔
      (w.ending.seen = false → bodyLength env method clength ≤ w.inbox.length) ∧
        w.conduct.allows (servedEvents env path method query clength
          (bodyBytes (bodyLength env method clength) 0 w.inbox)) = true ∧ r = 0 ∧
        w' = (w.skip (bodyLength env method clength)).log
          (servedEvents env path method query clength
            (bodyBytes (bodyLength env method clength) 0 w.inbox)) := by
  have hsplit : fatherProc env path method query clength =
      (do record (.execl path); close (.readEnd .cgiIn); close (.writeEnd .cgiOut)) >>= fun _ =>
        cgiInput method clength >>= fun input => do
          forwardOutput (env.cgi ⟨path, cgiEnvironment method query clength⟩ input)
          close (.writeEnd .cgiIn); close (.readEnd .cgiOut)
          waitpid; return (0 : Int) := by
    simp only [Prog.bind_assoc]
    rfl
  rw [hsplit, makes_startCgi.bind_iff, returns_bind]
  simp only [returns_cgiInput hs, log_inbox, log_ending, log_conduct, servedEvents,
    List.append_assoc, Conduct.allows_append, Bool.and_eq_true]
  constructor
  · rintro ⟨hstart, _, _, ⟨hlen, hpassed, rfl, rfl⟩, hrest⟩
    obtain ⟨hallows, rfl, rfl⟩ := (makes_behindInput _ _ _ _ _).mp hrest
    simp only [log_conduct, World.skip, Conduct.allows_append, Bool.and_eq_true] at hallows
    refine ⟨hlen, ⟨hstart, hpassed, hallows⟩, rfl, ?_⟩
    rw [log_skip_log, log_log, List.append_assoc]
  · rintro ⟨hlen, ⟨hstart, hpassed, hallows⟩, rfl, rfl⟩
    refine ⟨hstart, _, _, ⟨hlen, hpassed, rfl, rfl⟩, (makes_behindInput _ _ _ _ _).mpr
      ⟨?_, rfl, ?_⟩⟩
    · simp only [log_conduct, World.skip, Conduct.allows_append, Bool.and_eq_true]
      exact hallows
    · rw [log_skip_log, log_log, List.append_assoc]

/-- The events of `pipe`. -/
def pipeEvents (env : Env) (p : Pipe) : List Event :=
  if env.pipe p then [.opened (.readEnd p), .opened (.writeEnd p)] else []

/-- `pipe` makes its calls. -/
theorem makes_pipe {p : Pipe} : Makes (pipe env p) (pipeEvents env p) (env.pipe p) := by
  rw [pipe, pipeEvents]
  cases env.pipe p with
  | false => exact makes_pure
  | true => exact (makes_record rfl).bind ((makes_record rfl).bind makes_pure)

/-- `send` makes its call. -/
theorem makes_send {bytes : Bytes} : Makes (send bytes) [.sent bytes] () := makes_attempt

/-- Nothing is read when no program is started. -/
theorem makes_runCgi {clength : Int} (hs : started env = false) (input : Bytes) :
    Makes (runCgi env path method query clength)
      (cgiEvents env path method query clength input) (-1) := by
  unfold runCgi cgiEvents
  have hin := @makes_pipe env .cgiIn
  have hout := @makes_pipe env .cgiOut
  unfold pipeEvents at hin hout
  cases hpin : env.pipe .cgiIn with
  | false =>
    rw [hpin] at hin
    exact makes_send.bind (hin.bind makes_pure)
  | true =>
    rw [hpin] at hin
    cases hpout : env.pipe .cgiOut with
    | false =>
      rw [hpout] at hout
      exact makes_send.bind (hin.bind (hout.bind makes_pure))
    | true =>
      rw [hpout] at hout
      cases hfork : env.fork with
      | false => exact makes_send.bind (hin.bind (hout.bind makes_pure))
      | true => simp [started, hpin, hpout, hfork] at hs

/-- The events in front of a program that is started. -/
def forkEvents : List Event :=
  [.sent statusLine, .opened (.readEnd .cgiIn), .opened (.writeEnd .cgiIn),
    .opened (.readEnd .cgiOut), .opened (.writeEnd .cgiOut)]

/-- The program is started when both pipes and the process can be made. -/
theorem started_iff : started env = true ↔
    env.pipe .cgiIn = true ∧ env.pipe .cgiOut = true ∧ env.fork = true := by
  simp [started, and_assoc]

/-- The calls around a program that was started. -/
theorem cgiEvents_of_started {clength : Int} (hs : started env = true) (input : Bytes) :
    cgiEvents env path method query clength input =
      forkEvents ++ servedEvents env path method query clength input := by
  obtain ⟨hin, hout, hfork⟩ := started_iff.mp hs
  simp [cgiEvents, hin, hout, hfork, forkEvents]

/-- A program that is started is served behind the status line. -/
theorem returns_runCgi_of_started {clength r : Int} (hs : started env = true) :
    (runCgi env path method query clength).Returns w r w' ↔
      w.conduct.allows forkEvents = true ∧
        (fatherProc env path method query clength).Returns (w.log forkEvents) r w' := by
  obtain ⟨hin, hout, hfork⟩ := started_iff.mp hs
  have hpin := @makes_pipe env .cgiIn
  have hpout := @makes_pipe env .cgiOut
  rw [pipeEvents, hin, if_pos rfl] at hpin
  rw [pipeEvents, hout, if_pos rfl] at hpout
  have hpre : Makes (do send statusLine; let _ ← pipe env .cgiIn; pipe env .cgiOut)
      forkEvents true := makes_send.bind (hpin.bind hpout)
  have hsplit : (runCgi env path method query clength).Returns w r w' ↔
      ((do send statusLine; let _ ← pipe env .cgiIn; pipe env .cgiOut) >>= fun _ =>
        fatherProc env path method query clength).Returns w r w' := by
    rw [runCgi, makes_send.bind_iff, hpin.bind_iff, Prog.bind_assoc, makes_send.bind_iff,
      Prog.bind_assoc, hpin.bind_iff]
    rw [Bool.not_true, if_neg Bool.false_ne_true, hpout.bind_iff, hpout.bind_iff, Bool.not_true,
      if_neg Bool.false_ne_true, hfork, Bool.not_true, if_neg Bool.false_ne_true]
  rw [hsplit, hpre.bind_iff]

/-- Running a CGI program terminates when the body it is handed is available, and the client and
the program let the thread make its calls. -/
theorem returns_runCgi {clength r : Int} : (runCgi env path method query clength).Returns w r w' ↔
    (w.ending.seen = false → bodyLength env method clength ≤ w.inbox.length) ∧
      w.conduct.allows (cgiEvents env path method query clength
        (bodyBytes (bodyLength env method clength) 0 w.inbox)) = true ∧
      r = (if started env then 0 else -1) ∧
      w' = (w.skip (bodyLength env method clength)).log
        (cgiEvents env path method query clength
          (bodyBytes (bodyLength env method clength) 0 w.inbox)) := by
  cases hs : started env with
  | false =>
    have hzero : bodyLength env method clength = 0 := by simp [bodyLength, hs]
    rw [hzero, makes_runCgi hs (bodyBytes 0 0 w.inbox)]
    simp [World.skip]
  | true =>
    simp only [returns_runCgi_of_started hs, returns_fatherProc hs, cgiEvents_of_started hs,
      log_inbox, log_ending, log_conduct, log_skip_log, Conduct.allows_append, Bool.and_eq_true,
      if_true]
    constructor
    · rintro ⟨hfork, hlen, hserved, rfl, rfl⟩
      exact ⟨hlen, ⟨hfork, hserved⟩, rfl, rfl⟩
    · rintro ⟨hlen, ⟨hfork, hserved⟩, rfl, rfl⟩
      exact ⟨hfork, hlen, hserved, rfl, rfl⟩

end NetworkCode.Httpd
