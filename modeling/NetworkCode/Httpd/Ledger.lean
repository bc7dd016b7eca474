import NetworkCode.Core.Holding
import NetworkCode.Core.Triple
import NetworkCode.Httpd.Emits
import NetworkCode.Httpd.Serving

/-!
# The descriptors of a thread

A thread starts with the socket of its connection. Whatever the client sends and the system
answers, and however far the thread comes, it opens no descriptor twice and closes only what
it has opened and not closed yet. Behind `HandleSock` the descriptors that are still open
are known from the route: the socket of a request with another method than GET and POST, and the
ends of the pipes that were made before `pipe` or `fork` failed.
-/

namespace NetworkCode.Httpd

open Prog Text

/-- What an event does to the descriptors of the thread. -/
def Event.use : Event → Option (Use Descriptor)
  | .opened d => some (.acquire d)
  | .closed d => some (.release d)
  | _ => none

/-- The descriptors that are open behind these events of a thread. -/
def ledger (es : List Event) : Option (List Descriptor) :=
  settle [.sock] (es.filterMap Event.use)

/-- The descriptors `ds` are open. -/
def Holds (ds : List Descriptor) (w : World) : Prop := ledger w.trace = some ds

/-- Nothing was opened twice, and nothing was closed that was not open. -/
def Balanced (w : World) : Prop := (ledger w.trace).isSome = true

variable {env : Env} {ds : List Descriptor} {d : Descriptor} {path method query url buf : Bytes}
  {w w' : World} {es : List Event} {α : Type}

/-- A thread that holds what it should has closed nothing twice. -/
theorem Holds.balanced (h : Holds ds w) : Balanced w := by
  rw [Balanced, h]
  rfl

/-- Calls that use no descriptor leave the ledger. -/
theorem ledger_append (hes : ∀ e ∈ es, e.use = none) (tr : List Event) :
    ledger (tr ++ es) = ledger tr := by
  rw [ledger, List.filterMap_append, List.filterMap_eq_nil_iff.mpr hes, List.append_nil]
  rfl

/-- The calls of `get_line` do not matter. -/
theorem ledger_filter (tr : List Event) :
    ledger (tr.filter fun e => !e.isLine) = ledger tr := by
  rw [ledger, ledger, List.filterMap_filter]
  congr 2
  funext e
  cases e <;> rfl

/-! ### Safety -/

/-- A program that opens and closes nothing keeps what is open. -/
theorem triple_of_emits {p : Prog World α} (h : Emits p fun e => e.use = none) :
    Triple (Holds ds) Balanced p fun _ => Holds ds := by
  refine Triple.of_keeps (fun w hw n => ?_) fun _ => Holds.balanced
  obtain ⟨es, htrace, hes⟩ := h.exists_events n w
  rw [Holds, htrace, ledger_append hes]
  exact hw

/-- A value opens and closes nothing. -/
theorem triple_pure {a : α} : Triple (Holds ds) Balanced (pure a) fun _ => Holds ds :=
  triple_of_emits emits_pure

/-- A call that uses no descriptor. -/
theorem triple_record {e : Event} (h : e.use = none) :
    Triple (Holds ds) Balanced (record e) fun _ => Holds ds :=
  triple_of_emits (emits_record h)

/-- A call that opens and closes nothing may fail or never return. -/
theorem triple_attempt {e : Event} (h : e.use = none) :
    Triple (Holds ds) Balanced (attempt e) fun _ => Holds ds :=
  triple_of_emits (emits_attempt h)

/-- An event that uses a descriptor. -/
theorem triple_use {e : Event} {u : Use Descriptor} {left : List Descriptor}
    (he : e.use = some u) (hu : u.settle ds = some left) :
    Triple (Holds ds) Balanced (record e) fun _ => Holds left := by
  have hstep (w : World) (hw : Holds ds w) : Holds left { w with trace := w.trace ++ [e] } := by
    rw [Holds, ledger, List.filterMap_append, List.filterMap_cons_some he, List.filterMap_nil,
      settle_snoc hw, hu]
  exact Triple.modify (fun w hw => (hstep w hw).balanced) hstep

/-- A call that opens a descriptor which is not open. -/
theorem triple_opened (h : d ∉ ds) :
    Triple (Holds ds) Balanced (record (.opened d)) fun _ => Holds (d :: ds) :=
  triple_use rfl (Use.settle_acquire.mpr ⟨h, rfl⟩)

/-- `close` of a descriptor that is open. -/
theorem triple_close (h : d ∈ ds) :
    Triple (Holds ds) Balanced (close d) fun _ => Holds (ds.erase d) :=
  triple_use rfl (Use.settle_release.mpr ⟨h, rfl⟩)

/-- `clean_hander` opens and closes nothing. -/
theorem triple_cleanHander : Triple (Holds ds) Balanced cleanHander fun _ => Holds ds :=
  triple_of_emits (emits_cleanHander fun _ _ => rfl)

/-- A file that was opened is open. -/
theorem triple_openFile (h : .file ∉ ds) : Triple (Holds ds) Balanced (openFile env path)
    fun file => Holds (if file.isSome then .file :: ds else ds) := by
  refine (triple_record rfl).bind fun _ => ?_
  cases env.content path with
  | none => exact Triple.pure (fun _ h => h.balanced) fun _ h => h
  | some content =>
    exact (triple_opened h).bind fun _ => Triple.pure (fun _ h => h.balanced) fun _ h => h

/-- The file that was opened last is closed. -/
theorem triple_closeFile :
    Triple (Holds (.file :: ds)) Balanced (close .file) fun _ => Holds ds := by
  refine (triple_close (List.mem_cons_self ..)).consequence (fun _ h => h) fun _ w hw => ?_
  rwa [List.erase_cons_head] at hw

/-- `echo_code` closes the file that it opens. -/
theorem triple_echoCode (h : .file ∉ ds) :
    Triple (Holds ds) Balanced (echoCode env) fun _ => Holds ds := by
  have hstat : Triple (Holds ds) Balanced (stat env page404) fun _ => Holds ds :=
    (triple_record rfl).bind fun _ => triple_pure
  refine hstat.bind fun st => triple_cleanHander.bind fun _ => ?_
  refine (triple_openFile h).bind fun file => ?_
  cases file with
  | none => exact triple_pure
  | some content =>
    refine Triple.bind (triple_attempt rfl) fun _ => ?_
    have hclose : Triple (Holds (.file :: ds)) Balanced
        (do close .file; return 0 : Prog World Int) fun _ => Holds ds :=
      triple_closeFile.bind fun _ => triple_pure
    cases st with
    | none => exact (triple_of_emits emits_undefinedBehaviour).bind fun _ => hclose
    | some st => exact Triple.bind (triple_attempt rfl) fun _ => hclose

/-- `echo_html` closes the file that it opens. -/
theorem triple_echoHtml {size : Nat} (h : .file ∉ ds) :
    Triple (Holds ds) Balanced (echoHtml env path size) fun _ => Holds ds := by
  refine triple_cleanHander.bind fun _ => (triple_openFile h).bind fun file => ?_
  cases file with
  | none => exact triple_pure
  | some content =>
    refine Triple.bind (triple_attempt rfl) fun _ => ?_
    exact Triple.bind (triple_attempt rfl) fun _ => triple_closeFile

/-- The ends of a pipe, the write end on top. -/
def pipeEnds (p : Pipe) : List Descriptor := [.writeEnd p, .readEnd p]

/-- `pipe` opens both ends or none. -/
theorem triple_pipe {p : Pipe} (hr : .readEnd p ∉ ds) (hw : .writeEnd p ∉ ds) :
    Triple (Holds ds) Balanced (pipe env p)
      fun made => Holds (if made then pipeEnds p ++ ds else ds) := by
  unfold pipe
  split
  · have hmore : .writeEnd p ∉ Descriptor.readEnd p :: ds :=
      List.not_mem_cons_of_ne_of_not_mem (by simp) hw
    refine (triple_opened hr).bind fun _ => (triple_opened hmore).bind fun _ => ?_
    exact Triple.pure (fun _ h => h.balanced) fun _ h => h
  · exact Triple.pure (fun _ h => h.balanced) fun _ h => h

/-- Handing on the body opens and closes nothing. -/
theorem triple_cgiInput {clength : Int} :
    Triple (Holds ds) Balanced (cgiInput method clength) fun _ => Holds ds := by
  have hbyte (v : BodyVars) : Emits (forwardByte v) fun e => e.use = none :=
    Emits.bind emits_recv fun _ =>
      (emits_attempt (E := fun e => e.use = none) rfl).bind fun _ => emits_pure
  have hbody : Emits (forwardBody clength) fun e => e.use = none :=
    (Emits.whileLoop (fun _ => emits_pure) hbyte _).bind fun _ => emits_pure
  unfold cgiInput
  split
  · exact triple_of_emits hbody
  · exact triple_pure

/-- Handing on the output opens and closes nothing. -/
theorem triple_forwardOutput {output : Bytes} :
    Triple (Holds ds) Balanced (forwardOutput output) fun _ => Holds ds := by
  induction output with
  | nil => exact triple_attempt rfl
  | cons ch output ih => exact Triple.bind (triple_attempt rfl) fun _ => ih

/-- The four ends of both pipes are closed. -/
theorem triple_fatherProc {clength : Int} :
    Triple (Holds (pipeEnds .cgiOut ++ (pipeEnds .cgiIn ++ ds))) Balanced
      (fatherProc env path method query clength) fun _ => Holds ds := by
  refine (triple_record rfl).bind fun _ => ?_
  refine (triple_close (by simp [pipeEnds])).bind fun _ => ?_
  refine (triple_close (by simp [pipeEnds])).bind fun _ => ?_
  refine triple_cgiInput.bind fun _ => triple_forwardOutput.bind fun _ => ?_
  refine (triple_close (by simp [pipeEnds])).bind fun _ => ?_
  refine (triple_close (by simp [pipeEnds])).bind fun _ => ?_
  refine Triple.bind (triple_attempt rfl) fun _ => ?_
  refine triple_pure.consequence (fun w hw => ?_) fun _ _ h => h
  simpa [pipeEnds] using hw

/-- What `excu_cgi` leaves open contains what was open before. -/
def Covers (ds : List Descriptor) (w : World) : Prop := ∃ more, Holds (more ++ ds) w

/-- A thread that holds just these descriptors holds them. -/
theorem Holds.covers (h : Holds ds w) : Covers ds w := ⟨[], h⟩

/-- Running a program may leave pipe ends open. -/
theorem triple_runCgi {clength : Int} (h : ∀ p, .readEnd p ∉ ds ∧ .writeEnd p ∉ ds) :
    Triple (Holds ds) Balanced (runCgi env path method query clength) fun _ => Covers ds := by
  have hout : .readEnd .cgiOut ∉ pipeEnds .cgiIn ++ ds ∧
      .writeEnd .cgiOut ∉ pipeEnds .cgiIn ++ ds := by
    simp [pipeEnds, h]
  refine Triple.bind (triple_attempt rfl) fun _ => ?_
  refine (triple_pipe (h .cgiIn).1 (h .cgiIn).2).bind fun made => ?_
  cases made with
  | false => exact Triple.pure (fun _ hw => hw.balanced) fun _ hw => hw.covers
  | true =>
    refine (triple_pipe hout.1 hout.2).bind fun made => ?_
    cases made with
    | false => exact Triple.pure (fun _ hw => hw.balanced) fun _ hw => ⟨_, hw⟩
    | true =>
      simp only [Bool.not_true, Bool.false_eq_true, if_false, if_true]
      split
      · refine Triple.pure (fun _ hw => hw.balanced) fun w hw => ?_
        rw [← List.append_assoc] at hw
        exact ⟨_, hw⟩
      · exact triple_fatherProc.consequence (fun _ hw => hw) fun _ _ hw => hw.covers

/-- `excu_cgi` may leave pipe ends open. -/
theorem triple_excuCgi (hfile : .file ∉ ds) (h : ∀ p, .readEnd p ∉ ds ∧ .writeEnd p ∉ ds) :
    Triple (Holds ds) Balanced (excuCgi env path method query) fun _ => Covers ds := by
  unfold excuCgi
  split
  · exact triple_cleanHander.bind fun _ => triple_runCgi h
  · have hheaders : Triple (Holds ds) Balanced readHeaders fun _ => Holds ds :=
      triple_of_emits (emits_readHeaders fun _ _ => rfl)
    refine hheaders.bind fun clength => ?_
    split
    · refine (triple_echoCode hfile).bind fun _ => ?_
      exact Triple.pure (fun _ hw => hw.balanced) fun _ hw => hw.covers
    · exact triple_runCgi h

/-- The socket is closed behind what the other functions left open. -/
theorem triple_closeSock : Triple (Covers [.sock]) Balanced (close .sock) fun _ => Balanced := by
  rintro w ⟨more, hw⟩
  have hclose : Triple (Holds (more ++ [.sock])) Balanced (close .sock) _ :=
    triple_close (List.mem_append_right _ List.mem_cons_self)
  exact ⟨(hclose w hw).1, fun r w' h => ((hclose w hw).2 r w' h).balanced⟩

/-- Serving a file closes nothing twice. -/
theorem triple_serveFile {start : Nat} {cgi : Bool} : Triple (Holds [.sock]) Balanced
    (serveFile env method url start cgi) fun _ => Balanced := by
  have hstat {path : Bytes} :
      Triple (Holds [.sock]) Balanced (stat env path) fun _ => Holds [.sock] :=
    (triple_record rfl).bind fun _ => triple_pure
  refine (triple_of_emits emits_buildPath).bind fun path => hstat.bind fun st => ?_
  suffices hanswer : Triple (Holds [.sock]) Balanced (answerFile env method url start cgi path st)
      fun _ => Covers [.sock] from
    hanswer.bind fun _ => triple_closeSock.bind fun _ => Triple.pure (fun _ h => h) fun _ h => h
  have hcovers {w : World} (hw : Holds [.sock] w) : Covers [.sock] w := hw.covers
  cases st with
  | none =>
    refine (triple_echoCode (by simp)).bind fun _ => ?_
    exact triple_cleanHander.consequence (fun _ hw => hw) fun _ _ hw => hcovers hw
  | some st =>
    have hindex : Triple (Holds [.sock]) Balanced (indexPath st path) fun _ => Holds [.sock] := by
      apply triple_of_emits
      unfold indexPath
      split
      · exact emits_fit
      · exact emits_pure
    refine hindex.bind fun path => ?_
    dsimp only
    split
    · refine (triple_of_emits emits_cString).bind fun query => ?_
      refine (triple_excuCgi (by simp) (by simp)).bind fun _ => ?_
      exact Triple.of_keeps (fun w hw => keeps_pure w hw) fun _ ⟨_, hw⟩ => hw.balanced
    · exact (triple_echoHtml (by simp)).consequence (fun _ hw => hw) fun _ _ hw => hcovers hw

/-- What is behind the request line closes nothing twice. -/
theorem triple_serve :
    Triple (Holds [.sock]) Balanced (serve env method url) fun _ => Balanced := by
  refine (triple_of_emits emits_cString).bind fun method => ?_
  split
  · refine (triple_echoCode (by simp)).bind fun _ => ?_
    exact Triple.pure (fun _ hw => hw.balanced) fun _ hw => hw.balanced
  · dsimp only
    split
    · exact (triple_of_emits emits_cutQuery).bind fun v => triple_serveFile
    · exact triple_serveFile

/-- Whatever the client sends and the system answers, and however far `HandleSock` runs, it opens
no descriptor that is open and closes none that is not. -/
theorem balanced_handleSock (env : Env) (inbox : Bytes) (e : Ending) (c : Conduct) :
    (handleSock env).Always (connected inbox e c) Balanced := by
  have hrequest : Triple (Holds [.sock]) Balanced readRequest fun _ => Holds [.sock] :=
    triple_of_emits (emits_readRequest fun _ _ => rfl)
  exact (hrequest.bind (fun r => triple_serve) (connected inbox e c) rfl).1

/-! ### What stays open -/

/-- The ends of pipes that a CGI program that is not started leaves open. -/
def pipesLeft (env : Env) : List Descriptor :=
  if started env then []
  else if env.pipe .cgiIn && env.pipe .cgiOut then pipeEnds .cgiOut ++ pipeEnds .cgiIn
  else if env.pipe .cgiIn then pipeEnds .cgiIn
  else []

/-- The descriptors that are still open behind `HandleSock` on a route, with these lines ahead. -/
def leftOpen (env : Env) (texts : List Bytes) : Route → List Descriptor
  | .unsupported => [.sock]
  | .cgi _ _ method _ =>
    if !isGet method && announced texts == 0 then [] else pipesLeft env
  | .missing _ => []
  | .page _ _ _ => []

/-- The uses of descriptors for a page. -/
theorem filterMap_pageEvents (size : Nat) : (pageEvents env path size).filterMap Event.use =
    if (env.content path).isSome then [.acquire .file, .release .file] else [] := by
  unfold pageEvents
  cases env.content path <;> rfl

/-- A page that was sent is closed. -/
theorem settle_page (h : .file ∉ ds) (size : Nat) :
    settle ds ((pageEvents env path size).filterMap Event.use) = some ds := by
  rw [filterMap_pageEvents]
  split
  · simp [settle, Use.settle, h]
  · rfl

/-- The uses of descriptors behind a program that was started. -/
theorem filterMap_servedEvents {clength : Int} (input : Bytes) :
    (servedEvents env path method query clength input).filterMap Event.use =
      [.release (.readEnd .cgiIn), .release (.writeEnd .cgiOut), .release (.writeEnd .cgiIn),
        .release (.readEnd .cgiOut)] := by
  have hpassed (bs : Bytes) : (bs.map Event.passed).filterMap Event.use = [] :=
    List.filterMap_eq_nil_iff.mpr (by simp [Event.use])
  have hsent (bs : Bytes) : (bs.map fun ch => Event.sent [ch]).filterMap Event.use = [] :=
    List.filterMap_eq_nil_iff.mpr (by simp [Event.use])
  rw [servedEvents, List.filterMap_append, List.filterMap_append, List.filterMap_append, hpassed,
    hsent]
  rfl

/-- A call that fails opened and closed nothing. -/
theorem ledger_kept {c : Conduct} (es : List Event) : ledger (c.kept es) = ledger es := by
  rw [ledger, ledger, Conduct.filterMap_kept]
  intro e he
  cases e <;> first | rfl | cases he

/-- A CGI program that is started leaves nothing open; otherwise the pipes that were made stay. -/
theorem settle_cgi {clength : Int} (input : Bytes) :
    settle [.sock] ((cgiEvents env path method query clength input).filterMap Event.use) =
      some (pipesLeft env ++ [.sock]) := by
  unfold cgiEvents pipesLeft started
  cases env.pipe .cgiIn with
  | false => rfl
  | true =>
    cases env.pipe .cgiOut with
    | false => rfl
    | true =>
      cases env.fork with
      | false => rfl
      | true =>
        change settle [.sock] (.acquire (.readEnd .cgiIn) :: .acquire (.writeEnd .cgiIn) ::
          .acquire (.readEnd .cgiOut) :: .acquire (.writeEnd .cgiOut) ::
            (servedEvents env path method query clength input).filterMap Event.use) = _
        rw [filterMap_servedEvents]
        rfl

/-- The events of a route leave open what the route is known for. -/
theorem ledger_routeEvents (texts : List Bytes) (input : Bytes) (route : Route) :
    ledger (routeEvents env texts input route) =
      some (leftOpen env texts route) := by
  have hcode : settle [.sock] ((codeEvents env).filterMap Event.use) = some [.sock] :=
    settle_page (by simp) _
  have hclose {es : List Event} (more : List Descriptor)
      (h : settle [.sock] (es.filterMap Event.use) = some (more ++ [.sock]))
      (hmore : .sock ∉ more) : ledger (es ++ [.closed .sock]) = some more := by
    have hsock : [Event.closed .sock].filterMap Event.use = [.release .sock] := rfl
    rw [ledger, List.filterMap_append, hsock, settle_snoc h, Use.settle_release]
    refine ⟨List.mem_append_right _ List.mem_cons_self, ?_⟩
    rw [List.erase_append_right _ hmore, List.erase_cons_head, List.append_nil]
  have hpipes : .sock ∉ pipesLeft env := by
    unfold pipesLeft pipeEnds
    repeat' split
    all_goals simp
  cases route with
  | unsupported => exact hcode
  | missing asked => exact hclose [] hcode (by simp)
  | page asked path size => exact hclose [] (settle_page (by simp) size) (by simp)
  | cgi asked path method query =>
    rw [routeEvents, leftOpen]
    cases isGet method with
    | true => exact hclose _ (settle_cgi input) hpipes
    | false =>
      cases hlen : announced texts == 0 with
      | true => exact hclose [] hcode (by simp)
      | false => exact hclose _ (settle_cgi input) hpipes

/-- The descriptors that are still open behind `HandleSock`. -/
theorem ledger_of_returns {inbox : Bytes} {e : Ending} {c : Conduct} {r : Int}
    (h : (handleSock env).Returns (connected inbox e c) r w) :
    ∃ line rest, LineStream.takeChunk e.seen 1024 inbox = some (line, rest) ∧
      ledger w.trace = some (leftOpen env (LineStream.lines e.seen rest) (lineRoute env line)) := by
  obtain ⟨line, rest, hchunk, hperform⟩ := returns_handleSock.mp h
  obtain ⟨behind, hperformed⟩ := performed_of_returns hperform
  refine ⟨line, rest, hchunk, ?_⟩
  have hdoings := hperformed.doings
  have hbefore : ((connected inbox e c).afterLine rest).doings = [] := rfl
  rw [hbefore, List.nil_append] at hdoings
  rw [← ledger_filter, ← World.doings, hdoings, ledger_kept, servingEvents, ledger_routeEvents]
  rfl

/-- On every connection, whatever the client and the CGI program do, `HandleSock` opens nothing
twice and closes only what is open, however far it runs. When it returns, the descriptors that are
still open are those that its route leaves. -/
theorem connection_descriptors (env : Env) (inbox : Bytes) (e : Ending) (c : Conduct) :
    (handleSock env).Always (connected inbox e c) Balanced ∧
      ∀ r w, (handleSock env).Returns (connected inbox e c) r w →
        ∃ line rest, LineStream.takeChunk e.seen 1024 inbox = some (line, rest) ∧
          ledger w.trace =
            some (leftOpen env (LineStream.lines e.seen rest) (lineRoute env line)) :=
  ⟨balanced_handleSock env inbox e c, fun _ _ h => ledger_of_returns h⟩

/-- The socket of a request with the method HEAD stays open. -/
example : ledger ((handleSock emptyDisk).run 60 (connected (ascii "HEAD /\n\n") .silent)).2.trace =
    some [.sock] := by
  decide +kernel

end NetworkCode.Httpd
