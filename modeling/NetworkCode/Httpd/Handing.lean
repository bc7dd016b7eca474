import NetworkCode.Httpd.Emits
import NetworkCode.Httpd.Serving

/-!
# The paths that functions hand to the system

Every path that the server hands to `stat`, `open` or `execl` is in the trace, also
in that of a run that has not ended. Which paths a function can hand over is found
call by call. What `HandleSock` hands over besides its own page is the path built
from the URL, and the path of the index page in it.
-/

namespace NetworkCode.Httpd

open Prog LineStream Text

variable {α β : Type} {Q : Bytes → Prop} {env : Env} {buf url path method query : Bytes}

/-- The path that an event hands to the system. -/
def Event.path? : Event → Option Bytes
  | .stat p => some p
  | .openPath p => some p
  | .execl p => some p
  | _ => none

/-- A trace that goes on behind `tr`, and from there on hands over only paths with `Q`. -/
def Extends (Q : Bytes → Prop) (tr : List Event) (w : World) : Prop :=
  ∃ es, w.trace = tr ++ es ∧ ∀ e ∈ es, ∀ p, e.path? = some p → Q p

/-- All paths that a program hands over, however far it runs, have the property `Q`. -/
def Hands (p : Prog World α) (Q : Bytes → Prop) : Prop := ∀ tr, p.Keeps (Extends Q tr)

/-! ### Rules -/

variable {p : Prog World α} {f : α → Prog World β}

/-- A value hands over nothing. -/
theorem hands_pure {a : α} : Hands (pure a) Q := emits_pure

theorem hands_undefinedBehaviour : Hands (undefinedBehaviour : Prog World α) Q :=
  emits_undefinedBehaviour

/-- A sequence hands over what its parts hand over. -/
theorem Hands.bind (hp : Hands p Q) (hf : ∀ a, Hands (f a) Q) : Hands (p >>= f) Q :=
  Emits.bind hp hf

/-- The second part need only be looked at behind the first one. -/
theorem Hands.bind_of_returns (hp : Hands p Q)
    (hf : ∀ a s t, p.Returns s a t → Hands (f a) Q) : Hands (p >>= f) Q :=
  Emits.bind_of_returns hp hf

/-- A call with such a path may be recorded. -/
theorem hands_record {e : Event} (h : ∀ p, e.path? = some p → Q p) : Hands (record e) Q :=
  emits_record h

/-- An event without a path. -/
theorem hands_quiet {e : Event} (h : e.path? = none) : Hands (record e) Q :=
  hands_record fun p hp => absurd (h.symm.trans hp) (by simp)

/-- A call without a path. -/
theorem hands_attempt {e : Event} (h : e.path? = none) : Hands (attempt e) Q :=
  emits_attempt fun p hp => absurd (h.symm.trans hp) (by simp)

/-! ### Functions that hand over nothing -/

theorem hands_cString : Hands (cString buf) Q := emits_cString

theorem hands_fit {size : Nat} {s : Bytes} : Hands (fit size s) Q := emits_fit

theorem hands_cutQuery : Hands (cutQuery url) Q := emits_cutQuery

theorem hands_buildPath : Hands (buildPath url) Q := emits_buildPath

/-- A call of `get_line` hands over nothing. -/
theorem line_path (Q : Bytes → Prop) (before after : Nat) :
    ∀ p, (Event.line before after).path? = some p → Q p := by
  intro p hp
  cases hp

/-- `clean_hander` hands over no path. -/
theorem hands_cleanHander : Hands cleanHander Q := emits_cleanHander (line_path Q)

/-- The loop over the headers hands over no path. -/
theorem hands_readHeaders : Hands readHeaders Q := emits_readHeaders (line_path Q)

/-- Reading the request line hands over no path. -/
theorem hands_readRequest : Hands readRequest Q := emits_readRequest (line_path Q)

theorem hands_close {d : Descriptor} : Hands (close d) Q := hands_quiet rfl

theorem hands_send {s : Bytes} : Hands (send s) Q := hands_attempt rfl

theorem hands_sendfile {content : Bytes} {size : Nat} : Hands (sendfile content size) Q :=
  hands_attempt rfl

theorem hands_pipe {d : Pipe} : Hands (pipe env d) Q := by
  unfold pipe
  split
  · exact (hands_quiet rfl).bind fun _ => (hands_quiet rfl).bind fun _ => hands_pure
  · exact hands_pure

/-- Handing on the body hands over no path. -/
theorem hands_forwardBody {clength : Int} : Hands (forwardBody clength) Q := by
  have hbyte (v : BodyVars) : Hands (forwardByte v) Q :=
    Emits.bind emits_recv fun _ => (hands_attempt rfl).bind fun _ => hands_pure
  exact Hands.bind (Emits.whileLoop (fun _ => emits_pure) hbyte _) fun _ => hands_pure

/-- Handing on the output hands over no path. -/
theorem hands_forwardOutput {output : Bytes} : Hands (forwardOutput output) Q := by
  induction output with
  | nil => exact hands_attempt rfl
  | cons ch output ih => exact hands_send.bind fun _ => ih

/-! ### Functions that hand over paths -/

/-- `stat` hands over its path. -/
theorem hands_stat (h : Q path) : Hands (stat env path) Q :=
  (hands_record fun _ hp => Option.some.inj hp ▸ h).bind fun _ => hands_pure

/-- `open` hands over its path. -/
theorem hands_openFile (h : Q path) : Hands (openFile env path) Q := by
  refine (hands_record fun _ hp => Option.some.inj hp ▸ h).bind fun _ => ?_
  split
  · exact hands_pure
  · exact (hands_quiet rfl).bind fun _ => hands_pure

/-- `echo_code` hands over the path of its page. -/
theorem hands_echoCode (h : Q page404) : Hands (echoCode env) Q := by
  refine (hands_stat h).bind fun st => hands_cleanHander.bind fun _ =>
    (hands_openFile h).bind fun file => ?_
  cases file with
  | none => exact hands_pure
  | some content =>
    cases st with
    | none => exact hands_send.bind fun _ => hands_undefinedBehaviour.bind fun _ =>
        hands_close.bind fun _ => hands_pure
    | some st => exact hands_send.bind fun _ => hands_sendfile.bind fun _ =>
        hands_close.bind fun _ => hands_pure

/-- `echo_html` hands over its path. -/
theorem hands_echoHtml {size : Nat} (h : Q path) : Hands (echoHtml env path size) Q := by
  refine hands_cleanHander.bind fun _ => (hands_openFile h).bind fun file => ?_
  cases file with
  | none => exact hands_pure
  | some content => exact hands_send.bind fun _ => hands_sendfile.bind fun _ => hands_close

/-- The father hands over the path of the program. -/
theorem hands_fatherProc {clength : Int} (h : Q path) :
    Hands (fatherProc env path method query clength) Q := by
  refine (hands_record fun _ hp => Option.some.inj hp ▸ h).bind fun _ => hands_close.bind fun _ =>
    hands_close.bind fun _ => Hands.bind ?_ fun _ => hands_forwardOutput.bind fun _ =>
      hands_close.bind fun _ => hands_close.bind fun _ => (hands_attempt rfl).bind fun _ =>
        hands_pure
  unfold cgiInput
  split
  · exact hands_forwardBody
  · exact hands_pure

/-- Running a program hands over its path. -/
theorem hands_runCgi {clength : Int} (h : Q path) :
    Hands (runCgi env path method query clength) Q := by
  refine hands_send.bind fun _ => hands_pipe.bind fun _ => ?_
  split
  · exact hands_pure
  · refine hands_pipe.bind fun _ => ?_
    split
    · exact hands_pure
    · split
      · exact hands_pure
      · exact hands_fatherProc h

/-- `excu_cgi` hands over its path, or that of the page for failures. -/
theorem hands_excuCgi (h : Q path) (h404 : Q page404) :
    Hands (excuCgi env path method query) Q := by
  unfold excuCgi
  split
  · exact hands_cleanHander.bind fun _ => hands_runCgi h
  · refine hands_readHeaders.bind fun clength => ?_
    split
    · exact (hands_echoCode h404).bind fun _ => hands_pure
    · exact hands_runCgi h

/-- Behind `stat` the path, or the path of the index page in it, is handed over. -/
theorem hands_answerFile {start : Nat} {cgi : Bool} {st : Option Stat} (h : Q path)
    (hindex : Q (path ++ ascii "/index.html")) (h404 : Q page404) :
    Hands (answerFile env method url start cgi path st) Q := by
  cases st with
  | none => exact (hands_echoCode h404).bind fun _ => hands_cleanHander
  | some st =>
    have hfit : Hands (indexPath st path) Q := by
      unfold indexPath
      split
      · exact hands_fit
      · exact hands_pure
    refine hfit.bind_of_returns fun path' s t hpath => ?_
    have hQ : Q path' := by
      unfold indexPath at hpath
      split at hpath
      · rw [(returns_fit.mp hpath).2.1]
        exact hindex
      · rw [(returns_pure.mp hpath).1]
        exact h
    dsimp only
    split
    · exact hands_cString.bind fun _ => (hands_excuCgi hQ h404).bind fun _ => hands_pure
    · exact hands_echoHtml hQ

/-- Behind the request line only the path built from the URL is handed over. -/
theorem hands_serveFile {start : Nat} {cgi : Bool} (h : Target method url buf start cgi)
    (hurl : url.length ≤ 254) (hasked : Q (askedPath method url))
    (hindex : Q (askedPath method url ++ ascii "/index.html")) (h404 : Q page404) :
    Hands (serveFile env method buf start cgi) Q := by
  refine hands_buildPath.bind_of_returns fun path s t hpath => ?_
  obtain rfl := ((h.returns_buildPath hurl).mp hpath).1
  exact (hands_stat hasked).bind fun _ => (hands_answerFile hasked hindex h404).bind fun _ =>
    hands_close.bind fun _ => hands_pure

/-- Whether a method is one that the server supports. -/
def supported (method : Bytes) : Bool := isGet method || isPost method

/-- What is behind the request line hands over the path that was asked for. -/
theorem hands_serve {m u : Bytes} (hu : 0 ∈ u) (hlen : (cstr u).length ≤ 254)
    (h : supported (cstr m) = true → Q (askedPath (cstr m) (cstr u)) ∧
      Q (askedPath (cstr m) (cstr u) ++ ascii "/index.html")) (h404 : Q page404) :
    Hands (serve env m u) Q := by
  refine hands_cString.bind_of_returns fun s _ _ hs => ?_
  obtain rfl : s = cstr m := (returns_cString.mp hs).2.1
  by_cases hget : isGet (cstr m) = true
  · obtain ⟨hasked, hindex⟩ := h (by simp [supported, hget])
    obtain ⟨v, hv, hcut⟩ := exists_cutQuery hu
    have hserve : Hands (serveFile env (cstr m) v.url v.query (isPost (cstr m) || v.cgi)) Q :=
      hands_serveFile (hv.target hget) hlen hasked hindex h404
    rw [isGet] at hget
    simp only [hget, Bool.not_true, Bool.false_and, Bool.false_eq_true, if_false, if_true]
    refine hands_cutQuery.bind_of_returns fun v' t _ hv' => ?_
    obtain ⟨rfl, -⟩ := hv'.unique (hcut t)
    exact hserve
  · by_cases hpost : isPost (cstr m) = true
    · obtain ⟨hasked, hindex⟩ := h (by simp [supported, hpost])
      have hserve : Hands (serveFile env (cstr m) u 0 true) Q :=
        hands_serveFile (target_of_post hu hget hpost) hlen hasked hindex h404
      rw [isGet] at hget
      rw [isPost] at hpost
      simpa [hget, hpost] using hserve
    · rw [isGet] at hget
      rw [isPost] at hpost
      simpa [hget, hpost] using (hands_echoCode h404).bind fun _ => hands_pure

/-! ### The path that is looked up -/

/-- A run in which the path was looked up. -/
def LooksUp (path : Bytes) (w : World) : Prop := Event.stat path ∈ w.trace

/-- `HandleSock` looks the path up as soon as it has built it. -/
theorem eventually_serveFile {w : World} {start : Nat} {cgi : Bool}
    (h : Target method url buf start cgi) (hurl : url.length ≤ 254) :
    (serveFile env method buf start cgi).Eventually w (LooksUp (askedPath method url)) := by
  have hpath : (buildPath buf).Returns w (askedPath method url) w :=
    (h.returns_buildPath hurl).mpr ⟨rfl, rfl⟩
  refine Eventually.bind hpath (Eventually.bind (returns_stat.mpr ⟨rfl, rfl⟩) ?_)
  refine Always.eventually fun n => ?_
  have hrest (st : Option Stat) : Hands (do
      answerFile env method buf start cgi (askedPath method url) st
      close .sock
      return 0 : Prog World Int) fun _ => True :=
    (hands_answerFile trivial trivial trivial).bind fun _ => hands_close.bind fun _ => hands_pure
  obtain ⟨es, hes, -⟩ := hrest _ _ _ ⟨[], (List.append_nil _).symm, by simp⟩ n
  rw [LooksUp, hes]
  exact List.mem_append_left _ (List.mem_append_right _ List.mem_cons_self)

/-- A supported method comes to look up the path that was asked for. -/
theorem eventually_serve {w : World} {m u : Bytes} (hm : 0 ∈ m) (hu : 0 ∈ u)
    (hlen : (cstr u).length ≤ 254) (h : supported (cstr m) = true) :
    (serve env m u).Eventually w (LooksUp (askedPath (cstr m) (cstr u))) := by
  refine Eventually.bind (returns_cString.mpr ⟨hm, rfl, rfl⟩) ?_
  by_cases hget : isGet (cstr m) = true
  · obtain ⟨v, hv, hcut⟩ := exists_cutQuery hu
    have hserve : (serveFile env (cstr m) v.url v.query (isPost (cstr m) || v.cgi)).Eventually w
        (LooksUp (askedPath (cstr m) (cstr u))) := eventually_serveFile (hv.target hget) hlen
    rw [isGet] at hget
    simp only [hget, Bool.not_true, Bool.false_and, Bool.false_eq_true, if_false, if_true]
    exact Eventually.bind (hcut w) hserve
  · have hpost : isPost (cstr m) = true := by simpa [supported, hget] using h
    have hserve : (serveFile env (cstr m) u 0 true).Eventually w
        (LooksUp (askedPath (cstr m) (cstr u))) :=
      eventually_serveFile (target_of_post hu hget hpost) hlen
    rw [isGet] at hget
    rw [isPost] at hpost
    simpa [hget, hpost] using hserve

end NetworkCode.Httpd
