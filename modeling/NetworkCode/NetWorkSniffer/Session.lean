import NetworkCode.Core.Transition
import NetworkCode.NetWorkSniffer.Tally

/-!
# A session of the sniffer

The loop of `main` waits in `select` for the keyboard and the socket. A turn looks at the keyboard
first, and at the socket only when there is nothing to read from the keyboard. The end of the
keyboard's input is something to read for ever.
-/

namespace NetworkCode.NetWorkSniffer

open StepResult Text

/-! ## The source -/

/-- `tolower`. -/
def toLower (c : UInt8) : UInt8 := if 65 ≤ c && c ≤ 90 then c + 32 else c

/-- `exec_cmd`, which looks at the first four bytes of the array. -/
def execCmd (buf : Bytes) : Bool := (buf.take 4).map toLower == ascii "quit"

/-- The size of the array of `command_interpreter`. -/
def commandSize : Nat := 512

/-- What `command_interpreter` returns when `read` puts `typed` in an array that had these bytes. -/
def commandInterpreter (typed before : Bytes) : Bool :=
  if 0 < typed.length then execCmd (typed ++ before.drop typed.length) else false

/-- Where `main` is. -/
inductive Stage where
  /-- In its loop. -/
  | running
  /-- It returned 0. -/
  | quit
  /-- It returned 1. -/
  | failed
  deriving DecidableEq, Repr

/-- The keyboard, the socket and `main`. -/
structure Session where
  /-- What was typed and not read. -/
  typed : Bytes
  /-- The input of the keyboard has ended. -/
  ended : Bool
  /-- The frames that were captured. -/
  captured : List Bytes
  /-- The frames that were not received. -/
  queue : List Bytes
  /-- What was received of the other ones. -/
  received : List Bytes
  loop : Loop
  stage : Stage

/-- A session before anything is typed or captured, with what `malloc` returned. -/
def Session.start (buf : Bytes) (prot : Protocol) : Session :=
  ⟨[], false, [], [], [], .start buf prot, .running⟩

/-- `select` shows the keyboard. -/
def Session.typing (s : Session) : Bool := s.typed ≠ [] || s.ended

/-- What can happen. -/
inductive Action where
  | type (bytes : Bytes)
  | endInput
  | capture (frame : Bytes)
  /-- A turn in which `read` takes `count` bytes from the keyboard, into an array that had the
  bytes `before`. -/
  | command (count : Nat) (before : Bytes)
  /-- A turn in which `read` fails. -/
  | unread
  /-- A turn in which a frame is received. -/
  | packet
  /-- `select` fails, as it does when a signal comes. -/
  | interrupt
  deriving DecidableEq, Repr

/-- A turn with the frame that was captured first: `recvfrom` cuts it off, and `main` closes the
socket for an empty one. -/
def Session.receive (s : Session) : StepResult Session :=
  match s.queue with
  | [] => disabled
  | frame :: queue =>
    if frame = [] then next { s with stage := .failed }
    else
      (ofAccess (s.loop.receive (frame.take maxFrame))).bind fun loop =>
        next { s with queue, received := s.received ++ [frame.take maxFrame], loop }

/-- What one action does. -/
def Session.step (s : Session) (a : Action) : StepResult Session :=
  if s.stage ≠ .running then disabled
  else
    match a with
    | .type bytes => if s.ended then disabled else next { s with typed := s.typed ++ bytes }
    | .endInput => next { s with ended := true }
    | .capture frame =>
      next { s with captured := s.captured ++ [frame], queue := s.queue ++ [frame] }
    | .command count before =>
      if s.typing ∧ before.length = commandSize ∧ count ≤ commandSize ∧ count ≤ s.typed.length ∧
          (count = 0 → s.typed = []) then
        let stage := if commandInterpreter (s.typed.take count) before then .quit else s.stage
        next { s with typed := s.typed.drop count, stage }
      else disabled
    | .unread => if s.typing then next s else disabled
    | .packet => if s.typing then disabled else s.receive
    | .interrupt => next { s with stage := .failed }

variable {s t : Session} {a : Action} {buf frame : Bytes} {prot : Protocol}
  {frames queue : List Bytes} {l l' : Loop}

/-! ## What is received -/

/-- The invariant: what is received are the first frames, and they alone made the log and the
counters. -/
structure InOrder (buf : Bytes) (prot : Protocol) (s : Session) : Prop where
  order : s.received ++ s.queue.map (List.take maxFrame) = s.captured.map (List.take maxFrame)
  handled : s.received.foldlM Loop.receive (.start buf prot) = some s.loop

/-- A turn with a frame receives the one that was captured first, or ends the session. -/
theorem receive_eq_next (hs : s.receive = next t) : ∃ frame queue, s.queue = frame :: queue ∧
    (t = { s with stage := .failed } ∨ ∃ l, s.loop.receive (frame.take maxFrame) = some l ∧
      t = { s with queue, received := s.received ++ [frame.take maxFrame], loop := l }) := by
  unfold Session.receive at hs
  split at hs
  · cases hs
  · rename_i frame queue hqueue
    split at hs
    · cases hs
      exact ⟨frame, queue, hqueue, .inl rfl⟩
    · obtain ⟨l, hl, hs⟩ := bind_eq_next.mp hs
      cases hs
      exact ⟨frame, queue, hqueue, .inr ⟨l, ofAccess_eq_next.mp hl, rfl⟩⟩

/-- Receiving a frame takes it from the front of the queue. -/
theorem InOrder.receive (h : InOrder buf prot s) (hs : s.receive = next t) :
    InOrder buf prot t := by
  obtain ⟨frame, queue, hqueue, rfl | ⟨l, hl, rfl⟩⟩ := receive_eq_next hs
  · exact ⟨h.order, h.handled⟩
  · have horder := h.order
    rw [hqueue, List.map_cons] at horder
    refine ⟨?_, ?_⟩
    · rw [List.append_assoc]
      exact horder
    · rw [foldlM_concat, h.handled]
      exact hl

/-- A step keeps the frames in order. -/
theorem InOrder.step (h : InOrder buf prot s) (hs : s.step a = next t) : InOrder buf prot t := by
  unfold Session.step at hs
  split at hs
  · cases hs
  cases a with
  | type bytes =>
    dsimp only at hs
    split at hs
    · cases hs
    · cases hs
      exact ⟨h.order, h.handled⟩
  | capture frame =>
    cases hs
    refine ⟨?_, h.handled⟩
    rw [List.map_append, List.map_append, ← List.append_assoc, h.order]
  | command count before =>
    dsimp only at hs
    split at hs
    · cases hs
      exact ⟨h.order, h.handled⟩
    · cases hs
  | unread =>
    dsimp only at hs
    split at hs
    · cases hs
      exact h
    · cases hs
  | packet =>
    dsimp only at hs
    split at hs
    · cases hs
    · exact h.receive hs
  | endInput | interrupt =>
    cases hs
    exact ⟨h.order, h.handled⟩

/-- The frames are in order in every state reached. -/
theorem inOrder_of_reaches (h : Reaches Session.step (fun _ _ => True) (.start buf prot) s) :
    InOrder buf prot s :=
  h.invariant ⟨rfl, rfl⟩ fun _ _ _ ih _ hs => ih.step hs

/-! ## Behind the end of the input -/

/-- The input does not begin again, and no frame is received behind its end. -/
theorem ended_step (hended : s.ended = true) (hs : s.step a = next t) :
    t.ended = true ∧ t.received = s.received ∧ t.loop = s.loop := by
  have htyping : s.typing = true := by rw [Session.typing, hended, Bool.or_true]
  unfold Session.step at hs
  split at hs
  · cases hs
  cases a with
  | type bytes =>
    rw [hended] at hs
    cases hs
  | command count before =>
    dsimp only at hs
    split at hs
    · cases hs
      exact ⟨hended, rfl, rfl⟩
    · cases hs
  | unread =>
    rw [htyping] at hs
    cases hs
    exact ⟨hended, rfl, rfl⟩
  | packet =>
    rw [htyping] at hs
    cases hs
  | endInput =>
    cases hs
    exact ⟨rfl, rfl, rfl⟩
  | capture _ | interrupt =>
    cases hs
    exact ⟨hended, rfl, rfl⟩

/-- Behind the end of the input nothing is received. -/
theorem ended_of_reaches (hended : s.ended = true)
    (h : Reaches Session.step (fun _ _ => True) s t) :
    t.received = s.received ∧ t.loop = s.loop := by
  have hkept : t.ended = true ∧ t.received = s.received ∧ t.loop = s.loop := by
    apply h.invariant (I := fun t => t.ended = true ∧ t.received = s.received ∧ t.loop = s.loop)
    · exact ⟨hended, rfl, rfl⟩
    · intro u a v hu _ hs
      obtain ⟨hv, hreceived, hloop⟩ := ended_step hu.1 hs
      exact ⟨hv, hreceived.trans hu.2.1, hloop.trans hu.2.2⟩
  exact hkept.2

/-- A turn that reads the end of the input changes nothing. -/
theorem command_ended (hrunning : s.stage = .running) (hended : s.ended = true)
    (htyped : s.typed = []) {before : Bytes} (hbefore : before.length = commandSize) :
    s.step (.command 0 before) = next s := by
  have htyping : s.typing = true := by rw [Session.typing, hended, Bool.or_true]
  have hready : s.typing ∧ before.length = commandSize ∧ 0 ≤ commandSize ∧
      0 ≤ s.typed.length ∧ (0 = 0 → s.typed = []) :=
    ⟨htyping, hbefore, Nat.zero_le _, Nat.zero_le _, fun _ => htyped⟩
  have hnone : commandInterpreter (s.typed.take 0) before = false := rfl
  rw [Session.step, if_neg (not_not.mpr hrunning)]
  dsimp only
  rw [if_pos hready, hnone, if_neg Bool.false_ne_true]
  rfl

/-! ## While nothing is typed -/

/-- Frames that can be processed are received in turn. -/
theorem exists_drained (hrunning : s.stage = .running) (htyping : s.typing = false)
    (hframes : ∀ frame ∈ s.queue, frame ≠ [])
    (hl : (s.queue.map (List.take maxFrame)).foldlM Loop.receive s.loop = some l) :
    ∃ t, Reaches Session.step (fun _ a => a = .packet) s t ∧ t.loop = l ∧
      t.received = s.received ++ s.queue.map (List.take maxFrame) := by
  obtain ⟨queue, hqueue⟩ : ∃ queue, s.queue = queue := ⟨_, rfl⟩
  rw [hqueue] at hframes hl ⊢
  induction queue generalizing s with
  | nil =>
    cases hl
    exact ⟨s, .refl, rfl, (List.append_nil _).symm⟩
  | cons frame queue ih =>
    obtain ⟨hframe, hrest⟩ := List.forall_mem_cons.mp hframes
    rw [List.map_cons, List.foldlM_cons] at hl
    obtain ⟨l', hl', hl⟩ := Option.bind_eq_some_iff.mp hl
    have hstep : s.step .packet = next { s with
        queue, received := s.received ++ [frame.take maxFrame], loop := l' } := by
      simp only [Session.step, hrunning, ne_eq, not_true_eq_false, if_false, htyping,
        Bool.false_eq_true, Session.receive, hqueue, hframe, hl', ofAccess_some, bind_next]
    obtain ⟨t, ht, hloop, hreceived⟩ := ih (s := { s with
      queue, received := s.received ++ [frame.take maxFrame], loop := l' }) hrunning htyping hl
      hrest rfl
    refine ⟨t, Reaches.trans (.tail .refl rfl hstep) ht, hloop, ?_⟩
    rw [hreceived, List.append_assoc, List.map_cons]
    rfl

/-- Whatever is typed between them, frames are received in the order in which they were captured,
and the log and the counters are those of the frames that were received. Behind the end of the
input no frame is received any more, and the loop can go on for ever without a change. As long as
nothing is typed the loop receives all frames, if none is empty and the counters have room. -/
theorem received_until_input_ends
    (h : Reaches Session.step (fun _ _ => True) (.start buf prot) s) :
    (s.received <+: s.captured.map (List.take maxFrame) ∧
      s.received.foldlM Loop.receive (.start buf prot) = some s.loop) ∧
    (s.ended = true →
      (∀ t, Reaches Session.step (fun _ _ => True) s t →
        t.received = s.received ∧ t.loop = s.loop) ∧
      (s.stage = .running → s.typed = [] → ∀ before, before.length = commandSize →
        s.step (.command 0 before) = next s)) ∧
    (s.stage = .running → s.typing = false → (∀ frame ∈ s.queue, frame ≠ []) →
      25 ≤ buf.length → prot.total + s.captured.length ≤ intMax →
      (∀ k, prot.counter k + s.captured.length ≤ intMax) →
      ∃ t, Reaches Session.step (fun _ a => a = .packet) s t ∧
        t.received = s.captured.map (List.take maxFrame)) := by
  have horder := inOrder_of_reaches h
  refine ⟨⟨⟨_, horder.order⟩, horder.handled⟩, fun hended => ⟨fun t => ended_of_reaches hended,
    fun hrunning htyped before => command_ended hrunning hended htyped⟩,
    fun hrunning htyping hframes hbuf htotal hcounter => ?_⟩
  have hlength : s.captured.length = (s.captured.map (List.take maxFrame)).length :=
    (List.length_map _).symm
  rw [hlength] at htotal hcounter
  obtain ⟨l, hl⟩ := @exists_run (s.captured.map (List.take maxFrame)) (.start buf prot) hbuf
    htotal hcounter
  rw [← horder.order, List.foldlM_append, horder.handled] at hl
  obtain ⟨t, ht, -, hreceived⟩ := exists_drained hrunning htyping hframes hl
  exact ⟨t, ht, hreceived.trans horder.order⟩

/-- Two frames are captured, and the input ends behind the first turn with a frame. -/
def sessionRun : List Action :=
  [.capture tcpFrame.bytes, .type (ascii "x\n"), .capture (List.replicate 40 0),
    .command 2 (List.replicate commandSize 0), .packet, .endInput]

theorem sessionRun_received :
    (runGuarded Session.step (fun _ _ => True)
      (.start (List.replicate 100 0) unused.prot) sessionRun).state?.map
        (fun s => (s.ended, s.received, s.queue)) =
      some (true, [tcpFrame.bytes], [List.replicate 40 0]) := by
  decide +kernel

/-- The second frame is never received. -/
theorem received_until_input_ends_first : ∃ s,
    Reaches Session.step (fun _ _ => True) (.start (List.replicate 100 0) unused.prot) s ∧
      s.queue = [List.replicate 40 0] ∧
      ∀ t, Reaches Session.step (fun _ _ => True) s t → t.received = [tcpFrame.bytes] := by
  obtain ⟨s, hrun, hs⟩ := exists_next_of_map sessionRun_received
  obtain ⟨hended, hs⟩ := Prod.mk.inj hs
  obtain ⟨hreceived, hqueue⟩ := Prod.mk.inj hs
  have hreach := Reaches.of_runGuarded _ _ hrun
  obtain ⟨-, hafter, -⟩ := received_until_input_ends hreach
  refine ⟨s, hreach, hqueue, fun t ht => ?_⟩
  exact ((hafter hended).1 t ht).1.trans hreceived

end NetworkCode.NetWorkSniffer
