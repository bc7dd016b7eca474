import NetworkCode.LinuxChat.Pool
import NetworkCode.LinuxChat.Server

/-!
# The two threads of the chat server

The producer receives datagrams and puts messages in the pool, the consumer takes them out
and sends them. The threads share the pool, whose steps they take one by one, and
`userlist`. A call of a method of `userlist` is one step, and so is a command to Redis. The
use of an iterator whose entry was erased is undefined, and so is the reply to a missing
key. An exception that leaves a thread ends the process.
-/

namespace NetworkCode.LinuxChat

open StepResult Text

/-- Where the producer stands. -/
inductive Producer where
  /-- In `RecvData`, before `recvfrom` returns. -/
  | receiving
  /-- In the `PutData` of `RecvData`. -/
  | putting
  /-- Behind `RecvData`. -/
  | handling
  /-- Before the test of the LOAD loop; these keys are left. -/
  | replaying (keys : List Bytes)
  /-- In the `PutData` of the LOAD loop; these keys are left. -/
  | replayPutting (keys : List Bytes)
  deriving DecidableEq, Repr

/-- Where the consumer stands. -/
inductive Consumer where
  /-- Outside of `broadCast`. -/
  | resting
  /-- At the beginning of `broadCast`. -/
  | starting
  /-- Before the test of its loop; `it` is at the entry with this key. -/
  | looping (it : Addr)
  /-- In the `GetData` of `sendData`. -/
  | taking (it : Addr)
  /-- Before the `sendto` of `sendData`. -/
  | sending (it : Addr) (outmsg : Bytes)
  deriving DecidableEq, Repr

/-- `UdpServer`, its threads and the history of what was sent. -/
structure Server where
  pool : Pool Bytes
  users : UserList
  history : History
  /-- The variable `msg` of `productRun`. -/
  msg : Bytes
  producer : Producer
  consumer : Consumer
  /-- An exception left a thread. -/
  aborted : Bool
  /-- The messages that were sent, in order. -/
  sent : List (Endpoint × Bytes)

/-- The server when its threads start, with the slots of the pool and the store of Redis. -/
def Server.start (slots : List Bytes) (redis : Bytes → Option Bytes) : Server where
  pool := .new slots
  users := .empty
  history := .fresh redis
  msg := []
  producer := .receiving
  consumer := .resting
  aborted := false
  sent := []

/-- The server with empty slots and an empty store. -/
def Server.fresh : Server := .start (List.replicate poolCap []) fun _ => none

/-- One step of a thread, with what the system calls return. -/
inductive Action where
  /-- `recvfrom` fails. -/
  | recvFailed
  | recv (remote : Endpoint) (datagram : Bytes)
  /-- The next step of `PutData`. -/
  | put
  /-- The producer looks at its message. -/
  | handle
  /-- The next iteration of the LOAD loop. -/
  | replay
  /-- The consumer calls `broadCast`. -/
  | call
  /-- `it = userlist.begin()`. -/
  | begin
  /-- The test of the loop of `broadCast`. -/
  | test
  /-- The next step of `GetData`. -/
  | get
  /-- `sendto` succeeds or fails. -/
  | send (ok : Bool)
  deriving DecidableEq, Repr

variable (parse : Bytes → Json) (s : Server)

/-- `RecvData` returns from `recvfrom` with a datagram. -/
def Server.recv (remote : Endpoint) (datagram : Bytes) : StepResult Server :=
  match recvData parse s.users remote datagram with
  | .failed => next { s with producer := .handling }
  | .overflow => undefined
  | .raised => next { s with aborted := true }
  | .received outmsg users =>
    (s.pool.putData outmsg).bind fun pool =>
      next { s with pool, users, msg := outmsg, producer := .putting }

/-- Where the producer stands behind a step of `PutData`. -/
def Producer.afterPut (producer : Producer) : Putting Bytes → Producer
  | .out =>
    match producer with
    | .replayPutting keys => .replaying keys
    | _ => .handling
  | _ => producer

/-- A step of `PutData`. -/
def Server.put : StepResult Server :=
  match s.producer with
  | .putting | .replayPutting _ =>
    s.pool.put.bind fun pool =>
      next { s with pool, producer := s.producer.afterPut pool.putting }
  | _ => disabled

/-- The producer behind `RecvData`. -/
def Server.handle : StepResult Server :=
  match msgField parse s.msg with
  | none => next { s with aborted := true }
  | some text =>
    if text = ascii "LOAD" then next { s with producer := .replaying s.history.session }
    else (ofAccess (s.history.remember s.msg)).bind fun history =>
      next { s with history, producer := .receiving }

/-- An iteration of the LOAD loop. -/
def Server.replay : List Bytes → StepResult Server
  | [] => next { s with producer := .receiving }
  | key :: keys =>
    (ofAccess (s.history.redis key)).bind fun out =>
      (s.pool.putData out).bind fun pool =>
        next { s with pool, producer := .replayPutting keys }

/-- The test of the loop of `broadCast`, and the call of `sendData`. -/
def Server.test (it : Addr) : StepResult Server :=
  match s.users.find it with
  | none => undefined
  | some _ => s.pool.getData.bind fun pool => next { s with pool, consumer := .taking it }

/-- A step of `GetData`. -/
def Server.get (it : Addr) : StepResult Server :=
  s.pool.get.bind fun pool =>
    next { s with
      pool
      consumer :=
        match s.pool.getting with
        | .posting outmsg => .sending it outmsg
        | _ => .taking it }

/-- `sendto` in `sendData`, and the test of its result in `broadCast`. -/
def Server.send (it : Addr) (outmsg : Bytes) (ok : Bool) : StepResult Server :=
  match s.users.find it with
  | none => undefined
  | some remote =>
    if ok then next { s with consumer := .looping it, sent := s.sent ++ [(remote, outmsg)] }
    else next { s with consumer := .resting }

/-- One step of a thread. -/
def Server.step (a : Action) : StepResult Server :=
  if s.aborted then disabled
  else
    match a with
    | .recvFailed =>
      if s.producer = .receiving then next { s with producer := .handling } else disabled
    | .recv remote datagram =>
      if s.producer = .receiving then s.recv parse remote datagram else disabled
    | .put => s.put
    | .handle => if s.producer = .handling then s.handle parse else disabled
    | .replay =>
      match s.producer with
      | .replaying keys => s.replay keys
      | _ => disabled
    | .call => if s.consumer = .resting then next { s with consumer := .starting } else disabled
    | .begin =>
      if s.consumer = .starting then
        match s.users.first with
        | none => next { s with consumer := .resting }
        | some it => next { s with consumer := .looping it }
      else disabled
    | .test =>
      match s.consumer with
      | .looping it => s.test it
      | _ => disabled
    | .get =>
      match s.consumer with
      | .taking it => s.get it
      | _ => disabled
    | .send ok =>
      match s.consumer with
      | .sending it outmsg => s.send it outmsg ok
      | _ => disabled

/-- What the steps of the threads do, one constructor for each way. -/
inductive Server.Steps : Action → Server → Prop
  | recvFailed : s.producer = .receiving → Steps .recvFailed { s with producer := .handling }
  | recv {remote : Endpoint} {datagram : Bytes} {t : Server} :
      s.producer = .receiving → s.recv parse remote datagram = next t →
        Steps (.recv remote datagram) t
  | put {t : Server} : s.put = next t → Steps .put t
  | handle {t : Server} : s.producer = .handling → s.handle parse = next t → Steps .handle t
  | replay {keys : List Bytes} {t : Server} :
      s.producer = .replaying keys → s.replay keys = next t → Steps .replay t
  | call : s.consumer = .resting → Steps .call { s with consumer := .starting }
  | beginNobody : s.consumer = .starting → s.users.first = none →
      Steps .begin { s with consumer := .resting }
  | begin {it : Addr} : s.consumer = .starting → s.users.first = some it →
      Steps .begin { s with consumer := .looping it }
  | test {it : Addr} {t : Server} : s.consumer = .looping it → s.test it = next t → Steps .test t
  | get {it : Addr} {t : Server} : s.consumer = .taking it → s.get it = next t → Steps .get t
  | send {it : Addr} {outmsg : Bytes} {ok : Bool} {t : Server} :
      s.consumer = .sending it outmsg → s.send it outmsg ok = next t → Steps (.send ok) t

variable {parse s} {t : Server} {a : Action}

/-- A step is one of those, and no exception has left a thread before it. -/
theorem steps_of_step (hs : s.step parse a = next t) : s.aborted = false ∧ s.Steps parse a t := by
  unfold Server.step at hs
  split at hs
  · cases hs
  · rename_i hlive
    refine ⟨Bool.eq_false_iff.mpr hlive, ?_⟩
    cases a with
    | recvFailed =>
      dsimp only at hs
      split at hs
      · cases hs
        exact .recvFailed ‹_›
      · cases hs
    | recv remote datagram =>
      dsimp only at hs
      split at hs
      · exact .recv ‹_› hs
      · cases hs
    | put => exact .put hs
    | handle =>
      dsimp only at hs
      split at hs
      · exact .handle ‹_› hs
      · cases hs
    | replay =>
      dsimp only at hs
      split at hs
      · exact .replay ‹_› hs
      · cases hs
    | call =>
      dsimp only at hs
      split at hs
      · cases hs
        exact .call ‹_›
      · cases hs
    | begin =>
      dsimp only at hs
      split at hs
      · split at hs
        · cases hs
          exact .beginNobody ‹_› ‹_›
        · cases hs
          exact .begin ‹_› ‹_›
      · cases hs
    | test =>
      dsimp only at hs
      split at hs
      · exact .test ‹_› hs
      · cases hs
    | get =>
      dsimp only at hs
      split at hs
      · exact .get ‹_› hs
      · cases hs
    | send ok =>
      dsimp only at hs
      split at hs
      · exact .send ‹_› hs
      · cases hs

/-! ## What a thread does in a step -/

/-- The producer is in a call of `PutData`. -/
def Producer.InPut : Producer → Prop
  | .putting | .replayPutting _ => True
  | _ => False

/-- A datagram is not received, ends the thread, or brings a message and the users behind it. -/
theorem recv_eq_next {remote : Endpoint} {datagram : Bytes}
    (hs : s.recv parse remote datagram = next t) :
    recvData parse s.users remote datagram = .failed ∧ t = { s with producer := .handling } ∨
      recvData parse s.users remote datagram = .raised ∧ t = { s with aborted := true } ∨
      ∃ outmsg users pool, recvData parse s.users remote datagram = .received outmsg users ∧
        s.pool.putData outmsg = next pool ∧
          t = { s with pool, users, msg := outmsg, producer := .putting } := by
  unfold Server.recv at hs
  split at hs
  · rename_i hfailed
    cases hs
    exact .inl ⟨hfailed, rfl⟩
  · cases hs
  · rename_i hraised
    cases hs
    exact .inr (.inl ⟨hraised, rfl⟩)
  · rename_i outmsg users hreceived
    obtain ⟨pool, hpool, ht⟩ := bind_eq_next.mp hs
    cases ht
    exact .inr (.inr ⟨outmsg, users, pool, hreceived, hpool, rfl⟩)

/-- A step of the producer into the pool. -/
theorem put_eq_next (hs : s.put = next t) :
    s.producer.InPut ∧ ∃ pool, s.pool.put = next pool ∧
      t = { s with pool, producer := s.producer.afterPut pool.putting } := by
  have hmoved (hs : (s.pool.put.bind fun pool =>
      next { s with pool, producer := s.producer.afterPut pool.putting }) = next t) :
      ∃ pool, s.pool.put = next pool ∧
        t = { s with pool, producer := s.producer.afterPut pool.putting } := by
    obtain ⟨pool, hpool, ht⟩ := bind_eq_next.mp hs
    cases ht
    exact ⟨pool, hpool, rfl⟩
  unfold Server.put at hs
  split at hs
  · rename_i hprod
    refine ⟨?_, hmoved hs⟩
    rw [hprod]
    trivial
  · rename_i hprod
    refine ⟨?_, hmoved hs⟩
    rw [hprod]
    trivial
  · cases hs

/-- A message that cannot be read ends the thread, a LOAD begins its loop, and another message is
stored. -/
theorem handle_eq_next (hs : s.handle parse = next t) :
    msgField parse s.msg = none ∧ t = { s with aborted := true } ∨
      msgField parse s.msg = some (ascii "LOAD") ∧
        t = { s with producer := .replaying s.history.session } ∨
      ∃ text history, msgField parse s.msg = some text ∧ text ≠ ascii "LOAD" ∧
        s.history.remember s.msg = some history ∧
          t = { s with history, producer := .receiving } := by
  unfold Server.handle at hs
  split at hs
  · rename_i hnone
    cases hs
    exact .inl ⟨hnone, rfl⟩
  · rename_i text htext
    split at hs
    · rename_i hload
      cases hs
      exact .inr (.inl ⟨hload ▸ htext, rfl⟩)
    · rename_i hload
      obtain ⟨history, hhistory, ht⟩ := bind_eq_next.mp hs
      cases ht
      exact .inr (.inr ⟨text, history, htext, hload, ofAccess_eq_next.mp hhistory, rfl⟩)

/-- The LOAD loop ends, or puts the string of its next key in the pool. -/
theorem replay_eq_next {keys : List Bytes} (hs : s.replay keys = next t) :
    keys = [] ∧ t = { s with producer := .receiving } ∨
      ∃ key rest out pool, keys = key :: rest ∧ s.history.redis key = some out ∧
        s.pool.putData out = next pool ∧
          t = { s with pool, producer := .replayPutting rest } := by
  cases keys with
  | nil =>
    cases hs
    exact .inl ⟨rfl, rfl⟩
  | cons key keys =>
    obtain ⟨out, hout, hs⟩ := bind_eq_next.mp hs
    obtain ⟨pool, hpool, ht⟩ := bind_eq_next.mp hs
    cases ht
    exact .inr ⟨key, keys, out, pool, rfl, ofAccess_eq_next.mp hout, hpool, rfl⟩

/-- The consumer tests its iterator and goes for a message. -/
theorem test_eq_next {it : Addr} (hs : s.test it = next t) :
    ∃ pool, s.pool.getData = next pool ∧ t = { s with pool, consumer := .taking it } := by
  unfold Server.test at hs
  split at hs
  · cases hs
  · obtain ⟨pool, hpool, ht⟩ := bind_eq_next.mp hs
    cases ht
    exact ⟨pool, hpool, rfl⟩

/-- Behind its last step `GetData` returns, and the message is sent. -/
theorem get_eq_next {it : Addr} (hs : s.get it = next t) :
    ∃ pool consumer, s.pool.get = next pool ∧
      (consumer = .taking it ∨ ∃ outmsg, consumer = .sending it outmsg) ∧
        t = { s with pool, consumer } := by
  obtain ⟨pool, hpool, ht⟩ := bind_eq_next.mp hs
  cases ht
  refine ⟨pool, _, hpool, ?_, rfl⟩
  split
  · exact .inr ⟨_, rfl⟩
  · exact .inl rfl

/-- A message is sent to the entry of the iterator, or `broadCast` returns. -/
theorem send_eq_next {it : Addr} {outmsg : Bytes} {ok : Bool}
    (hs : s.send it outmsg ok = next t) :
    ∃ remote, s.users.find it = some remote ∧
      (ok = true ∧ t = { s with consumer := .looping it, sent := s.sent ++ [(remote, outmsg)] } ∨
        ok = false ∧ t = { s with consumer := .resting }) := by
  unfold Server.send at hs
  split at hs
  · cases hs
  · rename_i remote hfind
    refine ⟨remote, hfind, ?_⟩
    cases ok with
    | true =>
      cases hs
      exact .inl ⟨rfl, rfl⟩
    | false =>
      cases hs
      exact .inr ⟨rfl, rfl⟩

end NetworkCode.LinuxChat
