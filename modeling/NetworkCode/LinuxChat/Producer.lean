import NetworkCode.LinuxChat.Broadcast
import NetworkCode.LinuxChat.History
import NetworkCode.LinuxChat.Wedge

/-!
# What the producer makes of what arrives

However the threads interleave, `userlist` is what the calls of `RecvData` made of it, and the
strings given to the pool are those of the iterations of `productRun`, one after the other:
the message that was received, then what its LOAD replays.
-/

namespace NetworkCode.LinuxChat

open StepResult Text

variable {parse : Bytes → Json} {redis : Bytes → Option Bytes} {slots : List Bytes}
  {s t : Server} {a : Action} {as : List Action}

/-! ## The user list -/

/-- The datagram of an action. -/
def Action.arrival : Action → Option (Endpoint × Bytes)
  | .recv remote datagram => some (remote, datagram)
  | _ => none

/-- The datagrams that arrived on a run. -/
def arrivals (as : List Action) : List (Endpoint × Bytes) := as.filterMap Action.arrival

/-- One more step, and the datagram that it brings if it does. -/
theorem arrivals_concat : arrivals (as ++ [a]) = arrivals as ++ a.arrival.toList := by
  rw [arrivals, List.filterMap_append]
  cases h : a.arrival <;> simp [arrivals, h]

/-- A call of `RecvData` that comes back leaves its users. -/
theorem users_recv {remote : Endpoint} {datagram : Bytes}
    (hs : s.recv parse remote datagram = next t) (hlive : t.aborted = false) :
    (recvData parse s.users remote datagram).users s.users = some t.users := by
  obtain ⟨hfailed, rfl⟩ | ⟨-, rfl⟩ | ⟨outmsg, users, pool, hreceived, -, rfl⟩ := recv_eq_next hs
  · rw [hfailed]
    rfl
  · cases hlive
  · rw [hreceived]
    rfl

/-- Nothing else changes the users. -/
theorem Server.Steps.users_eq (h : s.Steps parse a t) (ha : a.arrival = none) :
    t.users = s.users := by
  cases h with
  | recv => cases ha
  | recvFailed | call | beginNobody | begin => rfl
  | put hs => exact (sameAudience_put hs).users
  | handle _ hs => exact (sameAudience_handle hs).users
  | replay _ hs => exact (sameAudience_replay hs).users
  | test _ hs => exact (sameWork_test hs).users
  | get _ hs => exact (sameWork_get hs).users
  | send _ hs => exact (sameWork_send hs).users

/-- On every run `userlist` is what the arrived datagrams make of it. -/
theorem receiveAll_of_runs (h : Runs (Server.step parse) (.start slots redis) as s)
    (hlive : s.aborted = false) : receiveAll parse (arrivals as) = some s.users := by
  induction h with
  | nil => rfl
  | @snoc t u as a _ hs ih =>
    obtain ⟨hlive', hsteps⟩ := steps_of_step hs
    have ih := ih hlive'
    rw [arrivals_concat]
    cases ha : a.arrival with
    | none =>
      rw [Option.toList_none, List.append_nil, hsteps.users_eq ha]
      exact ih
    | some arrival =>
      cases hsteps with
      | recv _ hs =>
        cases ha
        rw [Option.toList_some, receiveAll_concat, ih, Option.bind_some]
        exact users_recv hs hlive
      | _ => cases ha

/-- On every run the law of the user list holds. -/
theorem heard_of_runs (h : Runs (Server.step parse) (.start slots redis) as s)
    (hlive : s.aborted = false) : Heard parse (arrivals as) s.users :=
  (receiveAll_eq_some (receiveAll_of_runs h hlive)).2

/-! ## The iterations of `productRun` -/

/-- What an iteration of `productRun` works on: the history, its variable `msg`, and the strings
that were given to the pool. -/
structure Work where
  history : History
  msg : Bytes
  given : List Bytes

/-- An iteration of `productRun` with the message it receives, if it receives one. -/
def Work.iterate (parse : Bytes → Json) (w : Work) (received : Option Bytes) : Option Work :=
  (w.history.handle parse (received.getD w.msg)).map fun r =>
    ⟨r.1, received.getD w.msg, w.given ++ received.toList ++ r.2⟩

/-- Iterations of `productRun` from its start. -/
def iterateAll (parse : Bytes → Json) (redis : Bytes → Option Bytes)
    (receipts : List (Option Bytes)) : Option Work :=
  receipts.foldlM (Work.iterate parse) ⟨.fresh redis, [], []⟩

/-- One more iteration of the producer. -/
theorem iterateAll_concat {receipts : List (Option Bytes)} {received : Option Bytes} :
    iterateAll parse redis (receipts ++ [received]) =
      (iterateAll parse redis receipts).bind fun w => w.iterate parse received :=
  foldlM_concat _ _ _ _

/-- When every call of `RecvData` receives a message, the history is that of the messages. -/
theorem history_iterateAll (msgs : List Bytes) :
    (iterateAll parse redis (msgs.map some)).map Work.history =
      ((History.fresh redis).handleAll parse msgs).map Prod.fst := by
  induction msgs using List.reverseRecOn with
  | nil => rfl
  | append_singleton msgs msg ih =>
    rw [List.map_append, List.map_singleton, iterateAll_concat, handleAll_append]
    cases hw : iterateAll parse redis (msgs.map some) with
    | none =>
      rw [hw, Option.map_none, eq_comm, Option.map_eq_none_iff] at ih
      rw [ih]
      rfl
    | some w =>
      rw [hw, Option.map_some, eq_comm, Option.map_eq_some_iff] at ih
      obtain ⟨r, hr, hhistory⟩ := ih
      rw [hr]
      simp [Work.iterate, History.handleAll, hhistory, Option.map_map, Function.comp_def]

/-- The message of an action that ends a call of `RecvData`; a failed call has none. -/
def Action.receipt : Action → Option (Option Bytes)
  | .recvFailed => some none
  | .recv _ datagram => some (if datagram = [] then none else some (cstr datagram))
  | _ => none

/-- The messages that were received on a run. -/
def receipts (as : List Action) : List (Option Bytes) := as.filterMap Action.receipt

/-- One more step, and the receipt that it brings if it does. -/
theorem receipts_concat : receipts (as ++ [a]) = receipts as ++ a.receipt.toList := by
  rw [receipts, List.filterMap_append]
  cases h : a.receipt <;> simp [receipts, h]

/-- The last iteration has begun, with the last receipt, and has replayed `out`. -/
def Work.Within (parse : Bytes → Json) (redis : Bytes → Option Bytes) (rs : List (Option Bytes))
    (w : Work) (out : List Bytes) : Prop :=
  ∃ before received w₀, rs = before ++ [received] ∧ iterateAll parse redis before = some w₀ ∧
    w = ⟨w₀.history, received.getD w₀.msg, w₀.given ++ received.toList ++ out⟩

/-- How far the iterations with these receipts are when the producer stands there. -/
def Work.Follows (parse : Bytes → Json) (redis : Bytes → Option Bytes) (rs : List (Option Bytes))
    (w : Work) : Producer → Prop
  | .receiving => iterateAll parse redis rs = some w
  | .putting | .handling => w.Within parse redis rs []
  | .replaying keys | .replayPutting keys =>
    msgField parse w.msg = some (ascii "LOAD") ∧
      ∃ done out, w.history.session = done ++ keys ∧ done.mapM w.history.redis = some out ∧
        w.Within parse redis rs out

section

variable {w : Work} {rs : List (Option Bytes)} {keys out : List Bytes}

/-- A call of `RecvData` that fails begins an iteration with the old message. -/
theorem Work.Follows.fail (h : w.Follows parse redis rs .receiving) :
    w.Follows parse redis (rs ++ [none]) .handling :=
  ⟨rs, none, w, rfl, h, by simp⟩

/-- A call of `RecvData` that receives a message begins an iteration with it. -/
theorem Work.Follows.receive (h : w.Follows parse redis rs .receiving) (outmsg : Bytes) :
    Work.Follows parse redis (rs ++ [some outmsg]) ⟨w.history, outmsg, w.given ++ [outmsg]⟩
      .putting :=
  ⟨rs, some outmsg, w, rfl, h, by simp⟩

/-- `PutData` comes back to its caller. -/
theorem Work.Follows.afterPut {producer : Producer} (h : w.Follows parse redis rs producer)
    (hin : producer.InPut) (putting : Putting Bytes) :
    w.Follows parse redis rs (producer.afterPut putting) := by
  by_cases hout : putting = .out
  · subst hout
    cases producer with
    | putting | replayPutting keys => exact h
    | _ => exact hin.elim
  · rwa [afterPut_of_ne_out hout]

/-- What an iteration makes of the work before it. -/
theorem Work.Within.complete {h' : History} (h : w.Within parse redis rs out)
    (hhandle : w.history.handle parse w.msg = some (h', out)) :
    iterateAll parse redis rs = some ⟨h', w.msg, w.given⟩ := by
  obtain ⟨before, received, w₀, rfl, hbefore, rfl⟩ := h
  rw [iterateAll_concat, hbefore, Option.bind_some, Work.iterate, hhandle, Option.map_some]

/-- A message that is no LOAD ends its iteration in the history. -/
theorem Work.Follows.remember {text : Bytes} {h' : History}
    (h : w.Follows parse redis rs .handling) (htext : msgField parse w.msg = some text)
    (hload : text ≠ ascii "LOAD") (hremember : w.history.remember w.msg = some h') :
    Work.Follows parse redis rs ⟨h', w.msg, w.given⟩ .receiving := by
  refine Work.Within.complete h ?_
  rw [History.handle, htext, Option.bind_some, if_neg hload, hremember, Option.map_some]

/-- A LOAD begins with the first key. -/
theorem Work.Follows.load (h : w.Follows parse redis rs .handling)
    (hload : msgField parse w.msg = some (ascii "LOAD")) :
    w.Follows parse redis rs (.replaying w.history.session) :=
  ⟨hload, [], [], rfl, rfl, h⟩

/-- Behind the last key the LOAD has replayed the history. -/
theorem Work.Follows.loaded (h : w.Follows parse redis rs (.replaying [])) :
    w.Follows parse redis rs .receiving := by
  obtain ⟨hload, done, out, hsession, hout, hwithin⟩ := h
  rw [List.append_nil] at hsession
  refine hwithin.complete ?_
  rw [History.handle, hload, Option.bind_some, if_pos rfl, History.replay, hsession, hout,
    Option.map_some]

/-- The next key gives its string to the pool. -/
theorem Work.Follows.replay {key text : Bytes}
    (h : w.Follows parse redis rs (.replaying (key :: keys)))
    (hkey : w.history.redis key = some text) :
    Work.Follows parse redis rs ⟨w.history, w.msg, w.given ++ [text]⟩ (.replayPutting keys) := by
  obtain ⟨hload, done, out, hsession, hout, hwithin⟩ := h
  refine ⟨hload, done ++ [key], out ++ [text], ?_, ?_, ?_⟩
  · rw [hsession, List.append_assoc]
    rfl
  · simp [List.mapM_append, hout, hkey]
  · obtain ⟨before, received, w₀, rfl, hbefore, rfl⟩ := hwithin
    exact ⟨before, received, w₀, rfl, hbefore, by simp only [List.append_assoc]⟩

end

/-! ## The producer of the server -/

/-- What the producer of the server works on. -/
def Server.work (s : Server) : Work := ⟨s.history, s.msg, s.pool.given⟩

/-- A call of `RecvData` that comes back begins an iteration. -/
theorem follows_recv {rs : List (Option Bytes)} {remote : Endpoint} {datagram : Bytes}
    (h : s.work.Follows parse redis rs .receiving) (hs : s.recv parse remote datagram = next t)
    (hlive : t.aborted = false) :
    t.work.Follows parse redis (rs ++ [if datagram = [] then none else some (cstr datagram)])
      t.producer := by
  obtain ⟨hfailed, rfl⟩ | ⟨-, rfl⟩ | ⟨outmsg, users, pool, hreceived, hpool, rfl⟩ :=
    recv_eq_next hs
  · rw [if_pos (recvData_eq_failed hfailed)]
    exact h.fail
  · cases hlive
  · obtain ⟨hnil, rfl, -⟩ := recvData_eq_received hreceived
    rw [if_neg hnil, Server.work, (given_returned_putData hpool).1]
    exact h.receive (cstr datagram)

/-- A step into the pool keeps the producer in step with its iterations. -/
theorem follows_put {rs : List (Option Bytes)} (h : s.work.Follows parse redis rs s.producer)
    (hs : s.put = next t) : t.work.Follows parse redis rs t.producer := by
  obtain ⟨hin, pool, hpool, rfl⟩ := put_eq_next hs
  rw [Server.work, (given_returned_put hpool).1]
  exact h.afterPut hin pool.putting

/-- Handling a message keeps the producer in step with its iterations. -/
theorem follows_handle {rs : List (Option Bytes)} (h : s.work.Follows parse redis rs .handling)
    (hs : s.handle parse = next t) (hlive : t.aborted = false) :
    t.work.Follows parse redis rs t.producer := by
  obtain ⟨-, rfl⟩ | ⟨hload, rfl⟩ | ⟨text, history, htext, hplain, hhistory, rfl⟩ :=
    handle_eq_next hs
  · cases hlive
  · exact h.load hload
  · exact h.remember htext hplain hhistory

/-- Replaying a message keeps the producer in step with its iterations. -/
theorem follows_replay {rs : List (Option Bytes)} {keys : List Bytes}
    (h : s.work.Follows parse redis rs (.replaying keys)) (hs : s.replay keys = next t) :
    t.work.Follows parse redis rs t.producer := by
  obtain ⟨rfl, rfl⟩ | ⟨key, rest, out, pool, rfl, hout, hpool, rfl⟩ := replay_eq_next hs
  · exact h.loaded
  · rw [Server.work, (given_returned_putData hpool).1]
    exact h.replay hout

/-- The consumer leaves the producer and its work alone. -/
theorem same_test {it : Addr} (hs : s.test it = next t) :
    t.work = s.work ∧ t.producer = s.producer := by
  obtain ⟨pool, hpool, rfl⟩ := test_eq_next hs
  exact ⟨by rw [Server.work, (given_returned_getData hpool).1]; rfl, rfl⟩

/-- Taking a message is no work of the producer. -/
theorem same_get {it : Addr} (hs : s.get it = next t) :
    t.work = s.work ∧ t.producer = s.producer := by
  obtain ⟨pool, consumer, hpool, -, rfl⟩ := get_eq_next hs
  exact ⟨by rw [Server.work, (given_returned_get hpool).1]; rfl, rfl⟩

/-- Sending a message is no work of the producer. -/
theorem same_send {it : Addr} {outmsg : Bytes} {ok : Bool} (hs : s.send it outmsg ok = next t) :
    t.work = s.work ∧ t.producer = s.producer := by
  obtain ⟨remote, -, ⟨-, rfl⟩ | ⟨-, rfl⟩⟩ := send_eq_next hs
  · exact ⟨rfl, rfl⟩
  · exact ⟨rfl, rfl⟩

/-- A step that does not end a call of `RecvData` goes on with the iteration. -/
theorem Server.Steps.follows_of_none {rs : List (Option Bytes)} (hs : s.Steps parse a t)
    (ha : a.receipt = none) (h : s.work.Follows parse redis rs s.producer)
    (hlive : t.aborted = false) : t.work.Follows parse redis rs t.producer := by
  cases hs with
  | recvFailed | recv => cases ha
  | put hs => exact follows_put h hs
  | handle hprod hs =>
    rw [hprod] at h
    exact follows_handle h hs hlive
  | replay hprod hs =>
    rw [hprod] at h
    exact follows_replay h hs
  | call | beginNobody | begin => exact h
  | test _ hs =>
    obtain ⟨hwork, hprod⟩ := same_test hs
    rwa [hwork, hprod]
  | get _ hs =>
    obtain ⟨hwork, hprod⟩ := same_get hs
    rwa [hwork, hprod]
  | send _ hs =>
    obtain ⟨hwork, hprod⟩ := same_send hs
    rwa [hwork, hprod]

/-- A step that ends a call of `RecvData` begins an iteration. -/
theorem Server.Steps.follows_of_some {rs : List (Option Bytes)} {received : Option Bytes}
    (hs : s.Steps parse a t) (ha : a.receipt = some received)
    (h : s.work.Follows parse redis rs s.producer) (hlive : t.aborted = false) :
    t.work.Follows parse redis (rs ++ [received]) t.producer := by
  cases hs with
  | recvFailed hprod =>
    cases ha
    rw [hprod] at h
    exact h.fail
  | recv hprod hs =>
    cases ha
    rw [hprod] at h
    exact follows_recv h hs hlive
  | _ => cases ha

/-- On every run the producer goes through iterations of `productRun` with the messages that
were received. -/
theorem follows_of_runs (h : Runs (Server.step parse) (.start slots redis) as s)
    (hlive : s.aborted = false) : s.work.Follows parse redis (receipts as) s.producer := by
  induction h with
  | nil => rfl
  | snoc _ hs ih =>
    obtain ⟨hlive', hsteps⟩ := steps_of_step hs
    rw [receipts_concat]
    cases ha : Action.receipt _ with
    | none =>
      rw [Option.toList_none, List.append_nil]
      exact hsteps.follows_of_none ha (ih hlive') hlive
    | some received => exact hsteps.follows_of_some ha (ih hlive') hlive

/-- When the producer receives again, its last iteration is complete. -/
theorem iterateAll_of_runs (h : Runs (Server.step parse) (.start slots redis) as s)
    (hlive : s.aborted = false) (hprod : s.producer = .receiving) :
    iterateAll parse redis (receipts as) = some s.work := by
  have hfollows := follows_of_runs h hlive
  rwa [hprod] at hfollows

/-- When every call of `RecvData` received a message and the producer receives again, the history
is that of the messages. -/
theorem history_of_runs {msgs : List Bytes}
    (h : Runs (Server.step parse) (.start slots redis) as s) (hlive : s.aborted = false)
    (hprod : s.producer = .receiving) (hreceipts : receipts as = msgs.map some) :
    ((History.fresh redis).handleAll parse msgs).map Prod.fst = some s.history := by
  rw [← history_iterateAll, ← hreceipts, iterateAll_of_runs h hlive hprod]
  rfl

end NetworkCode.LinuxChat
