import NetworkCode.Core.Potential
import NetworkCode.LinuxChat.Fifo
import NetworkCode.LinuxChat.Iterator
import NetworkCode.LinuxChat.Receiving

/-!
# From a datagram to the datagrams that are sent for it

The producer works through what it receives as if it were alone, and the consumer sends
the strings in the order in which they were put in the pool, each of them in one call of
`sendto`, to an endpoint that was registered at that time. Only calls of `sendto` that
fail lose a string, and the pool with the hands of the two threads bounds how many are
on their way.
-/

namespace NetworkCode.LinuxChat

open StepResult Text

variable {parse : Bytes → Json} {redis : Bytes → Option Bytes} {slots : List Bytes}
  {s t : Server} {a : Action} {as : List Action}

/-! ## The consumer -/

/-- The string that the consumer is about to send. -/
def Consumer.inHand : Consumer → List Bytes
  | .sending _ outmsg => [outmsg]
  | _ => []

/-- The result of `sendto` in an action. -/
def Action.sendResult : Action → Option Bool
  | .send ok => some ok
  | _ => none

/-- The results of `sendto` on a run. -/
def sendResults (as : List Action) : List Bool := as.filterMap Action.sendResult

/-- One more step, and the result of its `sendto` if it is one. -/
theorem sendResults_concat : sendResults (as ++ [a]) = sendResults as ++ a.sendResult.toList := by
  rw [sendResults, List.filterMap_append]
  cases h : a.sendResult <;> simp [sendResults, h]

/-- The strings that the consumer tried to send, each with the result of `sendto`, and the pool
that they came from. -/
structure Delivering (as : List Action) (s : Server) (tried : List (Bytes × Bool)) : Prop where
  results : tried.map Prod.snd = sendResults as
  returned : tried.map Prod.fst ++ s.consumer.inHand = s.pool.returned
  sent : s.sent.map Prod.snd = (tried.filter Prod.snd).map Prod.fst
  holds : ∃ queue, s.pool.Holds queue

/-- Nothing was tried at the beginning. -/
theorem delivering_start (hslots : slots.length = poolCap) :
    Delivering [] (.start slots redis) [] where
  results := rfl
  returned := rfl
  sent := rfl
  holds := ⟨[], holds_new hslots⟩

variable {tried : List (Bytes × Bool)}

/-- A step of anybody that is not a call of `sendto`. -/
theorem Delivering.move (h : Delivering as s tried) (ha : a.sendResult = none)
    (hreturned : s.pool.returned = tried.map Prod.fst ++ s.consumer.inHand →
      t.pool.returned = tried.map Prod.fst ++ t.consumer.inHand)
    (hsent : t.sent = s.sent) (hholds : ∃ queue, t.pool.Holds queue) :
    Delivering (as ++ [a]) t tried where
  results := by
    rw [sendResults_concat, ha, Option.toList_none, List.append_nil]
    exact h.results
  returned := (hreturned h.returned.symm).symm
  sent := by
    rw [hsent]
    exact h.sent
  holds := hholds

/-- A step that touches neither the pool nor what the consumer has in hand. -/
theorem Delivering.frame (h : Delivering as s tried) (ha : a.sendResult = none)
    (hpool : t.pool = s.pool) (hconsumer : t.consumer.inHand = s.consumer.inHand)
    (hsent : t.sent = s.sent) : Delivering (as ++ [a]) t tried :=
  h.move ha (by rw [hpool, hconsumer]; exact id) hsent (by rw [hpool]; exact h.holds)

/-- A step of the producer in the pool. -/
theorem Delivering.produce {pool : Pool Bytes} (h : Delivering as s tried)
    (ha : a.sendResult = none) (hpool : t.pool = pool) (hreturned : pool.returned = s.pool.returned)
    (hholds : ∀ queue, s.pool.Holds queue → ∃ queue, pool.Holds queue)
    (hconsumer : t.consumer = s.consumer) (hsent : t.sent = s.sent) :
    Delivering (as ++ [a]) t tried := by
  obtain ⟨queue, hqueue⟩ := h.holds
  refine h.move ha ?_ hsent (hpool ▸ hholds queue hqueue)
  rw [hpool, hreturned, hconsumer]
  exact id

/-- A step keeps the messages that were tried in the order of the pool. -/
theorem Delivering.step (h : Delivering as s tried) (hs : s.step parse a = next t) :
    ∃ tried, Delivering (as ++ [a]) t tried := by
  obtain ⟨-, hsteps⟩ := steps_of_step hs
  cases hsteps with
  | recvFailed => exact ⟨tried, h.frame rfl rfl rfl rfl⟩
  | recv _ hs =>
    obtain ⟨-, rfl⟩ | ⟨-, rfl⟩ | ⟨outmsg, users, pool, -, hpool, rfl⟩ := recv_eq_next hs
    · exact ⟨tried, h.frame rfl rfl rfl rfl⟩
    · exact ⟨tried, h.frame rfl rfl rfl rfl⟩
    · exact ⟨tried, h.produce rfl rfl (given_returned_putData hpool).2
        (fun queue hq => ⟨queue, hq.putData hpool⟩) rfl rfl⟩
  | put hs =>
    obtain ⟨-, pool, hpool, rfl⟩ := put_eq_next hs
    exact ⟨tried, h.produce rfl rfl (given_returned_put hpool).2 (fun _ hq => hq.put hpool) rfl rfl⟩
  | handle _ hs =>
    obtain ⟨-, rfl⟩ | ⟨-, rfl⟩ | ⟨-, history, -, -, -, rfl⟩ := handle_eq_next hs
    · exact ⟨tried, h.frame rfl rfl rfl rfl⟩
    · exact ⟨tried, h.frame rfl rfl rfl rfl⟩
    · exact ⟨tried, h.frame rfl rfl rfl rfl⟩
  | replay _ hs =>
    obtain ⟨-, rfl⟩ | ⟨-, -, out, pool, -, -, hpool, rfl⟩ := replay_eq_next hs
    · exact ⟨tried, h.frame rfl rfl rfl rfl⟩
    · exact ⟨tried, h.produce rfl rfl (given_returned_putData hpool).2
        (fun queue hq => ⟨queue, hq.putData hpool⟩) rfl rfl⟩
  | call hrest => exact ⟨tried, h.frame rfl rfl (by rw [hrest]; rfl) rfl⟩
  | beginNobody hstart _ => exact ⟨tried, h.frame rfl rfl (by rw [hstart]; rfl) rfl⟩
  | begin hstart _ => exact ⟨tried, h.frame rfl rfl (by rw [hstart]; rfl) rfl⟩
  | test hloop hs =>
    obtain ⟨pool, hpool, rfl⟩ := test_eq_next hs
    obtain ⟨queue, hqueue⟩ := h.holds
    refine ⟨tried, h.move rfl ?_ rfl ⟨queue, hqueue.getData hpool⟩⟩
    rw [hloop, (given_returned_getData hpool).2]
    exact id
  | @get it _ htake hs =>
    obtain ⟨pool, hpool, ht⟩ := bind_eq_next.mp hs
    cases ht
    obtain ⟨queue, hqueue⟩ := h.holds
    refine ⟨tried, h.move rfl ?_ rfl (hqueue.get hpool)⟩
    rw [htake, (given_returned_get hpool).2]
    intro hreturned
    rw [hreturned]
    cases hget : s.pool.getting <;> simp [Getting.returning, Consumer.inHand]
  | @send it outmsg ok _ hsend hs =>
    have hreturned := h.returned
    rw [hsend] at hreturned
    refine ⟨tried ++ [(outmsg, ok)], ?_⟩
    have hresults : (tried ++ [(outmsg, ok)]).map Prod.snd = sendResults (as ++ [.send ok]) := by
      rw [sendResults_concat, List.map_append, h.results]
      rfl
    obtain ⟨remote, -, ⟨rfl, rfl⟩ | ⟨rfl, rfl⟩⟩ := send_eq_next hs
    · refine ⟨hresults, ?_, ?_, h.holds⟩
      · rw [List.map_append, List.map_singleton, ← hreturned]
        exact List.append_nil _
      · rw [List.map_append, h.sent, List.filter_append, List.map_append]
        rfl
    · refine ⟨hresults, ?_, ?_, h.holds⟩
      · rw [List.map_append, List.map_singleton, ← hreturned]
        exact List.append_nil _
      · rw [h.sent, List.filter_append, List.map_append]
        exact (List.append_nil _).symm

/-- On every run the messages that were tried are the first ones that were given to the pool. -/
theorem delivering_of_runs (hslots : slots.length = poolCap)
    (h : Runs (Server.step parse) (.start slots redis) as s) :
    ∃ tried, Delivering as s tried := by
  induction h with
  | nil => exact ⟨[], delivering_start hslots⟩
  | snoc _ hs ih =>
    obtain ⟨tried, htried⟩ := ih
    exact htried.step hs

/-- What was given to the pool and not returned is in its slots or in the hands of its callers. -/
theorem backlog_le {α : Type*} {p : Pool α} {queue : List α} (h : p.Holds queue) :
    p.given.length ≤ p.returned.length + poolCap + 1 := by
  have hblank := h.blank
  have hpending : p.putting.pending.length ≤ 1 := by
    cases p.putting <;> simp [Putting.pending]
  have hheld : p.getting.held.length ≤ p.getting.unposted := by
    cases p.getting <;> simp [Getting.held, Getting.unposted]
  rw [h.given, h.stored, h.taken, List.length_append, List.length_append, List.length_append]
  rw [h.cap] at hblank
  omega

/-- However the threads interleave, the consumer sends the strings in the order in which they were
put in the pool, each in one call of `sendto`, and only what a failed call took is not sent. What
was put in the pool and not tried yet is bounded by its slots. Whenever the producer receives
again, what it put in the pool is what iterations of `productRun` on their own put there. -/
theorem delivered_in_order (hslots : slots.length = poolCap)
    (h : Runs (Server.step parse) (.start slots redis) as s) :
    (∃ tried : List (Bytes × Bool), tried.map Prod.snd = sendResults as ∧
      tried.map Prod.fst <+: s.pool.given ∧
      s.pool.given.length ≤ tried.length + poolCap + 2 ∧
      s.sent.map Prod.snd = (tried.filter Prod.snd).map Prod.fst) ∧
    (s.aborted = false → s.producer = .receiving →
      (iterateAll parse redis (receipts as)).map Work.given = some s.pool.given) := by
  obtain ⟨tried, htried⟩ := delivering_of_runs hslots h
  obtain ⟨queue, hqueue⟩ := htried.holds
  refine ⟨⟨tried, htried.results, ?_, ?_, htried.sent⟩, fun hlive hprod => ?_⟩
  · have hprefix : tried.map Prod.fst <+: s.pool.returned :=
      ⟨s.consumer.inHand, htried.returned⟩
    exact hprefix.trans hqueue.in_order
  · have hbacklog := backlog_le hqueue
    have hhand : s.consumer.inHand.length ≤ 1 := by
      cases s.consumer <;> simp [Consumer.inHand]
    rw [← htried.returned, List.length_append, List.length_map] at hbacklog
    omega
  · rw [iterateAll_of_runs h hlive hprod]
    rfl

/-- Two clients join, the message of the first is sent, a send fails, and a third message waits. -/
def lossyRun : List Action :=
  [.recv ⟨1, 5000⟩ (ascii "a"), .put, .put, .put, .put, .handle, .call, .begin, .test, .get, .get,
    .get, .get, .send true, .recv ⟨2, 5000⟩ (ascii "b"), .put, .put, .test, .put, .put, .handle,
    .get, .get, .get, .get, .send false, .recv ⟨1, 5000⟩ (ascii "c"), .put, .put, .put, .put,
    .handle]

theorem lossyRun_sent :
    (traceGuarded (Server.step parseQuit) (fun _ _ => True) (fun _ a => [a]) [] .fresh
      lossyRun).state?.map (fun r => (r.1, r.2.pool.given, r.2.sent)) =
    some (lossyRun, [ascii "a", ascii "b", ascii "c"],
      [(⟨1, 5000⟩, ascii "a")]) := by decide +kernel

/-- Of the two strings that were tried the second was not sent. -/
theorem delivered_in_order_lossyRun : ∃ s : Server, s.sent = [(⟨1, 5000⟩, ascii "a")] ∧
    s.pool.given = [ascii "a", ascii "b", ascii "c"] ∧ ∃ tried : List (Bytes × Bool),
      tried.map Prod.snd = [true, false] ∧ tried.map Prod.fst <+: s.pool.given ∧
        s.sent.map Prod.snd = (tried.filter Prod.snd).map Prod.fst := by
  obtain ⟨r, hrun, hsaw⟩ := exists_next_of_map lossyRun_sent
  simp only [Prod.mk.injEq] at hsaw
  obtain ⟨hactions, hgiven, hsent⟩ := hsaw
  have htrace := Traces.of_traceGuarded _ _ .nil hrun
  rw [hactions] at htrace
  obtain ⟨⟨tried, hresults, hprefix, -, htexts⟩, -⟩ :=
    delivered_in_order (List.length_replicate ..) htrace.runs
  exact ⟨r.2, hsent, hgiven, tried, hresults, hprefix, htexts⟩

/-! ## To whom -/

/-- Every string that was sent went to an endpoint whose latest datagram was not a QUIT then. -/
def SentToActive (parse : Bytes → Json) (as : List Action) (s : Server) : Prop :=
  ∀ r ∈ s.sent, ∃ before after, as = before ++ .send true :: after ∧
    Active parse (arrivals before) r.1

/-- A step that sends nothing. -/
theorem SentToActive.frame (h : SentToActive parse as s) (hsame : t.sent = s.sent) :
    SentToActive parse (as ++ [a]) t := by
  intro r hr
  rw [hsame] at hr
  obtain ⟨before, after, rfl, hactive⟩ := h r hr
  exact ⟨before, after ++ [a], by simp, hactive⟩

/-- On every run a string is sent to an endpoint that is registered, and so active. -/
theorem sentToActive_of_runs (h : Runs (Server.step parse) (.start slots redis) as s) :
    SentToActive parse as s := by
  induction h with
  | nil => exact fun r hr => absurd hr List.not_mem_nil
  | @snoc u v as a hruns hs ih =>
    obtain ⟨hlive, hsteps⟩ := steps_of_step hs
    cases hsteps with
    | recvFailed | call | beginNobody | begin => exact ih.frame rfl
    | recv _ hs =>
      obtain ⟨-, rfl⟩ | ⟨-, rfl⟩ | ⟨outmsg, users, pool, -, -, rfl⟩ := recv_eq_next hs
      · exact ih.frame rfl
      · exact ih.frame rfl
      · exact ih.frame rfl
    | put hs => exact ih.frame (sameAudience_put hs).sent
    | handle _ hs => exact ih.frame (sameAudience_handle hs).sent
    | replay _ hs => exact ih.frame (sameAudience_replay hs).sent
    | test _ hs =>
      obtain ⟨pool, -, rfl⟩ := test_eq_next hs
      exact ih.frame rfl
    | get _ hs =>
      obtain ⟨pool, consumer, -, -, rfl⟩ := get_eq_next hs
      exact ih.frame rfl
    | @send it outmsg ok _ _ hs =>
      obtain ⟨remote, hfind, ⟨rfl, rfl⟩ | ⟨-, rfl⟩⟩ := send_eq_next hs
      · intro r hr
        rcases List.mem_append.mp hr with hold | hnew
        · obtain ⟨before, after, rfl, hactive⟩ := ih r hold
          exact ⟨before, after ++ [.send true], by simp, hactive⟩
        · obtain rfl := List.mem_singleton.mp hnew
          exact ⟨as, [], rfl, ((heard_of_runs hruns hlive).registered it remote hfind).2⟩
      · exact ih.frame rfl

/-- On every run in which no QUIT erases the entry the iterator of `broadCast` is at, every string
went to an endpoint whose latest datagram was not a QUIT then, and a string that is about to be
sent goes to such an endpoint too: no call of `sendto` uses an erased entry. -/
theorem sent_to_active
    (h : Traces (Server.step parse) (Server.Spares parse) (fun _ a => [a]) (.start slots redis)
      as s) :
    SentToActive parse as s ∧ ∀ it outmsg, s.aborted = false → s.consumer = .sending it outmsg →
      (∃ remote, s.users.find it = some remote ∧ Active parse (arrivals as) remote) ∧
        ∀ ok, s.step parse (.send ok) ≠ undefined := by
  refine ⟨sentToActive_of_runs h.runs, fun it outmsg hlive hsend => ?_⟩
  have hit : s.consumer.iterator = some it := by
    rw [hsend]
    rfl
  obtain ⟨notes, hnotes⟩ := h.reaches.exists_traces Server.note
  obtain ⟨-, remote, hfind⟩ := (iterating_of_traces hnotes hlive).held it hit
  refine ⟨⟨remote, hfind, ((heard_of_runs h.runs hlive).registered it remote hfind).2⟩,
    fun ok => ?_⟩
  rw [Server.step, hlive, hsend]
  simp only [Bool.false_eq_true, if_false, Server.send, hfind]
  split <;> rintro ⟨⟩

theorem lossyRun_spares :
    (traceGuarded (Server.step parseQuit) (Server.Spares parseQuit) (fun _ a => [a]) [] .fresh
      lossyRun).state?.map (fun r => (r.1, r.2.sent)) =
    some (lossyRun, [(⟨1, 5000⟩, ascii "a")]) := by decide +kernel

/-- The one string that was sent went to the client that had sent it. -/
theorem sent_to_active_lossyRun : ∃ s : Server, s.sent = [(⟨1, 5000⟩, ascii "a")] ∧
    ∃ before after, lossyRun = before ++ .send true :: after ∧
      Active parseQuit (arrivals before) ⟨1, 5000⟩ := by
  obtain ⟨r, hrun, hsaw⟩ := exists_next_of_map lossyRun_spares
  simp only [Prod.mk.injEq] at hsaw
  obtain ⟨hactions, hsent⟩ := hsaw
  have htrace := Traces.of_traceGuarded _ _ .nil hrun
  rw [hactions] at htrace
  refine ⟨r.2, hsent, (sent_to_active htrace).1 (⟨1, 5000⟩, ascii "a") ?_⟩
  rw [hsent]
  exact List.mem_singleton_self _

end NetworkCode.LinuxChat
