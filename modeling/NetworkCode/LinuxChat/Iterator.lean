import NetworkCode.LinuxChat.Producer

/-!
# The iterator of a broadcast

The consumer keeps the iterator of `broadCast` while it waits for the pool, and the producer
erases from `userlist` without asking. A map keeps its entries in place, so an iterator is
good until its own entry is erased. An entry that is inserted later for the same address is
another one.
-/

namespace NetworkCode.LinuxChat

open StepResult Text

/-! ## The entry an iterator is at -/

/-- What is noted of a run. -/
inductive Note where
  /-- `it = userlist.begin()`, which is the entry with this key. -/
  | begun (it : Addr)
  | arrived (remote : Endpoint) (datagram : Bytes)

/-- What is noted of a step. -/
def Server.note (s : Server) : Action → List Note
  | .begin => s.users.first.toList.map .begun
  | .recv remote datagram => [.arrived remote datagram]
  | _ => []

/-- The datagrams that arrived. -/
def arrived (notes : List Note) : List (Endpoint × Bytes) :=
  notes.filterMap fun
    | .begun _ => none
    | .arrived remote datagram => some (remote, datagram)

/-- The entry of the iterator behind one more note: a QUIT erases that of its address. -/
def hold (parse : Bytes → Json) (entry : Option Addr) : Note → Option Addr
  | .begun it => some it
  | .arrived remote datagram =>
    if IsQuit parse datagram ∧ entry = some remote.addr then none else entry

/-- The entry to which the iterator was set, unless it was erased since. -/
def held (parse : Bytes → Json) (notes : List Note) : Option Addr :=
  notes.foldl (hold parse) none

/-- The iterator denotes an entry of `userlist`: it was not erased since the iterator was set, and
its client is one whose latest datagram is not a QUIT. -/
structure Server.Denotes (parse : Bytes → Json) (notes : List Note) (s : Server) (it : Addr) :
    Prop where
  held : held parse notes = some it
  registered : ∃ remote, s.users.find it = some remote ∧ Active parse (arrived notes) remote

/-- While the process lives, the iterator of `broadCast` denotes an entry wherever it is kept: when
it is compared, when the entry is sent to, and before that. -/
def IteratorValid (parse : Bytes → Json) (notes : List Note) (s : Server) : Prop :=
  s.aborted = false → ∀ it, s.consumer.iterator = some it → s.Denotes parse notes it

/-- No QUIT erases the entry the iterator of `broadCast` is at. -/
def Server.Spares (parse : Bytes → Json) (s : Server) : Action → Prop
  | .recv remote datagram =>
    ¬ (IsQuit parse datagram ∧ s.consumer.iterator = some remote.addr)
  | _ => True

instance decidableSpares (parse : Bytes → Json) (s : Server) (a : Action) :
    Decidable (s.Spares parse a) :=
  match a with
  | .recv remote datagram => inferInstanceAs
      (Decidable (¬ (IsQuit parse datagram ∧ s.consumer.iterator = some remote.addr)))
  | .recvFailed | .put | .handle | .replay | .call | .begin | .test | .get | .send _ =>
    .isTrue trivial

variable {parse : Bytes → Json} {redis : Bytes → Option Bytes} {slots : List Bytes}
  {s t : Server} {a : Action} {notes : List Note} {it : Addr} {remote : Endpoint}
  {datagram : Bytes}

/-- One more note, and what it does to the entry that is held. -/
theorem held_concat (note : Note) : held parse (notes ++ [note]) =
    hold parse (held parse notes) note := by
  rw [held, List.foldl_concat]
  rfl

/-- The datagrams of two stretches of a run. -/
theorem arrived_append (new : List Note) : arrived (notes ++ new) = arrived notes ++ arrived new :=
  List.filterMap_append

/-! ## What the steps do to it -/

/-- A datagram leaves the consumer where it is. -/
theorem consumer_recv (hs : s.recv parse remote datagram = next t) : t.consumer = s.consumer := by
  obtain ⟨-, rfl⟩ | ⟨-, rfl⟩ | ⟨outmsg, users, pool, -, -, rfl⟩ := recv_eq_next hs
  · rfl
  · rfl
  · rfl

/-- Only `begin` sets the iterator. -/
theorem Server.Steps.iterator_eq (hs : s.Steps parse a t) (ha : a ≠ .begin)
    (hit : t.consumer.iterator = some it) : s.consumer.iterator = some it := by
  cases hs with
  | recvFailed => exact hit
  | recv _ hs => rwa [consumer_recv hs] at hit
  | put hs => rwa [(sameAudience_put hs).consumer] at hit
  | handle _ hs => rwa [(sameAudience_handle hs).consumer] at hit
  | replay _ hs => rwa [(sameAudience_replay hs).consumer] at hit
  | call => cases hit
  | beginNobody | begin => exact absurd rfl ha
  | test hcons hs =>
    obtain ⟨pool, -, rfl⟩ := test_eq_next hs
    rw [hcons]
    exact hit
  | get hcons hs =>
    obtain ⟨pool, consumer, -, rfl | ⟨outmsg, rfl⟩, rfl⟩ := get_eq_next hs
    · rw [hcons]
      exact hit
    · rw [hcons]
      exact hit
  | send hcons hs =>
    obtain ⟨remote, -, ⟨-, rfl⟩ | ⟨-, rfl⟩⟩ := send_eq_next hs
    · rw [hcons]
      exact hit
    · cases hit

/-- The law of the user list, and the iterator of `broadCast` is at an entry that was not erased
since it was set. -/
structure Iterating (parse : Bytes → Json) (notes : List Note) (s : Server) : Prop where
  heard : Heard parse (arrived notes) s.users
  held : ∀ it, s.consumer.iterator = some it →
    held parse notes = some it ∧ ∃ remote, s.users.find it = some remote

/-- There is no iterator at the beginning. -/
theorem iterating_start : Iterating parse [] (.start slots redis) where
  heard := heard_nil
  held it hit := by cases hit

/-- A step with nothing to note. -/
theorem Iterating.quiet (h : Iterating parse notes s) (husers : t.users = s.users)
    (hit : ∀ it, t.consumer.iterator = some it → s.consumer.iterator = some it) :
    Iterating parse (notes ++ []) t := by
  rw [List.append_nil]
  refine ⟨husers ▸ h.heard, fun it hkept => ?_⟩
  rw [husers]
  exact h.held it (hit it hkept)

/-- The iterator is set to the first entry. -/
theorem Iterating.begin (h : Iterating parse notes s) (hfirst : s.users.first = some it) :
    Iterating parse (notes ++ [.begun it]) { s with consumer := .looping it } where
  heard := by
    rw [arrived_append]
    exact (List.append_nil (arrived notes)).symm ▸ h.heard
  held it' hit := by
    obtain rfl : it = it' := Option.some.inj hit
    exact ⟨held_concat _, OrderedMap.exists_find_of_first hfirst⟩

/-- A datagram changes nothing for the entry of the iterator, unless it is its QUIT. -/
theorem Iterating.recv (h : Iterating parse notes s) (hok : s.Spares parse (.recv remote datagram))
    (hs : s.recv parse remote datagram = next t) (hlive : t.aborted = false) :
    Iterating parse (notes ++ [.arrived remote datagram]) t := by
  have husers := users_recv hs hlive
  refine ⟨?_, fun it hit => ?_⟩
  · rw [arrived_append]
    exact (h.heard.recvData (a := (remote, datagram)) husers).2
  · rw [consumer_recv hs] at hit
    obtain ⟨hheld, user, hfind⟩ := h.held it hit
    have hspared : ¬ (IsQuit parse datagram ∧ it = remote.addr) := by
      rintro ⟨hquit, rfl⟩
      exact hok ⟨hquit, hit⟩
    refine ⟨?_, ?_⟩
    · rw [held_concat, hheld, hold, if_neg]
      rintro ⟨hquit, hsame⟩
      exact hspared ⟨hquit, Option.some.inj hsame⟩
    · obtain ⟨-, ⟨-, he⟩ | ⟨hquit, he⟩ | ⟨-, -, he⟩⟩ := users_recvData.mp husers
      · exact ⟨user, he ▸ hfind⟩
      · rw [he, OrderedMap.find_erase, if_neg fun hsame => hspared ⟨hquit, hsame⟩]
        exact ⟨user, hfind⟩
      · rw [he, OrderedMap.find_insert]
        split
        · exact ⟨_, rfl⟩
        · exact ⟨user, hfind⟩

/-- A step that spares the entry of the iterator keeps it in the map. -/
theorem Iterating.step (h : Iterating parse notes s) (hok : s.Spares parse a)
    (hs : s.step parse a = next t) (hlive : t.aborted = false) :
    Iterating parse (notes ++ s.note a) t := by
  obtain ⟨-, hsteps⟩ := steps_of_step hs
  have hquiet (hnote : s.note a = []) (ha : a.arrival = none) (hne : a ≠ .begin) :
      Iterating parse (notes ++ s.note a) t := by
    rw [hnote]
    exact h.quiet (hsteps.users_eq ha) fun it => hsteps.iterator_eq hne
  cases hsteps with
  | recv _ hs => exact h.recv hok hs hlive
  | beginNobody _ hfirst =>
    rw [Server.note, hfirst]
    exact h.quiet rfl fun it hit => by cases hit
  | begin _ hfirst =>
    rw [Server.note, hfirst]
    exact h.begin hfirst
  | _ => exact hquiet rfl rfl (by rintro ⟨⟩)

/-! ## When it is valid -/

/-- As long as the process lives, the invariant holds on every run that spares the entry. -/
theorem iterating_of_traces
    (h : Traces (Server.step parse) (Server.Spares parse) Server.note (.start slots redis) notes s)
    (hlive : s.aborted = false) : Iterating parse notes s := by
  revert hlive
  apply h.invariant
  · exact fun _ => iterating_start
  · intro notes t a u ht hok hs hlive
    exact (ht (steps_of_step hs).1).step hok hs hlive

/-- The iterator denotes an entry of the map. -/
theorem Iterating.denotes (h : Iterating parse notes s) (hit : s.consumer.iterator = some it) :
    s.Denotes parse notes it := by
  obtain ⟨hheld, remote, hfind⟩ := h.held it hit
  exact ⟨hheld, remote, hfind, (h.heard.registered it remote hfind).2⟩

/-- A QUIT erases the entry of its address. -/
theorem recv_quit (hquit : IsQuit parse datagram) (hs : s.recv parse remote datagram = next t) :
    t.aborted = s.aborted ∧ t.users = s.users.erase remote.addr := by
  unfold Server.recv at hs
  by_cases hlen : datagram.length < recvSize
  · rw [recvData_of_lt hquit.1 hlen, hquit.2] at hs
    obtain ⟨pool, -, ht⟩ := bind_eq_next.mp hs
    cases ht
    exact ⟨rfl, rfl⟩
  · rw [recvData_of_recvSize_le (Nat.not_lt.mp hlen)] at hs
    cases hs

/-- The QUIT of the entry leaves the iterator at nothing. -/
theorem not_valid_of_not_spares (hspares : ¬ s.Spares parse a) (hs : s.step parse a = next t)
    (notes : List Note) : ¬ IteratorValid parse notes t := by
  obtain ⟨hlive, hsteps⟩ := steps_of_step hs
  cases hsteps with
  | @recv remote datagram _ _ hs =>
    obtain ⟨hquit, hit⟩ := not_not.mp hspares
    obtain ⟨haborted, husers⟩ := recv_quit hquit hs
    rw [← consumer_recv hs] at hit
    intro hvalid
    obtain ⟨user, hfind, -⟩ := (hvalid (haborted.trans hlive) _ hit).registered
    rw [husers, OrderedMap.find_erase, if_pos rfl] at hfind
    cases hfind
  | _ => exact absurd trivial hspares

/-- In every interleaving in which no QUIT erases the entry the iterator of `broadCast` is at, the
iterator denotes an entry and what it is sent to is a client that did not quit. The next step
keeps this exactly when it meets the condition too. -/
theorem iterator_valid {notes : List Note} {s : Server}
    (h : Traces (Server.step parse) (Server.Spares parse) Server.note (.start slots redis)
      notes s) :
    IteratorValid parse notes s ∧ ∀ a t, s.step parse a = next t →
      (IteratorValid parse (notes ++ s.note a) t ↔ s.Spares parse a) := by
  have hvalid {notes : List Note} {s : Server} (h : Traces (Server.step parse)
      (Server.Spares parse) Server.note (.start slots redis) notes s) :
      IteratorValid parse notes s :=
    fun hlive it hit => (iterating_of_traces h hlive).denotes hit
  refine ⟨hvalid h, fun a t hs => ⟨fun hnext => ?_, fun hok => hvalid (h.snoc hok hs)⟩⟩
  by_contra hspares
  exact not_valid_of_not_spares hspares hs _ hnext

/-- A client joins and the consumer waits for its message, another client comes and leaves, and
the message is sent. -/
def sparingRun : List Action :=
  [.recv ⟨1, 5000⟩ (ascii "a"), .put, .put, .put, .put, .handle, .call, .begin, .test,
    .recv ⟨2, 5000⟩ quitText, .get, .get, .get, .get, .send true]

theorem sparingRun_sent :
    (traceGuarded (Server.step parseQuit) (Server.Spares parseQuit) Server.note [] .fresh
      sparingRun).state?.map (fun r => (r.2.aborted, r.2.consumer, r.2.sent)) =
    some (false, .looping 1, [(⟨1, 5000⟩, ascii "a")]) := by decide +kernel

/-- A client quits while the iterator is at the entry of another one. -/
theorem iterator_valid_sparingRun : ∃ notes s,
    Traces (Server.step parseQuit) (Server.Spares parseQuit) Server.note .fresh notes s ∧
      s.sent = [(⟨1, 5000⟩, ascii "a")] ∧ s.Denotes parseQuit notes 1 := by
  obtain ⟨r, hrun, hsaw⟩ := exists_next_of_map sparingRun_sent
  simp only [Prod.mk.injEq] at hsaw
  obtain ⟨hlive, hconsumer, hsent⟩ := hsaw
  have htrace := Traces.of_traceGuarded _ _ .nil hrun
  refine ⟨r.1, r.2, htrace, hsent, (iterator_valid htrace).1 hlive 1 ?_⟩
  rw [hconsumer]
  rfl

/-- The consumer is about to send to a client when the QUIT of the client is handled. -/
def quitBeforeSend : List Action :=
  [.recv ⟨1, 5000⟩ (ascii "a"), .put, .put, .put, .put, .handle, .call, .begin, .test,
    .get, .get, .get, .get, .recv ⟨1, 5000⟩ quitText]

theorem quitBeforeSend_consumer :
    (traceGuarded (Server.step parseQuit) (fun _ _ => True) Server.note [] .fresh
      quitBeforeSend).state?.map (fun r => (r.2.aborted, r.2.consumer, r.2.users.values)) =
    some (false, .sending 1 (ascii "a"), []) := by decide +kernel

/-- It then sends through an iterator whose entry was erased. -/
theorem erased_entry_is_used : ∃ notes s,
    Traces (Server.step parseQuit) (fun _ _ => True) Server.note .fresh notes s ∧
      s.consumer = .sending 1 (ascii "a") ∧ s.users.find 1 = none ∧
      s.step parseQuit (.send true) = undefined ∧ ¬ IteratorValid parseQuit notes s := by
  obtain ⟨r, hrun, hsaw⟩ := exists_next_of_map quitBeforeSend_consumer
  simp only [Prod.mk.injEq] at hsaw
  obtain ⟨hlive, hconsumer, husers⟩ := hsaw
  have hfind : r.2.users.find 1 = none := by
    by_contra hsome
    obtain ⟨remote, hremote⟩ := Option.ne_none_iff_exists'.mp hsome
    have hmem := OrderedMap.mem_values.mpr ⟨1, hremote⟩
    rw [husers] at hmem
    cases hmem
  refine ⟨r.1, r.2, Traces.of_traceGuarded _ _ .nil hrun, hconsumer, hfind, ?_, fun hvalid => ?_⟩
  · rw [Server.step, hlive, hconsumer]
    simp only [Bool.false_eq_true, if_false, Server.send, hfind]
  · obtain ⟨user, huser, -⟩ := (hvalid hlive 1 (by rw [hconsumer]; rfl)).registered
    rw [hfind] at huser
    cases huser

end NetworkCode.LinuxChat
