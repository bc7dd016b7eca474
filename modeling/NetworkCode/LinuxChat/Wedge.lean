import NetworkCode.LinuxChat.Registration
import NetworkCode.LinuxChat.Threads

/-!
# When the server wedges

Nobody takes a message out of the pool while nobody is registered, and nobody is registered
while the producer waits for a free slot. The server stays out of that state exactly as long
as it receives what leaves nobody registered only with room in the pool for all that it is
going to put in.
-/

namespace NetworkCode.LinuxChat

open StepResult Text

/-! ## The steps of the pool -/

section

variable {α : Type*} {p q : Pool α}

/-- A slot is not claimed yet. -/
def Putting.waits : Putting α → Nat
  | .waiting _ => 1
  | _ => 0

/-- A call of `PutData` claims no place yet. -/
theorem Pool.putData_eq_next {inmsg : α}
    (h : p.putData inmsg = next q) :
    p.putting = .out ∧ q.putting = .waiting inmsg ∧ q.blank = p.blank := by
  unfold Pool.putData at h
  split at h
  · rename_i hput
    cases h
    exact ⟨hput, rfl, rfl⟩
  · cases h

/-- A step of `PutData` takes one of the free slots if it waited for one. -/
theorem Pool.put_eq_next (h : p.put = next q) :
    q.putting.waits = 0 ∧ q.blank + p.putting.waits = p.blank := by
  unfold Pool.put at h
  cases hput : p.putting with
  | out => simp [hput] at h
  | waiting inmsg =>
    simp only [hput] at h
    split at h
    · cases h
      exact ⟨rfl, Nat.sub_add_cancel ‹_›⟩
    · cases h
  | writing inmsg =>
    simp only [hput] at h
    split at h
    · cases h
      exact ⟨rfl, rfl⟩
    · cases h
  | stepping =>
    simp only [hput, next.injEq] at h
    subst h
    exact ⟨rfl, rfl⟩
  | posting =>
    simp only [hput, next.injEq] at h
    subst h
    exact ⟨rfl, rfl⟩

/-- A call of `GetData` frees no place yet. -/
theorem Pool.getData_eq_next (h : p.getData = next q) :
    q.putting = p.putting ∧ q.blank = p.blank := by
  unfold Pool.getData at h
  split at h
  · cases h
    exact ⟨rfl, rfl⟩
  · cases h

/-- A step of `GetData` takes no place away. -/
theorem Pool.get_eq_next (h : p.get = next q) :
    q.putting = p.putting ∧ p.blank ≤ q.blank := by
  unfold Pool.get at h
  split at h
  · cases h
  · split at h
    · cases h
      exact ⟨rfl, le_rfl⟩
    · cases h
  · obtain ⟨outmsg, -, hq⟩ := bind_eq_next.mp h
    cases hq
    exact ⟨rfl, le_rfl⟩
  · cases h
    exact ⟨rfl, le_rfl⟩
  · cases h
    exact ⟨rfl, Nat.le_succ _⟩

end

variable {parse : Bytes → Json} {s t : Server} {a : Action}

/-! ## What the producer still has to put in -/

/-- The producer waits for a free slot, and nobody is registered. -/
def Server.Wedged (s : Server) : Prop := s.pool.PutBlocked ∧ s.users.entries = []

/-- How many strings the LOAD branch puts in the pool for this message. -/
def Server.burst (parse : Bytes → Json) (s : Server) (msg : Bytes) : Nat :=
  if msgField parse msg = some (ascii "LOAD") then s.history.session.length else 0

/-- How many strings the producer has not yet called `PutData` with. -/
def Server.left (parse : Bytes → Json) (s : Server) : Nat :=
  match s.producer with
  | .receiving => 0
  | .putting | .handling => s.burst parse s.msg
  | .replaying keys | .replayPutting keys => keys.length

/-- How many slots the producer still claims before it receives again. -/
def Server.need (parse : Bytes → Json) (s : Server) : Nat := s.pool.putting.waits + s.left parse

/-- What leaves nobody registered is received only with room in the pool: a failed receive while
nobody is registered, and a QUIT when nobody else is. -/
def Server.HasRoom (parse : Bytes → Json) (s : Server) : Action → Prop
  | .recvFailed => s.users.entries = [] → s.burst parse s.msg ≤ s.pool.blank
  | .recv remote datagram =>
    if datagram = [] then s.users.entries = [] → s.burst parse s.msg ≤ s.pool.blank
    else IsQuit parse datagram → (∀ e ∈ s.users.entries, e.1 = remote.addr) →
      1 + s.burst parse (cstr datagram) ≤ s.pool.blank
  | _ => True

instance (datagram : Bytes) : Decidable (IsQuit parse datagram) :=
  inferInstanceAs (Decidable (_ ∧ _))

instance (s : Server) (a : Action) : Decidable (s.HasRoom parse a) :=
  match a with
  | .recvFailed => inferInstanceAs (Decidable (_ → _))
  | .recv _ datagram =>
    if h : datagram = [] then
      decidable_of_iff (s.users.entries = [] → s.burst parse s.msg ≤ s.pool.blank)
        (Iff.of_eq (if_pos h).symm)
    else
      decidable_of_iff
        (IsQuit parse datagram → (∀ e ∈ s.users.entries, e.1 = _) →
          1 + s.burst parse (cstr datagram) ≤ s.pool.blank)
        (Iff.of_eq (if_neg h).symm)
  | .put | .handle | .replay | .call | .begin | .test | .get | .send _ =>
    inferInstanceAs (Decidable True)

/-- While nobody is registered, the pool has room for all that the producer puts in. -/
structure Server.Roomy (parse : Bytes → Json) (s : Server) : Prop where
  idle : s.pool.putting ≠ .out → s.producer.InPut
  room : s.users.entries = [] → s.need parse ≤ s.pool.blank

/-- A server with room is not wedged. -/
theorem Server.Roomy.not_wedged (h : s.Roomy parse) : ¬ s.Wedged := by
  rintro ⟨⟨⟨inmsg, hput⟩, hblank⟩, husers⟩
  have hroom := h.room husers
  rw [Server.need, hput, hblank] at hroom
  simp only [Putting.waits] at hroom
  omega

/-- There is room at the beginning. -/
theorem roomy_start {slots : List Bytes} {redis : Bytes → Option Bytes} :
    (Server.start slots redis).Roomy parse where
  idle h := absurd rfl h
  room _ := by
    change 0 + 0 ≤ poolCap
    decide

/-! ## The steps of the server -/

/-- What the steps of the consumer leave to the producer. -/
structure Server.SameWork (s t : Server) : Prop where
  users : t.users = s.users
  history : t.history = s.history
  msg : t.msg = s.msg
  producer : t.producer = s.producer
  putting : t.pool.putting = s.pool.putting
  blank : s.pool.blank ≤ t.pool.blank

/-- The producer has room as long as its own work and the places stay the same. -/
theorem Server.Roomy.frame (h : s.Roomy parse) (hsame : s.SameWork t) : t.Roomy parse where
  idle hput := by
    rw [hsame.putting] at hput
    rw [hsame.producer]
    exact h.idle hput
  room husers := by
    rw [hsame.users] at husers
    refine Nat.le_trans ?_ (Nat.le_trans (h.room husers) hsame.blank)
    simp only [Server.need, Server.left, Server.burst, hsame.producer, hsame.putting, hsame.msg,
      hsame.history]
    exact le_rfl

/-- Testing the iterator is no work of the producer. -/
theorem sameWork_test {it : Addr} (hs : s.test it = next t) : s.SameWork t := by
  obtain ⟨pool, hpool, rfl⟩ := test_eq_next hs
  obtain ⟨hput, hblank⟩ := Pool.getData_eq_next hpool
  exact ⟨rfl, rfl, rfl, rfl, hput, hblank.ge⟩

/-- Taking a message takes no place away. -/
theorem sameWork_get {it : Addr} (hs : s.get it = next t) : s.SameWork t := by
  obtain ⟨pool, consumer, hpool, -, rfl⟩ := get_eq_next hs
  obtain ⟨hput, hblank⟩ := Pool.get_eq_next hpool
  exact ⟨rfl, rfl, rfl, rfl, hput, hblank⟩

/-- Sending a message takes no place away. -/
theorem sameWork_send {it : Addr} {outmsg : Bytes} {ok : Bool} (hs : s.send it outmsg ok = next t) :
    s.SameWork t := by
  obtain ⟨remote, -, ⟨-, rfl⟩ | ⟨-, rfl⟩⟩ := send_eq_next hs
  · exact ⟨rfl, rfl, rfl, rfl, rfl, le_rfl⟩
  · exact ⟨rfl, rfl, rfl, rfl, rfl, le_rfl⟩

/-- A producer that receives is not in a call of `PutData`. -/
theorem Server.Roomy.putting_out (h : s.Roomy parse) (hprod : ¬ s.producer.InPut) :
    s.pool.putting = .out := by
  by_contra hput
  exact hprod (h.idle hput)

/-- A receive that fails leaves the message of the last one. -/
theorem Server.Roomy.recvFailed (h : s.Roomy parse) (hprod : s.producer = .receiving)
    (hroom : s.users.entries = [] → s.burst parse s.msg ≤ s.pool.blank) :
    ({ s with producer := .handling } : Server).Roomy parse := by
  have hout := h.putting_out (by rw [hprod]; exact id)
  refine ⟨fun hput => absurd hout hput, fun husers => ?_⟩
  simp only [Server.need, hout, Putting.waits, Nat.zero_add]
  exact hroom husers

/-- Behind a message that is no QUIT somebody is registered. -/
theorem entries_register {users : UserList} {remote : Endpoint} {cmd : Bytes}
    (h : (register users remote cmd).entries = []) :
    cmd = ascii "QUIT" ∧ ∀ e ∈ users.entries, e.1 = remote.addr := by
  unfold register at h
  split at h
  · rename_i hquit
    refine ⟨hquit, fun e he => ?_⟩
    by_contra hne
    have hmem : e ∈ (users.erase remote.addr).entries :=
      List.mem_filter.mpr ⟨he, by simpa using hne⟩
    rw [h] at hmem
    cases hmem
  · have hfind : (users.insert remote.addr remote).find remote.addr = none := by
      rw [OrderedMap.find, h]
      rfl
    rw [OrderedMap.find_insert, if_pos rfl] at hfind
    cases hfind

/-- Receiving fails on an empty datagram only. -/
theorem recvData_eq_failed {users : UserList} {remote : Endpoint} {datagram : Bytes}
    (h : recvData parse users remote datagram = .failed) : datagram = [] := by
  by_contra hnil
  by_cases hlen : datagram.length < recvSize
  · rw [recvData_of_lt hnil hlen] at h
    split at h <;> cases h
  · rw [recvData_of_recvSize_le (Nat.not_lt.mp hlen)] at h
    cases h

/-- What is received is the string in the buffer, and its command can be read. -/
theorem recvData_eq_received {users users' : UserList} {remote : Endpoint}
    {datagram outmsg : Bytes} (h : recvData parse users remote datagram = .received outmsg users') :
    datagram ≠ [] ∧ outmsg = cstr datagram ∧
      ∃ cmd, (parse (cstr datagram)).field (ascii "cmd") = some cmd ∧
        users' = register users remote cmd := by
  by_cases hnil : datagram = []
  · rw [hnil, recvData_nil] at h
    cases h
  · by_cases hlen : datagram.length < recvSize
    · rw [recvData_of_lt hnil hlen] at h
      split at h
      · cases h
      · rename_i cmd hcmd
        cases h
        exact ⟨hnil, rfl, cmd, hcmd, rfl⟩
    · rw [recvData_of_recvSize_le (Nat.not_lt.mp hlen)] at h
      cases h

/-- A datagram for which there is room leaves room. -/
theorem Server.Roomy.recv {remote : Endpoint} {datagram : Bytes} (h : s.Roomy parse)
    (hprod : s.producer = .receiving) (hok : s.HasRoom parse (.recv remote datagram))
    (hs : s.recv parse remote datagram = next t) : t.Roomy parse := by
  obtain ⟨hfailed, rfl⟩ | ⟨-, rfl⟩ | ⟨outmsg, users, pool, hreceived, hpool, rfl⟩ :=
    recv_eq_next hs
  · refine h.recvFailed hprod ?_
    simpa only [Server.HasRoom, if_pos (recvData_eq_failed hfailed)] using hok
  · exact ⟨h.idle, h.room⟩
  · obtain ⟨hnil, rfl, cmd, hcmd, rfl⟩ := recvData_eq_received hreceived
    obtain ⟨-, hput, hblank⟩ := Pool.putData_eq_next hpool
    refine ⟨fun _ => trivial, fun husers => ?_⟩
    obtain ⟨rfl, hothers⟩ := entries_register husers
    simp only [Server.HasRoom, if_neg hnil] at hok
    have hroom := hok ⟨hnil, hcmd⟩ hothers
    simpa only [Server.need, Server.left, Server.burst, hput, Putting.waits, hblank] using hroom

/-- A step of `PutData` moves the producer only when it returns. -/
theorem afterPut_of_ne_out {producer : Producer} {putting : Putting Bytes}
    (h : putting ≠ .out) : producer.afterPut putting = producer := by
  cases putting with
  | out => exact absurd rfl h
  | _ => rfl

/-- What the producer has left to put behind a step into the pool. -/
theorem left_afterPut {pool : Pool Bytes} (h : s.producer.InPut) :
    Server.left parse { s with pool, producer := s.producer.afterPut pool.putting } =
      s.left parse := by
  by_cases hput : pool.putting = .out
  · cases hprod : s.producer with
    | putting => simp only [Server.left, hprod, hput, Producer.afterPut, Server.burst]
    | replayPutting keys => simp only [Server.left, hprod, hput, Producer.afterPut]
    | _ =>
      rw [hprod] at h
      cases h
  · simp only [Server.left, afterPut_of_ne_out hput, Server.burst]

/-- A step into the pool uses the place that was left for it. -/
theorem Server.Roomy.put (h : s.Roomy parse) (hs : s.put = next t) : t.Roomy parse := by
  obtain ⟨hin, pool, hpool, rfl⟩ := put_eq_next hs
  obtain ⟨hwaits, hblank⟩ := Pool.put_eq_next hpool
  refine ⟨fun hput => ?_, fun husers => ?_⟩
  · rw [afterPut_of_ne_out hput]
    exact hin
  · have hroom := h.room husers
    rw [Server.need] at hroom ⊢
    rw [left_afterPut hin, hwaits]
    dsimp only
    omega

/-- Handling a message leaves room for what it replays. -/
theorem Server.Roomy.handle (h : s.Roomy parse) (hprod : s.producer = .handling)
    (hs : s.handle parse = next t) : t.Roomy parse := by
  have hout := h.putting_out (by rw [hprod]; exact id)
  obtain ⟨-, rfl⟩ | ⟨hload, rfl⟩ | ⟨-, history, -, -, -, rfl⟩ := handle_eq_next hs
  · exact ⟨h.idle, h.room⟩
  · refine ⟨fun hput => absurd hout hput, fun husers => ?_⟩
    have hroom := h.room husers
    simp only [Server.need, Server.left, hprod, Server.burst, hload, if_pos] at hroom
    exact hroom
  · refine ⟨fun hput => absurd hout hput, fun _ => ?_⟩
    simp only [Server.need, hout, Putting.waits, Server.left]
    exact Nat.zero_le _

/-- A replayed message uses the place that was left for it. -/
theorem Server.Roomy.replay {keys : List Bytes} (h : s.Roomy parse)
    (hprod : s.producer = .replaying keys) (hs : s.replay keys = next t) : t.Roomy parse := by
  have hout := h.putting_out (by rw [hprod]; exact id)
  obtain ⟨-, rfl⟩ | ⟨key, rest, out, pool, rfl, -, hpool, rfl⟩ := replay_eq_next hs
  · refine ⟨fun hput => absurd hout hput, fun _ => ?_⟩
    simp only [Server.need, hout, Putting.waits, Server.left]
    exact Nat.zero_le _
  · obtain ⟨-, hput, hblank⟩ := Pool.putData_eq_next hpool
    refine ⟨fun _ => trivial, fun husers => ?_⟩
    have hroom := h.room husers
    simp only [Server.need, Server.left, hprod, List.length_cons] at hroom
    simp only [Server.need, Server.left, hput, Putting.waits, hblank]
    omega

/-- A step for which there is room leaves room. -/
theorem Server.Roomy.step (h : s.Roomy parse) (hok : s.HasRoom parse a)
    (hs : s.step parse a = next t) : t.Roomy parse := by
  obtain ⟨-, hsteps⟩ := steps_of_step hs
  cases hsteps with
  | recvFailed hprod => exact h.recvFailed hprod hok
  | recv hprod hs => exact h.recv hprod hok hs
  | put hs => exact h.put hs
  | handle hprod hs => exact h.handle hprod hs
  | replay hprod hs => exact h.replay hprod hs
  | call | beginNobody | begin => exact h.frame ⟨rfl, rfl, rfl, rfl, rfl, le_rfl⟩
  | test _ hs => exact h.frame (sameWork_test hs)
  | get _ hs => exact h.frame (sameWork_get hs)
  | send _ hs => exact h.frame (sameWork_send hs)

/-- In every interleaving the server does not wedge as long as what leaves nobody registered is
received with room in the pool. -/
theorem not_wedged_of_hasRoom {slots : List Bytes} {redis : Bytes → Option Bytes}
    (h : Reaches (Server.step parse) (Server.HasRoom parse) (.start slots redis) s) :
    ¬ s.Wedged :=
  (h.invariant roomy_start fun _ _ _ ht hok hs => ht.step hok hs).not_wedged

/-- A client joins and leaves. -/
def visitRun : List Action :=
  [.recv ⟨1, 5000⟩ (ascii "a"), .put, .put, .put, .put, .handle, .recv ⟨1, 5000⟩ quitText, .put,
    .put, .put, .put, .handle]

theorem visitRun_users :
    (runGuarded (Server.step parseQuit) (Server.HasRoom parseQuit) .fresh visitRun).state?.map
      (fun s => (s.pool.blank, s.users.values)) = some (1022, []) := by
  decide +kernel

/-- A client comes and goes, and two places are used up. -/
theorem not_wedged_visitRun : ∃ s,
    Reaches (Server.step parseQuit) (Server.HasRoom parseQuit) .fresh s ∧ s.pool.blank = 1022 ∧
      s.users.values = [] ∧ ¬ s.Wedged := by
  obtain ⟨s, hs, hfacts⟩ := exists_next_of_map visitRun_users
  have hreach := Reaches.of_runGuarded _ _ hs
  exact ⟨s, hreach, congrArg Prod.fst hfacts, congrArg Prod.snd hfacts,
    not_wedged_of_hasRoom hreach⟩

/-! ## How it wedges -/

/-- Before a receive nobody is registered, and this many slots are free. -/
structure Server.Deserted (s : Server) (free : Nat) : Prop where
  users : s.users = .empty
  producer : s.producer = .receiving
  putting : s.pool.putting = .out
  blank : s.pool.blank = free
  aborted : s.aborted = false
  productStep : s.pool.productStep < s.pool.slots.length
  cap : s.pool.cap = s.pool.slots.length
  sessionCount : s.history.sessionCount < keyMax

/-- The steps of the producer from a QUIT to the next receive. -/
def quitRun : List Action := [.recv ⟨1, 5000⟩ quitText, .put, .put, .put, .put, .handle]

theorem msgField_quitText : msgField parseQuit quitText = some [] := by decide

theorem recvData_quitText (users : UserList) (remote : Endpoint) :
    recvData parseQuit users remote quitText = .received quitText (users.erase remote.addr) := by
  have htext : cstr quitText = quitText := by decide
  have hcmd : (parseQuit quitText).field (ascii "cmd") = some (ascii "QUIT") := by decide
  rw [recvData_of_lt (by decide) (by decide), htext, hcmd]
  rfl

/-- A message is stored when the counter is below the number of keys. -/
theorem remember_of_lt {h : History} (msg : Bytes) (hcount : h.sessionCount < keyMax) :
    ∃ h', h.remember msg = some h' ∧ h'.sessionCount < keyMax := by
  have hlen : (digits h.sessionCount).length < 8 := by
    have hle := (length_digits_le_iff (n := h.sessionCount) (k := 7) (by decide)).mpr
      (Nat.lt_trans hcount (by decide))
    omega
  rw [History.remember, itoa, if_pos hlen, Option.map_some]
  exact ⟨_, rfl, Nat.mod_lt _ (by decide)⟩

/-- One more QUIT from nobody takes one more place. -/
theorem Server.Deserted.quit {free : Nat} (h : s.Deserted (free + 1)) :
    ∃ t, runGuarded (Server.step parseQuit) (fun _ _ => True) s quitRun = next t ∧
      t.Deserted free := by
  obtain ⟨husers, hproducer, hputting, hblank, haborted, hslot, hcap, hcount⟩ := h
  obtain ⟨history, hhistory, hcount'⟩ := remember_of_lt quitText hcount
  have hload : ([] : Bytes) ≠ ascii "LOAD" := by decide
  simp only [quitRun, runGuarded, if_true, Server.step, haborted, hproducer, Server.recv,
    recvData_quitText, Pool.putData, hputting, bind_next, Server.put, Pool.put, hblank,
    Bool.false_eq_true, if_false, Nat.zero_lt_succ, Nat.add_sub_cancel, hslot, Producer.afterPut,
    Server.handle, msgField_quitText, if_neg hload, hhistory, ofAccess_some]
  refine ⟨_, rfl, ?_⟩
  exact {
    users := by rw [husers]; rfl
    producer := rfl
    putting := rfl
    blank := rfl
    aborted := rfl
    productStep := by
      rw [List.length_set, ← hcap]
      exact Nat.mod_lt _ (by omega)
    cap := by rw [List.length_set, hcap]
    sessionCount := hcount' }

/-- A stranger who sends enough QUITs wedges the server. -/
theorem Server.Deserted.wedges {free : Nat} (h : s.Deserted free) :
    ∃ t, Reaches (Server.step parseQuit) (fun _ _ => True) s t ∧ t.Wedged := by
  induction free generalizing s with
  | zero =>
    let t : Server := { s with
      pool := { s.pool with
        putting := .waiting quitText, given := s.pool.given ++ [quitText] }
      users := s.users.erase 1
      msg := quitText
      producer := .putting }
    have hs : s.step parseQuit (.recv ⟨1, 5000⟩ quitText) = next t := by
      simp [t, Server.step, h.aborted, h.producer, Server.recv, recvData_quitText, Pool.putData,
        h.putting]
    refine ⟨t, .tail .refl trivial hs, ⟨⟨quitText, rfl⟩, h.blank⟩, ?_⟩
    change (s.users.erase 1).entries = []
    rw [h.users]
    rfl
  | succ free ih =>
    obtain ⟨t, ht, hdeserted⟩ := h.quit
    obtain ⟨u, hu, hwedged⟩ := ih hdeserted
    exact ⟨u, (Reaches.of_runGuarded _ _ ht).trans hu, hwedged⟩

/-- A new server has all of its places and nobody registered. -/
theorem deserted_fresh : Server.fresh.Deserted poolCap where
  users := rfl
  producer := rfl
  putting := rfl
  blank := rfl
  aborted := rfl
  productStep := by
    change 0 < (List.replicate poolCap ([] : Bytes)).length
    rw [List.length_replicate]
    decide
  cap := (List.length_replicate).symm
  sessionCount := by
    change 0 < keyMax
    decide

/-- A new server is wedged by datagrams of people who are not registered. -/
theorem fresh_wedges : ∃ s,
    Reaches (Server.step parseQuit) (fun _ _ => True) .fresh s ∧ s.Wedged :=
  deserted_fresh.wedges

end NetworkCode.LinuxChat
