import NetworkCode.LinuxChat.Delivery

/-!
# What the server carries

The server makes no strings of its own: what is in the pool, in Redis and in `msg` was received.
So every key of the history has a string, and with the pool and the counter of the keys in order
only two things can leave what is defined: a datagram that fills the buffer, and an iterator whose
entry was erased.
-/

namespace NetworkCode.LinuxChat

open StepResult Text

variable {parse : Bytes → Json} {redis : Bytes → Option Bytes} {slots : List Bytes}
  {s t : Server} {a : Action} {as : List Action} {Q R : Bytes → Prop}

/-- The keys that the LOAD loop has left. -/
def Producer.keys : Producer → List Bytes
  | .replaying keys => keys
  | .replayPutting keys => keys
  | _ => []

/-- All strings of the server have the property: those in the pool and in Redis, and the message
of the producer. -/
structure Server.Carries (Q : Bytes → Prop) (s : Server) : Prop where
  given : ∀ m ∈ s.pool.given, Q m
  stored : ∀ key ∈ s.history.session, ∃ out, s.history.redis key = some out ∧ Q out
  keys : ∀ key ∈ s.producer.keys, key ∈ s.history.session
  msg : s.msg = [] ∧ s.producer = .receiving ∨ Q s.msg

/-- What an action brings to the server has the property. A failed call of `recvfrom` brings the
message of the iteration before. -/
def Action.Brings (Q : Bytes → Prop) : Action → Prop
  | .recvFailed => Q []
  | .recv _ datagram => datagram.length < recvSize → Q (cstr datagram)
  | _ => True

namespace Server.Carries

/-- At the start there is no message. -/
theorem start : (Server.start slots redis).Carries Q where
  given := List.forall_mem_nil _
  stored := List.forall_mem_nil _
  keys := List.forall_mem_nil _
  msg := .inl ⟨rfl, rfl⟩

/-- Messages that are one thing and so another. -/
theorem mono (h : s.Carries Q) (hQR : ∀ m, Q m → R m) : s.Carries R where
  given m hm := hQR m (h.given m hm)
  stored key hkey := (h.stored key hkey).imp fun out hout => ⟨hout.1, hQR out hout.2⟩
  keys := h.keys
  msg := h.msg.imp_right (hQR s.msg)

/-- Nothing was received, or there is a message. -/
theorem of_blank (h : s.Carries Q) (hblank : Q []) : Q s.msg :=
  h.msg.elim (fun hmsg => hmsg.1 ▸ hblank) id

/-- The consumer brings nothing. -/
theorem frame (h : s.Carries Q) (hgiven : t.pool.given = s.pool.given)
    (hhistory : t.history = s.history) (hmsg : t.msg = s.msg)
    (hproducer : t.producer = s.producer) : t.Carries Q where
  given := hgiven ▸ h.given
  stored := hhistory ▸ h.stored
  keys := by
    rw [hproducer, hhistory]
    exact h.keys
  msg := by
    rw [hproducer, hmsg]
    exact h.msg

/-- What is received is put into the pool and handled. -/
theorem recv {remote : Endpoint} {datagram : Bytes} (h : s.Carries Q)
    (hbrings : (Action.recv remote datagram).Brings Q)
    (hs : s.recv parse remote datagram = next t) : t.Carries Q := by
  obtain ⟨hfailed, rfl⟩ | ⟨-, rfl⟩ | ⟨outmsg, users, pool, hreceived, hpool, rfl⟩ :=
    recv_eq_next hs
  · obtain rfl := recvData_eq_failed hfailed
    exact { h with keys := List.forall_mem_nil _, msg := .inr (h.of_blank (hbrings (by decide))) }
  · exact { h with }
  · have hlen : datagram.length < recvSize := by
      by_contra hlong
      rw [recvData_of_recvSize_le (Nat.not_lt.mp hlong)] at hreceived
      cases hreceived
    obtain ⟨-, rfl, -⟩ := recvData_eq_received hreceived
    have hnew : Q (cstr datagram) := hbrings hlen
    refine ⟨?_, h.stored, List.forall_mem_nil _, .inr hnew⟩
    rw [(given_returned_putData hpool).1]
    exact List.forall_mem_append.mpr ⟨h.given, List.forall_mem_singleton.mpr hnew⟩

/-- The message goes on into the pool as it is. -/
theorem put (h : s.Carries Q) (hs : s.put = next t) : t.Carries Q := by
  obtain ⟨hin, pool, hpool, rfl⟩ := put_eq_next hs
  have hmsg : Q s.msg := h.msg.elim (fun hblank => by rw [hblank.2] at hin; exact hin.elim) id
  have hkeys : ∀ key ∈ (s.producer.afterPut pool.putting).keys, key ∈ s.producer.keys := by
    cases hp : s.producer <;> cases pool.putting <;>
      simp [Producer.afterPut, Producer.keys]
  exact ⟨(given_returned_put hpool).1 ▸ h.given, h.stored,
    fun key hkey => h.keys key (hkeys key hkey), .inr hmsg⟩

/-- A message is stored as it was received. -/
theorem remember {history : History} (h : s.Carries Q) (hcstr : cstr s.msg = s.msg)
    (hmsg : Q s.msg) (hremember : s.history.remember s.msg = some history) :
    ∀ key ∈ history.session, ∃ out, history.redis key = some out ∧ Q out := by
  obtain ⟨num, -, rfl⟩ := Option.map_eq_some_iff.mp hremember
  intro key hkey
  dsimp only at hkey ⊢
  by_cases hnew : key = ascii "key" ++ num
  · rw [hnew, Function.update_self, hcstr]
    exact ⟨_, rfl, hmsg⟩
  · rw [Function.update_of_ne hnew]
    rw [List.mem_append, List.mem_singleton, or_iff_left hnew] at hkey
    exact h.stored key hkey

/-- A message is handled as it was received. -/
theorem handle (h : s.Carries Q) (hcstr : ∀ m, Q m → cstr m = m) (hprod : s.producer = .handling)
    (hs : s.handle parse = next t) : t.Carries Q := by
  have hmsg : Q s.msg := h.msg.elim (fun hblank => by rw [hblank.2] at hprod; cases hprod) id
  obtain ⟨-, rfl⟩ | ⟨-, rfl⟩ | ⟨text, history, -, -, hremember, rfl⟩ := handle_eq_next hs
  · exact { h with }
  · exact ⟨h.given, h.stored, fun key hkey => hkey, .inr hmsg⟩
  · exact ⟨h.given, h.remember (hcstr _ hmsg) hmsg hremember, List.forall_mem_nil _, .inr hmsg⟩

/-- Replayed messages come out of the store. -/
theorem replay {keys : List Bytes} (h : s.Carries Q) (hprod : s.producer = .replaying keys)
    (hs : s.replay keys = next t) : t.Carries Q := by
  have hmsg : Q s.msg := h.msg.elim (fun hblank => by rw [hblank.2] at hprod; cases hprod) id
  have hkeys := h.keys
  rw [hprod] at hkeys
  obtain ⟨rfl, rfl⟩ | ⟨key, rest, out, pool, rfl, hout, hpool, rfl⟩ := replay_eq_next hs
  · exact ⟨h.given, h.stored, List.forall_mem_nil _, .inr hmsg⟩
  · obtain ⟨out', hout', hQ⟩ := h.stored key (hkeys key List.mem_cons_self)
    obtain rfl : out = out' := Option.some.inj (hout.symm.trans hout')
    refine ⟨?_, h.stored, fun key hkey => hkeys key (List.mem_cons_of_mem _ hkey), .inr hmsg⟩
    rw [(given_returned_putData hpool).1]
    exact List.forall_mem_append.mpr ⟨h.given, List.forall_mem_singleton.mpr hQ⟩

/-- The server makes no strings of its own. -/
theorem step (h : s.Carries Q) (hcstr : ∀ m, Q m → cstr m = m) (hbrings : a.Brings Q)
    (hs : s.step parse a = next t) : t.Carries Q := by
  obtain ⟨-, hsteps⟩ := steps_of_step hs
  cases hsteps with
  | recvFailed =>
    exact { h with keys := List.forall_mem_nil _, msg := .inr (h.of_blank hbrings) }
  | recv _ hs => exact h.recv hbrings hs
  | put hs => exact h.put hs
  | handle hprod hs => exact h.handle hcstr hprod hs
  | replay hprod hs => exact h.replay hprod hs
  | call | beginNobody | begin => exact h.frame rfl rfl rfl rfl
  | test _ hs =>
    obtain ⟨pool, hpool, rfl⟩ := test_eq_next hs
    exact h.frame (given_returned_getData hpool).1 rfl rfl rfl
  | get _ hs =>
    obtain ⟨pool, consumer, hpool, -, rfl⟩ := get_eq_next hs
    exact h.frame (given_returned_get hpool).1 rfl rfl rfl
  | send _ hs =>
    obtain ⟨remote, -, ⟨-, rfl⟩ | ⟨-, rfl⟩⟩ := send_eq_next hs
    · exact h.frame rfl rfl rfl rfl
    · exact h.frame rfl rfl rfl rfl

/-- What is sent was in the pool. -/
theorem sent (h : s.Carries Q) (hslots : slots.length = poolCap)
    (hruns : Runs (Server.step parse) (.start slots redis) as s) : ∀ r ∈ s.sent, Q r.2 := by
  obtain ⟨tried, htried⟩ := delivering_of_runs hslots hruns
  obtain ⟨queue, hqueue⟩ := htried.holds
  intro r hr
  have hsent : r.2 ∈ s.sent.map Prod.snd := List.mem_map_of_mem hr
  rw [htried.sent] at hsent
  obtain ⟨e, he, hmsg⟩ := List.mem_map.mp hsent
  have hreturned : e.1 ∈ s.pool.returned := by
    rw [← htried.returned]
    exact List.mem_append_left _ (List.mem_map_of_mem (List.mem_of_mem_filter he))
  exact h.given _ (hmsg ▸ hqueue.in_order.subset hreturned)

end Server.Carries

/-! ## When its steps are defined -/

/-- What a step of the server relies on. -/
structure Server.Ready (s : Server) : Prop where
  pool : ∃ queue, s.pool.Holds queue
  count : s.history.sessionCount < keyMax
  carries : s.Carries fun m => cstr m = m
  iterator : s.aborted = false → ∀ it, s.consumer.iterator = some it →
    ∃ remote, s.users.find it = some remote

/-- The counter of the keys stays below `KEY_MAX`. -/
theorem sessionCount_step (h : s.history.sessionCount < keyMax) (hs : s.step parse a = next t) :
    t.history.sessionCount < keyMax := by
  obtain ⟨-, hsteps⟩ := steps_of_step hs
  cases hsteps with
  | recvFailed | call | beginNobody | begin => exact h
  | recv _ hs =>
    obtain ⟨-, rfl⟩ | ⟨-, rfl⟩ | ⟨outmsg, users, pool, -, -, rfl⟩ := recv_eq_next hs
    · exact h
    · exact h
    · exact h
  | put hs =>
    obtain ⟨-, pool, -, rfl⟩ := put_eq_next hs
    exact h
  | handle _ hs =>
    obtain ⟨-, rfl⟩ | ⟨-, rfl⟩ | ⟨text, history, -, -, hremember, rfl⟩ := handle_eq_next hs
    · exact h
    · exact h
    · obtain ⟨num, -, rfl⟩ := Option.map_eq_some_iff.mp hremember
      exact Nat.mod_lt _ (by decide)
  | replay _ hs =>
    obtain ⟨-, rfl⟩ | ⟨-, -, out, pool, -, -, -, rfl⟩ := replay_eq_next hs
    · exact h
    · exact h
  | test _ hs =>
    rw [(sameWork_test hs).history]
    exact h
  | get _ hs =>
    rw [(sameWork_get hs).history]
    exact h
  | send _ hs =>
    rw [(sameWork_send hs).history]
    exact h

/-- In every state that is reached while no QUIT erases the entry of the iterator the server has
what its next step relies on. -/
theorem ready_of_reaches (hslots : slots.length = poolCap)
    (h : Reaches (Server.step parse) (Server.Spares parse) (.start slots redis) s) : s.Ready := by
  obtain ⟨as, hruns⟩ := h.exists_runs
  obtain ⟨notes, hnotes⟩ := h.exists_traces Server.note
  obtain ⟨tried, htried⟩ := delivering_of_runs hslots hruns
  refine ⟨htried.holds, ?_, ?_, fun hlive it hit =>
    ((iterating_of_traces hnotes hlive).held it hit).2⟩
  · apply h.invariant (I := fun s => s.history.sessionCount < keyMax)
    · change 0 < keyMax
      decide
    · exact fun t a u ht _ hs => sessionCount_step ht hs
  · apply h.invariant (I := fun s => s.Carries fun m => cstr m = m)
    · exact .start
    · intro t a u ht _ hs
      refine ht.step (fun m hm => hm) ?_ hs
      cases a with
      | recvFailed => exact rfl
      | recv remote datagram => exact fun _ => cstr_of_notMem (notMem_cstr datagram)
      | _ => trivial

namespace Server.Ready

variable (h : s.Ready)

include h

/-- No step in the pool leaves its slots. -/
theorem pool_ne_undefined (a : Pool.Action Bytes) : s.pool.step a ≠ undefined :=
  h.pool.choose_spec.step_ne_undefined a

/-- A datagram with room for its NUL is received. -/
theorem recv_ne_undefined {remote : Endpoint} {datagram : Bytes}
    (hlen : datagram.length < recvSize) : s.recv parse remote datagram ≠ undefined := by
  rw [Server.recv]
  by_cases hnil : datagram = []
  · rw [hnil, recvData_nil]
    rintro ⟨⟩
  · rw [recvData_of_lt hnil hlen]
    cases (parse (cstr datagram)).field (ascii "cmd") with
    | none => rintro ⟨⟩
    | some cmd =>
      dsimp only
      rw [ne_eq, bind_eq_undefined]
      rintro (hput | ⟨pool, -, ⟨⟩⟩)
      exact h.pool_ne_undefined (.putData _) hput

/-- Every message is stored or begins the LOAD loop. -/
theorem handle_ne_undefined : s.handle parse ≠ undefined := by
  rw [Server.handle]
  cases msgField parse s.msg with
  | none => rintro ⟨⟩
  | some text =>
    dsimp only
    split
    · rintro ⟨⟩
    · rw [History.remember, ← Nat.mod_eq_of_lt h.count, itoa_mod, Option.map_some, ofAccess_some,
        bind_next]
      rintro ⟨⟩

/-- The LOAD loop finds its keys. -/
theorem replay_ne_undefined {keys : List Bytes} (hprod : s.producer = .replaying keys) :
    s.replay keys ≠ undefined := by
  cases keys with
  | nil => rintro ⟨⟩
  | cons key keys =>
    have hkeys := h.carries.keys
    rw [hprod] at hkeys
    obtain ⟨out, hout, -⟩ := h.carries.stored key (hkeys key List.mem_cons_self)
    rw [Server.replay, hout, ofAccess_some, bind_next, ne_eq, bind_eq_undefined]
    rintro (hput | ⟨pool, -, ⟨⟩⟩)
    exact h.pool_ne_undefined (.putData _) hput

/-- A step is defined unless a datagram fills the buffer. -/
theorem step_ne_undefined
    (hfits : ∀ remote datagram, a = .recv remote datagram → datagram.length < recvSize) :
    s.step parse a ≠ undefined := by
  unfold Server.step
  by_cases haborted : s.aborted
  · rw [if_pos haborted]
    rintro ⟨⟩
  · rw [if_neg haborted]
    have hentry := h.iterator (Bool.eq_false_iff.mpr haborted)
    cases a with
    | recvFailed =>
      dsimp only
      split <;> rintro ⟨⟩
    | recv remote datagram =>
      dsimp only
      split
      · exact h.recv_ne_undefined (hfits remote datagram rfl)
      · rintro ⟨⟩
    | put =>
      have hput : (s.pool.put.bind fun pool =>
          next { s with pool, producer := s.producer.afterPut pool.putting }) ≠ undefined := by
        rw [ne_eq, bind_eq_undefined]
        rintro (hput | ⟨pool, -, ⟨⟩⟩)
        exact h.pool_ne_undefined .put hput
      dsimp only
      rw [Server.put]
      split
      · exact hput
      · exact hput
      · rintro ⟨⟩
    | handle =>
      dsimp only
      split
      · exact h.handle_ne_undefined
      · rintro ⟨⟩
    | replay =>
      dsimp only
      split
      · rename_i keys hprod
        exact h.replay_ne_undefined hprod
      · rintro ⟨⟩
    | call =>
      dsimp only
      split <;> rintro ⟨⟩
    | begin =>
      dsimp only
      split
      · split <;> rintro ⟨⟩
      · rintro ⟨⟩
    | test =>
      dsimp only
      split
      · rename_i it hcons
        obtain ⟨remote, hfind⟩ := hentry it (by rw [hcons]; rfl)
        simp only [Server.test, hfind]
        rw [ne_eq, bind_eq_undefined]
        rintro (hget | ⟨pool, -, ⟨⟩⟩)
        exact h.pool_ne_undefined .getData hget
      · rintro ⟨⟩
    | get =>
      dsimp only
      split
      · rw [Server.get, ne_eq, bind_eq_undefined]
        rintro (hget | ⟨pool, -, ⟨⟩⟩)
        exact h.pool_ne_undefined .get hget
      · rintro ⟨⟩
    | send ok =>
      dsimp only
      split
      · rename_i it outmsg hcons
        obtain ⟨remote, hfind⟩ := hentry it (by rw [hcons]; rfl)
        simp only [Server.send, hfind]
        split <;> rintro ⟨⟩
      · rintro ⟨⟩

end Server.Ready

end NetworkCode.LinuxChat
