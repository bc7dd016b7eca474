import NetworkCode.LinuxChat.Threads

/-!
# A broadcast never comes back

The loop of `broadCast` does not move its iterator. A call with a user in the list sends to
the first endpoint again and again, each time with another message of the pool.
-/

namespace NetworkCode.LinuxChat

open StepResult Text

variable {parse : Bytes → Json} {s t : Server} {a : Action}

/-! ## The steps of the producer -/

/-- What the steps of the producer behind `recvfrom` leave as it is. -/
structure Server.SameAudience (s t : Server) : Prop where
  users : t.users = s.users
  consumer : t.consumer = s.consumer
  sent : t.sent = s.sent

/-- A step of the producer into the pool changes no client and no iterator. -/
theorem sameAudience_put (hs : s.put = next t) : s.SameAudience t := by
  obtain ⟨-, pool, -, rfl⟩ := put_eq_next hs
  exact ⟨rfl, rfl, rfl⟩

/-- Handling a message changes no client and no iterator. -/
theorem sameAudience_handle (hs : s.handle parse = next t) : s.SameAudience t := by
  obtain ⟨-, rfl⟩ | ⟨-, rfl⟩ | ⟨-, history, -, -, -, rfl⟩ := handle_eq_next hs
  · exact ⟨rfl, rfl, rfl⟩
  · exact ⟨rfl, rfl, rfl⟩
  · exact ⟨rfl, rfl, rfl⟩

/-- Replaying the history changes no client and no iterator. -/
theorem sameAudience_replay {keys : List Bytes} (hs : s.replay keys = next t) :
    s.SameAudience t := by
  obtain ⟨-, rfl⟩ | ⟨-, -, -, pool, -, -, -, rfl⟩ := replay_eq_next hs
  · exact ⟨rfl, rfl, rfl⟩
  · exact ⟨rfl, rfl, rfl⟩

/-! ## The steps of the consumer -/

/-- The entry the iterator of `broadCast` is at. -/
def Consumer.iterator : Consumer → Option Addr
  | .looping it | .taking it | .sending it _ => some it
  | .resting | .starting => none

/-- No datagram arrives, and no send fails. -/
def Server.Undisturbed (_ : Server) : Action → Prop
  | .recv _ _ => False
  | .send ok => ok = true
  | _ => True

instance (s : Server) (a : Action) : Decidable (s.Undisturbed a) :=
  match a with
  | .recv _ _ => inferInstanceAs (Decidable False)
  | .send ok => inferInstanceAs (Decidable (ok = true))
  | .recvFailed | .put | .handle | .replay | .call | .begin | .test | .get =>
    inferInstanceAs (Decidable True)

/-- A call of `broadCast` does what it is for: it returns, has taken one message, and has sent
it once to each user. -/
def Broadcasts (parse : Bytes → Json) (s : Server) : Prop :=
  ∃ t, Reaches (Server.step parse) Server.Undisturbed s t ∧ t.consumer = .resting ∧
    ∃ outmsg sent, t.pool.taken = s.pool.taken ++ [outmsg] ∧ t.sent = s.sent ++ sent ∧
      sent.Perm (s.users.values.map fun remote => (remote, outmsg))

/-- How a call that began in `s` stands in `t`: it goes on, and all it sent went to the first
user. -/
structure Circling (s t : Server) : Prop where
  users : t.users = s.users
  consumer : t.consumer ≠ .resting
  iterator : ∀ it, t.consumer.iterator = some it → s.users.first = some it
  sent : ∃ sent, t.sent = s.sent ++ sent ∧ ∀ m ∈ sent, s.users.values.head? = some m.1

/-- A call of `broadCast` begins with nothing sent. -/
theorem Circling.start (hstart : s.consumer = .starting) : Circling s s where
  users := rfl
  consumer := by
    rw [hstart]
    rintro ⟨⟩
  iterator it hit := by
    rw [hstart] at hit
    cases hit
  sent := ⟨[], (List.append_nil _).symm, by simp⟩

/-- Steps that change nothing of what `broadCast` works on. -/
theorem Circling.frame {u : Server} (h : Circling s t) (hsame : t.SameAudience u) :
    Circling s u where
  users := hsame.users.trans h.users
  consumer := by
    rw [hsame.consumer]
    exact h.consumer
  iterator it hit := by
    rw [hsame.consumer] at hit
    exact h.iterator it hit
  sent := by
    rw [hsame.sent]
    exact h.sent

/-- No step takes the iterator off the first client. -/
theorem Circling.step {u : Server} (husers : s.users.entries ≠ []) (h : Circling s t)
    (hok : t.Undisturbed a) (hs : t.step parse a = next u) : Circling s u := by
  obtain ⟨-, hsteps⟩ := steps_of_step hs
  cases hsteps with
  | recvFailed => exact h.frame ⟨rfl, rfl, rfl⟩
  | recv => exact hok.elim
  | put hs => exact h.frame (sameAudience_put hs)
  | handle _ hs => exact h.frame (sameAudience_handle hs)
  | replay _ hs => exact h.frame (sameAudience_replay hs)
  | call hrest => exact absurd hrest h.consumer
  | beginNobody _ hfirst =>
    rw [h.users, OrderedMap.first_eq_none_iff] at hfirst
    exact absurd hfirst husers
  | begin _ hfirst =>
    refine { h with consumer := (by rintro ⟨⟩), iterator := fun it' hit => ?_ }
    rw [← h.users, ← hit]
    exact hfirst
  | @test it _ hcons hs =>
    have hit := h.iterator it (by rw [hcons]; rfl)
    obtain ⟨pool, -, rfl⟩ := test_eq_next hs
    refine { h with consumer := (by rintro ⟨⟩), iterator := fun it' hit' => ?_ }
    rw [← hit']
    exact hit
  | @get it _ hcons hs =>
    have hit := h.iterator it (by rw [hcons]; rfl)
    obtain ⟨pool, consumer, -, rfl | ⟨outmsg, rfl⟩, rfl⟩ := get_eq_next hs
    · refine { h with consumer := (by rintro ⟨⟩), iterator := fun it' hit' => ?_ }
      rw [← hit']
      exact hit
    · refine { h with consumer := (by rintro ⟨⟩), iterator := fun it' hit' => ?_ }
      rw [← hit']
      exact hit
  | @send it outmsg ok _ hcons hs =>
    obtain rfl : ok = true := hok
    have hit := h.iterator it (by rw [hcons]; rfl)
    obtain ⟨remote, hfind, ⟨-, rfl⟩ | ⟨hfailed, -⟩⟩ := send_eq_next hs
    · obtain ⟨sent, hsent, hhead⟩ := h.sent
      refine { h with
        consumer := (by rintro ⟨⟩)
        iterator := fun it' hit' => by rw [← hit']; exact hit
        sent := ⟨sent ++ [(remote, outmsg)], ?_, fun m hm => ?_⟩ }
      · rw [hsent, List.append_assoc]
      · rcases List.mem_append.mp hm with hm | hm
        · exact hhead m hm
        · rw [List.mem_singleton.mp hm]
          rw [h.users] at hfind
          exact OrderedMap.head?_values hit hfind
    · cases hfailed

/-- As long as nothing is received and every send succeeds, a call with a user in the list goes
on. -/
theorem circling_of_reaches (hstart : s.consumer = .starting) (husers : s.users.entries ≠ [])
    (h : Reaches (Server.step parse) Server.Undisturbed s t) : Circling s t :=
  h.invariant (.start hstart) fun _ _ _ ht hok hs => ht.step husers hok hs

/-- A call of `broadCast` with a user in the list never returns, and never sends to a user
behind the first one. -/
theorem not_broadcasts (hstart : s.consumer = .starting) (husers : s.users.entries ≠ []) :
    ¬ Broadcasts parse s ∧
      ∀ t, Reaches (Server.step parse) Server.Undisturbed s t →
        t.consumer ≠ .resting ∧
          ∃ sent, t.sent = s.sent ++ sent ∧ ∀ m ∈ sent, s.users.values.head? = some m.1 := by
  refine ⟨?_, fun t ht => ?_⟩
  · rintro ⟨t, ht, hrest, -⟩
    exact (circling_of_reaches hstart husers ht).consumer hrest
  · have hcircling := circling_of_reaches hstart husers ht
    exact ⟨hcircling.consumer, hcircling.sent⟩

/-- Two clients join, the consumer calls `broadCast`. -/
def joinRun : List Action :=
  [.recv ⟨1, 5000⟩ (ascii "a"), .put, .put, .put, .put, .handle, .recv ⟨2, 5000⟩ (ascii "b"), .put,
    .put, .put, .put, .handle, .call]

/-- Two iterations of the loop of `broadCast`. -/
def loopRun : List Action :=
  [.begin, .test, .get, .get, .get, .get, .send true, .test, .get, .get, .get, .get, .send true]

/-- `Reader::parse` on texts that are no JSON. -/
def parseNothing (_ : Bytes) : Json := .null

theorem joinRun_users :
    (runGuarded (Server.step parseNothing) (fun _ _ => True) .fresh joinRun).state?.map
      (fun s => (s.consumer, s.users.values)) = some (.starting, [⟨1, 5000⟩, ⟨2, 5000⟩]) := by
  decide +kernel

theorem loopRun_sent :
    ((runGuarded (Server.step parseNothing) (fun _ _ => True) .fresh joinRun).bind fun s =>
      runGuarded (Server.step parseNothing) Server.Undisturbed s loopRun).state?.map Server.sent =
      some [(⟨1, 5000⟩, ascii "a"), (⟨1, 5000⟩, ascii "b")] := by
  decide +kernel

/-- Of two users the first gets both messages, and the call does not return. -/
theorem loopRun_not_broadcasts : ∃ s t,
    Reaches (Server.step parseNothing) (fun _ _ => True) .fresh s ∧ s.consumer = .starting ∧
      s.users.values = [⟨1, 5000⟩, ⟨2, 5000⟩] ∧
      Reaches (Server.step parseNothing) Server.Undisturbed s t ∧
      t.sent = [(⟨1, 5000⟩, ascii "a"), (⟨1, 5000⟩, ascii "b")] ∧ ¬ Broadcasts parseNothing s := by
  obtain ⟨s, hs, hfacts⟩ := exists_next_of_map joinRun_users
  obtain ⟨hstart, husers⟩ := Prod.mk.inj hfacts
  have hloop := loopRun_sent
  rw [hs, bind_next] at hloop
  obtain ⟨t, ht, hsent⟩ := exists_next_of_map hloop
  refine ⟨s, t, .of_runGuarded _ _ hs, hstart, husers, .of_runGuarded _ _ ht, hsent, ?_⟩
  rintro ⟨u, hu, hrest, -⟩
  have hne : s.users.entries ≠ [] := OrderedMap.values_eq_nil_iff.not.mp (by simp [husers])
  exact (circling_of_reaches hstart hne hu).consumer hrest

/-- Of two clients only the first one is ever sent anything. -/
theorem not_broadcasts_joinRun : ∃ s,
    s.consumer = .starting ∧ s.users.values = [⟨1, 5000⟩, ⟨2, 5000⟩] ∧
      ¬ Broadcasts parseNothing s ∧
      ∀ t, Reaches (Server.step parseNothing) Server.Undisturbed s t →
        t.consumer ≠ .resting ∧
          ∃ sent, t.sent = s.sent ++ sent ∧ ∀ m ∈ sent, s.users.values.head? = some m.1 := by
  obtain ⟨s, -, hfacts⟩ := exists_next_of_map joinRun_users
  obtain ⟨hstart, husers⟩ := Prod.mk.inj hfacts
  have hne : s.users.entries ≠ [] := OrderedMap.values_eq_nil_iff.not.mp (by simp [husers])
  exact ⟨s, hstart, husers, not_broadcasts hstart hne⟩

end NetworkCode.LinuxChat
