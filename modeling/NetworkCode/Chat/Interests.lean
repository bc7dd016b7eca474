import NetworkCode.Chat.Relay

/-!
# The events that are asked for

The mask of a client is switched when a message is queued for it and when the message is
written. Both expressions only set bits, so that the mask never loses one: from the first
message that is queued for a client on, it is asked about reading and writing at once.
-/

namespace NetworkCode.Chat

open StepResult Text

variable {s t : State} {a : Action} {i j : Int} {fd connfd listenSock : Fd} {data : Bytes}

/-! ## What a mask should be -/

/-- A message that was read from another client waits for the client: it was due since the client
was added, and `write_buf` is set. -/
def State.Waiting (s : State) (fd : Fd) : Prop :=
  s.due fd ≠ [] ∧ (s.users fd).writeBuf = .tmpbuf

instance (s : State) (fd : Fd) : Decidable (s.Waiting fd) := inferInstanceAs (Decidable (_ ∧ _))

/-- A client is asked about writing exactly when a message waits for it, and otherwise about
reading. The other bits are those of `accept`. -/
structure State.Interested (s : State) (slot : PollFd) : Prop where
  writing : has slot.events pollOut ↔ s.Waiting slot.fd
  reading : has slot.events pollIn ↔ ¬ s.Waiting slot.fd
  hangUp : has slot.events pollRdhup
  error : has slot.events pollErr

/-- The masks of all clients are what they should be, and when no message waits for any client,
`poll` does not return because one is writable. -/
structure State.Interests (s : State) : Prop where
  clients : ∀ j, 1 ≤ j → j ≤ s.userCount → s.Interested (s.fds j)
  idle : (∀ j, 1 ≤ j → j ≤ s.userCount → ¬ s.Waiting (s.fds j).fd) →
    ∀ revents, s.reports revents → ∀ j, 1 ≤ j → j ≤ s.userCount →
      ¬ has (revents.getD j.toNat 0) pollOut

/-- No client is connected besides the one from which a message is read. -/
def Unshared (s : State) : Action → Prop
  | .read (some _) => s.others = []
  | _ => True

instance (s : State) (a : Action) : Decidable (Unshared s a) :=
  match a with
  | .read (some _) => inferInstanceAs (Decidable (s.others = []))
  | .poll _ | .pollFailed | .accept _ | .error | .hangUp | .read none | .write _ | .skip
  | .endRound => .isTrue trivial

/-! ## What a mask is -/

/-- The bits that are set at `accept`. -/
def acceptedEvents : Events := pollIn ||| pollRdhup ||| pollErr

/-- A bit stays set when the mask grows. -/
theorem has_grow {mask flag : Events} (h : has mask flag) (m : Events) :
    has (mask ||| m) flag := by
  simp only [has, bne_iff_ne, ne_eq] at h ⊢
  intro hzero
  rw [BitVec.and_or_distrib_right] at hzero
  exact h (BitVec.or_eq_zero_iff.mp hzero).1

/-- A queued message takes no interest away. -/
theorem has_queued {events flag : Events} (h : has events flag) :
    has (queuedEvents events) flag :=
  has_grow (has_grow h _) _

/-- A written message takes no interest away, by the slip in its bit operation. -/
theorem has_written {events flag : Events} (h : has events flag) :
    has (writtenEvents events) flag :=
  has_grow (has_grow h _) _

/-- An accepted client is watched for all that the server handles but room to write. -/
theorem has_acceptedEvents : ∀ flag ∈ [pollIn, pollRdhup, pollErr], has acceptedEvents flag := by
  intro flag hflag
  simp only [List.mem_cons, List.not_mem_nil, or_false] at hflag
  obtain rfl | rfl | rfl := hflag <;> decide

/-- The bits of `accept` are never lost. Another one is added only when a message becomes due,
and from then on the client is asked about writing. -/
structure State.Asks (s : State) (slot : PollFd) : Prop where
  kept : ∀ flag ∈ [pollIn, pollRdhup, pollErr], has slot.events flag
  fresh : s.due slot.fd = [] → slot.events = acceptedEvents
  sent : s.due slot.fd ≠ [] → has slot.events pollOut

/-- What a slot asks for depends on its descriptor, its events and what is due. -/
theorem State.Asks.congr {slot slot' : PollFd} (h : s.Asks slot) (hfd : slot'.fd = slot.fd)
    (hevents : slot'.events = slot.events) (hdue : t.due slot.fd = s.due slot.fd) :
    t.Asks slot' := by
  refine ⟨?_, ?_, ?_⟩
  · rw [hevents]
    exact h.kept
  · rw [hfd, hevents, hdue]
    exact h.fresh
  · rw [hfd, hevents, hdue]
    exact h.sent

/-- The invariant: the table, and the masks of the clients. -/
structure Asking (s : State) : Prop where
  table : Tabled s
  asks : ∀ j, 1 ≤ j → j ≤ s.userCount → s.Asks (s.fds j)

/-- Before the first client there is nobody to ask for. -/
theorem asking_start (listenSock : Fd) (entries : Int) (tmpbuf : Bytes) :
    Asking (start listenSock entries tmpbuf) where
  table := tabled_start listenSock entries tmpbuf
  asks j hj hle := by
    change j ≤ 0 at hle
    omega

/-- A step that changes no descriptor, no mask and nothing that is due. -/
theorem Asking.congr (h : Asking s) (htable : Tabled t) (hcount : t.userCount = s.userCount)
    (hfds : ∀ j, (t.fds j).fd = (s.fds j).fd ∧ (t.fds j).events = (s.fds j).events)
    (hdue : t.due = s.due) : Asking t where
  table := htable
  asks j hj hle :=
    (h.asks j hj (hcount ▸ hle)).congr (hfds j).1 (hfds j).2 (congrFun hdue _)

/-- A new client is asked about what `accept` sets. -/
theorem Asking.withUser (h : Asking s) (hclosed : fd ∉ s.opened)
    (htable : Tabled (s.withUser i fd)) : Asking (s.withUser i fd) where
  table := htable
  asks j hj hle := by
    change j ≤ s.userCount + 1 at hle
    by_cases hlast : j = s.userCount + 1
    · subst hlast
      have hdue : (s.withUser i fd).due fd = [] := Function.update_self _ _ _
      rw [withUser_fds_last]
      exact ⟨has_acceptedEvents, fun _ => rfl, fun hsent => absurd hdue hsent⟩
    · have hne : (s.fds j).fd ≠ fd :=
        fun he => hclosed (he ▸ (h.table.client j hj (by omega)).opened)
      rw [withUser_fds (by omega)]
      exact (h.asks j hj (by omega)).congr rfl rfl (Function.update_of_ne hne _ _)

/-- The clients that remain keep their masks. -/
theorem Asking.without (h : Asking s) (hi : 1 ≤ i) (hi' : i ≤ s.userCount) {opened : List Fd}
    (htable : Tabled { s.without i with opened }) : Asking { s.without i with opened } where
  table := htable
  asks j hj hle := by
    obtain ⟨k, hk, hk', -, hfk, -⟩ := without_fds hi hi' hj hle
    have hslot : ({ s.without i with opened } : State).fds j = s.fds k := hfk
    rw [hslot]
    exact (h.asks k hk hk').congr rfl rfl rfl

/-- A message is queued: bits are added to the masks of the others, to whom it is due. -/
theorem Asking.received (h : Asking s) (htable : Tabled (t.advance i))
    (hq : Queued (s.keep i data) (s.fds i).fd data s.userCount.toNat t) :
    Asking (t.advance i) where
  table := htable
  asks j hj hle := by
    change j ≤ t.userCount at hle
    rw [hq.userCount] at hle
    change j ≤ s.userCount at hle
    have hslot := h.asks j hj hle
    have hfds : (t.advance i).fds j = t.fds j := rfl
    by_cases hself : (s.fds j).fd = (s.fds i).fd
    · have hdue : (t.advance i).due (s.fds j).fd = s.due (s.fds j).fd := by
        refine (congrFun hq.due _).trans ?_
        exact if_neg fun hdue => hdue.2 hself
      rw [hfds, hq.fds, if_neg fun hsent => hsent.2.2 hself]
      exact hslot.congr rfl rfl hdue
    · have hdue : (t.advance i).due (s.fds j).fd = s.due (s.fds j).fd ++ [data] := by
        refine (congrFun hq.due _).trans ?_
        exact if_pos ⟨mem_clients hj hle, hself⟩
      rw [hfds, hq.fds, if_pos ⟨hj, by omega, hself⟩]
      refine ⟨fun flag hflag => has_queued (hslot.kept flag hflag), fun hnone => ?_,
        fun _ => has_queuedEvents _⟩
      exact absurd (hdue.symm.trans hnone) (by simp)

/-- A message is written: bits are added to the mask of a client to whom one was due. -/
theorem Asking.written (h : Asking s) (hat : s.At i .write) {taken : Nat}
    (htable : Tabled (s.written i taken)) : Asking (s.written i taken) where
  table := htable
  asks j hj hle := by
    have hslot := h.asks j hj hle
    by_cases he : j = i
    · subst he
      have hdue : s.due (s.fds j).fd ≠ [] := by
        intro hnone
        have hout := h.table.events_of_write hat
        rw [hslot.fresh hnone] at hout
        revert hout
        decide
      rw [written_fds_self]
      exact ⟨fun flag hflag => has_written (hslot.kept flag hflag),
        fun hnone => absurd hnone hdue, fun _ => has_written (hslot.sent hdue)⟩
    · rw [written_fds_of_ne he]
      exact hslot.congr rfl rfl rfl

/-- Every step keeps the invariant. -/
theorem Asking.step (h : Asking s) (hs : step s a = next t) : Asking t := by
  have htable := h.table.step hs
  cases Effect.of_step hs with
  | polled _ _ => exact h.congr htable rfl (fun _ => polled_fds_fd) rfl
  | stopped _ => exact h.congr htable rfl (fun _ => ⟨rfl, rfl⟩) rfl
  | passed _ => exact h.congr htable rfl (fun _ => ⟨rfl, rfl⟩) rfl
  | added _ _ _ hclosed _ _ => exact h.withUser hclosed htable
  | left hat _ _ =>
    obtain ⟨hi, hi'⟩ := h.table.client_slot hat (.inl rfl)
    exact h.without hi hi' htable
  | dropped hat _ _ =>
    obtain ⟨hi, hi'⟩ := h.table.client_slot hat (.inr (.inl rfl))
    exact h.without hi hi' htable
  | received _ _ _ _ ht => exact h.received htable (queued_of_queueAll ht)
  | wrote hat _ _ _ _ => exact h.written hat htable
  | round _ _ => exact h.congr htable rfl (fun _ => ⟨rfl, rfl⟩) rfl

/-- The invariant holds in every state reached. -/
theorem asking_of_reaches {ok : State → Action → Prop} {entries : Int} {tmpbuf : Bytes}
    (h : Reaches Chat.step ok (start listenSock entries tmpbuf) s) : Asking s :=
  h.invariant (asking_start listenSock entries tmpbuf) fun _ _ _ hs _ hstep => hs.step hstep

/-! ## When the masks are what they should be -/

/-- A client to whom nothing was ever due has the mask it should have. -/
theorem State.Asks.interested {slot : PollFd} (h : s.Asks slot) (hdue : s.due slot.fd = []) :
    s.Interested slot := by
  have hidle : ¬ s.Waiting slot.fd := fun hwaiting => hwaiting.1 hdue
  have hquiet : ¬ has acceptedEvents pollOut := by decide
  have hevents := h.fresh hdue
  refine ⟨?_, ?_, h.kept _ (by simp), h.kept _ (by simp)⟩
  · rw [hevents]
    exact iff_of_false hquiet hidle
  · exact iff_of_true (h.kept _ (by simp)) hidle

/-- A client to whom a message was due is asked about both, whether or not one waits. -/
theorem State.Asks.not_interested {slot : PollFd} (h : s.Asks slot)
    (hdue : s.due slot.fd ≠ []) : ¬ s.Interested slot := by
  intro hinterested
  have hwaiting := hinterested.writing.mp (h.sent hdue)
  exact hinterested.reading.mp (h.kept _ (by simp)) hwaiting

/-- While nothing was ever due to a client, it is not reported writable. -/
theorem Asking.not_reported (h : Asking s) {revents : List Events} (hrep : s.reports revents)
    (hj : 1 ≤ j) (hle : j ≤ s.userCount) (hdue : s.due (s.fds j).fd = []) :
    ¬ has (revents.getD j.toNat 0) pollOut := by
  have hquiet : ¬ has acceptedEvents pollOut := by decide
  have hasked := (h.table.polled hrep).asked j (by omega) hle
  rw [polled_fds (by omega) hle] at hasked
  intro hout
  rw [pollOut, has_twoPow (by decide)] at hout
  have hbit := hasked.getLsbD (by decide) (by decide) hout
  rw [(h.asks j hj hle).fresh hdue, ← has_twoPow (by decide)] at hbit
  exact hquiet hbit

/-- The masks are what they should be exactly when nothing was ever due to a client. -/
theorem Asking.interests_iff (h : Asking s) :
    s.Interests ↔ ∀ j, 1 ≤ j → j ≤ s.userCount → s.due (s.fds j).fd = [] := by
  constructor
  · intro hinterests j hj hle
    by_contra hdue
    exact (h.asks j hj hle).not_interested hdue (hinterests.clients j hj hle)
  · intro hdue
    exact ⟨fun j hj hle => (h.asks j hj hle).interested (hdue j hj hle),
      fun _ _ hrep j hj hle => h.not_reported hrep hj hle (hdue j hj hle)⟩

/-- When a message is read only while no other client is connected, none becomes due. -/
theorem due_of_unshared {ok : State → Action → Prop} {entries : Int} {tmpbuf : Bytes}
    (h : Reaches Chat.step ok (start listenSock entries tmpbuf) s)
    (hunshared : ∀ t a, ok t a → Unshared t a) (fd : Fd) : s.due fd = [] := by
  revert fd
  apply h.invariant
  · intro fd
    rfl
  · intro t a u ht hok hs fd
    cases Effect.of_step hs with
    | @added _ connfd _ _ _ _ _ _ =>
      by_cases he : fd = connfd
      · rw [he]
        exact Function.update_self _ _ _
      · exact (Function.update_of_ne he _ _).trans (ht fd)
    | @received i data v hat _ _ _ hv =>
      have hothers : t.recipients (t.fds i).fd t.userCount.toNat = [] :=
        (others_eq hat).symm.trans (hunshared _ _ hok)
      refine (congrFun (queued_of_queueAll hv).due fd).trans ?_
      refine (if_neg ?_).trans (ht fd)
      rintro ⟨hmem, hne⟩
      rw [clients_eq, mem_slots] at hmem
      obtain ⟨j, hj, hle, hfd⟩ := hmem
      have hrecipient : fd ∈ t.recipients (t.fds i).fd t.userCount.toNat :=
        mem_recipients.mpr ⟨j, hj, by omega, hfd, hne⟩
      rw [hothers] at hrecipient
      cases hrecipient
    | _ => exact ht fd

/-- In every state of every run the masks are what they should be exactly when no message was
read from another client since the clients were accepted; in particular on runs where messages
are read only while one client is connected. -/
theorem interests_iff_nothing_due {ok : State → Action → Prop} {entries : Int} {tmpbuf : Bytes}
    {s : State} (h : Reaches Chat.step ok (start listenSock entries tmpbuf) s) :
    (s.Interests ↔ ∀ j, 1 ≤ j → j ≤ s.userCount → s.due (s.fds j).fd = []) ∧
      ((∀ t a, ok t a → Unshared t a) → s.Interests) := by
  have hiff := (asking_of_reaches h).interests_iff
  exact ⟨hiff, fun hunshared => hiff.mpr fun j _ _ => due_of_unshared h hunshared _⟩

/-- A client sends a message while it is alone. -/
def soleSender : List Action :=
  [.poll [pollIn], .accept (some 3), .skip, .endRound, .poll [0, pollIn], .skip,
    .read (some [97, 10]), .endRound]

theorem soleSender_run :
    (runGuarded step Unshared (start 0 userLimit (List.replicate bufSize 0))
      soleSender).state?.map (fun s => s.userCount) = some 1 := by decide +kernel

/-- A client that is alone is asked for nothing but what it sends. -/
theorem interests_soleSender : ∃ s,
    Reaches step Unshared (start 0 userLimit (List.replicate bufSize 0)) s ∧
      s.userCount = 1 ∧ s.Interests := by
  obtain ⟨s, hrun, hcount⟩ := exists_next_of_map soleSender_run
  have hreach := Reaches.of_runGuarded _ _ hrun
  exact ⟨s, hreach, hcount, (interests_iff_nothing_due hreach).2 fun _ _ hok => hok⟩

/-- A client sends a message to another one, which gets it. -/
def oneMessage : List Action :=
  [.poll [pollIn], .accept (some 3), .skip, .endRound,
    .poll [pollIn, 0], .accept (some 4), .skip, .skip, .endRound,
    .poll [0, pollIn, 0], .skip, .read (some [97, 10]), .skip, .endRound,
    .poll [0, 0, pollOut], .skip, .skip, .write 7, .endRound]

theorem oneMessage_run :
    (runGuarded step (fun _ _ => True) (start 0 userLimit (List.replicate bufSize 0))
      oneMessage).state?.map (fun s => (s.userCount, decide (s.Waiting (s.fds 2).fd),
        has (s.fds 2).events pollOut)) = some (2, false, true) := by decide +kernel

/-- Nothing waits for the client any more, and it is still asked about writing. -/
theorem writable_client_stays_asked : ∃ s,
    Reaches step (fun _ _ => True) (start 0 userLimit (List.replicate bufSize 0)) s ∧
      ¬ s.Waiting (s.fds 2).fd ∧ has (s.fds 2).events pollOut ∧ ¬ s.Interests := by
  obtain ⟨s, hrun, hsaw⟩ := exists_next_of_map oneMessage_run
  simp only [Prod.mk.injEq, decide_eq_false_iff_not] at hsaw
  obtain ⟨hcount, hidle, hout⟩ := hsaw
  refine ⟨s, Reaches.of_runGuarded _ _ hrun, hidle, hout, fun hinterests => ?_⟩
  have hslot := hinterests.clients 2 (by decide) (by omega)
  exact hidle (hslot.writing.mp hout)

end NetworkCode.Chat
