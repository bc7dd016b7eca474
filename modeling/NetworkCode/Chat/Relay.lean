import NetworkCode.Chat.Defined
import Mathlib.Data.List.Forall2

/-!
# Relaying messages

All queued messages share `tmpbuf`. Each message reaches every other client once and in
order, as long as a client is read only when no queued message is waiting, the message
ends in a line end, and a NUL follows the place in `tmpbuf` to which it is written.
-/

namespace NetworkCode.Chat

open StepResult Text

variable {s t : State} {a : Action} {i j : Int} {fd connfd : Fd} {data b : Bytes} {n : Nat}

/-! ## Writing a message to the buffer -/

/-- A text that is written to the buffer behind `User<fd>:` is followed by a NUL. -/
structure Ends (buf txt : Bytes) : Prop where
  length : buf.length = bufSize
  nul : txt = [] ∨ buf[6 + txt.length]? = some 0

/-- A text that ends with the NUL in the array is composed behind the prefix of the user. -/
theorem compose_eq {txt : Bytes} (h : Ends b txt) (fd : Fd) :
    ∃ rest, compose b fd txt = some (userPrefix fd ++ txt ++ 0 :: rest) ∧
      (userPrefix fd ++ txt ++ 0 :: rest).length = bufSize := by
  have hlen : b.length = 1024 := h.length
  have hhead : store b 0 (userPrefix fd ++ [0]) = some (userPrefix fd ++ 0 :: b.drop 7) := by
    rw [store_eq (by rw [List.length_append, length_userPrefix, hlen]; decide)]
    simp [length_userPrefix]
  obtain ⟨rest, hrest⟩ : ∃ rest, (0 :: b.drop 7).drop txt.length = 0 :: rest := by
    cases txt with
    | nil => exact ⟨b.drop 7, rfl⟩
    | cons x xs =>
      have hnul := h.nul.resolve_left (List.cons_ne_nil x xs)
      rw [List.length_cons] at hnul
      obtain ⟨hbound, hget⟩ := List.getElem?_eq_some_iff.mp hnul
      refine ⟨b.drop (7 + (xs.length + 1)), ?_⟩
      rw [List.length_cons, List.drop_succ_cons, List.drop_drop,
        show 7 + xs.length = 6 + (xs.length + 1) by omega,
        List.drop_eq_getElem_cons hbound, hget]
      congr 2
      omega
  have hroom : 6 + txt.length < 1024 := by
    have := congrArg List.length hrest
    simp only [List.length_drop, List.length_cons, hlen] at this
    omega
  have htail : (userPrefix fd ++ 0 :: b.drop 7).drop (6 + txt.length) = 0 :: rest := by
    rw [← length_userPrefix fd, ← List.drop_drop, List.drop_left, hrest]
  refine ⟨rest, ?_, ?_⟩
  · rw [compose, hhead, Option.bind_some, store_eq, htail, ← length_userPrefix fd, List.take_left]
    simp only [List.length_append, length_userPrefix, List.length_cons, List.length_drop, hlen]
    omega
  · have := congrArg List.length htail
    simp only [List.length_append, length_userPrefix, List.length_cons, List.length_drop, hlen]
      at this ⊢
    change _ = 1024
    omega

/-- The buffer is then ready for the same text again. -/
theorem Ends.compose {txt : Bytes} (h : Ends b txt) (fd : Fd) :
    ∃ b', compose b fd txt = some b' ∧ Ends b' txt := by
  obtain ⟨rest, hb', hlen⟩ := compose_eq h fd
  refine ⟨_, hb', hlen, .inr ?_⟩
  have heq : (userPrefix fd ++ txt).length = 6 + txt.length := by
    rw [List.length_append, length_userPrefix]
  rw [List.getElem?_append_right (Nat.le_of_eq heq), heq]
  simp

/-- A text is composed for one client after the other, and ends where it ended. -/
theorem Ends.foldlM {txt : Bytes} (h : Ends b txt) (fds : List Fd) :
    ∃ b', fds.foldlM (fun b fd => Chat.compose b fd txt) b = some b' ∧ Ends b' txt := by
  induction fds generalizing b with
  | nil => exact ⟨b, rfl, h⟩
  | cons fd fds ih =>
    obtain ⟨b', hb', hends⟩ := h.compose fd
    obtain ⟨b'', hb'', hends'⟩ := ih hends
    refine ⟨b'', ?_, hends'⟩
    rw [List.foldlM_cons, hb']
    exact hb''

/-- Behind the last recipient the buffer holds its `User<fd>:` and the message. -/
theorem Ends.written {txt b' : Bytes} {fds : List Fd} (h : Ends b txt) (htxt : 0 ∉ txt)
    (hlast : fds.getLast? = some fd) (hdigit : digit fd ≠ 0)
    (hb' : fds.foldlM (fun b fd => Chat.compose b fd txt) b = some b') :
    cstr b' = userPrefix fd ++ txt ∧ 0 ∈ b' ∧ b'.length = bufSize := by
  obtain ⟨init, rfl⟩ := List.getLast?_eq_some_iff.mp hlast
  obtain ⟨b₁, hb₁, hends⟩ := h.foldlM init
  obtain ⟨rest, hrest, hlen⟩ := compose_eq hends fd
  rw [List.foldlM_append, hb₁] at hb'
  obtain rfl : userPrefix fd ++ txt ++ 0 :: rest = b' := by
    simpa [hrest] using hb'
  refine ⟨cstr_append_nul ?_ rest, by simp, hlen⟩
  rw [List.mem_append, not_or]
  refine ⟨?_, htxt⟩
  simpa [userPrefix] using Ne.symm hdigit

/-! ## Messages that wait -/

/-- A message waits for the client of a slot: `poll` is asked whether the client can be
written to, and `write_buf` is set. -/
def State.Pending (s : State) (slot : PollFd) : Prop :=
  has slot.events pollOut ∧ (s.users slot.fd).writeBuf = .tmpbuf

instance (s : State) (slot : PollFd) : Decidable (s.Pending slot) :=
  inferInstanceAs (Decidable (_ ∧ _))

/-- The text that waits for the client of a slot. -/
def State.inFlight (s : State) (slot : PollFd) : List Bytes :=
  if s.Pending slot then [cstr s.tmpbuf] else []

/-- A text that is written to a client carries a message: it is `User<fd>:` with the message
behind it, up to its line end. -/
def Carries (txt message : Bytes) : Prop :=
  ∃ fd line, txt = userPrefix fd ++ line ∧ message = line ++ [10]

/-- Every client got each message that was due to it once and in order, but for the one that
waits for it. -/
def Relayed (s : State) : Prop :=
  ∀ j, 1 ≤ j → j ≤ s.userCount → List.Forall₂ Carries
    (s.got (s.fds j).fd ++ s.inFlight (s.fds j)) (s.due (s.fds j).fd)

/-- When a client for which a message waits is found writable, the message is written. -/
def Delivered (s : State) : Prop :=
  ∀ i, s.At i .write → s.Pending (s.fds i) → ∃ t,
    step s (.write (cstr s.tmpbuf).length) = next t ∧
      t.got (s.fds i).fd = s.got (s.fds i).fd ++ [cstr s.tmpbuf] ∧ ¬ t.Pending (t.fds i)

/-- No message waits for any client. -/
def State.Idle (s : State) : Prop := ∀ k < s.userCount.toNat, ¬ s.Pending (s.fds (k + 1))

instance (s : State) : Decidable s.Idle := inferInstanceAs (Decidable (∀ _ < _, _))

/-- A message of one line that `tmpbuf` can take up: the byte behind it is a NUL already. -/
structure Fits (tmpbuf data : Bytes) : Prop where
  line : data.getLast? = some 10
  text : 0 ∉ data
  nul : data.length = 1 ∨ tmpbuf[data.length + 5]? = some 0

instance (tmpbuf data : Bytes) : Decidable (Fits tmpbuf data) :=
  decidable_of_iff (data.getLast? = some 10 ∧ 0 ∉ data ∧
      (data.length = 1 ∨ tmpbuf[data.length + 5]? = some 0))
    ⟨fun h => ⟨h.1, h.2.1, h.2.2⟩, fun h => ⟨h.line, h.text, h.nul⟩⟩

/-- What is read has somebody to go to only if nothing waits in `tmpbuf` and it fits there. A
descriptor that is accepted has an entry in `users`, and a write takes the whole text. -/
def Safe (s : State) : Action → Prop
  | .accept (some fd) => s.userCount < userLimit → s.hasUser fd
  | .read (some data) => data ≠ [] ∧ ∀ last ∈ s.others.getLast?,
      s.Idle ∧ Fits s.tmpbuf data ∧ digit last ≠ 0
  | .write taken => taken = (cstr s.tmpbuf).length
  | _ => True

instance (s : State) (a : Action) : Decidable (Safe s a) :=
  match a with
  | .accept (some fd) => inferInstanceAs (Decidable (s.userCount < userLimit → s.hasUser fd))
  | .read (some data) => inferInstanceAs (Decidable (data ≠ [] ∧ ∀ last ∈ s.others.getLast?,
      s.Idle ∧ Fits s.tmpbuf data ∧ digit last ≠ 0))
  | .write taken => inferInstanceAs (Decidable (taken = (cstr s.tmpbuf).length))
  | .poll _ | .pollFailed | .accept none | .error | .hangUp | .read none | .skip | .endRound =>
    .isTrue trivial

/-! ## What holds for each slot -/

/-- The client of a slot is served: what waits for it is a text that ends in a NUL, and it gets
what is due to it. -/
structure State.Serves (s : State) (slot : PollFd) : Prop where
  waits : s.Pending slot → 0 ∈ s.tmpbuf ∧ cstr s.tmpbuf ≠ []
  relayed : List.Forall₂ Carries (s.got slot.fd ++ s.inFlight slot) (s.due slot.fd)

/-- Only the data of the client matter, and the buffer if something waits. -/
theorem State.Serves.congr {slot slot' : PollFd} (h : s.Serves slot) (hfd : slot'.fd = slot.fd)
    (hevents : slot'.events = slot.events)
    (hbuf : (t.users slot.fd).writeBuf = (s.users slot.fd).writeBuf)
    (htmpbuf : s.Pending slot → t.tmpbuf = s.tmpbuf) (hgot : t.got slot.fd = s.got slot.fd)
    (hdue : t.due slot.fd = s.due slot.fd) : t.Serves slot' := by
  have hpending : t.Pending slot' ↔ s.Pending slot := by
    rw [State.Pending, State.Pending, hfd, hevents, hbuf]
  have hflight : t.inFlight slot' = s.inFlight slot := by
    by_cases hp : s.Pending slot
    · rw [State.inFlight, if_pos (hpending.mpr hp), State.inFlight, if_pos hp, htmpbuf hp]
    · rw [State.inFlight, if_neg (hp ∘ hpending.mp), State.inFlight, if_neg hp]
  refine ⟨?_, ?_⟩
  · intro hp
    rw [htmpbuf (hpending.mp hp)]
    exact h.waits (hpending.mp hp)
  · rw [hflight, hfd, hgot, hdue]
    exact h.relayed

/-- The invariant: the table, and each client is served. -/
structure Relaying (s : State) : Prop where
  table : Tabled s
  buffer : s.tmpbuf.length = bufSize
  serves : ∀ j, 1 ≤ j → j ≤ s.userCount → s.Serves (s.fds j)

/-- Nobody has got anything at the beginning, and nothing is due. -/
theorem relaying_start {listenSock : Fd} {entries : Int} {tmpbuf : Bytes}
    (hbuf : tmpbuf.length = bufSize) : Relaying (start listenSock entries tmpbuf) where
  table := tabled_start listenSock entries tmpbuf
  buffer := hbuf
  serves j hj hle := by
    change j ≤ 0 at hle
    omega

/-- A step that changes only where `main` is. -/
theorem Relaying.move (h : Relaying s) {loop : Loop} (htable : Tabled { s with loop }) :
    Relaying { s with loop } where
  table := htable
  buffer := h.buffer
  serves j hj hle := (h.serves j hj hle).congr rfl rfl rfl (fun _ => rfl) rfl rfl

/-- What `poll` reports hands nothing on. -/
theorem Relaying.polled {revents : List Events} (h : Relaying s) (hrep : s.reports revents) :
    Relaying (s.polled revents) where
  table := h.table.polled hrep
  buffer := h.buffer
  serves j hj hle :=
    (h.serves j hj hle).congr polled_fds_fd.1 polled_fds_fd.2 rfl (fun _ => rfl) rfl rfl

/-- Nothing is due to a new client. -/
theorem Relaying.withUser (h : Relaying s) (hclosed : fd ∉ s.opened)
    (htable : Tabled (s.withUser i fd)) : Relaying (s.withUser i fd) where
  table := htable
  buffer := h.buffer
  serves j hj hle := by
    change j ≤ s.userCount + 1 at hle
    by_cases hlast : j = s.userCount + 1
    · subst hlast
      rw [withUser_fds_last]
      have hquiet : ¬ has (pollIn ||| pollRdhup ||| pollErr) pollOut := by decide
      have hpending : ¬ (s.withUser i fd).Pending ⟨fd, pollIn ||| pollRdhup ||| pollErr, 0⟩ :=
        fun hp => hquiet hp.1
      refine ⟨fun hp => absurd hp hpending, ?_⟩
      have hgot : (s.withUser i fd).got fd = [] := Function.update_self _ _ _
      have hdue : (s.withUser i fd).due fd = [] := Function.update_self _ _ _
      rw [State.inFlight, if_neg hpending, hgot, hdue]
      exact .nil
    · have hne : (s.fds j).fd ≠ fd :=
        fun he => hclosed (he ▸ (h.table.client j hj (by omega)).opened)
      rw [withUser_fds (by omega)]
      exact (h.serves j hj (by omega)).congr rfl rfl rfl (fun _ => rfl)
        (Function.update_of_ne hne _ _) (Function.update_of_ne hne _ _)

/-- The other clients are served as before when one is removed. -/
theorem Relaying.without (h : Relaying s) (hi : 1 ≤ i) (hi' : i ≤ s.userCount)
    {opened : List Fd} (htable : Tabled { s.without i with opened }) :
    Relaying { s.without i with opened } where
  table := htable
  buffer := h.buffer
  serves j hj hle := by
    obtain ⟨k, hk, hk', hki, hfk, -⟩ := without_fds hi hi' hj hle
    have hne : (s.fds k).fd ≠ (s.fds i).fd := fun he => hki (h.table.slot_inj hk hk' hi hi' he)
    have hslot : ({ s.without i with opened } : State).fds j = s.fds k := hfk
    have hbuf : (s.without i).users (s.fds k).fd = s.users (s.fds k).fd :=
      Function.update_of_ne hne _ _
    rw [hslot]
    exact (h.serves k hk hk').congr rfl rfl (congrArg ClientData.writeBuf hbuf)
      (fun _ => rfl) rfl rfl

/-- A text that is not empty and written as a whole. -/
theorem written_got_self (h : cstr s.tmpbuf ≠ []) :
    (s.written i (cstr s.tmpbuf).length).got (s.fds i).fd =
      s.got (s.fds i).fd ++ [cstr s.tmpbuf] := by
  have hne : ¬ (cstr s.tmpbuf).length = 0 := fun hlen => h (List.eq_nil_of_length_eq_zero hlen)
  refine (Function.update_self _ _ _).trans ?_
  rw [if_neg hne, List.take_length]

/-- Nothing waits for a client behind a write. -/
theorem written_not_pending {taken : Nat} :
    ¬ (s.written i taken).Pending { s.fds i with events := writtenEvents (s.fds i).events } := by
  rintro ⟨-, hbuf⟩
  rw [written_users_self] at hbuf
  cases hbuf

/-- The text that waits for a client is written to it. -/
theorem Relaying.written (h : Relaying s) (hi : 1 ≤ i) (hi' : i ≤ s.userCount)
    (hpending : s.Pending (s.fds i)) : Relaying (s.written i (cstr s.tmpbuf).length) where
  table := h.table.written hi hi'
  buffer := h.buffer
  serves j hj hle := by
    by_cases he : j = i
    · subst he
      have hslot := h.serves j hj hle
      rw [written_fds_self]
      refine ⟨fun hp => absurd hp written_not_pending, ?_⟩
      have hrelayed := hslot.relayed
      rw [State.inFlight, if_pos hpending] at hrelayed
      rw [State.inFlight, if_neg written_not_pending,
        written_got_self (hslot.waits hpending).2, List.append_nil]
      exact hrelayed
    · have hne : (s.fds j).fd ≠ (s.fds i).fd :=
        fun hfd => he (h.table.slot_inj hj hle hi hi' hfd)
      have hbuf : (s.written i (cstr s.tmpbuf).length).users (s.fds j).fd =
          s.users (s.fds j).fd := Function.update_of_ne hne _ _
      rw [written_fds_of_ne he]
      exact (h.serves j hj hle).congr rfl rfl (congrArg ClientData.writeBuf hbuf) (fun _ => rfl)
        (Function.update_of_ne hne _ _) rfl

/-! ## Reading a message -/

/-- The message without its line end, and a NUL behind it. -/
theorem Fits.ends (h : Fits b data) (hlen : b.length = bufSize) : Ends b data.dropLast := by
  obtain ⟨line, rfl⟩ := List.getLast?_eq_some_iff.mp h.line
  have hnul := h.nul
  rw [List.length_append, List.length_singleton] at hnul
  rw [List.dropLast_concat]
  refine ⟨hlen, hnul.imp (fun hone => List.eq_nil_of_length_eq_zero (by omega)) fun hget => ?_⟩
  rw [← hget]
  congr 1
  omega

/-- The clients that a message does not go to are served as before. -/
theorem Relaying.serves_unsent (h : Relaying s)
    (hq : Queued (s.keep i data) (s.fds i).fd data n t) (hj : 1 ≤ j) (hle : j ≤ s.userCount)
    (hself : (s.fds j).fd = (s.fds i).fd) (htmpbuf : s.Pending (s.fds j) → t.tmpbuf = s.tmpbuf) :
    t.Serves (t.fds j) := by
  have hslot : t.fds j = s.fds j := by
    rw [hq.fds, if_neg fun hsent => hsent.2.2 hself]
    rfl
  have hbuf : (t.users (s.fds j).fd).writeBuf = (s.users (s.fds j).fd).writeBuf := by
    rw [hq.users, if_neg (hself ▸ notMem_recipients _ _ _), keep_writeBuf]
  have hdue : t.due (s.fds j).fd = s.due (s.fds j).fd := by
    rw [hq.due]
    exact if_neg fun hdue => hdue.2 hself
  rw [hslot]
  exact (h.serves j hj hle).congr rfl rfl hbuf htmpbuf (congrFun hq.got _) hdue

/-- The message waits for the others. -/
theorem Relaying.serves_sent (h : Relaying s)
    (hq : Queued (s.keep i data) (s.fds i).fd data s.userCount.toNat t) (hj : 1 ≤ j)
    (hle : j ≤ s.userCount) (hother : (s.fds j).fd ≠ (s.fds i).fd)
    (hidle : ¬ s.Pending (s.fds j)) (hcarries : Carries (cstr t.tmpbuf) data)
    (hnul : 0 ∈ t.tmpbuf) : t.Serves (t.fds j) := by
  have hslot : t.fds j = { s.fds j with events := queuedEvents (s.fds j).events } := by
    rw [hq.fds, if_pos ⟨hj, by omega, hother⟩]
    rfl
  have hmem : (s.fds j).fd ∈ (s.keep i data).recipients (s.fds i).fd s.userCount.toNat :=
    mem_recipients.mpr ⟨j, hj, by omega, rfl, hother⟩
  have hbuf : (t.users (s.fds j).fd).writeBuf = .tmpbuf := by
    rw [hq.users, if_pos hmem]
  have hdue : t.due (s.fds j).fd = s.due (s.fds j).fd ++ [data] := by
    rw [hq.due]
    exact if_pos ⟨mem_clients hj hle, hother⟩
  have hgot : t.got (s.fds j).fd = s.got (s.fds j).fd := congrFun hq.got _
  have hpending : t.Pending { s.fds j with events := queuedEvents (s.fds j).events } :=
    ⟨has_queuedEvents _, hbuf⟩
  rw [hslot]
  refine ⟨fun _ => ⟨hnul, ?_⟩, ?_⟩
  · obtain ⟨fd, line, htext, -⟩ := hcarries
    rw [htext]
    exact List.cons_ne_nil _ _
  · have hrelayed := (h.serves j hj hle).relayed
    rw [State.inFlight, if_neg hidle, List.append_nil] at hrelayed
    rw [State.inFlight, if_pos hpending, hgot, hdue]
    exact List.rel_append hrelayed (.cons hcarries .nil)

/-- While nothing waits no slot has a message. -/
theorem State.Idle.slot (h : s.Idle) (hj : 1 ≤ j) (hle : j ≤ s.userCount) :
    ¬ s.Pending (s.fds j) := by
  have hidle := h (j - 1).toNat (by omega)
  rwa [show (((j - 1).toNat : Nat) : Int) + 1 = j by omega] at hidle

/-- Reading a message queues it for all others. -/
theorem Relaying.received (h : Relaying s) (hat : s.At i .read)
    (hsafe : Safe s (.read (some data)))
    (ht : (s.keep i data).queueAll (s.fds i).fd data s.userCount.toNat = next t) :
    Relaying (t.advance i) := by
  have hq := queued_of_queueAll ht
  have htable := (hq.tabled (h.table.keep i data)).advance (h.table.index i hat.loop)
  have hlast := hsafe.2
  have hbuf := hq.tmpbuf
  rw [others_eq hat] at hlast
  rw [recipients_keep, message_keep] at hbuf
  cases hothers : (s.recipients (s.fds i).fd s.userCount.toNat).getLast? with
  | none =>
    rw [List.getLast?_eq_none_iff] at hothers
    have hsame : t.tmpbuf = s.tmpbuf := by
      rw [hothers] at hbuf
      exact (Option.some.inj hbuf).symm
    refine ⟨htable, (congrArg List.length hsame).trans h.buffer, fun j hj hle => ?_⟩
    change j ≤ t.userCount at hle
    rw [hq.userCount] at hle
    change j ≤ s.userCount at hle
    have hself : (s.fds j).fd = (s.fds i).fd := by
      by_contra hne
      have hmem : (s.fds j).fd ∈ s.recipients (s.fds i).fd s.userCount.toNat :=
        mem_recipients.mpr ⟨j, hj, by omega, rfl, hne⟩
      rw [hothers] at hmem
      cases hmem
    exact (h.serves_unsent hq hj hle hself fun _ => hsame).congr rfl rfl rfl (fun _ => rfl) rfl rfl
  | some last =>
    obtain ⟨hidle, hfits, hdigit⟩ := hlast last hothers
    have hzero : 0 ∉ data.dropLast := fun hmem => hfits.text (List.dropLast_subset _ hmem)
    obtain ⟨htext, hnul, hlen⟩ := (hfits.ends h.buffer).written hzero hothers hdigit hbuf
    have hcarries : Carries (cstr t.tmpbuf) data := by
      obtain ⟨line, hline⟩ := List.getLast?_eq_some_iff.mp hfits.line
      refine ⟨last, line, ?_, hline⟩
      rw [htext, hline, List.dropLast_concat]
    refine ⟨htable, hlen, fun j hj hle => ?_⟩
    change j ≤ t.userCount at hle
    rw [hq.userCount] at hle
    change j ≤ s.userCount at hle
    have hserves : t.Serves (t.fds j) := by
      by_cases hself : (s.fds j).fd = (s.fds i).fd
      · exact h.serves_unsent hq hj hle hself fun hp => absurd hp (hidle.slot hj hle)
      · exact h.serves_sent hq hj hle hself (hidle.slot hj hle) hcarries hnul
    exact hserves.congr rfl rfl rfl (fun _ => rfl) rfl rfl

/-! ## The whole server -/

/-- Every safe step keeps the invariant. -/
theorem Relaying.step (h : Relaying s) (hsafe : Safe s a) (hs : step s a = next t) :
    Relaying t := by
  have htable := h.table.step hs
  cases Effect.of_step hs with
  | polled _ hrep => exact h.polled hrep
  | stopped _ => exact h.move htable
  | passed _ => exact h.move htable
  | added _ _ _ hclosed _ _ => exact h.withUser hclosed htable
  | left hat _ _ =>
    obtain ⟨hi, hi'⟩ := h.table.client_slot hat (.inl rfl)
    exact h.without hi hi' htable
  | dropped hat _ _ =>
    obtain ⟨hi, hi'⟩ := h.table.client_slot hat (.inr (.inl rfl))
    exact h.without hi hi' htable
  | received hat _ _ _ ht => exact h.received hat hsafe ht
  | wrote hat _ hbuf _ _ =>
    obtain ⟨hi, hi'⟩ := h.table.client_slot hat (.inr (.inr rfl))
    obtain rfl := hsafe
    exact h.written hi hi' ⟨h.table.events_of_write hat, hbuf⟩
  | round _ _ => exact h.move htable

/-- A message that fits the buffer with a NUL behind it is inside of it. -/
theorem Fits.length_le (h : Fits b data) (hlen : b.length = bufSize) :
    data.length ≤ bufSize - 5 := by
  obtain hone | hget := h.nul
  · rw [hone]
    decide
  · obtain ⟨hbound, -⟩ := List.getElem?_eq_some_iff.mp hget
    omega

/-- A safe step that can happen stays inside the arrays. -/
theorem Relaying.inBounds (h : Relaying s) (hset : s.BufsSet) (hsafe : Safe s a)
    (hen : Chat.step s a ≠ disabled) : InBounds s a := by
  cases a with
  | accept fd =>
    cases fd with
    | none => trivial
    | some fd => exact hsafe
  | read data =>
    cases data with
    | none => trivial
    | some data =>
      refine ⟨hsafe.1, fun hothers => ?_⟩
      obtain ⟨last, hlast⟩ : ∃ last, last ∈ s.others.getLast? :=
        ⟨_, List.getLast?_eq_getLast_of_ne_nil hothers⟩
      exact (hsafe.2 last hlast).2.1.length_le h.buffer
  | write taken =>
    obtain ⟨i, hat, hbuf⟩ := at_of_write h.table hen
    obtain ⟨hi, hi'⟩ := h.table.client_slot hat (.inr (.inr rfl))
    have hpending : s.Pending (s.fds i) := by
      refine ⟨h.table.events_of_write hat, ?_⟩
      cases hcase : (s.users (s.fds i).fd).writeBuf with
      | null => exact absurd hcase hbuf
      | unset => exact absurd hcase (hset.of_write h.table hat)
      | tmpbuf => rfl
    exact ((h.serves i hi hi').waits hpending).1
  | _ => trivial

/-- No safe step leaves `users` or the buffer, or uses a `write_buf` that was never set. -/
theorem Relaying.step_ne_undefined (h : Relaying s) (hset : s.BufsSet) (hsafe : Safe s a) :
    Chat.step s a ≠ undefined := by
  by_cases hen : Chat.step s a = disabled
  · rw [hen]
    rintro ⟨⟩
  · exact (step_ne_undefined_iff h.table hset h.buffer hen).mpr (h.inBounds hset hsafe hen)

/-- A message that waits for a client is written when the client is found writable. -/
theorem Relaying.delivered (h : Relaying s) : Delivered s := by
  intro i hat hpending
  obtain ⟨hi, hi'⟩ := h.table.client_slot hat (.inr (.inr rfl))
  obtain ⟨hnul, htext⟩ := (h.serves i hi hi').waits hpending
  refine ⟨s.written i (cstr s.tmpbuf).length, ?_, written_got_self htext, ?_⟩
  · simp only [Chat.step, hat.loop, hat.bound, hat.branch, if_true, State.handle, State.writeTo,
      if_pos (h.table.hasUser hi hi'), hpending.2, if_pos hnul, Nat.le_refl]
  · rw [written_fds_self]
    exact written_not_pending

/-- The invariant holds in every state of a run of safe steps. -/
theorem relaying_of_reaches {listenSock : Fd} {entries : Int} {tmpbuf : Bytes}
    (hbuf : tmpbuf.length = bufSize)
    (h : Reaches Chat.step Safe (start listenSock entries tmpbuf) s) : Relaying s :=
  h.invariant (relaying_start hbuf) fun _ _ _ hs hsafe hstep => hs.step hsafe hstep

/-- On every run of safe steps each message reaches each other client once and in order, and no
step is undefined. -/
theorem relayed_in_order {listenSock : Fd} {entries : Int} {tmpbuf : Bytes} {s : State}
    (hbuf : tmpbuf.length = bufSize)
    (h : Reaches Chat.step Safe (start listenSock entries tmpbuf) s) :
    Relayed s ∧ Delivered s ∧ ∀ a, Safe s a → Chat.step s a ≠ undefined := by
  have hs := relaying_of_reaches hbuf h
  exact ⟨fun j hj hle => (hs.serves j hj hle).relayed, hs.delivered,
    fun a hsafe => hs.step_ne_undefined (bufsSet_of_reaches h) hsafe⟩

/-- The clients 3 and 4 send a message each, the second one when the first was written. -/
def quietRun : List Action :=
  [.poll [pollIn], .accept (some 3), .skip, .endRound,
    .poll [pollIn, 0], .accept (some 4), .skip, .skip, .endRound,
    .poll [0, pollIn, 0], .skip, .read (some [97, 10]), .skip, .endRound,
    .poll [0, 0, pollOut], .skip, .skip, .write 7, .endRound,
    .poll [0, 0, pollIn], .skip, .skip, .read (some [98, 10]), .endRound,
    .poll [0, pollOut, 0], .skip, .write 7, .skip, .endRound]

theorem quietRun_got :
    (runGuarded step Safe (start 0 userLimit (List.replicate bufSize 0)) quietRun).state?.map
      (fun s => (s.got 3, s.got 4)) =
    some ([userPrefix 3 ++ [98]], [userPrefix 4 ++ [97]]) := by decide +kernel

/-- Each of two clients gets the message of the other one. -/
theorem relayed_in_order_quietRun : ∃ s,
    Reaches step Safe (start 0 userLimit (List.replicate bufSize 0)) s ∧
      s.got 3 = [userPrefix 3 ++ [98]] ∧ s.got 4 = [userPrefix 4 ++ [97]] ∧
      Relayed s ∧ Delivered s ∧ ∀ a, Safe s a → step s a ≠ undefined := by
  obtain ⟨s, hrun, hgot⟩ := exists_next_of_map quietRun_got
  have hreach := Reaches.of_runGuarded _ _ hrun
  exact ⟨s, hreach, congrArg Prod.fst hgot, congrArg Prod.snd hgot,
    relayed_in_order List.length_replicate hreach⟩

/-- The clients 3 and 4 send a message each in the same round. -/
def twoSenders : List Action :=
  [.poll [pollIn], .accept (some 3), .skip, .endRound,
    .poll [pollIn, 0], .accept (some 4), .skip, .skip, .endRound,
    .poll [0, pollIn, pollIn], .skip, .read (some [97, 10]), .read (some [98, 10]), .endRound,
    .poll [0, pollOut, pollOut], .skip, .write 7, .write 7, .endRound]

theorem twoSenders_got :
    (runGuarded step (fun _ _ => True) (start 0 userLimit (List.replicate bufSize 0))
      twoSenders).state?.map
        (fun s => (s.userCount, (s.fds 2).fd, s.got 4 ++ s.inFlight (s.fds 2), s.due 4)) =
    some (2, 4, [userPrefix 3 ++ [98]], [[97, 10]]) := by decide +kernel

/-- The message of client 3 is overwritten by that of client 4, who gets its own back. -/
theorem second_sender_overwrites : ∃ s,
    runGuarded step (fun _ _ => True) (start 0 userLimit (List.replicate bufSize 0))
      twoSenders = next s ∧ ¬ Relayed s := by
  obtain ⟨s, hrun, hgot⟩ := exists_next_of_map twoSenders_got
  simp only [Prod.mk.injEq] at hgot
  obtain ⟨hcount, hfd, hwritten, hdue⟩ := hgot
  refine ⟨s, hrun, fun hrelayed => ?_⟩
  have hforall := hrelayed 2 (by decide) (by omega)
  rw [hfd, hwritten, hdue] at hforall
  cases hforall with
  | cons hcarries _ =>
    obtain ⟨fd, line, htext, hmessage⟩ := hcarries
    have hline : [98] = line := congrArg (List.drop 6) htext
    subst hline
    revert hmessage
    decide

end NetworkCode.Chat
