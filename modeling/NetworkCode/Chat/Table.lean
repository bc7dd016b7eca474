import NetworkCode.Chat.State
import NetworkCode.Core.Slots

/-!
# The slot table of the chat server

What one step can do is said once. From it follows that the clients in the slots from
1 on are distinct open descriptors within `users`, that the slot of the listening
socket stays what it is, and that a client is reported writable only if `main` asked.
-/

namespace NetworkCode.Chat

open StepResult Text

variable {s t u : State} {a : Action} {i j : Int} {fd connfd : Fd} {data : Bytes} {n : Nat}

/-! ## Masks -/

/-- A flag of one bit is in a mask when the bit is. -/
theorem has_twoPow {mask : Events} {k : Nat} (hk : k < 16) :
    has mask (BitVec.twoPow 16 k) = mask.getLsbD k := by
  rw [has, BitVec.and_twoPow]
  cases h : mask.getLsbD k with
  | false => simp
  | true =>
    have hne : BitVec.twoPow 16 k ≠ 0 := by
      intro he
      have hbit := congrArg (fun m : BitVec 16 => m.getLsbD k) he
      simp [hk] at hbit
    simpa using hne

/-- A result of `poll` can only have the bits that were asked for or are always reported. -/
def PollFd.Asked (slot : PollFd) : Prop :=
  slot.revents &&& ~~~(slot.events ||| unasked) = 0

/-- A bit that is reported was asked for, or needs no asking. -/
theorem PollFd.Asked.getLsbD {slot : PollFd} (h : slot.Asked) {k : Nat} (hk : k < 16)
    (hun : unasked.getLsbD k = false) (hrev : slot.revents.getLsbD k = true) :
    slot.events.getLsbD k = true := by
  have hbit : (slot.revents &&& ~~~(slot.events ||| unasked)).getLsbD k = false := by
    rw [PollFd.Asked] at h
    simp [h]
  rw [BitVec.getLsbD_and, BitVec.getLsbD_not, BitVec.getLsbD_or, hrev, hun] at hbit
  simpa only [hk, decide_true, Bool.true_and, Bool.or_false, Bool.not_eq_false'] using hbit

/-- What was asked for stays asked for when the mask grows. -/
theorem PollFd.Asked.grow {slot : PollFd} (h : slot.Asked) (m : Events) :
    PollFd.Asked { slot with events := slot.events ||| m } := by
  have hand : slot.revents &&& ~~~(slot.events ||| m ||| unasked) =
      slot.revents &&& ~~~(slot.events ||| unasked) &&& ~~~m := by
    ext k hk
    simp only [BitVec.getElem_and, BitVec.getElem_not, BitVec.getElem_or]
    cases slot.revents[k] <;> cases slot.events[k] <;> cases m[k] <;> cases unasked[k] <;> rfl
  rw [PollFd.Asked, hand, h]
  exact BitVec.zero_and

/-- Asking for more keeps what is reported asked for. -/
theorem PollFd.Asked.queued {slot : PollFd} (h : slot.Asked) :
    PollFd.Asked { slot with events := queuedEvents slot.events } :=
  (h.grow (~~~pollIn)).grow pollOut

/-- The mask behind a write keeps what is reported asked for. -/
theorem PollFd.Asked.writtenBack {slot : PollFd} (h : slot.Asked) :
    PollFd.Asked { slot with events := writtenEvents slot.events } :=
  (h.grow (~~~pollOut)).grow pollIn

/-- Behind a queued message room to write is asked for. -/
theorem has_queuedEvents (events : Events) : has (queuedEvents events) pollOut = true := by
  rw [pollOut, has_twoPow (by decide), queuedEvents]
  simp [pollOut]

/-! ## What one step can do -/

/-- `main` is before the slot `i`, for which it takes the branch `b`. -/
structure State.At (s : State) (i : Int) (b : Branch) : Prop where
  loop : s.loop = .handling i
  bound : i < s.userCount + 1
  branch : s.branch (s.fds i) = b

/-- What one step of `main` does. -/
inductive Effect (s : State) : Action → State → Prop
  | polled {revents : List Events} (hloop : s.loop = .polling) (h : s.reports revents) :
      Effect s (.poll revents) (s.polled revents)
  | stopped (hloop : s.loop = .polling) : Effect s .pollFailed { s with loop := .stopped }
  /-- Nothing is done for the slot. -/
  | passed {a : Action} {i : Int} {b : Branch} (h : s.At i b) : Effect s a (s.advance i)
  | added {i : Int} {fd : Fd} (h : s.At i .accept) (hpos : 0 ≤ fd) (hne : fd ≠ s.listenSock)
      (hclosed : fd ∉ s.opened) (hlimit : s.userCount < userLimit) (huser : s.hasUser fd) :
      Effect s (.accept (some fd)) (s.withUser i fd)
  | left {i : Int} (h : s.At i .hangUp) (huser : s.hasUser (s.fds i).fd)
      (hlast : s.hasUser (s.fds s.userCount).fd) :
      Effect s .hangUp { s.without i with opened := s.opened.erase (s.fds i).fd }
  | dropped {i : Int} (h : s.At i .read) (huser : s.hasUser (s.fds i).fd)
      (hlast : s.hasUser (s.fds s.userCount).fd) : Effect s (.read none) (s.without i)
  | received {i : Int} {data : Bytes} {t : State} (h : s.At i .read)
      (huser : s.hasUser (s.fds i).fd) (hdata : data ≠ []) (hlen : data.length ≤ bufSize - 1)
      (ht : (s.keep i data).queueAll (s.fds i).fd data s.userCount.toNat = next t) :
      Effect s (.read (some data)) (t.advance i)
  | wrote {i : Int} {taken : Nat} (h : s.At i .write) (huser : s.hasUser (s.fds i).fd)
      (hbuf : (s.users (s.fds i).fd).writeBuf = .tmpbuf) (hnul : 0 ∈ s.tmpbuf)
      (hlen : taken ≤ (cstr s.tmpbuf).length) : Effect s (.write taken) (s.written i taken)
  | round {i : Int} (hloop : s.loop = .handling i) (h : ¬ i < s.userCount + 1) :
      Effect s .endRound { s with loop := .polling }

/-- Taking a client out reads two entries of `users` and fills its slot with the last one. -/
theorem dropUser_eq_next (h : s.dropUser i = next t) :
    s.hasUser (s.fds i).fd ∧ s.hasUser (s.fds s.userCount).fd ∧ t = s.without i := by
  unfold State.dropUser at h
  split at h
  · rename_i hboth
    exact ⟨hboth.1, hboth.2, (StepResult.next.inj h).symm⟩
  · cases h

/-- A read that gives bytes goes through the loop over the clients. -/
theorem readFrom_eq_next (h : s.readFrom i data = next t) :
    s.hasUser (s.fds i).fd ∧ data ≠ [] ∧
      ∃ u, (s.keep i data).queueAll (s.fds i).fd data s.userCount.toNat = next u ∧
        t = u.advance i := by
  unfold State.readFrom at h
  split at h
  · rename_i hboth
    obtain ⟨u, hu, hnext⟩ := bind_eq_next.mp h
    exact ⟨hboth.1, hboth.2, u, hu, (StepResult.next.inj hnext).symm⟩
  · cases h

/-- A write needs the entry, its buffer and the NUL in it. -/
theorem writeTo_eq_next {taken : Nat} (h : s.writeTo i taken = next t) :
    s.hasUser (s.fds i).fd ∧ (s.users (s.fds i).fd).writeBuf = .tmpbuf ∧ 0 ∈ s.tmpbuf ∧
      taken ≤ (cstr s.tmpbuf).length ∧ t = s.written i taken := by
  unfold State.writeTo at h
  split at h
  · rename_i huser
    split at h
    · cases h
    · cases h
    · rename_i hbuf
      split at h
      · rename_i hnul
        split at h
        · rename_i hlen
          exact ⟨huser, hbuf, hnul, hlen, (StepResult.next.inj h).symm⟩
        · cases h
      · cases h
  · cases h

/-- What the handling of one slot does. -/
theorem Effect.of_handle {b : Branch} (hat : s.At i b) (h : s.handle i b a = next t) :
    Effect s a t := by
  cases b with
  | accept =>
    cases a with
    | accept fd =>
      cases fd with
      | none =>
        cases h
        exact .passed hat
      | some fd =>
        simp only [State.handle] at h
        split at h
        · cases h
        · rename_i hfree
          simp only [not_or, Int.not_lt] at hfree
          obtain ⟨hpos, hne, hclosed⟩ := hfree
          split at h
          · cases h
            exact .passed hat
          · rename_i hlimit
            split at h
            · rename_i huser
              cases h
              exact .added hat hpos hne hclosed (Int.not_le.mp hlimit) huser
            · cases h
    | _ => cases h
  | error =>
    cases a with
    | error =>
      cases h
      exact .passed hat
    | _ => cases h
  | hangUp =>
    cases a with
    | hangUp =>
      obtain ⟨u, hu, hnext⟩ := bind_eq_next.mp h
      obtain ⟨huser, hlast, rfl⟩ := dropUser_eq_next hu
      cases hnext
      exact .left hat huser hlast
    | _ => cases h
  | read =>
    cases a with
    | read data =>
      cases data with
      | none =>
        obtain ⟨huser, hlast, rfl⟩ := dropUser_eq_next h
        exact .dropped hat huser hlast
      | some data =>
        simp only [State.handle] at h
        split at h
        · rename_i hlen
          obtain ⟨huser, hdata, u, hu, rfl⟩ := readFrom_eq_next h
          exact .received hat huser hdata hlen hu
        · cases h
    | _ => cases h
  | write =>
    cases a with
    | write taken =>
      obtain ⟨huser, hbuf, hnul, hlen, rfl⟩ := writeTo_eq_next h
      exact .wrote hat huser hbuf hnul hlen
    | skip =>
      simp only [State.handle] at h
      split at h
      · split at h
        · cases h
          exact .passed hat
        · cases h
      · cases h
    | _ => cases h
  | none =>
    cases a with
    | skip =>
      cases h
      exact .passed hat
    | _ => cases h

/-- A step of the server is one of the effects. -/
theorem Effect.of_step (h : step s a = next t) : Effect s a t := by
  unfold step at h
  cases hloop : s.loop with
  | stopped => simp [hloop] at h
  | polling =>
    rw [hloop] at h
    cases a with
    | poll revents =>
      dsimp only at h
      split at h
      · rename_i hrep
        cases h
        exact .polled hloop hrep
      · cases h
    | pollFailed =>
      cases h
      exact .stopped hloop
    | _ => cases h
  | handling i =>
    rw [hloop] at h
    dsimp only at h
    split at h
    · rename_i hbound
      exact .of_handle ⟨hloop, hbound, rfl⟩ h
    · rename_i hend
      split at h
      · rename_i ha
        subst ha
        cases h
        exact .round hloop hend
      · cases h

/-! ## Queueing a message -/

/-- The clients in the slots from 1 to `n` other than `connfd`, in order. -/
def State.recipients (s : State) (connfd : Fd) : Nat → List Fd
  | 0 => []
  | n + 1 => s.recipients connfd n ++
    if (s.fds (n + 1)).fd = connfd then [] else [(s.fds (n + 1)).fd]

/-- The message as it was left in the array of its sender. -/
def State.message (s : State) (connfd : Fd) (data : Bytes) : Bytes :=
  (s.users connfd).buf.take (data.length - 1)

/-- What queueing a message for the clients in the slots from 1 to `n` changes. -/
structure Queued (s : State) (connfd : Fd) (data : Bytes) (n : Nat) (t : State) : Prop where
  listenSock : t.listenSock = s.listenSock
  entries : t.entries = s.entries
  userCount : t.userCount = s.userCount
  loop : t.loop = s.loop
  opened : t.opened = s.opened
  due : t.due = s.due
  got : t.got = s.got
  fds : ∀ j, t.fds j = if 1 ≤ j ∧ j ≤ n ∧ (s.fds j).fd ≠ connfd then
    { s.fds j with events := queuedEvents (s.fds j).events } else s.fds j
  users : ∀ fd, t.users fd = if fd ∈ s.recipients connfd n then
    { s.users fd with writeBuf := .tmpbuf } else s.users fd
  tmpbuf : (s.recipients connfd n).foldlM (fun b fd => compose b fd (s.message connfd data))
    s.tmpbuf = some t.tmpbuf

/-- The sender is no recipient. -/
theorem notMem_recipients (s : State) (connfd : Fd) (n : Nat) : connfd ∉ s.recipients connfd n := by
  induction n with
  | zero => simp [State.recipients]
  | succ n ih =>
    rw [State.recipients, List.mem_append, not_or]
    refine ⟨ih, ?_⟩
    split
    · exact List.not_mem_nil
    · rename_i hne
      simpa using Ne.symm hne

/-- The recipients are the clients of the slots that were passed, but for the sender. -/
theorem mem_recipients : fd ∈ s.recipients connfd n ↔
    ∃ j : Int, 1 ≤ j ∧ j ≤ n ∧ (s.fds j).fd = fd ∧ fd ≠ connfd := by
  induction n with
  | zero =>
    simp only [State.recipients, List.not_mem_nil, false_iff]
    rintro ⟨j, hj, hle, -⟩
    omega
  | succ n ih =>
    rw [State.recipients, List.mem_append, ih]
    constructor
    · rintro (⟨j, hj, hle, hfd⟩ | h)
      · exact ⟨j, hj, by omega, hfd⟩
      · split at h
        · cases h
        · rename_i hne
          obtain rfl := List.mem_singleton.mp h
          exact ⟨n + 1, by omega, by omega, rfl, hne⟩
    · rintro ⟨j, hj, hle, hfd, hne⟩
      by_cases hn : j ≤ n
      · exact .inl ⟨j, hj, hn, hfd, hne⟩
      · obtain rfl : j = n + 1 := by omega
        rw [if_neg (hfd ▸ hne), hfd]
        exact .inr List.mem_cons_self

/-- Before the first slot nothing was queued. -/
theorem queued_zero (s : State) (connfd : Fd) (data : Bytes) : Queued s connfd data 0 s where
  listenSock := rfl
  entries := rfl
  userCount := rfl
  loop := rfl
  opened := rfl
  due := rfl
  got := rfl
  fds j := by
    rw [if_neg]
    rintro ⟨hj, hle, -⟩
    omega
  users fd := rfl
  tmpbuf := rfl

/-- One more slot. -/
theorem Queued.succ (h : Queued s connfd data n t)
    (hnext : t.queueFor connfd data (n + 1) = next u) : Queued s connfd data (n + 1) u := by
  have hslot : t.fds (n + 1) = s.fds (n + 1) := by
    rw [h.fds, if_neg (by omega)]
  have hmessage : (t.users connfd).buf.take (data.length - 1) = s.message connfd data := by
    rw [h.users, if_neg (notMem_recipients s connfd n)]
    rfl
  simp only [State.queueFor, hslot, hmessage] at hnext
  split at hnext
  · rename_i heq
    cases hnext
    have hsame : s.recipients connfd (n + 1) = s.recipients connfd n := by
      rw [State.recipients, if_pos heq, List.append_nil]
    refine ⟨h.listenSock, h.entries, h.userCount, h.loop, h.opened, h.due, h.got,
      fun j => ?_, hsame ▸ h.users, hsame ▸ h.tmpbuf⟩
    rw [h.fds]
    congr 1
    refine propext ⟨?_, ?_⟩
    · rintro ⟨hj, hle, hfd⟩
      exact ⟨hj, by omega, hfd⟩
    · rintro ⟨hj, hle, hfd⟩
      refine ⟨hj, ?_, hfd⟩
      by_contra hn
      obtain rfl : j = n + 1 := by omega
      exact hfd heq
  · rename_i hne
    obtain ⟨buf, hbuf, hnext⟩ := bind_eq_next.mp hnext
    rw [ofAccess_eq_next] at hbuf
    split at hnext
    · cases hnext
      have hmore : s.recipients connfd (n + 1) =
          s.recipients connfd n ++ [(s.fds (n + 1)).fd] := by
        rw [State.recipients, if_neg hne]
      refine ⟨h.listenSock, h.entries, h.userCount, h.loop, h.opened, h.due, h.got,
        fun j => ?_, fun fd => ?_, ?_⟩
      · by_cases hj : j = n + 1
        · subst hj
          rw [if_pos ⟨by omega, by omega, hne⟩]
          exact Function.update_self _ _ _
        · refine (Function.update_of_ne hj _ _).trans ?_
          rw [h.fds]
          congr 1
          refine propext ⟨?_, ?_⟩
          · rintro ⟨hj, hle, hfd⟩
            exact ⟨hj, by omega, hfd⟩
          · rintro ⟨hj, hle, hfd⟩
            exact ⟨hj, by omega, hfd⟩
      · rw [hmore]
        by_cases hfd : fd = (s.fds (n + 1)).fd
        · subst hfd
          rw [if_pos (List.mem_append_right _ List.mem_cons_self)]
          refine (Function.update_self _ _ _).trans ?_
          rw [h.users]
          split <;> rfl
        · refine (Function.update_of_ne hfd _ _).trans ?_
          rw [h.users]
          simp [hfd]
      · rw [hmore, List.foldlM_append, h.tmpbuf]
        simpa using hbuf
    · cases hnext

/-- Queueing for all slots changes exactly this. -/
theorem queued_of_queueAll (h : s.queueAll connfd data n = next t) :
    Queued s connfd data n t := by
  induction n generalizing t with
  | zero =>
    cases h
    exact queued_zero _ connfd data
  | succ n ih =>
    obtain ⟨u, hu, hnext⟩ := bind_eq_next.mp h
    exact (ih hu).succ hnext

/-! ## The table -/

/-- The clients are what the slots from the first to the last one hold. -/
theorem clients_eq (s : State) : s.clients = slots (fun k => (s.fds k).fd) 1 s.userCount := by
  rw [State.clients, slots, Int.add_sub_cancel]
  apply List.map_congr_left
  intro k _
  rw [Int.add_comm]

/-- The descriptor of a slot is a client's. -/
theorem mem_clients (hj : 1 ≤ j) (hle : j ≤ s.userCount) : (s.fds j).fd ∈ s.clients := by
  rw [clients_eq, mem_slots]
  exact ⟨j, hj, hle, rfl⟩

/-- An open descriptor other than the listening socket, with an entry in `users`. -/
structure State.IsClient (s : State) (fd : Fd) : Prop where
  not_listen : fd ≠ s.listenSock
  nonneg : 0 ≤ fd
  lt_entries : fd < s.entries
  opened : fd ∈ s.opened

/-- The table of slots is as `main` expects it. -/
structure Tabled (s : State) : Prop where
  count_nonneg : 0 ≤ s.userCount
  count_le : s.userCount ≤ userLimit
  listen_fd : (s.fds 0).fd = s.listenSock
  listen_events : (s.fds 0).events = pollIn ||| pollErr
  /-- Two slots of clients have different descriptors. -/
  distinct : ∀ j k, 1 ≤ j → j < k → k ≤ s.userCount → (s.fds j).fd ≠ (s.fds k).fd
  client : ∀ j, 1 ≤ j → j ≤ s.userCount → s.IsClient (s.fds j).fd
  asked : ∀ j, 0 ≤ j → j ≤ s.userCount → (s.fds j).Asked
  index : ∀ i, s.loop = .handling i → 0 ≤ i

/-- Two slots have different clients. -/
theorem Tabled.slot_inj (h : Tabled s) {j k : Int} (hj : 1 ≤ j) (hj' : j ≤ s.userCount)
    (hk : 1 ≤ k) (hk' : k ≤ s.userCount) (he : (s.fds j).fd = (s.fds k).fd) : j = k := by
  rcases Int.lt_trichotomy j k with hlt | heq | hgt
  · exact absurd he (h.distinct j k hj hlt hk')
  · exact heq
  · exact absurd he.symm (h.distinct k j hk hgt hj')

/-- A slot that is handled as a client's is one. -/
theorem Tabled.client_slot (h : Tabled s) {b : Branch} (hat : s.At i b)
    (hb : b = .hangUp ∨ b = .read ∨ b = .write) : 1 ≤ i ∧ i ≤ s.userCount := by
  have hpos := h.index i hat.loop
  have hle := hat.bound
  refine ⟨?_, by omega⟩
  by_contra hlt
  obtain rfl : i = 0 := by omega
  have hasked := h.asked 0 (Int.le_refl 0) h.count_nonneg
  have hquiet {k : Nat} (hk : k < 16) (hun : unasked.getLsbD k = false)
      (hev : (pollIn ||| pollErr).getLsbD k = false) : has (s.fds 0).revents (.twoPow 16 k) =
        false := by
    rw [has_twoPow hk]
    by_contra hrev
    have := hasked.getLsbD hk hun (by simpa using hrev)
    rw [h.listen_events, hev] at this
    cases this
  have hout : has (s.fds 0).revents pollOut = false :=
    hquiet (by decide) (by decide) (by decide)
  have hrdhup : has (s.fds 0).revents pollRdhup = false :=
    hquiet (by decide) (by decide) (by decide)
  have hbranch := hat.branch
  simp only [State.branch, h.listen_fd, hout, hrdhup, true_and, Bool.false_eq_true, if_false]
    at hbranch
  split at hbranch
  · subst hbranch
    simp at hb
  · split at hbranch
    · subst hbranch
      simp at hb
    · subst hbranch
      simp at hb

/-- The table begins with the listening socket alone. -/
theorem tabled_start (listenSock : Fd) (entries : Int) (tmpbuf : Bytes) :
    Tabled (start listenSock entries tmpbuf) where
  count_nonneg := Int.le_refl 0
  count_le := by
    change (0 : Int) ≤ userLimit
    decide
  listen_fd := rfl
  listen_events := rfl
  distinct j k hj hlt hk := by
    change k ≤ 0 at hk
    omega
  client j hj hle := by
    change j ≤ 0 at hle
    omega
  asked j hj hle := by
    obtain rfl : j = 0 := Int.le_antisymm hle hj
    exact BitVec.zero_and
  index i hi := by cases hi

/-- The slot behind the last client is not one of theirs. -/
theorem withUser_fds {k : Int} (hk : k ≤ s.userCount) : (s.withUser i fd).fds k = s.fds k :=
  Function.update_of_ne (by omega) _ _

/-- The slot of an accepted client. -/
theorem withUser_fds_last : (s.withUser i fd).fds (s.userCount + 1) =
    ⟨fd, pollIn ||| pollRdhup ||| pollErr, 0⟩ :=
  Function.update_self _ _ _

/-- The clients that remain were in other slots than the one that is removed. -/
theorem without_fds (hi : 1 ≤ i) (hi' : i ≤ s.userCount) {j : Int} (hj : 1 ≤ j)
    (hj' : j ≤ s.userCount - 1) : ∃ k, 1 ≤ k ∧ k ≤ s.userCount ∧ k ≠ i ∧
      (s.without i).fds j = s.fds k ∧ (j ≠ i → k = j) ∧ (j = i → k = s.userCount) := by
  by_cases he : j = i
  · subst he
    exact ⟨s.userCount, by omega, by omega, by omega, Function.update_self _ _ _,
      fun h => absurd rfl h, fun _ => rfl⟩
  · exact ⟨j, hj, by omega, he, Function.update_of_ne he _ _, fun _ => rfl, fun h => absurd h he⟩

/-- The table without the client in slot `i`. -/
theorem Tabled.without (h : Tabled s) (hi : 1 ≤ i) (hi' : i ≤ s.userCount) :
    Tabled (s.without i) where
  count_nonneg := by
    change 0 ≤ s.userCount - 1
    omega
  count_le := by
    have := h.count_le
    change s.userCount - 1 ≤ userLimit
    omega
  listen_fd := (congrArg PollFd.fd (Function.update_of_ne (by omega) _ _)).trans h.listen_fd
  listen_events :=
    (congrArg PollFd.events (Function.update_of_ne (by omega) _ _)).trans h.listen_events
  distinct j k hj hlt hk := by
    change k ≤ s.userCount - 1 at hk
    obtain ⟨j', hj1, hj2, -, hfj, hjne, hjeq⟩ := without_fds hi hi' hj (by omega)
    obtain ⟨k', hk1, hk2, -, hfk, hkne, hkeq⟩ := without_fds hi hi' (by omega : 1 ≤ k) hk
    rw [hfj, hfk]
    intro he
    have hsame := h.slot_inj hj1 hj2 hk1 hk2 he
    by_cases hji : j = i
    · have := hjeq hji
      have := hkne (by omega)
      omega
    · have := hjne hji
      by_cases hki : k = i
      · have := hkeq hki
        omega
      · have := hkne hki
        omega
  client j hj hle := by
    obtain ⟨k, hk, hk', -, hfk, -⟩ := without_fds hi hi' hj hle
    obtain ⟨hne, hpos, hlt, hopened⟩ := h.client k hk hk'
    rw [hfk]
    exact ⟨hne, hpos, hlt, hopened⟩
  asked j hj hle := by
    change j ≤ s.userCount - 1 at hle
    by_cases hz : j = 0
    · have hfk : (s.without i).fds j = s.fds j := Function.update_of_ne (by omega) _ _
      rw [hfk]
      exact h.asked j hj (by omega)
    · obtain ⟨k, hk, hk', -, hfk, -⟩ := without_fds hi hi' (by omega : 1 ≤ j) hle
      rw [hfk]
      exact h.asked k (by omega) hk'
  index k hk := h.index k hk

/-- Only the slots, the number of clients and the place of `main` matter for the table. -/
theorem Tabled.congr (h : Tabled s) (hlisten : t.listenSock = s.listenSock)
    (hentries : t.entries = s.entries) (hcount : t.userCount = s.userCount)
    (hopened : ∀ j, 1 ≤ j → j ≤ s.userCount → (s.fds j).fd ∈ t.opened)
    (hfd : ∀ j, (t.fds j).fd = (s.fds j).fd) (hevents : (t.fds 0).events = (s.fds 0).events)
    (hasked : ∀ j, 0 ≤ j → j ≤ s.userCount → (t.fds j).Asked)
    (hindex : ∀ i, t.loop = .handling i → 0 ≤ i) : Tabled t where
  count_nonneg := hcount ▸ h.count_nonneg
  count_le := hcount ▸ h.count_le
  listen_fd := by rw [hfd, hlisten, h.listen_fd]
  listen_events := by rw [hevents, h.listen_events]
  distinct j k hj hlt hk := by
    rw [hfd, hfd]
    exact h.distinct j k hj hlt (hcount ▸ hk)
  client j hj hle := by
    rw [hcount] at hle
    obtain ⟨hne, hpos, hlt, -⟩ := h.client j hj hle
    rw [hfd]
    exact ⟨hlisten ▸ hne, hpos, hentries ▸ hlt, hopened j hj hle⟩
  asked j hj hle := hasked j hj (hcount ▸ hle)
  index := hindex

/-- A step of `main` that changes only where it is. -/
theorem Tabled.move (h : Tabled s) {loop : Loop} (hindex : ∀ i, loop = .handling i → 0 ≤ i) :
    Tabled { s with loop } :=
  h.congr rfl rfl rfl (fun j hj hle => (h.client j hj hle).opened) (fun _ => rfl) rfl h.asked
    hindex

/-- Going on to the next slot keeps the table. -/
theorem Tabled.advance (h : Tabled s) (hi : 0 ≤ i) : Tabled (s.advance i) :=
  h.move fun k hk => by
    cases hk
    omega

/-- What `poll` reports for a slot is all that it changes in it. -/
theorem polled_fds {revents : List Events} (hj : 0 ≤ j) (hj' : j ≤ s.userCount) :
    (s.polled revents).fds j = { s.fds j with revents := revents.getD j.toNat 0 } :=
  if_pos ⟨hj, hj'⟩

/-- `poll` changes neither a descriptor nor what is asked for. -/
theorem polled_fds_fd {revents : List Events} :
    ((s.polled revents).fds j).fd = (s.fds j).fd ∧
      ((s.polled revents).fds j).events = (s.fds j).events := by
  simp only [State.polled]
  split <;> exact ⟨rfl, rfl⟩

/-- What `poll` reports was asked for. -/
theorem Tabled.polled {revents : List Events} (h : Tabled s) (hrep : s.reports revents) :
    Tabled (s.polled revents) := by
  refine h.congr rfl rfl rfl (fun j hj hle => (h.client j hj hle).opened)
    (fun j => polled_fds_fd.1) polled_fds_fd.2 (fun j hj hle => ?_) (fun k hk => ?_)
  · have hcast : (j.toNat : Int) = j := Int.toNat_of_nonneg hj
    have hasked := hrep.2 j.toNat (by have := hrep.1; omega)
    rw [hcast] at hasked
    rw [polled_fds hj hle]
    exact hasked
  · cases hk
    exact Int.le_refl 0

/-- An accepted client is entered behind the others. -/
theorem Tabled.withUser (h : Tabled s) (hi : 0 ≤ i) (hpos : 0 ≤ fd) (hne : fd ≠ s.listenSock)
    (hclosed : fd ∉ s.opened) (hlimit : s.userCount < userLimit) (huser : s.hasUser fd) :
    Tabled (s.withUser i fd) where
  count_nonneg := Int.le_add_one h.count_nonneg
  count_le := hlimit
  listen_fd := (congrArg PollFd.fd (withUser_fds h.count_nonneg)).trans h.listen_fd
  listen_events := (congrArg PollFd.events (withUser_fds h.count_nonneg)).trans h.listen_events
  distinct j k hj hlt hk := by
    change k ≤ s.userCount + 1 at hk
    rw [withUser_fds (by omega)]
    by_cases hlast : k = s.userCount + 1
    · subst hlast
      rw [withUser_fds_last]
      intro he
      have hopened := (h.client j hj (by omega)).opened
      rw [he] at hopened
      exact hclosed hopened
    · rw [withUser_fds (by omega)]
      exact h.distinct j k hj hlt (by omega)
  client j hj hle := by
    change j ≤ s.userCount + 1 at hle
    by_cases hlast : j = s.userCount + 1
    · subst hlast
      rw [withUser_fds_last]
      exact ⟨hne, hpos, huser.2, List.mem_cons_self⟩
    · obtain ⟨hne', hpos', hlt', hopened'⟩ := h.client j hj (by omega)
      rw [withUser_fds (by omega)]
      exact ⟨hne', hpos', hlt', List.mem_cons_of_mem _ hopened'⟩
  asked j hj hle := by
    change j ≤ s.userCount + 1 at hle
    by_cases hlast : j = s.userCount + 1
    · subst hlast
      rw [withUser_fds_last]
      exact BitVec.zero_and
    · rw [withUser_fds (by omega)]
      exact h.asked j hj (by omega)
  index k hk := by
    cases hk
    omega

/-- Closing the descriptor of the removed client leaves the others open. -/
theorem Tabled.close (h : Tabled s) (hi : 1 ≤ i) (hi' : i ≤ s.userCount) :
    Tabled { s.without i with opened := s.opened.erase (s.fds i).fd } := by
  have hwithout := h.without hi hi'
  refine hwithout.congr rfl rfl rfl (fun j hj hle => ?_) (fun _ => rfl) rfl hwithout.asked
    hwithout.index
  obtain ⟨k, hk, hk', hki, hfk, -⟩ := without_fds hi hi' hj hle
  have hne : (s.fds k).fd ≠ (s.fds i).fd := fun he => hki (h.slot_inj hk hk' hi hi' he)
  rw [hfk]
  exact (List.mem_erase_of_ne hne).mpr (h.client k hk hk').opened

/-- Queueing a message changes no descriptor. -/
theorem Queued.fds_fd (h : Queued s connfd data n t) (j : Int) : (t.fds j).fd = (s.fds j).fd := by
  rw [h.fds]
  split <;> rfl

/-- Queueing a message keeps the table. -/
theorem Queued.tabled (h : Queued s connfd data n t) (hs : Tabled s) : Tabled t := by
  refine hs.congr h.listenSock h.entries h.userCount
    (fun j hj hle => h.opened ▸ (hs.client j hj hle).opened) h.fds_fd ?_ (fun j hj hle => ?_)
    (fun k hk => hs.index k (h.loop ▸ hk))
  · rw [h.fds, if_neg (by omega)]
  · rw [h.fds]
    split
    · exact (hs.asked j hj hle).queued
    · exact hs.asked j hj hle

/-- Behind a write the mask of the slot. -/
theorem written_fds_self {taken : Nat} : (s.written i taken).fds i =
    { s.fds i with events := writtenEvents (s.fds i).events } :=
  Function.update_self _ _ _

/-- A write leaves the other slots. -/
theorem written_fds_of_ne {taken : Nat} (hj : j ≠ i) :
    (s.written i taken).fds j = s.fds j :=
  Function.update_of_ne hj _ _

/-- A write keeps the table. -/
theorem Tabled.written (h : Tabled s) {taken : Nat} (hi : 1 ≤ i) (hi' : i ≤ s.userCount) :
    Tabled (s.written i taken) := by
  refine h.congr rfl rfl rfl (fun j hj hle => (h.client j hj hle).opened) (fun j => ?_) ?_
    (fun j hj hle => ?_) (fun k hk => ?_)
  · by_cases he : j = i
    · subst he
      rw [written_fds_self]
    · rw [written_fds_of_ne he]
  · rw [written_fds_of_ne (by omega)]
  · by_cases he : j = i
    · subst he
      rw [written_fds_self]
      exact (h.asked j hj hle).writtenBack
    · rw [written_fds_of_ne he]
      exact h.asked j hj hle
  · cases hk
    omega

/-- Keeping the message that was read keeps the table. -/
theorem Tabled.keep (h : Tabled s) (i : Int) (data : Bytes) : Tabled (s.keep i data) :=
  h.congr rfl rfl rfl (fun j hj hle => (h.client j hj hle).opened) (fun _ => rfl) rfl h.asked
    h.index

/-- Every step keeps the table. -/
theorem Tabled.step (h : Tabled s) (hs : step s a = next t) : Tabled t := by
  cases Effect.of_step hs with
  | polled _ hrep => exact h.polled hrep
  | stopped _ => exact h.move fun _ hk => by cases hk
  | passed hat => exact h.advance (h.index _ hat.loop)
  | added hat hpos hne hclosed hlimit huser =>
    exact h.withUser (h.index _ hat.loop) hpos hne hclosed hlimit huser
  | left hat _ _ =>
    obtain ⟨hi, hi'⟩ := h.client_slot hat (.inl rfl)
    exact h.close hi hi'
  | dropped hat _ _ =>
    obtain ⟨hi, hi'⟩ := h.client_slot hat (.inr (.inl rfl))
    exact h.without hi hi'
  | received hat _ _ _ ht =>
    exact ((queued_of_queueAll ht).tabled (h.keep _ _)).advance (h.index _ hat.loop)
  | wrote hat _ _ _ _ =>
    obtain ⟨hi, hi'⟩ := h.client_slot hat (.inr (.inr rfl))
    exact h.written hi hi'
  | round _ _ => exact h.move fun _ hk => by cases hk

/-- The table is in order in every state reached. -/
theorem tabled_of_reaches {ok : State → Action → Prop} {listenSock : Fd} {entries : Int}
    {tmpbuf : Bytes} (h : Reaches Chat.step ok (start listenSock entries tmpbuf) s) : Tabled s :=
  h.invariant (tabled_start listenSock entries tmpbuf) fun _ _ _ hs _ hstep => hs.step hstep

/-- The listening socket and the size of `users` never change. -/
theorem constants_of_step (hs : Chat.step s a = next t) :
    t.listenSock = s.listenSock ∧ t.entries = s.entries := by
  cases Effect.of_step hs with
  | received _ _ _ _ ht =>
    have hqueued := queued_of_queueAll ht
    exact ⟨hqueued.listenSock, hqueued.entries⟩
  | _ => exact ⟨rfl, rfl⟩

/-- The listening socket and the number of entries never change. -/
theorem constants_of_reaches {ok : State → Action → Prop} {listenSock : Fd} {entries : Int}
    {tmpbuf : Bytes} (h : Reaches Chat.step ok (start listenSock entries tmpbuf) s) :
    s.listenSock = listenSock ∧ s.entries = entries := by
  apply h.invariant
  · exact ⟨rfl, rfl⟩
  · intro t a u ht _ hs
    obtain ⟨hlisten, hentries⟩ := constants_of_step hs
    exact ⟨hlisten.trans ht.1, hentries.trans ht.2⟩

end NetworkCode.Chat
