import NetworkCode.Chat.Table

/-!
# Closing the descriptors of clients

A client is turned away when there are too many, and removed when it hangs up or when a
read fails. The first two branches close its descriptor and the third does not, so that
the descriptor stays open without a slot. `accept` never returns it again, and nothing
closes it later.
-/

namespace NetworkCode.Chat

open StepResult Text

/-- What is seen of the descriptors of clients. -/
inductive Event where
  /-- `read` failed. -/
  | readFailed (fd : Fd)
  /-- The slot of the client was given up. -/
  | removed (fd : Fd)
  /-- The client was accepted and not added. -/
  | refused (fd : Fd)
  /-- `close` was called. -/
  | closed (fd : Fd)
  deriving DecidableEq, Repr

/-- What is seen in a branch for the slot `i`. -/
def State.handleEvents (s : State) (i : Int) : Branch → Action → List Event
  | .accept, .accept (some fd) =>
    if s.userCount ≥ userLimit then [.refused fd, .closed fd] else []
  | .hangUp, .hangUp => [.closed (s.fds i).fd, .removed (s.fds i).fd]
  | .read, .read none => [.readFailed (s.fds i).fd, .removed (s.fds i).fd]
  | _, _ => []

/-- What is seen in one step. -/
def State.events (s : State) (a : Action) : List Event :=
  match s.loop with
  | .handling i =>
    if i < s.userCount + 1 then s.handleEvents i (s.branch (s.fds i)) a else []
  | _ => []

/-- The open descriptors of clients are those in the slots, and each client that was removed or
turned away had its descriptor closed once. -/
structure Owned (es : List Event) (s : State) : Prop where
  opened : s.opened.Perm s.clients
  closed : ∀ fd, es.count (.closed fd) = es.count (.removed fd) + es.count (.refused fd)

/-- The descriptors for which a read failed. -/
def leaked (es : List Event) : List Fd :=
  es.filterMap fun
    | .readFailed fd => some fd
    | _ => none

variable {s t : State} {a : Action} {i j : Int} {fd listenSock : Fd} {data : Bytes}
  {es new : List Event}

/-! ## The clients in the slots -/

/-- An accepted client is the last one in the table. -/
theorem withUser_clients (h : Tabled s) : (s.withUser i fd).clients = s.clients ++ [fd] := by
  have hsame : slots (fun k => ((s.withUser i fd).fds k).fd) 1 s.userCount =
      slots (fun k => (s.fds k).fd) 1 s.userCount :=
    slots_congr fun k _ hk => congrArg PollFd.fd (withUser_fds hk)
  have hnonneg := h.count_nonneg
  rw [clients_eq, clients_eq]
  change slots _ 1 (s.userCount + 1) = _
  rw [slots_concat (by omega), Int.add_sub_cancel, hsame, withUser_fds_last]

/-- Taking a client out of the table leaves the others. -/
theorem without_clients (hi : 1 ≤ i) (hi' : i ≤ s.userCount) :
    ((s.fds i).fd :: (s.without i).clients).Perm s.clients := by
  have hfds : (fun k => ((s.without i).fds k).fd) =
      Function.update (fun k => (s.fds k).fd) i (s.fds s.userCount).fd :=
    funext fun k => Function.apply_update (fun _ => PollFd.fd) s.fds i _ k
  rw [clients_eq, clients_eq, hfds]
  exact perm_cons_slots_replace (f := fun k => (s.fds k).fd) hi hi'

/-- The clients are the same when the slots keep their descriptors. -/
theorem clients_congr (hcount : t.userCount = s.userCount)
    (hfd : ∀ j, (t.fds j).fd = (s.fds j).fd) : t.clients = s.clients := by
  rw [clients_eq, clients_eq, hcount]
  exact slots_congr fun k _ _ => hfd k

/-! ## The ledger -/

/-- The open descriptors of clients are those in the slots and those for which a read failed.
Only the latter were given up without being closed. -/
structure Ledger (es : List Event) (s : State) : Prop where
  table : Tabled s
  opened : s.opened.Perm (s.clients ++ leaked es)
  closed : ∀ fd, es.count (.closed fd) + (leaked es).count fd =
    es.count (.removed fd) + es.count (.refused fd)

/-- What leaks in two stretches of a run leaks in the whole. -/
theorem leaked_append (es new : List Event) : leaked (es ++ new) = leaked es ++ leaked new :=
  List.filterMap_append

/-- At the start nothing is open and nothing has leaked. -/
theorem ledger_start (listenSock : Fd) (entries : Int) (tmpbuf : Bytes) :
    Ledger [] (start listenSock entries tmpbuf) where
  table := tabled_start listenSock entries tmpbuf
  opened := .nil
  closed _ := rfl

/-- More is seen. -/
theorem Ledger.extend (h : Ledger es s) (htable : Tabled t)
    (hopened : t.opened.Perm (t.clients ++ (leaked es ++ leaked new)))
    (hclosed : ∀ fd, new.count (.closed fd) + (leaked new).count fd =
      new.count (.removed fd) + new.count (.refused fd)) : Ledger (es ++ new) t where
  table := htable
  opened := leaked_append es new ▸ hopened
  closed fd := by
    have hbefore := h.closed fd
    have hnew := hclosed fd
    simp only [leaked_append, List.count_append]
    omega

/-- A step that opens and closes nothing. -/
theorem Ledger.quiet (h : Ledger es s) (htable : Tabled t) (hopened : t.opened = s.opened)
    (hclients : t.clients = s.clients) (hnew : new = []) : Ledger (es ++ new) t := by
  subst hnew
  refine h.extend htable ?_ fun _ => rfl
  rw [hopened, hclients]
  exact (List.append_nil (leaked es)).symm ▸ h.opened

/-- What a step does when a branch is about to be executed are the events of this branch. -/
theorem State.At.events {b : Branch} (h : s.At i b) (a : Action) :
    s.events a = s.handleEvents i b a := by
  simp only [State.events, h.loop, if_pos h.bound, h.branch]

/-- For a slot that is passed nothing is seen, or a client that is turned away. -/
theorem events_of_passed {b : Branch} (hat : s.At i b) (hs : Chat.step s a = next (s.advance i)) :
    s.events a = [] ∨ ∃ fd, s.events a = [.refused fd, .closed fd] := by
  have hmoved {u : State} (hu : u = s.advance i) (hloop : u.loop = .handling i) : False := by
    rw [hu] at hloop
    have hindex := Loop.handling.inj hloop
    omega
  have hhandle : s.handle i b a = next (s.advance i) := by
    unfold Chat.step at hs
    simpa only [hat.loop, if_pos hat.bound, hat.branch] using hs
  rw [hat.events]
  cases b with
  | accept =>
    cases a with
    | accept fd =>
      cases fd with
      | none => exact .inl rfl
      | some fd =>
        simp only [State.handleEvents]
        split
        · exact .inr ⟨fd, rfl⟩
        · exact .inl rfl
    | _ => exact .inl rfl
  | hangUp =>
    cases a with
    | hangUp =>
      obtain ⟨u, hu, hnext⟩ := bind_eq_next.mp hhandle
      obtain ⟨-, -, rfl⟩ := dropUser_eq_next hu
      exact (hmoved (StepResult.next.inj hnext) hat.loop).elim
    | _ => exact .inl rfl
  | read =>
    cases a with
    | read data =>
      cases data with
      | none =>
        obtain ⟨-, -, hu⟩ := dropUser_eq_next hhandle
        exact (hmoved hu.symm hat.loop).elim
      | some data => exact .inl rfl
    | _ => exact .inl rfl
  | error => exact .inl rfl
  | write => exact .inl rfl
  | none => exact .inl rfl

/-- Every step keeps the ledger. -/
theorem Ledger.step (h : Ledger es s) (hs : step s a = next t) :
    Ledger (es ++ s.events a) t := by
  have htable := h.table.step hs
  cases Effect.of_step hs with
  | polled hloop _ =>
    refine h.quiet htable rfl (clients_congr rfl fun _ => polled_fds_fd.1) ?_
    rw [State.events, hloop]
  | stopped hloop =>
    refine h.quiet htable rfl rfl ?_
    rw [State.events, hloop]
  | passed hat =>
    obtain hnone | ⟨fd, hrefused⟩ := events_of_passed hat hs
    · exact h.quiet htable rfl rfl hnone
    · rw [hrefused]
      refine h.extend htable ?_ fun fd' => ?_
      · exact (List.append_nil (leaked es)).symm ▸ h.opened
      · simp [List.count_cons, leaked]
  | @added i fd hat _ _ _ hlimit _ =>
    have hnone : s.events (.accept (some fd)) = [] := by
      rw [hat.events]
      exact if_neg (Int.not_le.mpr hlimit)
    rw [hnone]
    refine h.extend htable ?_ fun _ => rfl
    have hopened : (fd :: s.opened).Perm (fd :: (s.clients ++ leaked es)) := h.opened.cons fd
    have hlast : (s.clients ++ [fd] ++ leaked es).Perm (fd :: (s.clients ++ leaked es)) := by
      rw [List.append_assoc]
      exact List.perm_middle
    rw [withUser_clients h.table]
    exact hopened.trans ((List.append_nil (leaked es)).symm ▸ hlast.symm)
  | @left i hat _ _ =>
    obtain ⟨hi, hi'⟩ := h.table.client_slot hat (.inl rfl)
    rw [hat.events]
    refine h.extend htable ?_ fun fd => ?_
    · have hopened := (h.opened.trans ((without_clients hi hi').symm.append_right _)).erase
        (s.fds i).fd
      rw [List.cons_append, List.erase_cons_head] at hopened
      exact (List.append_nil (leaked es)).symm ▸ hopened
    · simp [State.handleEvents, List.count_cons, leaked]
  | @dropped i hat _ _ =>
    obtain ⟨hi, hi'⟩ := h.table.client_slot hat (.inr (.inl rfl))
    rw [hat.events]
    refine h.extend htable ?_ fun fd => ?_
    · have hopened := h.opened.trans ((without_clients hi hi').symm.append_right _)
      refine hopened.trans ?_
      rw [← List.append_assoc, List.cons_append]
      exact (List.perm_append_singleton _ _).symm
    · simp [State.handleEvents, List.count_cons, leaked]
  | received hat _ _ _ ht =>
    have hq := queued_of_queueAll ht
    refine h.quiet htable hq.opened (clients_congr hq.userCount fun j => hq.fds_fd j) ?_
    rw [hat.events]
    rfl
  | @wrote i taken hat _ _ _ _ =>
    refine h.quiet htable rfl (clients_congr rfl fun j => ?_) ?_
    · by_cases hj : j = i
      · subst hj
        rw [written_fds_self]
      · rw [written_fds_of_ne hj]
    · rw [hat.events]
      rfl
  | round hloop hend =>
    refine h.quiet htable rfl rfl ?_
    simp only [State.events, hloop, if_neg hend]

/-- The ledger fits the state on every run. -/
theorem ledger_of_traces {ok : State → Action → Prop} {entries : Int} {tmpbuf : Bytes}
    (h : Traces Chat.step ok State.events (start listenSock entries tmpbuf) es s) :
    Ledger es s :=
  h.invariant (ledger_start listenSock entries tmpbuf) fun _ _ _ _ hs _ hstep => hs.step hstep

/-- Nothing leaks exactly when no read fails. -/
theorem leaked_eq_nil_iff : leaked es = [] ↔ ∀ fd, .readFailed fd ∉ es := by
  rw [leaked, List.filterMap_eq_nil_iff]
  constructor
  · intro h fd hmem
    cases h _ hmem
  · intro h e hmem
    cases e with
    | readFailed fd => exact absurd hmem (h fd)
    | _ => rfl

/-- Each open descriptor belongs to a client exactly when nothing has leaked. -/
theorem Ledger.owned_iff (h : Ledger es s) : Owned es s ↔ leaked es = [] := by
  constructor
  · intro howned
    have hlen := (howned.opened.symm.trans h.opened).length_eq
    rw [List.length_append] at hlen
    exact List.eq_nil_of_length_eq_zero (by omega)
  · intro hnone
    refine ⟨?_, fun fd => ?_⟩
    · have hopened := h.opened
      rw [hnone, List.append_nil] at hopened
      exact hopened
    · have hclosed := h.closed fd
      rw [hnone, List.count_nil] at hclosed
      exact hclosed

/-- On every run the open descriptors of clients are those in the slots, and each client that was
removed had its descriptor closed once, exactly as long as no read failed. -/
theorem owned_iff_no_read_failed {ok : State → Action → Prop} {entries : Int} {tmpbuf : Bytes}
    {es : List Event} {s : State}
    (h : Traces Chat.step ok State.events (start listenSock entries tmpbuf) es s) :
    Owned es s ↔ ∀ fd, .readFailed fd ∉ es :=
  (ledger_of_traces h).owned_iff.trans leaked_eq_nil_iff

/-- A client is added and hangs up. -/
def hangsUp : List Action :=
  [.poll [pollIn], .accept (some 3), .skip, .endRound, .poll [0, pollRdhup], .skip, .hangUp]

theorem hangsUp_run :
    (traceGuarded step (fun _ _ => True) State.events []
      (start 0 userLimit (List.replicate bufSize 0)) hangsUp).state?.map
        (fun r => (r.1, r.2.opened)) = some ([.closed 3, .removed 3], []) := by decide +kernel

/-- A client that hangs up is taken out of the table and its descriptor closed. -/
theorem owned_hangsUp : ∃ es s,
    Traces step (fun _ _ => True) State.events (start 0 userLimit (List.replicate bufSize 0))
      es s ∧ es = [.closed 3, .removed 3] ∧ Owned es s := by
  obtain ⟨r, hrun, hsaw⟩ := exists_next_of_map hangsUp_run
  have htrace := Traces.of_traceGuarded _ _ .nil hrun
  refine ⟨r.1, r.2, htrace, congrArg Prod.fst hsaw,
    (owned_iff_no_read_failed htrace).mpr fun fd hfailed => ?_⟩
  rw [congrArg Prod.fst hsaw] at hfailed
  simp at hfailed

/-- A client is added, and a read from it fails. -/
def readFails : List Action :=
  [.poll [pollIn], .accept (some 3), .skip, .endRound, .poll [0, pollIn], .skip, .read none]

theorem readFails_run :
    (traceGuarded step (fun _ _ => True) State.events []
      (start 0 userLimit (List.replicate bufSize 0)) readFails).state?.map
        (fun r => (r.2.opened, r.2.clients, r.1.count (.removed 3), r.1.count (.closed 3))) =
    some ([3], [], 1, 0) := by decide +kernel

/-- The descriptor of the client stays open, although the client is removed. -/
theorem failed_read_leaks : ∃ es s,
    Traces step (fun _ _ => True) State.events (start 0 userLimit (List.replicate bufSize 0))
      es s ∧ s.opened = [3] ∧ s.clients = [] ∧ es.count (.removed 3) = 1 ∧
        es.count (.closed 3) = 0 ∧ ¬ Owned es s := by
  obtain ⟨r, hrun, hsaw⟩ := exists_next_of_map readFails_run
  simp only [Prod.mk.injEq] at hsaw
  obtain ⟨hopened, hclients, hremoved, hclosed⟩ := hsaw
  refine ⟨r.1, r.2, Traces.of_traceGuarded _ _ .nil hrun, hopened, hclients, hremoved, hclosed,
    fun howned => ?_⟩
  have hcount := howned.closed 3
  omega

end NetworkCode.Chat
