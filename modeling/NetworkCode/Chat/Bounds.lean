import NetworkCode.Chat.Table
import NetworkCode.Core.Descriptors

/-!
# The bounds of the table of users

The table `users` has an entry for each of `USER_LIMIT` users and is indexed by their
descriptors. These are not the numbers from 0 on: three are taken by the standard
streams and one by the listening socket.
-/

namespace NetworkCode.Chat

open StepResult Text

/-! ## The entries that a step uses -/

/-- The indexes with which a step uses `users`. -/
def State.accesses (s : State) (a : Action) : List Fd :=
  match s.loop with
  | .handling i =>
    if i < s.userCount + 1 then
      match s.branch (s.fds i), a with
      | .accept, .accept (some fd) => if s.userCount ≥ userLimit then [] else [fd]
      | .hangUp, .hangUp => [(s.fds i).fd, (s.fds s.userCount).fd]
      | .read, .read none => [(s.fds i).fd, (s.fds s.userCount).fd]
      | .read, .read (some _) =>
        (s.fds i).fd :: s.recipients (s.fds i).fd s.userCount.toNat
      | .write, .write _ => [(s.fds i).fd]
      | .write, .skip => [(s.fds i).fd]
      | _, _ => []
    else []
  | _ => []

/-- The descriptors in use: the standard streams, the listening socket and connections. -/
def State.inUse (s : State) : List Fd := [0, 1, 2, s.listenSock] ++ s.opened

/-- A new connection gets the lowest free descriptor. -/
def Allocates (s : State) : Action → Prop
  | .accept (some fd) => LowestFree s.inUse fd
  | _ => True

/-- How many numbers of entries are descriptors that are always in use. -/
def State.reserved (s : State) : Nat := if s.listenSock < s.entries then 4 else 3

/-- A client is added only while few enough connections are open. -/
def Roomy (s : State) : Action → Prop
  | .accept (some _) =>
    s.userCount < userLimit → (s.opened.length + s.reserved : Nat) < s.entries
  | _ => True

instance decidableAllocates (s : State) (a : Action) : Decidable (Allocates s a) :=
  match a with
  | .accept (some fd) => instDecidableLowestFree s.inUse fd
  | .poll _ | .pollFailed | .accept none | .error | .hangUp | .read _ | .write _ | .skip
  | .endRound => .isTrue trivial

variable {s t u : State} {a : Action} {i j : Int} {fd listenSock : Fd}

/-! ## Only an accepted connection is a new index -/

/-- A step touches the entries of clients only, and that of a client it accepts. -/
theorem client_or_accepted (h : Tabled s) (hfd : fd ∈ s.accesses a) :
    s.IsClient fd ∨ a = .accept (some fd) := by
  unfold State.accesses at hfd
  split at hfd
  · rename_i i hloop
    split at hfd
    · rename_i hbound
      have hslot {b : Branch} (hbranch : s.branch (s.fds i) = b)
          (hb : b = .hangUp ∨ b = .read ∨ b = .write) : 1 ≤ i ∧ i ≤ s.userCount :=
        h.client_slot ⟨hloop, hbound, hbranch⟩ hb
      have hleave (hi : 1 ≤ i ∧ i ≤ s.userCount)
          (hmem : fd ∈ [(s.fds i).fd, (s.fds s.userCount).fd]) : s.IsClient fd := by
        simp only [List.mem_cons, List.not_mem_nil, or_false] at hmem
        obtain rfl | rfl := hmem
        · exact h.client i hi.1 hi.2
        · exact h.client _ (Int.le_trans hi.1 hi.2) (Int.le_refl _)
      split at hfd
      · split at hfd
        · cases hfd
        · obtain rfl := List.mem_singleton.mp hfd
          exact .inr rfl
      · rename_i hbranch
        exact .inl (hleave (hslot hbranch (.inl rfl)) hfd)
      · rename_i hbranch
        exact .inl (hleave (hslot hbranch (.inr (.inl rfl))) hfd)
      · rename_i hbranch
        obtain ⟨hi, hi'⟩ := hslot hbranch (.inr (.inl rfl))
        obtain rfl | hother := List.mem_cons.mp hfd
        · exact .inl (h.client i hi hi')
        · obtain ⟨j, hj, hle, rfl, -⟩ := mem_recipients.mp hother
          exact .inl (h.client j hj (by omega))
      · rename_i hbranch
        obtain ⟨hi, hi'⟩ := hslot hbranch (.inr (.inr rfl))
        obtain rfl := List.mem_singleton.mp hfd
        exact .inl (h.client i hi hi')
      · rename_i hbranch
        obtain ⟨hi, hi'⟩ := hslot hbranch (.inr (.inr rfl))
        obtain rfl := List.mem_singleton.mp hfd
        exact .inl (h.client i hi hi')
      · cases hfd
    · cases hfd
  · cases hfd

/-- An accepted connection is an index when it becomes a client. -/
theorem accesses_accept (h : Chat.step s (.accept (some fd)) ≠ disabled) :
    s.accesses (.accept (some fd)) = if s.userCount ≥ userLimit then [] else [fd] := by
  unfold Chat.step at h
  unfold State.accesses
  split at h
  · exact absurd rfl h
  · exact absurd rfl h
  · rename_i i hloop
    simp only [hloop]
    split at h
    · rename_i hbound
      rw [if_pos hbound]
      generalize s.branch (s.fds i) = b at h
      cases b with
      | accept => rfl
      | _ => exact absurd rfl h
    · exact absurd rfl h

/-! ## The descriptors in use -/

/-- The descriptors in use are different, and those of open connections are entries of `users`. -/
structure Allocated (s : State) : Prop where
  table : Tabled s
  nodup : s.inUse.Nodup
  nonneg : ∀ fd ∈ s.inUse, 0 ≤ fd
  bounded : ∀ fd ∈ s.opened, fd < s.entries

/-- At the start the standard streams and the listening socket are open. -/
theorem allocated_start (hlisten : (2 : Int) < listenSock) (entries : Int) (tmpbuf : Bytes) :
    Allocated (start listenSock entries tmpbuf) where
  table := tabled_start listenSock entries tmpbuf
  nodup := by
    have h0 : (0 : Int) ≠ listenSock := by omega
    have h1 : (1 : Int) ≠ listenSock := by omega
    have h2 : (2 : Int) ≠ listenSock := by omega
    simp [State.inUse, start, h0, h1, h2]
  nonneg fd hfd := by
    have hpos : (0 : Int) ≤ listenSock := by omega
    simp only [State.inUse, start, List.append_nil, List.mem_cons, List.not_mem_nil, or_false]
      at hfd
    rcases hfd with rfl | rfl | rfl | rfl
    · decide
    · decide
    · decide
    · exact hpos
  bounded fd hfd := by cases hfd

/-- No other connection than those of `s` is open in `t`. -/
theorem Allocated.congr (h : Allocated s) (ht : Tabled t) (hlisten : t.listenSock = s.listenSock)
    (hentries : t.entries = s.entries) (hopened : t.opened.Sublist s.opened) : Allocated t := by
  have hinUse : t.inUse.Sublist s.inUse := by
    rw [State.inUse, hlisten]
    exact hopened.append_left _
  refine ⟨ht, h.nodup.sublist hinUse, fun fd hfd => h.nonneg fd (hinUse.subset hfd),
    fun fd hfd => ?_⟩
  rw [hentries]
  exact h.bounded fd (hopened.subset hfd)

/-- One more client, one more descriptor in use. -/
theorem inUse_withUser (s : State) (i : Int) (fd : Fd) :
    (s.withUser i fd).inUse.Perm (fd :: s.inUse) :=
  List.perm_middle

/-- An accepted client gets the lowest descriptor that is free, and its entry is set. -/
theorem Allocated.withUser (h : Allocated s) (ht : Tabled (s.withUser i fd))
    (hfree : LowestFree s.inUse fd) (huser : s.hasUser fd) : Allocated (s.withUser i fd) where
  table := ht
  nodup := (inUse_withUser s i fd).nodup_iff.mpr (List.nodup_cons.mpr ⟨hfree.free, h.nodup⟩)
  nonneg k hk := by
    obtain rfl | hk := List.mem_cons.mp ((inUse_withUser s i fd).subset hk)
    · exact hfree.nonneg
    · exact h.nonneg k hk
  bounded k hk := by
    obtain rfl | hk := List.mem_cons.mp hk
    · exact huser.2
    · exact h.bounded k hk

/-- A step in which the system gives out its lowest free descriptor keeps the invariant. -/
theorem Allocated.step (h : Allocated s) (ha : Allocates s a) (hs : Chat.step s a = next t) :
    Allocated t := by
  have ht := h.table.step hs
  obtain ⟨hlisten, hentries⟩ := constants_of_step hs
  cases Effect.of_step hs with
  | added _ _ _ _ _ huser => exact h.withUser ht ha huser
  | left _ _ _ => exact h.congr ht hlisten hentries List.erase_sublist
  | received _ _ _ _ hqueue =>
    have hopened := (queued_of_queueAll hqueue).opened
    exact h.congr ht hlisten hentries (hopened ▸ List.Sublist.refl _)
  | _ => exact h.congr ht hlisten hentries (List.Sublist.refl _)

/-- The numbers of entries that are in use: the reserved ones and all connections. -/
theorem Allocated.length_inUse (h : Allocated s) (hentries : 2 < s.entries) :
    (s.inUse.filter (· < s.entries)).length = s.opened.length + s.reserved := by
  have hopened : s.opened.filter (· < s.entries) = s.opened :=
    List.filter_eq_self.mpr fun fd hfd => decide_eq_true (h.bounded fd hfd)
  have h0 : (0 : Int) < s.entries := by omega
  have h1 : (1 : Int) < s.entries := by omega
  rw [State.inUse, List.filter_append, hopened, List.length_append, Nat.add_comm]
  congr 1
  rw [State.reserved]
  split
  · rename_i hlisten
    simp [h0, h1, hentries, hlisten]
  · rename_i hlisten
    simp [h0, h1, hentries, hlisten]

/-- The invariant holds on every run on which the system gives out its lowest free descriptor. -/
theorem allocated_of_reaches {entries : Int} {tmpbuf : Bytes} (hlisten : (2 : Int) < listenSock)
    (h : Reaches Chat.step Allocates (start listenSock entries tmpbuf) s) : Allocated s :=
  h.invariant (allocated_start hlisten entries tmpbuf) fun _ _ _ hs ha hstep => hs.step ha hstep

/-- The next descriptor is an entry when few enough connections are open. -/
theorem Allocated.lt_entries_iff (h : Allocated s) (hentries : 2 < s.entries)
    (hfree : LowestFree s.inUse fd) :
    fd < s.entries ↔ (s.opened.length + s.reserved : Nat) < s.entries := by
  have hcount := LowestFree.lt_iff (n := s.entries) hfree h.nodup h.nonneg
  rw [h.length_inUse hentries] at hcount
  rw [hcount]
  omega

/-- The entry of an accepted client is in the table exactly when there is room. -/
theorem Allocated.accept_iff (h : Allocated s) (hentries : 2 < s.entries)
    (ha : Allocates s (.accept (some fd))) (henabled : Chat.step s (.accept (some fd)) ≠ disabled) :
    (∀ k ∈ s.accesses (.accept (some fd)), 0 ≤ k ∧ k < s.entries) ↔
      Roomy s (.accept (some fd)) := by
  rw [accesses_accept henabled]
  by_cases hlimit : s.userCount ≥ userLimit
  · rw [if_pos hlimit]
    exact iff_of_true (fun _ hfd => by cases hfd) fun hlt => absurd hlimit (Int.not_le.mpr hlt)
  · rw [if_neg hlimit]
    constructor
    · intro hall _
      exact (h.lt_entries_iff hentries ha).mp (hall fd List.mem_cons_self).2
    · intro hroomy k hk
      obtain rfl := List.mem_singleton.mp hk
      have hroom := hroomy (Int.not_le.mp hlimit)
      exact ⟨LowestFree.nonneg ha, (h.lt_entries_iff hentries ha).mpr hroom⟩

/-- On every run the next step uses only entries of `users` exactly when it adds no client while
too many connections are open: with the listening socket 3 that is one. -/
theorem accesses_in_table_iff {tmpbuf : Bytes} (hlisten : (2 : Int) < listenSock)
    (h : Reaches Chat.step Allocates (start listenSock userLimit tmpbuf) s)
    (ha : Allocates s a) (henabled : Chat.step s a ≠ disabled) :
    (∀ fd ∈ s.accesses a, 0 ≤ fd ∧ fd < userLimit) ↔ Roomy s a := by
  have hs := allocated_of_reaches hlisten h
  have hentries := (constants_of_reaches h).2
  have hsize : 2 < s.entries := by
    rw [hentries]
    decide
  rw [← hentries]
  by_cases haccept : ∃ fd, a = .accept (some fd)
  · obtain ⟨fd, rfl⟩ := haccept
    exact hs.accept_iff hsize ha henabled
  · have hroomy : Roomy s a := by
      unfold Roomy
      split
      · exact absurd ⟨_, rfl⟩ haccept
      · trivial
    refine iff_of_true (fun fd hfd => ?_) hroomy
    obtain hclient | rfl := client_or_accepted hs.table hfd
    · exact ⟨hclient.nonneg, hclient.lt_entries⟩
    · exact absurd ⟨fd, rfl⟩ haccept

/-- A client is added and leaves, and then the listening socket is ready again. -/
def oneAfterAnother : List Action :=
  [.poll [pollIn], .accept (some 4), .skip, .endRound,
    .poll [0, pollRdhup], .skip, .hangUp, .endRound, .poll [pollIn]]

theorem oneAfterAnother_accept :
    (runGuarded step Allocates (start 3 userLimit (List.replicate bufSize 0))
      oneAfterAnother).state?.map (fun s => (decide (Allocates s (.accept (some 4))),
        (step s (.accept (some 4))).isEnabled, s.opened.length + s.reserved, s.entries)) =
    some (true, true, 4, 5) := by decide +kernel

/-- The only client has left, and the next one gets its descriptor and its entry. -/
theorem accesses_in_table_oneAfterAnother : ∃ s,
    Reaches step Allocates (start 3 userLimit (List.replicate bufSize 0)) s ∧
      ∀ fd ∈ s.accesses (.accept (some 4)), 0 ≤ fd ∧ fd < userLimit := by
  obtain ⟨s, hrun, hsaw⟩ := exists_next_of_map oneAfterAnother_accept
  simp only [Prod.mk.injEq] at hsaw
  obtain ⟨hallocates, henabled, hcount, hentries⟩ := hsaw
  have hreach := Reaches.of_runGuarded _ _ hrun
  have hroomy : Roomy s (.accept (some 4)) := by
    intro _
    rw [hcount, hentries]
    decide
  exact ⟨s, hreach, (accesses_in_table_iff (by decide) hreach (of_decide_eq_true hallocates)
    (isEnabled_iff.mp henabled)).mpr hroomy⟩

/-- While the client with the descriptor 4 is there, the next one gets 5. -/
def secondClient : List Action :=
  [.poll [pollIn], .accept (some 4), .skip, .endRound, .poll [pollIn, 0]]

theorem secondClient_accept :
    (runGuarded step Allocates (start 3 userLimit (List.replicate bufSize 0))
      secondClient).state?.map (fun s => (decide (Allocates s (.accept (some 5))),
        (step s (.accept (some 5))).isEnabled, s.accesses (.accept (some 5)))) =
    some (true, true, [5]) := by decide +kernel

/-- The second of two clients is stored behind the table. -/
theorem second_client_outside_table : ∃ s,
    Reaches step Allocates (start 3 userLimit (List.replicate bufSize 0)) s ∧
      Allocates s (.accept (some 5)) ∧ step s (.accept (some 5)) ≠ disabled ∧
      ∃ fd ∈ s.accesses (.accept (some 5)), ¬ fd < userLimit := by
  obtain ⟨s, hrun, hsaw⟩ := exists_next_of_map secondClient_accept
  simp only [Prod.mk.injEq] at hsaw
  obtain ⟨hallocates, henabled, haccesses⟩ := hsaw
  refine ⟨s, Reaches.of_runGuarded _ _ hrun, of_decide_eq_true hallocates,
    isEnabled_iff.mp henabled, 5, ?_, by decide⟩
  rw [haccesses]
  exact List.mem_cons_self

end NetworkCode.Chat
