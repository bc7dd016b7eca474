import NetworkCode.Epoll.Ownership

/-!
# The client that was accepted last

Which buffer `ev` points to is not seen from outside, but who connects and who sends is. `ev` holds
the buffer of the client that was accepted last until that client quits, and a dangling pointer
from then on. So the buffers stay with their clients as long as only this client sends, and no
longer.
-/

namespace NetworkCode.Epoll

open StepResult

/-- The server, and the client that was accepted last, while it is connected. -/
structure Watched where
  state : State
  latest : Option Fd

/-- Nobody was accepted. -/
def Watched.start (listenSock : Fd) (p : Addr) : Watched := ⟨Epoll.start listenSock p, none⟩

/-- The client that was accepted last, behind an action. -/
def Watched.latestAfter (v : Watched) : Action → Option Fd
  | .accept fd _ _ => some fd
  | .quit => if v.latest = v.state.current.map Prod.fst then none else v.latest
  | _ => v.latest

/-- One step of the server. -/
def Watched.step (v : Watched) (a : Action) : StepResult Watched :=
  (Epoll.step v.state a).bind fun t => next ⟨t, v.latestAfter a⟩

/-- Data are read only for an event of the client that was accepted last. -/
def LatestSends (v : Watched) : Action → Prop
  | .data _ _ => ∀ x ∈ v.state.current, v.latest = some x.1
  | _ => True

instance LatestSends.decidable (v : Watched) (a : Action) : Decidable (LatestSends v a) :=
  match a with
  | .data _ _ => inferInstanceAs (Decidable (∀ x ∈ v.state.current, v.latest = some x.1))
  | .wait _ | .waitFailed | .acceptFailed | .noMemory | .accept _ _ _ | .readFailed | .quit
  | .write | .skip | .endRound => .isTrue trivial

/-- The invariant: `ev` has the buffer of the client that was accepted last. -/
structure Holding (v : Watched) : Prop where
  owned : Owned v.state
  latest : ∀ fd, v.latest = some fd → v.state.heap v.state.ev.ptr = some ⟨fd⟩
  /-- A pointer that is not dangling is that of the listening socket. -/
  nobody : v.latest = none → ∀ b, v.state.heap v.state.ev.ptr = some b →
    b.fd = v.state.listenSock
  distinct : v.state.opened.Nodup
  connected : v.state.loop ≠ .stopped → ∀ fd ∈ v.state.opened, v.state.interest fd ≠ none

variable {v w : Watched} {s t : State} {a : Action} {x : Fd × EpollEvent}
  {rest : List (Fd × EpollEvent)} {fd listenSock : Fd} {p : Addr} {count : Nat} {modified : Bool}

/-- At the start `ev` still holds what the listening socket was registered with. -/
theorem holding_start (listenSock : Fd) (p : Addr) : Holding (.start listenSock p) where
  owned := owned_start listenSock p
  latest _ h := by cases h
  nobody _ b hb := by
    have hself : Function.update (fun _ => none) p (some (Epbuf.mk listenSock)) p =
        some ⟨listenSock⟩ := Function.update_self _ _ _
    cases hself.symm.trans hb
    rfl
  distinct := List.nodup_nil
  connected _ := List.forall_mem_nil _

/-- The event that is handled is the first one of the list. -/
theorem current_eq (hloop : s.loop = .handling (x :: rest)) : s.current = some x := by
  rw [State.current, hloop]
  rfl

/-- Data may only come from the client that was registered latest. -/
theorem latestSends_data_iff (hloop : v.state.loop = .handling (x :: rest)) :
    LatestSends v (.data count modified) ↔ v.latest = some x.1 := by
  simp only [LatestSends, current_eq hloop, Option.mem_some_iff, forall_eq']

/-- While an event is handled the list is not empty. -/
theorem current_eq_some (hx : s.current = some x) : ∃ rest, s.loop = .handling (x :: rest) := by
  rw [State.current] at hx
  split at hx
  · rename_i evs hloop
    obtain ⟨rest, rfl⟩ := List.head?_eq_some_iff.mp hx
    exact ⟨rest, hloop⟩
  · cases hx

/-! ## What single actions do -/

/-- Data are not read from the listening socket. -/
theorem ne_listenSock_of_data (hloop : s.loop = .handling (x :: rest)) {b : Epbuf}
    (hb : s.heap x.2.ptr = some b) (hs : step s (.data count modified) = next t) :
    b.fd ≠ s.listenSock := by
  intro hlisten
  simp only [step, hloop, hb, ofAccess_some, bind_next, State.branch, hlisten, ne_eq,
    not_true_eq_false, false_and, if_false] at hs
  split at hs <;> cases hs

/-- A client that quits is not the listening socket, and was open. -/
theorem quit_eq_next (hs : step s .quit = next t) : ∃ x rest b, s.loop = .handling (x :: rest) ∧
    s.heap x.2.ptr = some b ∧ b.fd ∈ s.opened ∧
      t = { s.closed b.fd x.2.ptr with loop := .handling rest } := by
  unfold step at hs
  split at hs
  · cases hs
  · cases hs
  · split at hs
    · rename_i hquit
      cases hquit
    · cases hs
  · rename_i x e rest hloop
    obtain ⟨b, hb, hs⟩ := bind_eq_next.mp hs
    rw [ofAccess_eq_next] at hb
    cases hbranch : s.branch b.fd e.events with
    | read =>
      rw [hbranch] at hs
      simp only [State.handle] at hs
      split at hs
      · rename_i hopen
        cases hs
        exact ⟨_, _, b, hloop, hb, hopen, rfl⟩
      · cases hs
    | accept | write | none =>
      rw [hbranch] at hs
      cases hs

/-- An accepted client has a new descriptor, and its buffer a new address. -/
theorem accept_eq_next {added : Bool} (hs : step s (.accept fd p added) = next t) : ∃ x rest,
    s.loop = .handling (x :: rest) ∧ fd ≠ s.listenSock ∧ fd ∉ s.opened ∧ s.heap p = none ∧
      t = (s.accepted fd p).proceed added fd rest := by
  unfold step at hs
  split at hs
  · cases hs
  · cases hs
  · split at hs
    · rename_i haccept
      cases haccept
    · cases hs
  · rename_i x e rest hloop
    obtain ⟨b, hb, hs⟩ := bind_eq_next.mp hs
    cases hbranch : s.branch b.fd e.events with
    | accept =>
      rw [hbranch] at hs
      simp only [State.handle] at hs
      split at hs
      · cases hs
      · rename_i hfree
        simp only [not_or, Bool.not_eq_true, Option.isSome_eq_false_iff,
          Option.isNone_iff_eq_none] at hfree
        cases hs
        exact ⟨_, _, hloop, hfree.1, hfree.2.1, hfree.2.2, rfl⟩
    | read | write | none =>
      rw [hbranch] at hs
      cases hs

/-- The other actions only go on to other events. -/
theorem Effect.quiet (h : Effect s a t) (haccept : ∀ fd p added, a ≠ .accept fd p added)
    (hquit : a ≠ .quit) (hdata : ∀ count modified, a ≠ .data count modified) :
    t = { s with loop := t.loop } ∧ (t.loop ≠ .stopped → s.loop ≠ .stopped) := by
  cases h with
  | waited hloop _ => exact ⟨rfl, fun _ => by rw [hloop]; exact Loop.noConfusion⟩
  | stopped _ => exact ⟨rfl, absurd rfl⟩
  | passed hloop _ => exact ⟨rfl, fun _ => by rw [hloop]; exact Loop.noConfusion⟩
  | accepted => exact absurd rfl (haccept _ _ _)
  | left => exact absurd rfl hquit
  | marked => exact absurd rfl (hdata _ _)
  | round hloop => exact ⟨rfl, fun _ => by rw [hloop]; exact Loop.noConfusion⟩

/-! ## The invariant -/

/-- `ev` has the pointer of an event for the client that was accepted last. -/
theorem Holding.ptr_eq (h : Holding v) (hloop : v.state.loop = .handling (x :: rest))
    (hlatest : v.latest = some x.1) : v.state.ev.ptr = x.2.ptr := by
  have hrunning : v.state.loop ≠ .stopped := by
    rw [hloop]
    exact Loop.noConfusion
  obtain ⟨e, he, hptr⟩ := h.owned.owner hrunning _ _ (h.latest _ hlatest)
  obtain ⟨e', he', hptr'⟩ := h.owned.pending _ hloop x List.mem_cons_self
  cases he.symm.trans he'
  exact hptr.symm.trans hptr'

/-- And of an event for this client only. -/
theorem Holding.latest_eq (h : Holding v) (hloop : v.state.loop = .handling (x :: rest))
    (hne : x.1 ≠ v.state.listenSock) (hptr : v.state.ev.ptr = x.2.ptr) : v.latest = some x.1 := by
  have hhead := h.owned.head hloop
  rw [← hptr] at hhead
  cases hlatest : v.latest with
  | none => exact absurd (h.nobody hlatest _ hhead) hne
  | some fd =>
    cases (h.latest fd hlatest).symm.trans hhead
    rfl

/-- While the client that was accepted last sends, data are read for the buffer of `ev`. -/
theorem Holding.ownBuffer (h : Holding v) (hsends : LatestSends v a) : OwnBuffer v.state a := by
  cases a with
  | data count modified =>
    intro x hx
    obtain ⟨rest, hloop⟩ := current_eq_some hx
    exact h.ptr_eq hloop ((latestSends_data_iff hloop).mp hsends)
  | _ => trivial

/-- And only then. -/
theorem Holding.latestSends (h : Holding v) (hown : OwnBuffer v.state a)
    (hs : Epoll.step v.state a = next t) : LatestSends v a := by
  cases a with
  | data count modified =>
    intro x hx
    obtain ⟨rest, hloop⟩ := current_eq_some hx
    have hne := ne_listenSock_of_data hloop (h.owned.head hloop) hs
    exact h.latest_eq hloop hne ((ownBuffer_data_iff hloop).mp hown)
  | _ => trivial

/-- Storing `ev` for a descriptor takes no registration away. -/
theorem interest_control_ne_none {fds : List Fd}
    (h : ∀ fd' ∈ fds, fd' = fd ∨ s.interest fd' ≠ none) :
    ∀ fd' ∈ fds, (s.control fd).interest fd' ≠ none := by
  intro fd' hmem
  by_cases he : fd' = fd
  · subst he
    have hset : (s.control fd').interest fd' = some s.ev := Function.update_self _ _ _
    exact hset ▸ Option.some_ne_none _
  · have hkept : (s.control fd).interest fd' = s.interest fd' := Function.update_of_ne he _ _
    rw [hkept]
    exact (h fd' hmem).resolve_left he

/-- A new client has the buffer of `ev`. -/
theorem Holding.accept {added : Bool} (h : Holding v)
    (hloop : v.state.loop = .handling (x :: rest)) (hne : fd ≠ v.state.listenSock)
    (hclosed : fd ∉ v.state.opened) (hfree : v.state.heap p = none) :
    Holding ⟨(v.state.accepted fd p).proceed added fd rest, some fd⟩ := by
  have hrunning : v.state.loop ≠ .stopped := by
    rw [hloop]
    exact Loop.noConfusion
  have hheap : Function.update v.state.heap p (some ⟨fd⟩) p = some ⟨fd⟩ :=
    Function.update_self _ _ _
  have howned : Owned ((v.state.accepted fd p).proceed added fd rest) :=
    h.owned.accept hloop hne hclosed hfree
  cases added with
  | false =>
    exact {
      owned := howned
      latest := fun fd' hfd => Option.some.inj hfd ▸ hheap
      nobody := fun hnone => absurd hnone (Option.some_ne_none fd)
      distinct := List.nodup_cons.mpr ⟨hclosed, h.distinct⟩
      connected := fun hstopped => absurd rfl hstopped }
  | true =>
    refine ⟨howned, fun fd' hfd => Option.some.inj hfd ▸ hheap,
      fun hnone => absurd hnone (Option.some_ne_none fd),
      List.nodup_cons.mpr ⟨hclosed, h.distinct⟩, fun _ => ?_⟩
    apply interest_control_ne_none (s := v.state.accepted fd p)
    exact List.forall_mem_cons.mpr ⟨.inl rfl, fun fd' hmem => .inr (h.connected hrunning fd' hmem)⟩

/-- A client that quits leaves a dangling pointer behind if it was accepted last. -/
theorem Holding.close (h : Holding v) (hloop : v.state.loop = .handling (x :: rest)) :
    Holding ⟨{ v.state.closed x.1 x.2.ptr with loop := .handling rest },
      if v.latest = some x.1 then none else v.latest⟩ := by
  have hrunning : v.state.loop ≠ .stopped := by
    rw [hloop]
    exact Loop.noConfusion
  have hhead := h.owned.head hloop
  refine ⟨h.owned.close hloop, fun fd hfd => ?_, fun hnone b hb => ?_, h.distinct.erase _,
    fun _ fd hmem => ?_⟩
  · split at hfd
    · cases hfd
    · rename_i hother
      have hbuf := h.latest fd hfd
      have hptr : v.state.ev.ptr ≠ x.2.ptr := by
        intro hptr
        rw [hptr, hhead] at hbuf
        cases hbuf
        exact hother hfd
      exact (Function.update_of_ne hptr _ _).trans hbuf
  · simp only [State.closed, update_eq_some] at hb
    obtain ⟨hptr, hb⟩ := hb.resolve_left fun hfreed => by cases hfreed.2
    split at hnone
    · rename_i hlatest
      exact absurd (h.ptr_eq hloop hlatest) hptr
    · exact h.nobody hnone b hb
  · obtain ⟨hne, hopen⟩ := h.distinct.mem_erase_iff.mp hmem
    have hkept : (v.state.closed x.1 x.2.ptr).interest fd = v.state.interest fd :=
      Function.update_of_ne hne _ _
    exact hkept ▸ h.connected hrunning fd hopen

/-- The client that was accepted last is registered again. -/
theorem Holding.mark (h : Holding v) (hloop : v.state.loop = .handling (x :: rest))
    (hlatest : v.latest = some x.1) :
    Holding ⟨(v.state.marked x.1 x.2.events).proceed modified x.1 rest, v.latest⟩ := by
  have hrunning : v.state.loop ≠ .stopped := by
    rw [hloop]
    exact Loop.noConfusion
  have howned : Owned ((v.state.marked x.1 x.2.events).proceed modified x.1 rest) :=
    h.owned.mark hloop (h.ptr_eq hloop hlatest)
  have hheap : Function.update v.state.heap v.state.ev.ptr (some ⟨x.1⟩) v.state.ev.ptr =
      some ⟨x.1⟩ := Function.update_self _ _ _
  have hnobody : v.latest ≠ none := hlatest ▸ Option.some_ne_none x.1
  have hfd (fd : Fd) (hfd : v.latest = some fd) : x.1 = fd :=
    Option.some.inj (hlatest.symm.trans hfd)
  cases modified with
  | false =>
    exact {
      owned := howned
      latest := fun fd h => hfd fd h ▸ hheap
      nobody := fun hnone => absurd hnone hnobody
      distinct := h.distinct
      connected := fun hstopped => absurd rfl hstopped }
  | true =>
    refine ⟨howned, fun fd h => hfd fd h ▸ hheap, fun hnone => absurd hnone hnobody, h.distinct,
      fun _ => ?_⟩
    apply interest_control_ne_none (s := v.state.marked x.1 x.2.events)
    exact fun fd' hmem => .inr (h.connected hrunning fd' hmem)

/-- A step that only moves through the list keeps what `ev` holds. -/
theorem Holding.quiet (h : Holding v) (hown : Owned t) (ht : t = { v.state with loop := t.loop })
    (hloop : t.loop ≠ .stopped → v.state.loop ≠ .stopped) : Holding ⟨t, v.latest⟩ := by
  rw [ht] at hown hloop ⊢
  exact ⟨hown, h.latest, h.nobody, h.distinct, fun hrunning => h.connected (hloop hrunning)⟩

/-- A step in which no other client than the latest one sends keeps the invariant. -/
theorem Holding.step (h : Holding v) (hsends : LatestSends v a) (hs : v.step a = next w) :
    Holding w := by
  obtain ⟨t, ht, hnext⟩ := bind_eq_next.mp hs
  cases hnext
  have hown := h.owned.step (h.ownBuffer hsends) ht
  cases a with
  | accept fd p added =>
    obtain ⟨x, rest, hloop, hne, hclosed, hfree, rfl⟩ := accept_eq_next ht
    exact h.accept hloop hne hclosed hfree
  | quit =>
    obtain ⟨x, rest, b, hloop, hb, -, rfl⟩ := quit_eq_next ht
    cases hb.symm.trans (h.owned.head hloop)
    rw [Watched.latestAfter, current_eq hloop]
    exact h.close hloop
  | data count modified =>
    cases Effect.of_step ht with
    | stopped hdata => exact absurd rfl (hdata _ _)
    | passed _ hdata => exact absurd rfl (hdata _ _)
    | marked hloop hb _ =>
      cases hb.symm.trans (h.owned.head hloop)
      exact h.mark hloop ((latestSends_data_iff hloop).mp hsends)
  | _ =>
    obtain ⟨hkept, hrunning⟩ := (Effect.of_step ht).quiet (fun _ _ _ => Action.noConfusion)
      Action.noConfusion fun _ _ => Action.noConfusion
    exact h.quiet hown hkept hrunning

/-- The invariant holds as long as no other client than the latest one sends. -/
theorem holding_of_reaches (h : Reaches Watched.step LatestSends (.start listenSock p) v) :
    Holding v :=
  h.invariant (holding_start listenSock p) fun _ _ _ hv hsends hs => hv.step hsends hs

/-- As long as only the client that was accepted last sends, each connection has one buffer of its
own, no other buffer is live but that of the listening socket, every event is handled on its
descriptor, and no freed buffer is used. The first data that are read from another client spoil a
registration if they are defined at all. -/
theorem safe_while_latest_sends
    (h : Reaches Watched.step LatestSends (.start listenSock p) v) :
    v.state.Registered ∧ v.state.Addressed ∧
      (v.state.loop ≠ .stopped → (∀ fd ∈ v.state.opened, ∃! q, v.state.heap q = some ⟨fd⟩) ∧
        ∀ q b, v.state.heap q = some b → b.fd = v.state.listenSock ∨ b.fd ∈ v.state.opened) ∧
      (∀ a, LatestSends v a → v.step a ≠ undefined) ∧
      ∀ a w, ¬ LatestSends v a → v.step a = next w → ¬ w.state.Registered := by
  have hv := holding_of_reaches h
  refine ⟨hv.owned.registered, hv.owned.addressed, fun hrunning => ⟨fun fd hopen => ?_,
    fun q b hb => ?_⟩, fun a hsends hundefined => ?_, fun a w hother hs => ?_⟩
  · obtain ⟨e, he⟩ := Option.ne_none_iff_exists'.mp (hv.connected hrunning fd hopen)
    refine ⟨e.ptr, hv.owned.registered fd e he, fun q hq => ?_⟩
    obtain ⟨e', he', hptr⟩ := hv.owned.owner hrunning q _ hq
    cases he.symm.trans he'
    exact hptr.symm
  · obtain ⟨e, he, -⟩ := hv.owned.owner hrunning q b hb
    exact hv.owned.known b.fd e he
  · rcases bind_eq_undefined.mp hundefined with hstep | ⟨t, -, hnext⟩
    · exact hv.owned.step_ne_undefined (hv.ownBuffer hsends) hstep
    · cases hnext
  · obtain ⟨t, ht, hnext⟩ := bind_eq_next.mp hs
    cases hnext
    exact hv.owned.not_registered (fun hown => hother (hv.latestSends hown ht)) ht

theorem lastClientRun_latest :
    (runGuarded Watched.step LatestSends (.start 3 0) lastClientRun).state?.map
      (fun v => (v.latest, v.state.opened)) = some (some 6, [6, 5]) := by
  decide +kernel

/-- The client that connected last sends, and the first read from the other one spoils a
registration. -/
theorem safe_while_latest_sends_lastClientRun : ∃ v,
    Reaches Watched.step LatestSends (.start 3 0) v ∧ v.latest = some 6 ∧
      v.state.opened = [6, 5] ∧ v.state.Registered ∧
      ∀ a w, ¬ LatestSends v a → v.step a = next w → ¬ w.state.Registered := by
  obtain ⟨v, hrun, hv⟩ := exists_next_of_map lastClientRun_latest
  obtain ⟨hlatest, hopened⟩ := Prod.mk.inj hv
  have hreach := Reaches.of_runGuarded _ _ hrun
  obtain ⟨hregistered, -, -, -, hspoils⟩ := safe_while_latest_sends hreach
  exact ⟨v, hreach, hlatest, hopened, hregistered, hspoils⟩

end NetworkCode.Epoll
