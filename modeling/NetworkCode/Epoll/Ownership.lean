import NetworkCode.Epoll.State

/-!
# Who owns an epbuf

Each registered descriptor owns the `epbuf` that its `data.ptr` points to. The read branch
registers the descriptor with the pointer that `ev` still holds, so this is kept exactly as
long as data are read for the event whose `epbuf` that is.
-/

namespace NetworkCode.Epoll

open StepResult

variable {s t : State} {a : Action} {fd : Fd} {p : Addr} {x : Fd × EpollEvent}
  {rest : List (Fd × EpollEvent)}

/-- What one step of `main` does. -/
inductive Effect (s : State) : Action → State → Prop
  | waited {ready : List (Fd × Mask)} (hloop : s.loop = .waiting) (h : s.reports ready) :
      Effect s (.wait ready) { s with loop := .handling (s.evs ready) }
  | stopped {a : Action} (hdata : ∀ count modified, a ≠ .data count modified) :
      Effect s a { s with loop := .stopped }
  /-- Nothing is done for the event. -/
  | passed {a : Action} {x : Fd × EpollEvent} {rest : List (Fd × EpollEvent)}
      (hloop : s.loop = .handling (x :: rest))
    (hdata : ∀ count modified, a ≠ .data count modified) :
      Effect s a { s with loop := .handling rest }
  | accepted {x : Fd × EpollEvent} {rest : List (Fd × EpollEvent)} {fd : Fd} {p : Addr}
      {added : Bool} (hloop : s.loop = .handling (x :: rest)) (hne : fd ≠ s.listenSock)
      (hclosed : fd ∉ s.opened) (hfree : s.heap p = none) :
      Effect s (.accept fd p added) ((s.accepted fd p).proceed added fd rest)
  | left {x : Fd × EpollEvent} {rest : List (Fd × EpollEvent)} {b : Epbuf}
      (hloop : s.loop = .handling (x :: rest)) (hb : s.heap x.2.ptr = some b) :
      Effect s .quit { s.closed b.fd x.2.ptr with loop := .handling rest }
  | marked {x : Fd × EpollEvent} {rest : List (Fd × EpollEvent)} {b c : Epbuf} {count : Nat}
      {modified : Bool} (hloop : s.loop = .handling (x :: rest))
      (hb : s.heap x.2.ptr = some b) (hc : s.heap s.ev.ptr = some c) :
      Effect s (.data count modified)
        ((s.marked b.fd x.2.events).proceed modified b.fd rest)
  | round (hloop : s.loop = .handling []) : Effect s .endRound { s with loop := .waiting }

/-- A step of the server is one of the effects. -/
theorem Effect.of_step (h : step s a = next t) : Effect s a t := by
  unfold step at h
  cases hloop : s.loop with
  | stopped => simp [hloop] at h
  | waiting =>
    rw [hloop] at h
    cases a with
    | wait ready =>
      dsimp only at h
      split at h
      · rename_i hready
        cases h
        exact .waited hloop hready
      · cases h
    | waitFailed =>
      cases h
      exact .stopped fun _ _ => Action.noConfusion
    | _ => cases h
  | handling evs =>
    rw [hloop] at h
    cases evs with
    | nil =>
      dsimp only at h
      split at h
      · rename_i ha
        subst ha
        cases h
        exact .round hloop
      · cases h
    | cons x rest =>
      obtain ⟨b, hb, h⟩ := bind_eq_next.mp h
      rw [ofAccess_eq_next] at hb
      generalize s.branch b.fd x.2.events = branch at h
      cases branch with
      | accept =>
        cases a with
        | acceptFailed =>
          cases h
          exact .passed hloop fun _ _ => Action.noConfusion
        | noMemory =>
          cases h
          exact .stopped fun _ _ => Action.noConfusion
        | accept fd p added =>
          simp only [State.handle] at h
          split at h
          · cases h
          · rename_i hfree
            simp only [not_or, Bool.not_eq_true, Option.isSome_eq_false_iff,
              Option.isNone_iff_eq_none] at hfree
            cases h
            exact .accepted hloop hfree.1 hfree.2.1 hfree.2.2
        | _ => cases h
      | read =>
        cases a with
        | readFailed =>
          cases h
          exact .passed hloop fun _ _ => Action.noConfusion
        | quit =>
          simp only [State.handle] at h
          split at h
          · cases h
            exact .left hloop hb
          · cases h
        | data count modified =>
          simp only [State.handle] at h
          split at h
          · obtain ⟨c, hc, h⟩ := bind_eq_next.mp h
            rw [ofAccess_eq_next] at hc
            split at h
            · cases h
              exact .marked hloop hb hc
            · cases h
          · cases h
        | _ => cases h
      | write =>
        cases a with
        | write =>
          cases h
          exact .passed hloop fun _ _ => Action.noConfusion
        | _ => cases h
      | none =>
        cases a with
        | skip =>
          cases h
          exact .passed hloop fun _ _ => Action.noConfusion
        | _ => cases h

/-! ## The property -/

/-- The `data.ptr` of a registered descriptor points to a live `epbuf` with this descriptor. -/
def State.Registered (s : State) : Prop :=
  ∀ fd e, s.interest fd = some e → s.heap e.ptr = some ⟨fd⟩

/-- Two registered descriptors have different buffers. -/
def State.Unshared (s : State) : Prop :=
  ∀ fd fd' e e', s.interest fd = some e → s.interest fd' = some e' → e.ptr = e'.ptr → fd = fd'

/-- The events that are still to be handled find the descriptor they were reported for. -/
def State.Addressed (s : State) : Prop :=
  ∀ evs, s.loop = .handling evs → ∀ x ∈ evs, s.heap x.2.ptr = some ⟨x.1⟩

/-- The event that is handled next. -/
def State.current (s : State) : Option (Fd × EpollEvent) :=
  match s.loop with
  | .handling evs => evs.head?
  | _ => none

/-- Data are read only for an event whose buffer `ev` points to. -/
def OwnBuffer (s : State) : Action → Prop
  | .data _ _ => ∀ x ∈ s.current, s.ev.ptr = x.2.ptr
  | _ => True

instance (s : State) (a : Action) : Decidable (OwnBuffer s a) :=
  match a with
  | .data _ _ => inferInstanceAs (Decidable (∀ x ∈ s.current, s.ev.ptr = x.2.ptr))
  | .wait _ | .waitFailed | .acceptFailed | .noMemory | .accept _ _ _ | .readFailed | .quit
  | .write | .skip | .endRound => .isTrue trivial

/-- Data is safe to handle when `ev` points to the buffer of the event that is handled. -/
theorem ownBuffer_data_iff {count : Nat} {modified : Bool}
    (hloop : s.loop = .handling (x :: rest)) :
    OwnBuffer s (.data count modified) ↔ s.ev.ptr = x.2.ptr := by
  simp [OwnBuffer, State.current, hloop]

/-- Any step but that of reading data is safe. -/
theorem ownBuffer_of_ne (hdata : ∀ count modified, a ≠ .data count modified) : OwnBuffer s a := by
  cases a with
  | data count modified => exact absurd rfl (hdata count modified)
  | _ => trivial

/-! ## The invariant -/

/-- The invariant: registrations and buffers belong together, one to one. -/
structure Owned (s : State) : Prop where
  registered : s.Registered
  known : ∀ fd e, s.interest fd = some e → fd = s.listenSock ∨ fd ∈ s.opened
  /-- Behind a failed `epoll_ctl` there is a buffer without owner, but then `main` has ended. -/
  owner : s.loop ≠ .stopped → ∀ p b, s.heap p = some b →
    ∃ e, s.interest b.fd = some e ∧ e.ptr = p
  pending : ∀ evs, s.loop = .handling evs → ∀ x ∈ evs,
    ∃ e, s.interest x.1 = some e ∧ e.ptr = x.2.ptr
  once : ∀ evs, s.loop = .handling evs → (evs.map Prod.fst).Nodup

/-- Registrations with buffers of their own share none. -/
theorem State.Registered.unshared (h : s.Registered) : s.Unshared := by
  intro fd fd' e e' he he' hptr
  have hb := h fd e he
  rw [hptr, h fd' e' he'] at hb
  cases hb
  rfl

/-- Each event to come points to the buffer of its own descriptor. -/
theorem Owned.addressed (h : Owned s) : s.Addressed := by
  intro evs hloop x hx
  obtain ⟨e, he, hptr⟩ := h.pending evs hloop x hx
  rw [← hptr]
  exact h.registered x.1 e he

/-- The buffer of an event that is handled. -/
theorem Owned.head (h : Owned s) (hloop : s.loop = .handling (x :: rest)) :
    s.heap x.2.ptr = some ⟨x.1⟩ :=
  h.addressed _ hloop x List.mem_cons_self

/-- What is found behind an update is the new value, or was there before. -/
theorem update_eq_some {α β : Type*} [DecidableEq α] {f : α → Option β} {a b : α} {o : Option β}
    {v : β} : Function.update f a o b = some v ↔ (b = a ∧ o = some v) ∨ (b ≠ a ∧ f b = some v) := by
  by_cases h : b = a
  · subst h
    simp
  · simp [h]

/-- At the start only the listening socket is registered. -/
theorem owned_start (listenSock : Fd) (p : Addr) : Owned (start listenSock p) where
  registered fd e he := by
    simp only [start, update_eq_some] at he ⊢
    rcases he with ⟨rfl, h⟩ | ⟨-, h⟩
    · cases h
      exact .inl ⟨rfl, rfl⟩
    · cases h
  known fd e he := by
    simp only [start, update_eq_some] at he
    rcases he with ⟨hfd, -⟩ | ⟨-, h⟩
    · exact .inl hfd
    · cases h
  owner _ q b hb := by
    simp only [start, update_eq_some] at hb ⊢
    rcases hb with ⟨rfl, h⟩ | ⟨-, h⟩
    · cases h
      exact ⟨_, .inl ⟨rfl, rfl⟩, rfl⟩
    · cases h
  pending evs hloop := by cases hloop
  once evs hloop := by cases hloop

/-- A step that changes only where `main` is, with the events that remain. -/
theorem Owned.move (h : Owned s) {loop : Loop} (hstopped : loop ≠ .stopped → s.loop ≠ .stopped)
    (hpending : ∀ evs, loop = .handling evs → ∀ x ∈ evs,
      ∃ e, s.interest x.1 = some e ∧ e.ptr = x.2.ptr)
    (honce : ∀ evs, loop = .handling evs → (evs.map Prod.fst).Nodup) : Owned { s with loop } where
  registered := h.registered
  known := h.known
  owner hloop := h.owner (hstopped hloop)
  pending := hpending
  once := honce

/-- The end of the loop changes no registration. -/
theorem Owned.stop (h : Owned s) : Owned { s with loop := .stopped } :=
  h.move (absurd rfl) (fun _ hloop => by cases hloop) fun _ hloop => by cases hloop

/-- An event that `epoll_wait` reports has the pointer of a registration. -/
theorem mem_evs {ready : List (Fd × Mask)} (hx : x ∈ s.evs ready) :
    ∃ e, s.interest x.1 = some e ∧ e.ptr = x.2.ptr := by
  obtain ⟨r, -, hr⟩ := List.mem_filterMap.mp hx
  obtain ⟨e, he, rfl⟩ := Option.map_eq_some_iff.mp hr
  exact ⟨e, he, rfl⟩

/-- `epoll_wait` reports each descriptor at most as often as it is ready. -/
theorem evs_fst_sublist (s : State) (ready : List (Fd × Mask)) :
    ((s.evs ready).map Prod.fst).Sublist (ready.map Prod.fst) := by
  induction ready with
  | nil => exact .slnil
  | cons r ready ih =>
    rw [State.evs, List.filterMap_cons]
    cases s.interest r.1 with
    | none => exact ih.cons _
    | some e => exact ih.cons_cons _

/-- The events that `epoll_wait` reports point to the buffers of their descriptors. -/
theorem Owned.wait {ready : List (Fd × Mask)} (h : Owned s) (hloop : s.loop ≠ .stopped)
    (hready : s.reports ready) : Owned { s with loop := .handling (s.evs ready) } := by
  refine h.move (fun _ => hloop) (fun evs hevs x hx => ?_) fun evs hevs => ?_
  · cases hevs
    exact mem_evs hx
  · cases hevs
    exact (evs_fst_sublist s ready).nodup hready.2.1

/-- Going on to the next event keeps the invariant. -/
theorem Owned.pass (h : Owned s) (hloop : s.loop = .handling (x :: rest)) :
    Owned { s with loop := .handling rest } := by
  refine h.move (fun _ => by rw [hloop]; rintro ⟨⟩) (fun evs hevs y hy => ?_) fun evs hevs => ?_
  · cases hevs
    exact h.pending _ hloop y (List.mem_cons_of_mem x hy)
  · cases hevs
    exact (List.nodup_cons.mp (h.once _ hloop)).2

/-- The heap of `main` behind an `accept` has one more buffer. -/
theorem Owned.heap_of_free {b : Epbuf} (h : Owned s) (hfree : s.heap p = none) {e : EpollEvent}
    (he : s.interest fd = some e) : Function.update s.heap p (some b) e.ptr = some ⟨fd⟩ := by
  have hne : e.ptr ≠ p := by
    rintro rfl
    have := h.registered fd e he
    rw [hfree] at this
    cases this
  exact (Function.update_of_ne hne _ _).trans (h.registered fd e he)

/-- A new client has a buffer of its own. -/
theorem Owned.accept {added : Bool} (h : Owned s) (hloop : s.loop = .handling (x :: rest))
    (hne : fd ≠ s.listenSock) (hclosed : fd ∉ s.opened) (hfree : s.heap p = none) :
    Owned ((s.accepted fd p).proceed added fd rest) := by
  have hnew {fd' : Fd} {e : EpollEvent} (he : s.interest fd' = some e) : fd' ≠ fd := by
    rintro rfl
    exact (h.known fd' e he).elim hne hclosed
  have hknown (fd' : Fd) (e : EpollEvent) (he : s.interest fd' = some e) :
      fd' = s.listenSock ∨ fd' ∈ fd :: s.opened :=
    (h.known fd' e he).imp id (List.mem_cons_of_mem fd)
  cases added with
  | false =>
    exact {
      registered := fun fd' e he => h.heap_of_free hfree he
      known := hknown
      owner := fun hstopped => absurd rfl hstopped
      pending := fun evs hevs => by cases hevs
      once := fun evs hevs => by cases hevs }
  | true =>
    refine ⟨fun fd' e he => ?_, fun fd' e he => ?_, fun _ q b hb => ?_, fun evs hevs y hy => ?_,
      fun evs hevs => ?_⟩
    · simp only [State.proceed, State.control, State.accepted, if_true, update_eq_some] at he
      rcases he with ⟨rfl, hev⟩ | ⟨-, he⟩
      · cases hev
        exact Function.update_self _ _ _
      · exact h.heap_of_free hfree he
    · simp only [State.proceed, State.control, State.accepted, if_true, update_eq_some] at he
      rcases he with ⟨rfl, -⟩ | ⟨-, he⟩
      · exact .inr List.mem_cons_self
      · exact hknown fd' e he
    · simp only [State.proceed, State.control, State.accepted, if_true, update_eq_some] at hb ⊢
      rcases hb with ⟨rfl, hb⟩ | ⟨-, hb⟩
      · cases hb
        exact ⟨_, .inl ⟨rfl, rfl⟩, rfl⟩
      · obtain ⟨e, he, hptr⟩ := h.owner (by rw [hloop]; rintro ⟨⟩) q b hb
        exact ⟨e, .inr ⟨hnew he, he⟩, hptr⟩
    · cases hevs
      obtain ⟨e, he, hptr⟩ := h.pending _ hloop y (List.mem_cons_of_mem x hy)
      exact ⟨e, (Function.update_of_ne (hnew he) _ _).trans he, hptr⟩
    · cases hevs
      exact (List.nodup_cons.mp (h.once _ hloop)).2

/-- A client that is closed takes its buffer and its registration away. -/
theorem Owned.close (h : Owned s) (hloop : s.loop = .handling (x :: rest)) :
    Owned { s.closed x.1 x.2.ptr with loop := .handling rest } := by
  obtain ⟨e₀, he₀, hptr₀⟩ := h.pending _ hloop x List.mem_cons_self
  have hrest := List.nodup_cons.mp (h.once _ hloop)
  refine ⟨fun fd e he => ?_, fun fd e he => ?_, fun _ q b hb => ?_, fun evs hevs y hy => ?_,
    fun evs hevs => ?_⟩
  · simp only [State.closed, update_eq_some] at he ⊢
    obtain ⟨hfd, he⟩ := he.resolve_left fun hnone => by cases hnone.2
    refine .inr ⟨fun hptr => hfd ?_, h.registered fd e he⟩
    exact h.registered.unshared fd x.1 e e₀ he he₀ (hptr.trans hptr₀.symm)
  · simp only [State.closed, update_eq_some] at he ⊢
    obtain ⟨hfd, he⟩ := he.resolve_left fun hnone => by cases hnone.2
    exact (h.known fd e he).imp id (List.mem_erase_of_ne hfd).mpr
  · simp only [State.closed, update_eq_some] at hb ⊢
    obtain ⟨hq, hb⟩ := hb.resolve_left fun hnone => by cases hnone.2
    obtain ⟨e, he, hptr⟩ := h.owner (by rw [hloop]; rintro ⟨⟩) q b hb
    refine ⟨e, .inr ⟨fun hfd => hq ?_, he⟩, hptr⟩
    rw [hfd, he₀] at he
    cases he
    exact hptr.symm.trans hptr₀
  · cases hevs
    obtain ⟨e, he, hptr⟩ := h.pending _ hloop y (List.mem_cons_of_mem x hy)
    have hne : y.1 ≠ x.1 := by
      intro heq
      exact hrest.1 (heq ▸ List.mem_map_of_mem hy)
    exact ⟨e, (Function.update_of_ne hne _ _).trans he, hptr⟩
  · cases hevs
    exact hrest.2

/-- Registering the client again with its own buffer keeps it. -/
theorem Owned.mark {modified : Bool} (h : Owned s) (hloop : s.loop = .handling (x :: rest))
    (hown : s.ev.ptr = x.2.ptr) :
    Owned ((s.marked x.1 x.2.events).proceed modified x.1 rest) := by
  have hheap : Function.update s.heap s.ev.ptr (some ⟨x.1⟩) = s.heap := by
    rw [hown, ← h.head hloop]
    exact Function.update_eq_self _ _
  obtain ⟨e₀, he₀, hptr₀⟩ := h.pending _ hloop x List.mem_cons_self
  cases modified with
  | false =>
    have hs : (s.marked x.1 x.2.events).proceed false x.1 rest =
        { s with ev := ⟨x.2.events ||| epollOut ||| epollEt, s.ev.ptr⟩, loop := .stopped } := by
      simp only [State.proceed, State.marked, hheap]
      rfl
    rw [hs]
    exact {
      registered := h.registered
      known := h.known
      owner := fun hstopped => absurd rfl hstopped
      pending := fun evs hevs => by cases hevs
      once := fun evs hevs => by cases hevs }
  | true =>
    refine ⟨fun fd e he => ?_, fun fd e he => ?_, fun _ q b hb => ?_, fun evs hevs y hy => ?_,
      fun evs hevs => ?_⟩
    · simp only [State.proceed, State.control, State.marked, if_true, update_eq_some, hheap]
        at he ⊢
      rcases he with ⟨rfl, hev⟩ | ⟨-, he⟩
      · cases hev
        rw [hown]
        exact h.head hloop
      · exact h.registered fd e he
    · simp only [State.proceed, State.control, State.marked, if_true, update_eq_some] at he
      rcases he with ⟨rfl, -⟩ | ⟨-, he⟩
      · exact h.known _ e₀ he₀
      · exact h.known fd e he
    · simp only [State.proceed, State.control, State.marked, if_true, hheap, update_eq_some]
        at hb ⊢
      obtain ⟨e, he, hptr⟩ := h.owner (by rw [hloop]; rintro ⟨⟩) q b hb
      by_cases hfd : b.fd = x.1
      · rw [hfd, he₀] at he
        cases he
        exact ⟨_, .inl ⟨hfd, rfl⟩, hown.trans (hptr₀.symm.trans hptr)⟩
      · exact ⟨e, .inr ⟨hfd, he⟩, hptr⟩
    · cases hevs
      obtain ⟨e, he, hptr⟩ := h.pending _ hloop y (List.mem_cons_of_mem x hy)
      have hne : y.1 ≠ x.1 := by
        intro heq
        exact (List.nodup_cons.mp (h.once _ hloop)).1 (heq ▸ List.mem_map_of_mem hy)
      exact ⟨e, (Function.update_of_ne hne _ _).trans he, hptr⟩
    · cases hevs
      exact (List.nodup_cons.mp (h.once _ hloop)).2

/-- Every step that reads data for its own buffer only keeps the invariant. -/
theorem Owned.step (h : Owned s) (hown : OwnBuffer s a) (hs : Epoll.step s a = next t) :
    Owned t := by
  cases Effect.of_step hs with
  | waited hloop hready => exact h.wait (by rw [hloop]; rintro ⟨⟩) hready
  | stopped _ => exact h.stop
  | passed hloop _ => exact h.pass hloop
  | accepted hloop hne hclosed hfree => exact h.accept hloop hne hclosed hfree
  | left hloop hb =>
    rw [h.head hloop] at hb
    cases hb
    exact h.close hloop
  | marked hloop hb hc =>
    rw [h.head hloop] at hb
    cases hb
    exact h.mark hloop ((ownBuffer_data_iff hloop).mp hown)
  | round hloop =>
    exact h.move (fun _ => by rw [hloop]; rintro ⟨⟩) (fun evs hevs => by cases hevs)
      fun evs hevs => by cases hevs

/-- An event's buffer is live, and so is that of `ev` if it is the same. -/
theorem Owned.step_ne_undefined (h : Owned s) (hown : OwnBuffer s a) :
    Epoll.step s a ≠ undefined := by
  unfold Epoll.step
  cases hloop : s.loop with
  | stopped => rintro ⟨⟩
  | waiting =>
    cases a with
    | wait ready =>
      dsimp only
      split <;> rintro ⟨⟩
    | _ => rintro ⟨⟩
  | handling evs =>
    cases evs with
    | nil =>
      dsimp only
      split <;> rintro ⟨⟩
    | cons x rest =>
      have hhead := h.head hloop
      simp only [hhead, ofAccess_some, bind_next]
      generalize s.branch x.1 x.2.events = branch
      cases branch with
      | accept =>
        cases a with
        | accept fd p added =>
          simp only [State.handle]
          split <;> rintro ⟨⟩
        | _ => rintro ⟨⟩
      | read =>
        cases a with
        | quit =>
          simp only [State.handle]
          split <;> rintro ⟨⟩
        | data count modified =>
          rw [ownBuffer_data_iff hloop] at hown
          simp only [State.handle, hown, hhead, ofAccess_some, bind_next]
          split
          · split <;> rintro ⟨⟩
          · rintro ⟨⟩
        | _ => rintro ⟨⟩
      | write => cases a <;> rintro ⟨⟩
      | none => cases a <;> rintro ⟨⟩

/-- Data that are read for another event than the one `ev` points to spoil a registration. -/
theorem Owned.not_registered (h : Owned s) (hother : ¬ OwnBuffer s a)
    (hs : Epoll.step s a = next t) : ¬ t.Registered := by
  cases Effect.of_step hs with
  | stopped hdata => exact absurd (ownBuffer_of_ne hdata) hother
  | passed _ hdata => exact absurd (ownBuffer_of_ne hdata) hother
  | marked hloop hb hc =>
    rename_i x rest b c count modified
    rw [h.head hloop] at hb
    cases hb
    rw [ownBuffer_data_iff hloop] at hother
    obtain ⟨e, he, hptr⟩ := h.owner (by rw [hloop]; rintro ⟨⟩) s.ev.ptr c hc
    obtain ⟨e₀, he₀, hptr₀⟩ := h.pending _ hloop x List.mem_cons_self
    have hne : c.fd ≠ x.1 := by
      intro hfd
      rw [hfd, he₀] at he
      cases he
      exact hother (hptr.symm.trans hptr₀)
    intro hreg
    have hkept : ((s.marked x.1 x.2.events).proceed modified x.1 rest).interest c.fd = some e := by
      cases modified with
      | false => exact he
      | true => exact (Function.update_of_ne hne _ _).trans he
    have hbuf : ((s.marked x.1 x.2.events).proceed modified x.1 rest).heap e.ptr =
        some ⟨x.1⟩ := by
      rw [hptr]
      cases modified <;> exact Function.update_self _ _ _
    have hsame := hbuf.symm.trans (hreg c.fd e hkept)
    simp only [Option.some.injEq, Epbuf.mk.injEq] at hsame
    exact hne hsame.symm
  | _ => exact absurd trivial hother

/-- The invariant holds on every run whose steps are safe. -/
theorem owned_of_reaches {listenSock : Fd}
    (h : Reaches Epoll.step OwnBuffer (start listenSock p) s) :
    Owned s :=
  h.invariant (owned_start listenSock p) fun _ _ _ hs hown hstep => hs.step hown hstep

/-- As long as data are read only for the buffer that `ev` points to, every registration owns a
live buffer, every event is handled on its descriptor and no freed buffer is used; the first data
read for another one spoil a registration if they are defined at all. -/
theorem registrations_owned {listenSock : Fd} {p : Addr} {s : State}
    (h : Reaches Epoll.step OwnBuffer (start listenSock p) s) :
    s.Registered ∧ s.Unshared ∧ s.Addressed ∧
      (∀ a, OwnBuffer s a → Epoll.step s a ≠ undefined) ∧
      ∀ a t, ¬ OwnBuffer s a → Epoll.step s a = next t → ¬ t.Registered := by
  have hs := owned_of_reaches h
  exact ⟨hs.registered, hs.registered.unshared, hs.addressed,
    fun a hown => hs.step_ne_undefined hown, fun a t hother hstep => hs.not_registered hother hstep⟩

/-- Two clients are accepted, and data arrive from the second. -/
def lastClientRun : List Action :=
  [.wait [(3, epollIn)], .accept 5 1 true, .endRound,
    .wait [(3, epollIn)], .accept 6 2 true, .endRound,
    .wait [(6, epollIn)], .data 4 true, .endRound]

theorem lastClientRun_registers :
    (runGuarded step OwnBuffer (start 3 0) lastClientRun).state?.map
      (fun s => (s.interest 5, s.interest 6)) =
    some (some ⟨epollIn ||| epollEt, 1⟩, some ⟨epollIn ||| epollOut ||| epollEt, 2⟩) := by
  decide +kernel

/-- The client that connected last sends, and gets its own buffer back. -/
theorem registrations_owned_lastClientRun : ∃ s, Reaches step OwnBuffer (start 3 0) s ∧
    s.interest 6 = some ⟨epollIn ||| epollOut ||| epollEt, 2⟩ ∧
    s.Registered ∧ s.Unshared ∧ s.Addressed ∧
      (∀ a, OwnBuffer s a → step s a ≠ undefined) ∧
      ∀ a t, ¬ OwnBuffer s a → step s a = next t → ¬ t.Registered := by
  obtain ⟨s, hrun, hs⟩ := exists_next_of_map lastClientRun_registers
  have hreach := Reaches.of_runGuarded _ _ hrun
  exact ⟨s, hreach, congrArg Prod.snd hs, registrations_owned hreach⟩

/-- Two clients are accepted, and data arrive from the first. -/
def firstClientRun : List Action :=
  [.wait [(3, epollIn)], .accept 5 1 true, .endRound,
    .wait [(3, epollIn)], .accept 6 2 true, .endRound,
    .wait [(5, epollIn)], .data 4 true, .endRound]

theorem firstClientRun_registers :
    (runGuarded step (fun _ _ => True) (start 3 0) firstClientRun).state?.map
      (fun s => (s.interest 5, s.interest 6, s.heap 2)) =
    some (some ⟨epollIn ||| epollOut ||| epollEt, 2⟩, some ⟨epollIn ||| epollEt, 2⟩,
      some ⟨5⟩) := by
  decide +kernel

/-- The first client is registered with the buffer of the second, which then has its descriptor.
When it quits, the next event of the second uses the freed buffer. -/
theorem first_client_takes_buffer : ∃ s,
    runGuarded step (fun _ _ => True) (start 3 0) firstClientRun = next s ∧
      ¬ s.Registered ∧ ¬ s.Unshared ∧
      runGuarded step (fun _ _ => True) (start 3 0) (firstClientRun ++
        [.wait [(5, epollIn), (6, epollIn)], .quit, .readFailed]) = undefined := by
  obtain ⟨s, hrun, hs⟩ := exists_next_of_map firstClientRun_registers
  simp only [Prod.mk.injEq] at hs
  obtain ⟨hfive, hsix, hbuf⟩ := hs
  refine ⟨s, hrun, fun hreg => ?_, fun hunshared => ?_, rfl⟩
  · have hown := hreg 6 _ hsix
    rw [hbuf] at hown
    cases hown
  · cases hunshared 5 6 _ _ hfive hsix rfl

end NetworkCode.Epoll
