import NetworkCode.Core.Text
import NetworkCode.Core.Transition
import Mathlib.Data.List.Nodup
import Mathlib.Data.List.Perm.Basic
import Mathlib.Logic.Function.Basic

/-!
# The libevent server

`event_base_dispatch` waits until events are active and calls the callback of each, with the
descriptor and the argument of its `struct event`. A step is a wait or one call, with what
the system calls return in it. The library is as documented: it calls back for events that
were added, each at most once for a wait, and `event_del` also takes an event off those that
are active. `new` returns any address that is not allocated, also one that was freed before.
A library call with the address of a freed event is undefined, and so is the store behind
`buf`.
-/

namespace NetworkCode.Libevent

open StepResult Text

/-- A file descriptor. -/
abbrev Fd := Int

/-- The address of a `struct event` that was allocated. -/
abbrev Addr := Nat

/-- The bytes of `buf`. -/
def bufSize : Nat := 1500

/-- What `event_set` stores in the event of a client, whose callback is `onRead`. -/
structure Event where
  fd : Fd
  arg : Addr
  deriving DecidableEq, Repr

/-- `base`, the heap and the descriptors. `evListen` is no address, and it is always added. The
history `accepted`, `closed` and `printed` is read by no step. -/
structure State where
  svrFd : Fd
  heap : Addr → Option Event
  /-- The events of clients that were added and not deleted. -/
  added : List Addr
  /-- The events that are active; `none` stands for `evListen`. -/
  active : List (Option Addr)
  /-- `exit` was called. -/
  exited : Bool
  /-- The connections that were accepted and not closed. -/
  opened : List Fd
  /-- The results of `accept`. -/
  accepted : List Fd
  /-- The arguments of `close`. -/
  closed : List Fd
  /-- The strings printed behind `CLient Info:`. -/
  printed : List (Fd × Bytes)

/-- `main` before `event_base_dispatch`. -/
def start (svrFd : Fd) : State where
  svrFd := svrFd
  heap _ := none
  added := []
  active := []
  exited := false
  opened := []
  accepted := []
  closed := []
  printed := []

/-- A wait, or the next call, with what the system calls return. -/
inductive Action where
  | wait (ready : List (Option Addr))
  | acceptFailed
  /-- `accept` returns `fd` and `new` returns `p`. -/
  | accept (fd : Fd) (p : Addr)
  /-- `recv` fails or returns bytes. -/
  | recv (data : Option Bytes)
  deriving DecidableEq, Repr

/-- The events that become active were added, and each is called back once. -/
def State.mayActivate (s : State) (ready : List (Option Addr)) : Prop :=
  s.active = [] ∧ ready.Nodup ∧ ∀ p, some p ∈ ready → p ∈ s.added

instance State.decidableMayActivate (s : State) (ready : List (Option Addr)) :
    Decidable (s.mayActivate ready) :=
  decidable_of_iff (s.active = [] ∧ ready.Nodup ∧ ∀ r ∈ ready, ∀ p ∈ r, p ∈ s.added)
    (and_congr_right fun _ => and_congr_right fun _ =>
      ⟨fun h p hp => h (some p) hp p rfl, fun h _ hr p hp => h p (hp ▸ hr)⟩)

/-- `onAccept` with a connection: its event is allocated, is its own argument, and is added. -/
def State.onAccept (s : State) (fd : Fd) (p : Addr) (rest : List (Option Addr)) : State :=
  { s with
    heap := Function.update s.heap p (some ⟨fd, p⟩)
    added := p :: s.added
    active := rest
    opened := fd :: s.opened
    accepted := s.accepted ++ [fd] }

/-- `event_del`, `delete` and `close` at the end of a connection. -/
def State.release (s : State) (cliFd : Fd) (p : Addr) (rest : List (Option Addr)) : State :=
  { s with
    heap := Function.update s.heap p none
    added := s.added.erase p
    active := rest.erase (some p)
    opened := s.opened.erase cliFd
    closed := s.closed ++ [cliFd] }

/-- `onRead`, called with the descriptor and the argument of an event. -/
def State.onRead (s : State) (cliFd : Fd) (arg : Addr) (rest : List (Option Addr)) :
    Option Bytes → StepResult State
  | none | some [] =>
    (ofAccess (s.heap arg)).bind fun _ => next (s.release cliFd arg rest)
  | some data =>
    if data.length < bufSize then
      next { s with active := rest, printed := s.printed ++ [(cliFd, cstr data)] }
    else if data.length = bufSize then undefined
    else disabled

/-- What one action does. -/
def step (s : State) (a : Action) : StepResult State :=
  if s.exited then disabled
  else
    match s.active, a with
    | _, .wait ready => if s.mayActivate ready then next { s with active := ready } else disabled
    | none :: _, .acceptFailed => next { s with exited := true }
    | none :: rest, .accept fd p =>
      if fd < 0 ∨ fd = s.svrFd ∨ fd ∈ s.opened ∨ (s.heap p).isSome then disabled
      else next (s.onAccept fd p rest)
    | some p :: rest, .recv data =>
      (ofAccess (s.heap p)).bind fun e => s.onRead e.fd e.arg rest data
    | _, _ => disabled

variable {s t : State} {a : Action} {p q : Addr} {fd svrFd : Fd} {rest : List (Option Addr)}

/-! ## What one step can do -/

/-- What one step does when it has a meaning. -/
inductive Effect (s : State) : Action → State → Prop
  | waited {ready : List (Option Addr)} (h : s.mayActivate ready) :
      Effect s (.wait ready) { s with active := ready }
  | exited {rest : List (Option Addr)} (h : s.active = none :: rest) :
      Effect s .acceptFailed { s with exited := true }
  | accepted {fd : Fd} {p : Addr} {rest : List (Option Addr)} (h : s.active = none :: rest)
      (hclosed : fd ∉ s.opened) (hfree : s.heap p = none) (hne : fd ≠ s.svrFd) :
      Effect s (.accept fd p) (s.onAccept fd p rest)
  | released {data : Option Bytes} {p : Addr} {e : Event} {rest : List (Option Addr)}
      (h : s.active = some p :: rest) (he : s.heap p = some e)
      (hend : data = none ∨ data = some []) :
      Effect s (.recv data) (s.release e.fd e.arg rest)
  | printed {data : Bytes} {p : Addr} {e : Event} {rest : List (Option Addr)}
      (h : s.active = some p :: rest) (he : s.heap p = some e) (hlen : data.length < bufSize) :
      Effect s (.recv (some data))
        { s with active := rest, printed := s.printed ++ [(e.fd, cstr data)] }

/-- A step of the server is one of the effects. -/
theorem Effect.of_step (h : step s a = next t) : Effect s a t := by
  unfold step at h
  split at h
  · cases h
  · split at h
    · split at h
      · rename_i hready
        cases h
        exact .waited hready
      · cases h
    · rename_i rest hactive
      cases h
      exact .exited hactive
    · rename_i rest fd p hactive
      split at h
      · cases h
      · rename_i hfree
        simp only [not_or, Bool.not_eq_true, Option.isSome_eq_false_iff,
          Option.isNone_iff_eq_none] at hfree
        cases h
        exact .accepted hactive hfree.2.2.1 hfree.2.2.2 hfree.2.1
    · rename_i p rest data hactive
      obtain ⟨e, he, hread⟩ := bind_eq_next.mp h
      rw [ofAccess_eq_next] at he
      unfold State.onRead at hread
      split at hread
      · obtain ⟨_, -, hclose⟩ := bind_eq_next.mp hread
        cases hclose
        exact .released hactive he (.inl rfl)
      · obtain ⟨_, -, hclose⟩ := bind_eq_next.mp hread
        cases hclose
        exact .released hactive he (.inr rfl)
      · split at hread
        · rename_i hlen
          cases hread
          exact .printed hactive he hlen
        · split at hread <;> cases hread
    · cases h

/-! ## Events and their owners -/

/-- Each event that is added is allocated and its own argument, and no other is allocated; the
descriptors of these events are the open ones; what is active was added. -/
structure Owned (s : State) : Prop where
  nodup : s.added.Nodup
  allocated : ∀ p, p ∈ s.added ↔ s.heap p ≠ none
  own : ∀ p e, s.heap p = some e → e.arg = p
  opened : s.opened.Perm (s.added.filterMap fun p => (s.heap p).map Event.fd)
  distinct : s.opened.Nodup
  active_nodup : s.active.Nodup
  active : ∀ p, some p ∈ s.active → p ∈ s.added
  /-- What was accepted is open or was closed. -/
  balance : s.accepted.Perm (s.opened ++ s.closed)

/-- At the start the listening socket has the only event. -/
theorem owned_start (svrFd : Fd) : Owned (start svrFd) where
  nodup := .nil
  allocated p := iff_of_false List.not_mem_nil fun h => h rfl
  own p e he := by cases he
  opened := .nil
  distinct := .nil
  active_nodup := .nil
  active p hp := absurd hp List.not_mem_nil
  balance := .nil

/-- The descriptors of the events that are added, when one that is not is written. -/
theorem filterMap_update (hp : p ∉ s.added) (o : Option Event) :
    (s.added.filterMap fun q => (Function.update s.heap p o q).map Event.fd) =
      s.added.filterMap fun q => (s.heap q).map Event.fd := by
  refine List.filterMap_congr fun q hq => ?_
  have hne : q ≠ p := fun he => hp (he ▸ hq)
  rw [Function.update_of_ne hne]

/-- A connection gets an event of its own. -/
theorem Owned.onAccept (h : Owned s) (hactive : s.active = none :: rest) (hclosed : fd ∉ s.opened)
    (hfree : s.heap p = none) : Owned (s.onAccept fd p rest) := by
  have hnew : p ∉ s.added := fun hp => (h.allocated p).mp hp hfree
  have hrest := h.active_nodup
  rw [hactive] at hrest
  refine ⟨List.nodup_cons.mpr ⟨hnew, h.nodup⟩, fun q => ?_, fun q e he => ?_, ?_,
    List.nodup_cons.mpr ⟨hclosed, h.distinct⟩, (List.nodup_cons.mp hrest).2, fun q hq => ?_, ?_⟩
  · dsimp only [State.onAccept]
    by_cases hq : q = p
    · rw [hq, Function.update_self]
      exact iff_of_true List.mem_cons_self (Option.some_ne_none _)
    · rw [Function.update_of_ne hq, List.mem_cons, or_iff_right hq]
      exact h.allocated q
  · dsimp only [State.onAccept] at he
    by_cases hq : q = p
    · rw [hq, Function.update_self] at he
      rw [← Option.some.inj he, hq]
    · rw [Function.update_of_ne hq] at he
      exact h.own q e he
  · dsimp only [State.onAccept]
    rw [List.filterMap_cons, Function.update_self, filterMap_update hnew]
    exact h.opened.cons fd
  · exact List.mem_cons_of_mem _ (h.active q (hactive ▸ List.mem_cons_of_mem _ hq))
  · exact (List.perm_append_singleton fd s.accepted).trans (h.balance.cons fd)

/-- The end of a connection takes its event and its descriptor, and nothing else. -/
theorem Owned.release {e : Event} (h : Owned s) (hactive : s.active = some p :: rest)
    (he : s.heap p = some e) : Owned (s.release e.fd e.arg rest) := by
  have hown := h.own p e he
  have hmem : p ∈ s.added := (h.allocated p).mpr (he ▸ Option.some_ne_none e)
  have hrest := h.active_nodup
  rw [hactive] at hrest
  obtain ⟨hother, hnodup⟩ := List.nodup_cons.mp hrest
  rw [hown]
  have hfds : (s.added.filterMap fun q => (s.heap q).map Event.fd).Perm
      (e.fd :: (s.added.erase p).filterMap fun q => (s.heap q).map Event.fd) := by
    refine ((List.perm_cons_erase hmem).filterMap _).trans ?_
    rw [List.filterMap_cons, he]
    rfl
  have hopened := h.opened.trans hfds
  have hfd : e.fd ∈ s.opened := hopened.mem_iff.mpr List.mem_cons_self
  refine ⟨h.nodup.erase p, fun q => ?_, fun q f hf => ?_, ?_, h.distinct.erase _,
    hnodup.erase _, fun q hq => ?_, ?_⟩
  · dsimp only [State.release]
    by_cases hq : q = p
    · rw [hq, Function.update_self]
      exact iff_of_false h.nodup.not_mem_erase fun hne => hne rfl
    · rw [Function.update_of_ne hq, List.mem_erase_of_ne hq]
      exact h.allocated q
  · dsimp only [State.release] at hf
    by_cases hq : q = p
    · rw [hq, Function.update_self] at hf
      cases hf
    · rw [Function.update_of_ne hq] at hf
      exact h.own q f hf
  · have hsame : ((s.added.erase p).filterMap fun q =>
        (Function.update s.heap p none q).map Event.fd) =
        (s.added.erase p).filterMap fun q => (s.heap q).map Event.fd :=
      filterMap_update (s := { s with added := s.added.erase p }) h.nodup.not_mem_erase none
    dsimp only [State.release]
    rw [hsame]
    exact ((List.perm_cons_erase hfd).symm.trans hopened).cons_inv
  · dsimp only [State.release] at hq ⊢
    have hne : q ≠ p := by
      rintro rfl
      exact hother (List.mem_of_mem_erase hq)
    rw [List.mem_erase_of_ne hne]
    exact h.active q (hactive ▸ List.mem_cons_of_mem _ (List.mem_of_mem_erase hq))
  · dsimp only [State.release]
    refine h.balance.trans (((List.perm_cons_erase hfd).append_right _).trans ?_)
    rw [List.cons_append, ← List.append_assoc]
    exact (List.perm_append_singleton _ _).symm

/-- Every step keeps the owners. -/
theorem Owned.step (h : Owned s) (hs : step s a = next t) : Owned t := by
  cases Effect.of_step hs with
  | waited hready => exact { h with active_nodup := hready.2.1, active := hready.2.2 }
  | exited hactive => exact { h with }
  | accepted hactive hclosed hfree hne => exact h.onAccept hactive hclosed hfree
  | released hactive he hend => exact h.release hactive he
  | printed hactive he hlen =>
    have hrest := h.active_nodup
    have hadded := h.active
    rw [hactive] at hrest hadded
    exact { h with
      active_nodup := (List.nodup_cons.mp hrest).2
      active := fun q hq => hadded q (List.mem_cons_of_mem _ hq) }

/-- The invariant holds in every state reached. -/
theorem owned_of_reaches {ok : State → Action → Prop} (h : Reaches step ok (start svrFd) s) :
    Owned s :=
  h.invariant (owned_start svrFd) fun _ _ _ hs _ hstep => hs.step hstep

/-- The only step without a meaning is the call of `onRead` that fills `buf`. -/
theorem Owned.undefined_iff (h : Owned s) : Libevent.step s a = undefined ↔
    s.exited = false ∧ (∃ p rest, s.active = some p :: rest) ∧
      ∃ data, a = .recv (some data) ∧ data.length = bufSize := by
  constructor
  · intro hs
    unfold Libevent.step at hs
    split at hs
    · cases hs
    · rename_i hexited
      split at hs
      · split at hs <;> cases hs
      · cases hs
      · split at hs <;> cases hs
      · rename_i p rest data hactive
        have hadded := h.active p (hactive ▸ List.mem_cons_self)
        obtain ⟨e, he⟩ := Option.ne_none_iff_exists'.mp ((h.allocated p).mp hadded)
        simp only [he, ofAccess_some, bind_next, State.onRead, h.own p e he] at hs
        split at hs
        · cases hs
        · cases hs
        · rename_i data _
          split at hs
          · cases hs
          · split at hs
            · rename_i hlen
              exact ⟨Bool.eq_false_iff.mpr hexited, ⟨p, rest, hactive⟩, data, rfl, hlen⟩
            · cases hs
      · cases hs
  · rintro ⟨hexited, ⟨p, rest, hactive⟩, data, rfl, hlen⟩
    have hadded := h.active p (hactive ▸ List.mem_cons_self)
    obtain ⟨e, he⟩ := Option.ne_none_iff_exists'.mp ((h.allocated p).mp hadded)
    cases data with
    | nil => cases hlen
    | cons b bs =>
      have hfull : ¬ (b :: bs).length < bufSize := by omega
      simp only [Libevent.step, hexited, Bool.false_eq_true, if_false, hactive, he, ofAccess_some,
        bind_next, State.onRead, if_neg hfull, if_pos hlen]

/-- Each open connection has one event, which is the only one that refers to it; what was accepted
is open or was closed, once. -/
structure State.OneEvent (s : State) : Prop where
  event : ∀ fd, fd ∈ s.opened ↔ ∃ p ∈ s.added, s.heap p = some ⟨fd, p⟩
  unique : ∀ p q e f, s.heap p = some e → s.heap q = some f → e.fd = f.fd → p = q
  allocated : ∀ p, s.heap p ≠ none ↔ p ∈ s.added
  closed : ∀ fd, s.accepted.count fd = s.opened.count fd + s.closed.count fd
  distinct : s.opened.Nodup

/-- Events that are added have different descriptors. -/
theorem Owned.unique {e f : Event} (h : Owned s) (hp : s.heap p = some e) (hq : s.heap q = some f)
    (hfd : e.fd = f.fd) : p = q := by
  have hnodup : (s.added.filterMap fun p => (s.heap p).map Event.fd).Nodup :=
    h.opened.nodup_iff.mp h.distinct
  by_contra hne
  have hmem : p ∈ s.added := (h.allocated p).mpr (hp ▸ Option.some_ne_none e)
  have hother : q ∈ s.added.erase p :=
    (List.mem_erase_of_ne (Ne.symm hne)).mpr ((h.allocated q).mpr (hq ▸ Option.some_ne_none f))
  rw [((List.perm_cons_erase hmem).filterMap _).nodup_iff, List.filterMap_cons, hp] at hnodup
  refine (List.nodup_cons.mp hnodup).1 (List.mem_filterMap.mpr ⟨q, hother, ?_⟩)
  rw [hq, hfd]
  rfl

/-- Each open connection has one event of its own. -/
theorem Owned.oneEvent (h : Owned s) : s.OneEvent where
  event fd := by
    rw [h.opened.mem_iff, List.mem_filterMap]
    constructor
    · rintro ⟨p, hp, hfd⟩
      obtain ⟨e, he, rfl⟩ := Option.map_eq_some_iff.mp hfd
      refine ⟨p, hp, ?_⟩
      rw [he, ← h.own p e he]
    · rintro ⟨p, hp, he⟩
      exact ⟨p, hp, by rw [he]; rfl⟩
  unique p q e f := h.unique
  allocated p := (h.allocated p).symm
  closed fd := by rw [h.balance.count_eq, List.count_append]
  distinct := h.distinct

/-- Whatever `event_base_dispatch` calls and the system returns, each open connection has its own
event and is closed once, no event that was freed is used, and a call has no meaning exactly when
`recv` fills `buf`. -/
theorem connections_have_events
    (h : Reaches step (fun _ _ => True) (start svrFd) s) :
    s.OneEvent ∧ ∀ a, step s a = undefined ↔
      s.exited = false ∧ (∃ p rest, s.active = some p :: rest) ∧
        ∃ data, a = .recv (some data) ∧ data.length = bufSize :=
  ⟨(owned_of_reaches h).oneEvent, fun _ => (owned_of_reaches h).undefined_iff⟩

/-- A client says something and leaves while another one joins, and its event goes to a third. -/
def threeClients : List Action :=
  [.wait [none], .accept 5 0, .wait [some 0], .recv (some [104, 105]), .wait [none, some 0],
    .accept 6 1, .recv none, .wait [none], .accept 5 0]

theorem threeClients_run :
    (runGuarded step (fun _ _ => True) (start 4) threeClients).state?.map
      (fun s => (s.opened, s.added, s.closed)) =
    some ([5, 6], [0, 1], [5]) := by decide +kernel

/-- Of three clients one leaves, and another one gets its descriptor. -/
theorem connections_have_events_threeClients : ∃ s,
    Reaches step (fun _ _ => True) (start 4) s ∧
      (s.opened, s.added, s.closed) = ([5, 6], [0, 1], [5]) ∧
      s.OneEvent ∧ ∀ a, step s a = undefined ↔
        s.exited = false ∧ (∃ p rest, s.active = some p :: rest) ∧
          ∃ data, a = .recv (some data) ∧ data.length = bufSize := by
  obtain ⟨s, hrun, hfacts⟩ := exists_next_of_map threeClients_run
  have hreach := Reaches.of_runGuarded _ _ hrun
  exact ⟨s, hreach, hfacts, connections_have_events hreach⟩

end NetworkCode.Libevent
