import NetworkCode.Core.Transition
import Mathlib.Logic.Function.Basic

/-!
# The epoll server: registrations, buffers and the handling of one event

`main` waits in `epoll_wait` and then handles the events of `evs` one after the other. A
step is a return of `epoll_wait` or the handling of the event at the loop index; what the
system calls return there is part of the action. `malloc` returns any address that is not
allocated, also one that was freed before, and an access to a freed `epbuf` is undefined.
The variable `ev` lives outside of the loop and keeps what was last stored to it.
-/

namespace NetworkCode.Epoll

open StepResult

/-- A file descriptor. -/
abbrev Fd := Nat

/-- The address of an `epbuf`. -/
abbrev Addr := Nat

/-- The mask `events` of `struct epoll_event`. -/
abbrev Mask := BitVec 32

/-- `USER_LIMIT`. -/
def userLimit : Nat := 35

/-- `_SIZE_`. -/
def size : Nat := 1024

/-- The bits of `epoll`. -/
def epollIn : Mask := BitVec.twoPow 32 0
def epollOut : Mask := BitVec.twoPow 32 2
def epollErr : Mask := BitVec.twoPow 32 3
def epollHup : Mask := BitVec.twoPow 32 4
def epollEt : Mask := BitVec.twoPow 32 31

/-- Whether a mask has a bit of `flag`. -/
def has (mask flag : Mask) : Bool := mask &&& flag != 0

/-- `struct epoll_event`, with `data.ptr`. -/
structure EpollEvent where
  events : Mask
  ptr : Addr
  deriving DecidableEq, Repr

/-- `epbuf_t`, without its array, which is filled and printed only. -/
structure Epbuf where
  fd : Fd
  deriving DecidableEq, Repr

/-- Where `main` is. -/
inductive Loop where
  /-- In `epoll_wait`. -/
  | waiting
  /-- Before these events of `evs`. Each one comes with the descriptor it was reported for,
  which no step reads. -/
  | handling (evs : List (Fd × EpollEvent))
  /-- The process ended in `exit`. -/
  | stopped
  deriving DecidableEq, Repr

/-- The local variables of `main`, the heap and the interest list of `exfd`. -/
structure State where
  listenSock : Fd
  heap : Addr → Option Epbuf
  /-- What is registered for a descriptor. -/
  interest : Fd → Option EpollEvent
  ev : EpollEvent
  /-- The connections that were accepted and not closed. -/
  opened : List Fd
  loop : Loop

/-- `main` before its loop: `Allocate` returned `p`, and `listen_sock` is registered. -/
def start (listenSock : Fd) (p : Addr) : State where
  listenSock := listenSock
  heap := Function.update (fun _ => none) p (some ⟨listenSock⟩)
  interest := Function.update (fun _ => none) listenSock (some ⟨epollIn, p⟩)
  ev := ⟨epollIn, p⟩
  opened := []
  loop := .waiting

/-- The branches for an event. -/
inductive Branch where
  | accept
  | read
  | write
  | none
  deriving DecidableEq, Repr

/-- The branch that is taken for an event with the descriptor found in its `epbuf`. -/
def State.branch (s : State) (fd : Fd) (events : Mask) : Branch :=
  if fd = s.listenSock ∧ has events epollIn then .accept
  else if fd ≠ s.listenSock ∧ has events epollIn then .read
  else if fd ≠ s.listenSock ∧ has events epollOut then .write
  else .none

/-- One step of `main`, with what the system calls return. -/
inductive Action where
  /-- `epoll_wait` reports these descriptors, each with its events. -/
  | wait (ready : List (Fd × Mask))
  | waitFailed
  | acceptFailed
  /-- `accept` succeeds and `malloc` fails. -/
  | noMemory
  /-- `accept` returns `fd` and `malloc` returns `p`; `epoll_ctl` succeeds or fails. -/
  | accept (fd : Fd) (p : Addr) (added : Bool)
  | readFailed
  /-- `read` returns 0. -/
  | quit
  /-- `read` returns `count` bytes; `epoll_ctl` succeeds or fails. -/
  | data (count : Nat) (modified : Bool)
  | write
  /-- An event for which there is nothing to do. -/
  | skip
  /-- The last event was handled. -/
  | endRound
  deriving DecidableEq, Repr

/-- `epoll_wait` can report `events` for a descriptor: it is registered, and only bits that
were asked for and those of errors are reported. -/
def State.mayReport (s : State) (fd : Fd) (events : Mask) : Bool :=
  (s.interest fd).any fun e => events &&& ~~~(e.events ||| epollErr ||| epollHup) == 0

/-- `epoll_wait` reports at most `USER_LIMIT` descriptors, each of them once. -/
def State.reports (s : State) (ready : List (Fd × Mask)) : Prop :=
  ready.length ≤ userLimit ∧ (ready.map Prod.fst).Nodup ∧
    ∀ r ∈ ready, s.mayReport r.1 r.2 = true

instance (s : State) (ready : List (Fd × Mask)) : Decidable (s.reports ready) :=
  inferInstanceAs (Decidable (_ ∧ _ ∧ _))

/-- What `epoll_wait` stores to `evs`. -/
def State.evs (s : State) (ready : List (Fd × Mask)) : List (Fd × EpollEvent) :=
  ready.filterMap fun r => (s.interest r.1).map fun e => (r.1, ⟨r.2, e.ptr⟩)

/-- `epoll_ctl` stores `ev` for a descriptor. -/
def State.control (s : State) (fd : Fd) : State :=
  { s with interest := Function.update s.interest fd (some s.ev) }

/-- `Allocate` and the assignments to `ev` behind an `accept`. -/
def State.accepted (s : State) (fd : Fd) (p : Addr) : State :=
  { s with
    heap := Function.update s.heap p (some ⟨fd⟩)
    ev := ⟨epollIn ||| epollEt, p⟩
    opened := fd :: s.opened }

/-- `DelBuf` and `close`, which takes the descriptor off the interest list. -/
def State.closed (s : State) (fd : Fd) (p : Addr) : State :=
  { s with
    heap := Function.update s.heap p none
    interest := Function.update s.interest fd none
    opened := s.opened.erase fd }

/-- The assignments behind a `read`: to the `epbuf` that `ev` points to, and to `ev`. -/
def State.marked (s : State) (fd : Fd) (events : Mask) : State :=
  { s with
    heap := Function.update s.heap s.ev.ptr (some ⟨fd⟩)
    ev := ⟨events ||| epollOut ||| epollEt, s.ev.ptr⟩ }

/-- On to the events `rest`, or to `exit` if `epoll_ctl` failed. -/
def State.proceed (s : State) (succeeded : Bool) (fd : Fd) (rest : List (Fd × EpollEvent)) :
    State :=
  if succeeded then { s.control fd with loop := .handling rest } else { s with loop := .stopped }

/-- The branch of an event, for an action that belongs to it; `fd` was read from its `epbuf`. A
descriptor that is not open can only fail to be read, or to be modified. -/
def State.handle (s : State) (e : EpollEvent) (fd : Fd) (rest : List (Fd × EpollEvent)) :
    Branch → Action → StepResult State
  | .accept, .acceptFailed => next { s with loop := .handling rest }
  | .accept, .noMemory => next { s with loop := .stopped }
  | .accept, .accept new p added =>
    if new = s.listenSock ∨ new ∈ s.opened ∨ (s.heap p).isSome then disabled
    else next ((s.accepted new p).proceed added new rest)
  | .read, .readFailed => next { s with loop := .handling rest }
  | .read, .quit =>
    if fd ∈ s.opened then next { s.closed fd e.ptr with loop := .handling rest } else disabled
  | .read, .data count modified =>
    if fd ∈ s.opened ∧ 0 < count ∧ count ≤ size - 1 then
      (ofAccess (s.heap s.ev.ptr)).bind fun _ =>
        if modified → (s.interest fd).isSome then
          next ((s.marked fd e.events).proceed modified fd rest)
        else disabled
    else disabled
  | .write, .write => next { s with loop := .handling rest }
  | .none, .skip => next { s with loop := .handling rest }
  | _, _ => disabled

/-- What one action does; it is disabled when `main` is elsewhere. -/
def step (s : State) (a : Action) : StepResult State :=
  match s.loop with
  | .stopped => disabled
  | .waiting =>
    match a with
    | .wait ready =>
      if s.reports ready then next { s with loop := .handling (s.evs ready) } else disabled
    | .waitFailed => next { s with loop := .stopped }
    | _ => disabled
  | .handling [] => if a = .endRound then next { s with loop := .waiting } else disabled
  | .handling ((_, e) :: rest) =>
    (ofAccess (s.heap e.ptr)).bind fun b => s.handle e b.fd rest (s.branch b.fd e.events) a

end NetworkCode.Epoll
