import NetworkCode.Core.Text
import NetworkCode.Core.Transition
import Mathlib.Logic.Function.Basic

/-!
# The chat server: its tables and the handling of one slot

`main` waits in `poll` and then handles the slots of `fds` one after the other. A
step is a return of `poll` or the handling of the slot at the loop index; what the
system calls return there is part of the action. The table `users` has `entries`
entries and is indexed by descriptors. An access outside `users`, `tmpbuf` or a
buffer is undefined, and so is the use of a `write_buf` that was never set.

The history `opened`, `due` and `got` is read by no step, except that `accept`
returns no descriptor that is still open.
-/

namespace NetworkCode.Chat

open StepResult Text

/-- A file descriptor; -1 stands for none. -/
abbrev Fd := Int

/-- The masks `events` and `revents` of `struct pollfd`. -/
abbrev Events := BitVec 16

/-- `USER_LIMIT`. -/
def userLimit : Int := 5

/-- `BUF_SIZE`. -/
def bufSize : Nat := 1024

/-- The bits of `poll`. -/
def pollIn : Events := BitVec.twoPow 16 0
def pollOut : Events := BitVec.twoPow 16 2
def pollErr : Events := BitVec.twoPow 16 3
def pollHup : Events := BitVec.twoPow 16 4
def pollNval : Events := BitVec.twoPow 16 5
def pollRdhup : Events := BitVec.twoPow 16 13

/-- Whether a mask has a bit of `flag`. -/
def has (mask flag : Events) : Bool := mask &&& flag != 0

/-- `struct pollfd`. -/
structure PollFd where
  fd : Fd
  events : Events
  revents : Events
  deriving DecidableEq, Repr

/-- The pointer `write_buf`. -/
inductive WriteBuf where
  | null
  /-- The buffer `tmpbuf` of `main`, which all clients share. -/
  | tmpbuf
  /-- Never set: `malloc` does not initialise it. -/
  | unset
  deriving DecidableEq, Repr

/-- `client_data`, without the address. -/
structure ClientData where
  writeBuf : WriteBuf
  buf : Bytes
  deriving DecidableEq, Repr

/-- Where `main` is. -/
inductive Loop where
  /-- In `poll`. -/
  | polling
  /-- Before the slot with this index. -/
  | handling (i : Int)
  /-- Behind the loop, which a failed `poll` leaves. -/
  | stopped
  deriving DecidableEq, Repr

/-- The local variables of `main` and the history. -/
structure State where
  listenSock : Fd
  /-- The number of entries allocated for `users`. -/
  entries : Int
  fds : Int → PollFd
  userCount : Int
  users : Fd → ClientData
  tmpbuf : Bytes
  loop : Loop
  /-- The connections that were accepted and not closed. -/
  opened : List Fd
  /-- The messages read from others since the client with this descriptor was added. -/
  due : Fd → List Bytes
  /-- What was written to the client with this descriptor since it was added. -/
  got : Fd → List Bytes

/-- `main` before its loop; `tmpbuf` and the table `users` are not initialised. -/
def start (listenSock : Fd) (entries : Int) (tmpbuf : Bytes) : State where
  listenSock := listenSock
  entries := entries
  fds i := if i = 0 then ⟨listenSock, pollIn ||| pollErr, 0⟩ else ⟨-1, 0, 0⟩
  userCount := 0
  users _ := ⟨.unset, []⟩
  tmpbuf := tmpbuf
  loop := .polling
  opened := []
  due _ := []
  got _ := []

/-! ## Strings -/

/-- Store bytes one after the other from an index on. -/
def store (buf : Bytes) (i : Nat) : Bytes → Option Bytes
  | [] => some buf
  | b :: bs => if i < buf.length then store (buf.set i b) (i + 1) bs else none

/-- `fd + '0'` as a `char`. -/
def digit (fd : Fd) : UInt8 := ⟨BitVec.ofInt 8 (fd + 48)⟩

/-- `User<fd>:`. -/
def userPrefix (fd : Fd) : Bytes := [85, 115, 101, 114, digit fd, 58]

/-- The two loops that write a message to `tmpbuf`: first `User<fd>:` with its NUL, and
then the bytes of the message from the place of the NUL on. -/
def compose (tmpbuf : Bytes) (fd : Fd) (message : Bytes) : Option Bytes :=
  (store tmpbuf 0 (userPrefix fd ++ [0])).bind fun tmpbuf => store tmpbuf 6 message

/-! ## The branches -/

/-- `users[fd]` is an entry of the table. -/
def State.hasUser (s : State) (fd : Fd) : Prop := 0 ≤ fd ∧ fd < s.entries

instance (s : State) (fd : Fd) : Decidable (s.hasUser fd) := inferInstanceAs (Decidable (_ ∧ _))

/-- On to the next slot. -/
def State.advance (s : State) (i : Int) : State := { s with loop := .handling (i + 1) }

/-- A new client in the slot behind the last one. -/
def State.withUser (s : State) (i : Int) (fd : Fd) : State :=
  { s.advance i with
    userCount := s.userCount + 1
    fds := Function.update s.fds (s.userCount + 1) ⟨fd, pollIn ||| pollRdhup ||| pollErr, 0⟩
    opened := fd :: s.opened
    due := Function.update s.due fd []
    got := Function.update s.got fd [] }

/-- The last client takes the place of the one in slot `i`, and its data that of the other.
The slot is then handled again. -/
def State.without (s : State) (i : Int) : State :=
  { s with
    users := Function.update s.users (s.fds i).fd (s.users (s.fds s.userCount).fd)
    fds := Function.update s.fds i (s.fds s.userCount)
    userCount := s.userCount - 1 }

/-- Remove the client in slot `i`. -/
def State.dropUser (s : State) (i : Int) : StepResult State :=
  if s.hasUser (s.fds i).fd ∧ s.hasUser (s.fds s.userCount).fd then next (s.without i)
  else undefined

/-- The mask of a client for which a message is queued. -/
def queuedEvents (events : Events) : Events := events ||| ~~~pollIn ||| pollOut

/-- The mask of a client behind a write. -/
def writtenEvents (events : Events) : Events := events ||| ~~~pollOut ||| pollIn

/-- Queue the message `data` of the client `connfd` for the client in slot `j`. -/
def State.queueFor (s : State) (connfd : Fd) (data : Bytes) (j : Int) : StepResult State :=
  let slot := s.fds j
  if slot.fd = connfd then
    next s
  else
    (ofAccess (compose s.tmpbuf slot.fd ((s.users connfd).buf.take (data.length - 1)))).bind
      fun tmpbuf =>
        if s.hasUser slot.fd then
          next { s with
            fds := Function.update s.fds j { slot with events := queuedEvents slot.events }
            tmpbuf := tmpbuf
            users := Function.update s.users slot.fd
              { s.users slot.fd with writeBuf := .tmpbuf } }
        else
          undefined

/-- Queue a message for the clients in the slots from 1 to `n`. -/
def State.queueAll (s : State) (connfd : Fd) (data : Bytes) : Nat → StepResult State
  | 0 => next s
  | n + 1 => (s.queueAll connfd data n).bind fun s => s.queueFor connfd data (n + 1)

/-- What `read` left in the array of a client: the data, its last byte replaced by NUL. -/
def received (data : Bytes) : Bytes :=
  data.dropLast ++ List.replicate (bufSize - (data.length - 1)) 0

/-- The clients in the slots from 1 on. -/
def State.clients (s : State) : List Fd :=
  (List.range s.userCount.toNat).map fun k : Nat => (s.fds (k + 1)).fd

/-- The bytes read from the client in slot `i` are kept. They are due to all others. -/
def State.keep (s : State) (i : Int) (data : Bytes) : State :=
  { s with
    users := Function.update s.users (s.fds i).fd
      { s.users (s.fds i).fd with buf := received data }
    due := fun fd =>
      if fd ∈ s.clients ∧ fd ≠ (s.fds i).fd then s.due fd ++ [data] else s.due fd }

/-- The bytes read from the client in slot `i` are kept and queued for all others. When the
client closed its connection and there are none, `buf[_s - 1]` is in front of the array. -/
def State.readFrom (s : State) (i : Int) (data : Bytes) : StepResult State :=
  if s.hasUser (s.fds i).fd ∧ data ≠ [] then
    ((s.keep i data).queueAll (s.fds i).fd data s.userCount.toNat).bind fun t =>
      next (t.advance i)
  else
    undefined

/-- `taken` bytes of the queued message were written to the client in slot `i`. -/
def State.written (s : State) (i : Int) (taken : Nat) : State :=
  { s.advance i with
    fds := Function.update s.fds i { s.fds i with events := writtenEvents (s.fds i).events }
    users := Function.update s.users (s.fds i).fd { s.users (s.fds i).fd with writeBuf := .null }
    got := Function.update s.got (s.fds i).fd (s.got (s.fds i).fd ++
      if taken = 0 then [] else [(cstr s.tmpbuf).take taken]) }

/-- Write the queued message to the client in slot `i`. -/
def State.writeTo (s : State) (i : Int) (taken : Nat) : StepResult State :=
  if s.hasUser (s.fds i).fd then
    match (s.users (s.fds i).fd).writeBuf with
    | .null => disabled
    | .unset => undefined
    | .tmpbuf =>
      if 0 ∈ s.tmpbuf then
        if taken ≤ (cstr s.tmpbuf).length then next (s.written i taken) else disabled
      else
        undefined
  else
    undefined

/-- The branches of the loop. -/
inductive Branch where
  | accept
  | error
  | hangUp
  | read
  | write
  | none
  deriving DecidableEq, Repr

/-- The branch that is taken for a slot. -/
def State.branch (s : State) (slot : PollFd) : Branch :=
  if slot.fd = s.listenSock ∧ has slot.revents pollIn then .accept
  else if has slot.revents pollErr then .error
  else if has slot.revents pollRdhup then .hangUp
  else if has slot.revents pollIn then .read
  else if has slot.revents pollOut then .write
  else .none

/-! ## The transition system -/

/-- One step of `main`, with what the system calls return. -/
inductive Action where
  /-- `poll` returns and fills in the results of the slots up to `user_count`. -/
  | poll (revents : List Events)
  /-- `poll` fails. -/
  | pollFailed
  /-- The listening socket is ready: `accept` fails or returns a descriptor. -/
  | accept (fd : Option Fd)
  /-- A slot with an error; what `getsockopt` returns does not matter. -/
  | error
  | hangUp
  /-- `read` fails or returns bytes. -/
  | read (data : Option Bytes)
  /-- `write` takes so many bytes; none when it fails. -/
  | write (taken : Nat)
  /-- A slot for which there is nothing to do. -/
  | skip
  /-- The last slot was handled. -/
  | endRound
  deriving DecidableEq, Repr

/-- The bits that `poll` reports also when they were not asked for. -/
def unasked : Events := pollErr ||| pollHup ||| pollNval

/-- `poll` reports only bits that were asked for and those of `unasked`. -/
def State.reports (s : State) (revents : List Events) : Prop :=
  (revents.length : Int) = s.userCount + 1 ∧
    ∀ i < revents.length, revents.getD i 0 &&& ~~~((s.fds i).events ||| unasked) = 0

instance (s : State) (revents : List Events) : Decidable (s.reports revents) :=
  inferInstanceAs (Decidable (_ ∧ _))

/-- The slots behind a return of `poll`. -/
def State.polled (s : State) (revents : List Events) : State :=
  { s with
    fds := fun i => if 0 ≤ i ∧ i ≤ s.userCount then
      { s.fds i with revents := revents.getD i.toNat 0 } else s.fds i
    loop := .handling 0 }

/-- The branch of the slot at the loop index, for an action that belongs to it. -/
def State.handle (s : State) (i : Int) : Branch → Action → StepResult State
  | .accept, .accept none => next (s.advance i)
  | .accept, .accept (some fd) =>
    if fd < 0 ∨ fd = s.listenSock ∨ fd ∈ s.opened then disabled
    else if s.userCount ≥ userLimit then next (s.advance i)
    else if s.hasUser fd then next (s.withUser i fd)
    else undefined
  | .error, .error => next (s.advance i)
  | .hangUp, .hangUp =>
    (s.dropUser i).bind fun t => next { t with opened := s.opened.erase (s.fds i).fd }
  | .read, .read none => s.dropUser i
  | .read, .read (some data) =>
    if data.length ≤ bufSize - 1 then s.readFrom i data else disabled
  | .write, .write taken => s.writeTo i taken
  | .write, .skip =>
    if s.hasUser (s.fds i).fd then
      if (s.users (s.fds i).fd).writeBuf = .null then next (s.advance i) else disabled
    else undefined
  | .none, .skip => next (s.advance i)
  | _, _ => disabled

/-- What one action does; it is disabled when `main` is elsewhere. -/
def step (s : State) (a : Action) : StepResult State :=
  match s.loop with
  | .stopped => disabled
  | .polling =>
    match a with
    | .poll revents => if s.reports revents then next (s.polled revents) else disabled
    | .pollFailed => next { s with loop := .stopped }
    | _ => disabled
  | .handling i =>
    if i < s.userCount + 1 then s.handle i (s.branch (s.fds i)) a
    else if a = .endRound then next { s with loop := .polling }
    else disabled

end NetworkCode.Chat
