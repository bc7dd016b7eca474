import NetworkCode.Core.Transition

/-!
# The threaded echo server: the accept loop and its threads

`main` accepts a connection, stores its socket, port and address to `arg` and creates a
thread, which gets the address of `arg`. The variable has the same place in every iteration,
so a thread that reads a field finds what was stored to it last. A step is one call or one
access of `main`, or of a thread, to a field of `arg`; what the calls return is part of the
action. The field `ip` always points to the buffer of `inet_ntoa`, so that only the moments at
which it is stored and read are modelled. Output to the terminal is left out.
-/

namespace NetworkCode.PthreadServer

open StepResult

/-- A file descriptor. -/
abbrev Fd := Nat

/-- The structure `log`, without `ip`. -/
structure Log where
  sock : Fd
  port : Nat
  deriving DecidableEq, Repr

/-- Where `main` is, with its variable `sock` and the port of `peer`. -/
inductive Main where
  /-- In `accept`. -/
  | accepting
  | storingSock (sock : Fd) (port : Nat)
  | storingPort (sock : Fd) (port : Nat)
  | storingIp (sock : Fd)
  /-- In `pthread_create`. -/
  | creating (sock : Fd)
  deriving DecidableEq, Repr

/-- Where a thread in `handleClient` is, with what it has read of `arg`. -/
inductive Handler where
  | started
  | hasSock (sock : Fd)
  | hasIp (sock : Fd)
  /-- In its loop. -/
  | echoing (sock : Fd) (port : Nat)
  /-- Behind its loop. -/
  | left (sock : Fd)
  deriving DecidableEq, Repr

/-- The process. -/
structure State where
  listenSock : Fd
  main : Main
  arg : Log
  /-- The threads, in the order of their creation. -/
  handlers : List Handler
  /-- What `accept` has returned. -/
  accepted : List Fd
  /-- The connections that are open. -/
  opened : List Fd
  deriving DecidableEq, Repr

/-- `main` before its loop, with what `arg` holds before the first store. -/
def start (listenSock : Fd) (arg : Log) : State where
  listenSock := listenSock
  main := .accepting
  arg := arg
  handlers := []
  accepted := []
  opened := []

/-- One step of `main` or of the thread `i`, with what the system calls return. -/
inductive Action where
  | acceptFailed
  /-- `accept` returns a descriptor that is not open, for a client at this port. -/
  | accept (fd : Fd) (port : Nat)
  /-- The next field of `arg` is stored. -/
  | store
  | create (succeeded : Bool)
  /-- The next field of `arg` is read. -/
  | load (i : Nat)
  /-- `read` returns `count` bytes, which are written back. -/
  | data (i count : Nat)
  /-- `read` returns 0. -/
  | quit (i : Nat)
  | readFailed (i : Nat)
  deriving DecidableEq, Repr

/-- A step of `main`. The result of `pthread_create` is not looked at. -/
def State.mainStep (s : State) : Main → Action → StepResult State
  | .accepting, .acceptFailed => next s
  | .accepting, .accept fd port =>
    if fd = s.listenSock ∨ fd ∈ s.opened then disabled
    else
      next { s with
        main := .storingSock fd port
        accepted := s.accepted ++ [fd]
        opened := fd :: s.opened }
  | .storingSock sock port, .store =>
    next { s with main := .storingPort sock port, arg := { s.arg with sock := sock } }
  | .storingPort sock port, .store =>
    next { s with main := .storingIp sock, arg := { s.arg with port := port } }
  | .storingIp sock, .store => next { s with main := .creating sock }
  | .creating _, .create true =>
    next { s with main := .accepting, handlers := s.handlers ++ [.started] }
  | .creating _, .create false => next { s with main := .accepting }
  | _, _ => disabled

/-- The thread `i` goes on to `h`. -/
def State.moved (s : State) (i : Nat) (h : Handler) : State :=
  { s with handlers := s.handlers.set i h }

/-- A step of the thread `i`. Its socket stays open when it leaves its loop. -/
def State.handlerStep (s : State) (i : Nat) : Handler → Action → StepResult State
  | .started, .load _ => next (s.moved i (.hasSock s.arg.sock))
  | .hasSock sock, .load _ => next (s.moved i (.hasIp sock))
  | .hasIp sock, .load _ => next (s.moved i (.echoing sock s.arg.port))
  | .echoing _ _, .data _ count => if 0 < count ∧ count ≤ 1023 then next s else disabled
  | .echoing sock _, .quit _ => next (s.moved i (.left sock))
  | .echoing sock _, .readFailed _ => next (s.moved i (.left sock))
  | _, _ => disabled

/-- The thread an action belongs to; the others belong to `main`. -/
def Action.thread : Action → Option Nat
  | .load i => some i
  | .data i _ => some i
  | .quit i => some i
  | .readFailed i => some i
  | _ => none

/-- What one action does. -/
def step (s : State) (a : Action) : StepResult State :=
  match a.thread with
  | none => s.mainStep s.main a
  | some i =>
    match s.handlers[i]? with
    | none => disabled
    | some h => s.handlerStep i h a

end NetworkCode.PthreadServer
