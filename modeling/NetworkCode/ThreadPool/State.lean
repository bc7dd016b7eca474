import NetworkCode.Core.Transition
import Mathlib.Logic.Function.Basic

/-!
# The thread pool: its state and its critical sections

The mutex of `condition_t` is held from `condition_lock` to `condition_unlock`
or to the wait that releases it, so every critical section of `thread_routine`,
`threadPool_addtask` and `threadPool_destroy` is one step, and every state
between two steps is one in which nobody holds the mutex. Running a task,
freeing it, timing out and waking up happen without the mutex and are steps of
their own.

Task nodes live in a heap: `first` and `last` are addresses, `malloc` returns
any unallocated address, also one that was freed before, and an access to an
unallocated address is undefined. The lists `added`, `taken`, `ran` and `freed`
record history and are read by no step.
-/

namespace NetworkCode.ThreadPool

open StepResult

/-- Addresses of task nodes. -/
abbrev Addr := Nat

/-- `task_t`: a routine, its argument, and the next queued node. -/
structure Task (F A : Type*) where
  run : F
  arg : A
  next : Option Addr
  deriving DecidableEq, Repr

/-- Where a thread that executes `thread_routine` stands between two steps. -/
inductive Worker where
  /-- Before the `condition_lock` at the head of its loop: newly started, or around again. -/
  | start
  /-- Asleep in `condition_timewait`. -/
  | waiting
  /-- `condition_timewait` was woken and has to take the mutex again. -/
  | woken
  /-- `condition_timewait` timed out and has to take the mutex again. -/
  | timedOut
  /-- Holds a dequeued node and is in `task->run`, with its `timeout` flag. -/
  | running (task : Addr) (timeout : Bool)
  /-- `task->run` returned, before `free(task)`. -/
  | ran (task : Addr) (timeout : Bool)
  /-- Before the `condition_lock` behind the task. -/
  | relock (timeout : Bool)
  /-- Behind its decrement of `count`. -/
  | exited
  deriving DecidableEq, Repr

/-- Where a caller of `threadPool_destroy` stands between two steps. -/
inductive Destroyer where
  /-- Before its unlocked test of `quit`. -/
  | called
  /-- Before its `condition_lock`. -/
  | locking
  /-- Asleep in `condition_wait`. -/
  | waiting
  /-- `condition_wait` was woken and has to take the mutex again. -/
  | woken
  /-- Behind its `condition_unlock`, before `condition_destroy`. -/
  | leaving
  | returned
  deriving DecidableEq, Repr

/-- `threadpool_t` with the heap, the threads and the history. -/
structure State (F A : Type*) where
  first : Option Addr
  last : Option Addr
  count : Int
  maxThread : Int
  quit : Bool
  idle : Int
  heap : Addr → Option (Task F A)
  workers : List Worker
  destroyers : List Destroyer
  /-- How often `condition_destroy` was executed. -/
  destroyed : Nat
  /-- The tasks linked by `threadPool_addtask`, in order. -/
  added : List (F × A)
  /-- The dequeued tasks with the worker that dequeued each, in order. -/
  taken : List (Nat × F × A)
  /-- The tasks whose routine returned, with the worker that ran each, in order. -/
  ran : List (Nat × F × A)
  /-- The tasks whose node was freed, with the worker that freed each, in order. -/
  freed : List (Nat × F × A)

/-- A thread that can sleep on the condition variable. -/
inductive Waiter where
  | worker (i : Nat)
  | destroyer (j : Nat)
  deriving DecidableEq, Repr

variable {F A : Type*}

/-- `threadPool_init`. -/
def threadPoolInit (threads : Int) : State F A where
  first := none
  last := none
  count := 0
  maxThread := threads
  quit := false
  idle := 0
  heap := fun _ => none
  workers := []
  destroyers := []
  destroyed := 0
  added := []
  taken := []
  ran := []
  freed := []

/-! ## The condition variable -/

/-- The thread is asleep on the condition variable. -/
def State.asleep (s : State F A) : Waiter → Bool
  | .worker i => s.workers[i]? == some .waiting
  | .destroyer j => s.destroyers[j]? == some .waiting

/-- Some thread is asleep on the condition variable. -/
def State.anyAsleep (s : State F A) : Bool :=
  s.workers.contains .waiting || s.destroyers.contains .waiting

/-- The thread leaves its sleep and will take the mutex again. -/
def State.wake (s : State F A) : Waiter → State F A
  | .worker i => { s with workers := s.workers.set i .woken }
  | .destroyer j => { s with destroyers := s.destroyers.set j .woken }

/-- `condition_signal`: wakes one sleeping thread, chosen by the implementation,
and has no effect when nobody sleeps. -/
def conditionSignal (s : State F A) (choice : Option Waiter) : StepResult (State F A) :=
  match choice with
  | some w => if s.asleep w then next (s.wake w) else disabled
  | none => if s.anyAsleep then disabled else next s

/-- `condition_broadcast`: wakes every sleeping thread. -/
def conditionBroadcast (s : State F A) : State F A :=
  { s with
    workers := s.workers.map fun w => if w = .waiting then .woken else w
    destroyers := s.destroyers.map fun d => if d = .waiting then .woken else d }

/-! ## `thread_routine` -/

/-- Lines 44 to 62 of `thread_routine`, with the mutex held: exit because of
`quit`, exit because of `timeout`, or go around the loop. -/
def afterTask (s : State F A) (i : Nat) (timeout : Bool) (choice : Option Waiter) :
    StepResult (State F A) :=
  if s.quit = true ∧ s.first = none then
    let s := { s with count := s.count - 1, workers := s.workers.set i .exited }
    if s.count = 0 then conditionSignal s choice else next s
  else if timeout = true then
    next { s with count := s.count - 1, workers := s.workers.set i .exited }
  else
    next { s with workers := s.workers.set i .start }

/-- Lines 33 to 42: leave the waiting loop and dequeue a task, if there is one. -/
def afterWait (s : State F A) (i : Nat) (timeout : Bool) (choice : Option Waiter) :
    StepResult (State F A) :=
  let s := { s with idle := s.idle - 1 }
  match s.first with
  | none => afterTask s i timeout choice
  | some a =>
    (ofAccess (s.heap a)).bind fun task =>
      next { s with
        first := task.next
        workers := s.workers.set i (.running a timeout)
        taken := s.taken ++ [(i, task.run, task.arg)] }

/-- Lines 17 to 32 with `timeout` still 0: sleep while there is nothing to do. -/
def waitLoop (s : State F A) (i : Nat) (choice : Option Waiter) : StepResult (State F A) :=
  if s.first = none ∧ s.quit = false then
    next { s with workers := s.workers.set i .waiting }
  else
    afterWait s i false choice

/-! ## `threadPool_addtask` -/

/-- Lines 91 to 98: link the new node behind `last`, or make it the first one. -/
def linkTask (s : State F A) (node : Addr) (run : F) (arg : A) : StepResult (State F A) :=
  let heap := Function.update s.heap node (some ⟨run, arg, none⟩)
  match s.first with
  | none =>
    next { s with
      heap := heap, first := some node, last := some node, added := s.added ++ [(run, arg)] }
  | some _ =>
    (ofAccess s.last).bind fun l =>
      (ofAccess (heap l)).bind fun task =>
        next { s with
          heap := Function.update heap l (some { task with next := some node })
          last := some node
          added := s.added ++ [(run, arg)] }

/-- Lines 100 to 111: wake an idle worker, or start one. `created` is whether
`pthread_create` started a thread; its result is not looked at. -/
def engageWorker (s : State F A) (created : Bool) (choice : Option Waiter) :
    StepResult (State F A) :=
  if s.idle > 0 then
    conditionSignal s choice
  else if s.count < s.maxThread then
    next { s with
      count := s.count + 1
      workers := if created then s.workers ++ [.start] else s.workers }
  else
    next s

/-- `threadPool_addtask`; `node` is what `malloc` returns. -/
def threadPoolAddtask (s : State F A) (run : F) (arg : A) (node : Addr) (created : Bool)
    (choice : Option Waiter) : StepResult (State F A) :=
  if (s.heap node).isSome then disabled
  else (linkTask s node run arg).bind fun s => engageWorker s created choice

/-! ## `threadPool_destroy` -/

/-- The loop of lines 133 to 136 with the mutex held: sleep while `count` is not 0. -/
def awaitWorkers (s : State F A) (j : Nat) : State F A :=
  if s.count ≠ 0 then { s with destroyers := s.destroyers.set j .waiting }
  else { s with destroyers := s.destroyers.set j .leaving }

/-- Lines 123 to 137. -/
def announceQuit (s : State F A) (j : Nat) : State F A :=
  let s := { s with quit := true }
  if s.count > 0 then
    awaitWorkers (if s.idle > 0 then conditionBroadcast s else s) j
  else
    { s with destroyers := s.destroyers.set j .leaving }

/-! ## The transition system -/

/-- One step of one thread, with the choices of its environment. -/
inductive Action (F A : Type*) where
  /-- A call of `threadPool_addtask`, from its `malloc` to its return. -/
  | addtask (run : F) (arg : A) (node : Addr) (created : Bool) (choice : Option Waiter)
  /-- Worker `i` enters the critical section at the head of its loop. -/
  | enter (i : Nat) (choice : Option Waiter)
  /-- The timed wait of worker `i` times out. -/
  | timeout (i : Nat)
  /-- A sleeping thread wakes up without a signal. -/
  | spurious (w : Waiter)
  /-- Worker `i` takes the mutex again behind its wait. -/
  | resume (i : Nat) (choice : Option Waiter)
  /-- `task->run(task->arg)` of worker `i` returns. -/
  | runTask (i : Nat)
  /-- `free(task)` of worker `i`. -/
  | freeTask (i : Nat)
  /-- Worker `i` takes the mutex again behind its task. -/
  | recheck (i : Nat) (choice : Option Waiter)
  /-- Another thread calls `threadPool_destroy`. -/
  | callDestroy
  /-- Destroyer `j` tests `quit` without the mutex. -/
  | testQuit (j : Nat)
  /-- Destroyer `j` enters its critical section. -/
  | lockDestroy (j : Nat)
  /-- Destroyer `j` takes the mutex again behind its wait. -/
  | resumeDestroy (j : Nat)
  /-- Destroyer `j` executes `condition_destroy` and returns. -/
  | finishDestroy (j : Nat)
  deriving DecidableEq, Repr

/-- What one action does; it is disabled when its thread is elsewhere. -/
def step (s : State F A) : Action F A → StepResult (State F A)
  | .addtask run arg node created choice => threadPoolAddtask s run arg node created choice
  | .enter i choice =>
    match s.workers[i]? with
    | some .start => waitLoop { s with idle := s.idle + 1 } i choice
    | _ => disabled
  | .timeout i =>
    match s.workers[i]? with
    | some .waiting => next { s with workers := s.workers.set i .timedOut }
    | _ => disabled
  | .spurious w => if s.asleep w then next (s.wake w) else disabled
  | .resume i choice =>
    match s.workers[i]? with
    | some .woken => waitLoop s i choice
    | some .timedOut => afterWait s i true choice
    | _ => disabled
  | .runTask i =>
    match s.workers[i]? with
    | some (.running a timeout) =>
      (ofAccess (s.heap a)).bind fun task =>
        next { s with
          workers := s.workers.set i (.ran a timeout)
          ran := s.ran ++ [(i, task.run, task.arg)] }
    | _ => disabled
  | .freeTask i =>
    match s.workers[i]? with
    | some (.ran a timeout) =>
      (ofAccess (s.heap a)).bind fun task =>
        next { s with
          workers := s.workers.set i (.relock timeout)
          heap := Function.update s.heap a none
          freed := s.freed ++ [(i, task.run, task.arg)] }
    | _ => disabled
  | .recheck i choice =>
    match s.workers[i]? with
    | some (.relock timeout) => afterTask s i timeout choice
    | _ => disabled
  | .callDestroy => next { s with destroyers := s.destroyers ++ [.called] }
  | .testQuit j =>
    match s.destroyers[j]? with
    | some .called =>
      if s.quit then next { s with destroyers := s.destroyers.set j .returned }
      else next { s with destroyers := s.destroyers.set j .locking }
    | _ => disabled
  | .lockDestroy j =>
    match s.destroyers[j]? with
    | some .locking => next (announceQuit s j)
    | _ => disabled
  | .resumeDestroy j =>
    match s.destroyers[j]? with
    | some .woken => next (awaitWorkers s j)
    | _ => disabled
  | .finishDestroy j =>
    match s.destroyers[j]? with
    | some .leaving =>
      next { s with
        destroyers := s.destroyers.set j .returned
        destroyed := s.destroyed + 1 }
    | _ => disabled

/-- The states of a pool initialised with `threads`, on the runs allowed by `ok`. -/
def Reachable (ok : State F A → Action F A → Prop) (threads : Int) (s : State F A) : Prop :=
  Reaches step ok (threadPoolInit threads) s

/-- Every `pthread_create` of the run succeeds. -/
def CreateSucceeds : Action F A → Prop
  | .addtask _ _ _ created _ => created = true
  | _ => True

instance (a : Action F A) : Decidable (CreateSucceeds a) :=
  match a with
  | .addtask _ _ _ created _ => inferInstanceAs (Decidable (created = true))
  | .enter .. | .timeout .. | .spurious .. | .resume .. | .runTask .. | .freeTask .. | .recheck ..
  | .callDestroy | .testQuit .. | .lockDestroy .. | .resumeDestroy .. | .finishDestroy .. =>
    inferInstanceAs (Decidable True)

end NetworkCode.ThreadPool
