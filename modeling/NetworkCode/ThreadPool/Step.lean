import NetworkCode.Core.Lists
import NetworkCode.ThreadPool.State

/-!
# What one step of the thread pool can do

Each inversion lemma states every outcome of one critical section, guards
included, so that an invariant is proved by a case analysis on outcomes and
never unfolds the step function. `Section` covers the three critical sections
of `thread_routine` at once: they differ only in where the worker came from.
-/

namespace NetworkCode.ThreadPool

open StepResult

variable {F A : Type*}

/-- The worker is inside the waiting loop, where `idle` counts it. -/
def Worker.inWait : Worker → Bool
  | .waiting | .woken | .timedOut => true
  | _ => false

/-- The worker has not executed its decrement of `count`. -/
def Worker.alive : Worker → Bool
  | .exited => false
  | _ => true

/-- The worker is about to take the mutex. -/
def Worker.atLock : Worker → Bool
  | .start | .woken | .timedOut | .relock _ => true
  | _ => false

/-- A worker that is about to take the mutex is alive. -/
theorem Worker.alive_of_atLock {w : Worker} (h : w.atLock = true) : w.alive = true := by
  cases w <;> simp_all [Worker.atLock, Worker.alive]

/-- What the worker contributes to `idle`. -/
def Worker.waits (w : Worker) : Int := indicator Worker.inWait w

/-! ## The condition variable -/

/-- The outcomes of `condition_signal`. -/
inductive Signalled (s : State F A) : State F A → Prop
  | woke {w : Waiter} (h : s.asleep w = true) : Signalled s (s.wake w)
  | nobody (h : s.anyAsleep = false) : Signalled s s

section

variable {s t : State F A}

/-- Every successful `condition_signal` has one of the two outcomes. -/
theorem Signalled.of_conditionSignal {choice : Option Waiter}
    (h : conditionSignal s choice = next t) : Signalled s t := by
  cases choice with
  | none =>
    simp only [conditionSignal] at h
    split at h
    · cases h
    · rename_i hs
      cases h
      exact .nobody (by simpa using hs)
  | some w =>
    simp only [conditionSignal] at h
    split at h
    · rename_i hs
      cases h
      exact .woke hs
    · cases h

end

/-- Signalling is never undefined. -/
theorem conditionSignal_ne_undefined (s : State F A) (choice : Option Waiter) :
    conditionSignal s choice ≠ undefined := by
  cases choice <;> simp only [conditionSignal] <;> split <;> simp

/-! ## `thread_routine` -/

/-- The outcomes of a critical section of worker `i` that stood at `w`. -/
inductive Section (s : State F A) (i : Nat) (w : Worker) : State F A → Prop
  /-- Nothing to do: the worker goes to sleep. -/
  | sleep {idle' : Int} (hpc : w = .start ∨ w = .woken) (hidle : idle' = s.idle + 1 - w.waits)
      (hfirst : s.first = none) (hquit : s.quit = false) :
      Section s i w { s with idle := idle', workers := s.workers.set i .waiting }
  /-- The worker dequeues the first task. -/
  | take {idle' : Int} {timeout : Bool} {a : Addr} {task : Task F A}
      (hpc : w = .start ∨ w = .woken ∨ w = .timedOut) (hidle : idle' = s.idle - w.waits)
      (hfirst : s.first = some a) (htask : s.heap a = some task) :
      Section s i w { s with
        idle := idle'
        first := task.next
        workers := s.workers.set i (.running a timeout)
        taken := s.taken ++ [(i, task.run, task.arg)] }
  /-- The pool is quitting and the queue is empty: the worker exits. -/
  | quit {idle' : Int} {u t : State F A} (hpc : w.atLock = true)
      (hidle : idle' = s.idle - w.waits) (hfirst : s.first = none) (hquit : s.quit = true)
      (hu : u = { s with
        idle := idle', count := s.count - 1, workers := s.workers.set i .exited })
      (ht : u.count ≠ 0 ∧ t = u ∨ u.count = 0 ∧ Signalled u t) : Section s i w t
  /-- The worker exits because its wait had timed out. -/
  | giveUp {idle' : Int} (hpc : w = .timedOut ∧ s.first = none ∨ w = .relock true)
      (hidle : idle' = s.idle - w.waits) (hstay : ¬(s.quit = true ∧ s.first = none)) :
      Section s i w { s with
        idle := idle', count := s.count - 1, workers := s.workers.set i .exited }
  /-- The worker goes around its loop. -/
  | again (hpc : w = .relock false) (hstay : ¬(s.quit = true ∧ s.first = none)) :
      Section s i w { s with workers := s.workers.set i .start }

section

variable {s t : State F A}

/-- The decisions behind the task are outcomes of the section that starts there. -/
theorem Section.of_afterTask {i : Nat} {timeout : Bool} {choice : Option Waiter}
    (h : afterTask s i timeout choice = next t) : Section s i (.relock timeout) t := by
  have hzero : ∀ b, (Worker.relock b).waits = 0 := fun _ => rfl
  by_cases hq : s.quit = true ∧ s.first = none
  · rw [afterTask, if_pos hq] at h
    refine .quit rfl (by rw [hzero, Int.sub_zero]) hq.2 hq.1 rfl ?_
    by_cases hc : s.count - 1 = 0
    · simp only [hc, if_true] at h
      exact Or.inr ⟨hc, .of_conditionSignal (by simpa only [hc] using h)⟩
    · simp only [hc, if_false, next.injEq] at h
      exact Or.inl ⟨hc, h.symm⟩
  · rw [afterTask, if_neg hq] at h
    cases timeout with
    | true =>
      obtain rfl := next.inj h
      exact .giveUp (Or.inr rfl) (by rw [hzero, Int.sub_zero]) hq
    | false =>
      obtain rfl := next.inj h
      exact .again rfl hq

/-- Leaving the waiting loop with `idle'` threads left in it. `w` is where the
worker stood and `pre` the state with the worker still counted. -/
theorem Section.of_afterWait {i : Nat} {w : Worker} (pre : Int) {timeout : Bool}
    {choice : Option Waiter} (hpc : w = .start ∨ w = .woken ∨ w = .timedOut)
    (hpre : pre = s.idle + 1 - w.waits) (htimeout : timeout = true → w = .timedOut)
    (hquit : timeout = false → s.first = none → s.quit = true)
    (h : afterWait { s with idle := pre } i timeout choice = next t) : Section s i w t := by
  have hidle : pre - 1 = s.idle - w.waits := by omega
  unfold afterWait at h
  cases hf : s.first with
  | some a =>
    simp only [hf] at h
    obtain ⟨task, htask, h⟩ := bind_eq_next.mp h
    cases h
    exact .take hpc hidle hf (ofAccess_eq_next.mp htask)
  | none =>
    simp only [hf] at h
    have hs := Section.of_afterTask h
    cases hs with
    | sleep hpc' => simp at hpc'
    | take hpc' => simp at hpc'
    | @quit idle' u _ _ hidle' _ hq hu ht =>
      have hi : idle' = s.idle - w.waits := by
        simpa [Worker.waits, indicator, Worker.inWait, hidle] using hidle'
      refine .quit ?_ hi hf hq ?_ ht
      · rcases hpc with rfl | rfl | rfl <;> rfl
      · simpa [hf] using hu
    | @giveUp idle' hpc' hidle' hstay =>
      have hi : idle' = s.idle - w.waits := by
        simpa [Worker.waits, indicator, Worker.inWait, hidle] using hidle'
      have hw : w = .timedOut := htimeout (by simpa using hpc')
      have hout : Section s i w { s with
          idle := idle', count := s.count - 1, workers := s.workers.set i .exited } :=
        .giveUp (Or.inl ⟨hw, hf⟩) hi (by simpa [hf] using hstay)
      simpa [hf] using hout
    | again hpc' hstay =>
      have hq := hquit (by simpa using hpc') hf
      exact absurd ⟨hq, rfl⟩ hstay

/-- The waiting loop entered with `timeout` still 0. -/
theorem Section.of_waitLoop {i : Nat} {w : Worker} (pre : Int) {choice : Option Waiter}
    (hpc : w = .start ∨ w = .woken) (hpre : pre = s.idle + 1 - w.waits)
    (h : waitLoop { s with idle := pre } i choice = next t) : Section s i w t := by
  unfold waitLoop at h
  split at h
  · rename_i hw
    cases h
    exact .sleep hpc hpre hw.1 hw.2
  · rename_i hw
    refine .of_afterWait pre ?_ hpre (by simp) ?_ h
    · rcases hpc with rfl | rfl <;> simp
    · intro _ hf
      by_contra hq
      exact hw ⟨hf, by simpa using hq⟩

end

/-! ## `threadPool_addtask` -/

/-- The outcomes of linking a new node. -/
inductive Linked (s : State F A) (node : Addr) (run : F) (arg : A) : State F A → Prop
  | empty (hfirst : s.first = none) :
      Linked s node run arg { s with
        heap := Function.update s.heap node (some ⟨run, arg, none⟩)
        first := some node
        last := some node
        added := s.added ++ [(run, arg)] }
  | behind {a l : Addr} {task : Task F A} (hfirst : s.first = some a) (hlast : s.last = some l)
      (htask : Function.update s.heap node (some ⟨run, arg, none⟩) l = some task) :
      Linked s node run arg { s with
        heap := Function.update (Function.update s.heap node (some ⟨run, arg, none⟩)) l
          (some { task with next := some node })
        last := some node
        added := s.added ++ [(run, arg)] }

theorem Linked.of_linkTask {s t : State F A} {node : Addr} {run : F} {arg : A}
    (h : linkTask s node run arg = next t) : Linked s node run arg t := by
  unfold linkTask at h
  cases hf : s.first with
  | none =>
    simp only [hf] at h
    cases h
    have hempty : Linked s node run arg _ := .empty hf
    simpa [hf] using hempty
  | some a =>
    simp only [hf] at h
    obtain ⟨l, hl, h⟩ := bind_eq_next.mp h
    obtain ⟨task, htask, h⟩ := bind_eq_next.mp h
    cases h
    simpa [hf] using Linked.behind hf (ofAccess_eq_next.mp hl) (ofAccess_eq_next.mp htask)

/-- The outcomes of waking or starting a worker. -/
inductive Engaged (s : State F A) (created : Bool) : State F A → Prop
  | signal {t : State F A} (hidle : 0 < s.idle) (hs : Signalled s t) : Engaged s created t
  | create (hidle : s.idle ≤ 0) (hcount : s.count < s.maxThread) :
      Engaged s created { s with
        count := s.count + 1
        workers := if created then s.workers ++ [.start] else s.workers }
  | full (hidle : s.idle ≤ 0) (hcount : s.maxThread ≤ s.count) : Engaged s created s

theorem Engaged.of_engageWorker {s t : State F A} {created : Bool} {choice : Option Waiter}
    (h : engageWorker s created choice = next t) : Engaged s created t := by
  unfold engageWorker at h
  split at h
  · rename_i hi
    exact .signal hi (.of_conditionSignal h)
  · rename_i hi
    split at h
    · rename_i hc
      cases h
      exact .create (by omega) hc
    · rename_i hc
      cases h
      exact .full (by omega) (by omega)

/-! ## All actions -/

/-- Every outcome of every action. -/
inductive Effect (s : State F A) : Action F A → State F A → Prop
  | addtask {run : F} {arg : A} {node : Addr} {created : Bool} {choice : Option Waiter}
      {u t : State F A} (hfree : s.heap node = none) (hlink : Linked s node run arg u)
      (hengage : Engaged u created t) : Effect s (.addtask run arg node created choice) t
  | enter {i : Nat} {choice : Option Waiter} {t : State F A} (hw : s.workers[i]? = some .start)
      (hsec : Section s i .start t) : Effect s (.enter i choice) t
  | resume {i : Nat} {choice : Option Waiter} {w : Worker} {t : State F A}
      (hw : s.workers[i]? = some w) (hpc : w = .woken ∨ w = .timedOut)
      (hsec : Section s i w t) : Effect s (.resume i choice) t
  | recheck {i : Nat} {choice : Option Waiter} {timeout : Bool} {t : State F A}
      (hw : s.workers[i]? = some (.relock timeout)) (hsec : Section s i (.relock timeout) t) :
      Effect s (.recheck i choice) t
  | timeout {i : Nat} (hw : s.workers[i]? = some .waiting) :
      Effect s (.timeout i) { s with workers := s.workers.set i .timedOut }
  | spurious {w : Waiter} (hw : s.asleep w = true) : Effect s (.spurious w) (s.wake w)
  | runTask {i : Nat} {a : Addr} {timeout : Bool} {task : Task F A}
      (hw : s.workers[i]? = some (.running a timeout)) (htask : s.heap a = some task) :
      Effect s (.runTask i) { s with
        workers := s.workers.set i (.ran a timeout)
        ran := s.ran ++ [(i, task.run, task.arg)] }
  | freeTask {i : Nat} {a : Addr} {timeout : Bool} {task : Task F A}
      (hw : s.workers[i]? = some (.ran a timeout)) (htask : s.heap a = some task) :
      Effect s (.freeTask i) { s with
        workers := s.workers.set i (.relock timeout)
        heap := Function.update s.heap a none
        freed := s.freed ++ [(i, task.run, task.arg)] }
  | callDestroy : Effect s .callDestroy { s with destroyers := s.destroyers ++ [.called] }
  | refuse {j : Nat} (hd : s.destroyers[j]? = some .called) (hquit : s.quit = true) :
      Effect s (.testQuit j) { s with destroyers := s.destroyers.set j .returned }
  | proceed {j : Nat} (hd : s.destroyers[j]? = some .called) (hquit : s.quit = false) :
      Effect s (.testQuit j) { s with destroyers := s.destroyers.set j .locking }
  | announce {j : Nat} (hd : s.destroyers[j]? = some .locking) :
      Effect s (.lockDestroy j) (announceQuit s j)
  | await {j : Nat} (hd : s.destroyers[j]? = some .woken) :
      Effect s (.resumeDestroy j) (awaitWorkers s j)
  | finish {j : Nat} (hd : s.destroyers[j]? = some .leaving) :
      Effect s (.finishDestroy j) { s with
        destroyers := s.destroyers.set j .returned
        destroyed := s.destroyed + 1 }

/-- The step function has no other outcomes. -/
theorem Effect.of_step {s t : State F A} {a : Action F A} (h : step s a = next t) :
    Effect s a t := by
  cases a with
  | addtask run arg node created choice =>
    simp only [step, threadPoolAddtask] at h
    split at h
    · cases h
    · rename_i hfree
      obtain ⟨u, hu, h⟩ := bind_eq_next.mp h
      exact .addtask (by simpa using hfree) (.of_linkTask hu) (.of_engageWorker h)
  | enter i choice =>
    simp only [step] at h
    split at h
    · rename_i hw
      exact .enter hw (.of_waitLoop (s.idle + 1) (Or.inl rfl)
        (by simp [Worker.waits, indicator, Worker.inWait]) h)
    · cases h
  | timeout i =>
    simp only [step] at h
    split at h
    · rename_i hw
      cases h
      exact .timeout hw
    · cases h
  | spurious w =>
    simp only [step] at h
    split at h
    · rename_i hw
      cases h
      exact .spurious hw
    · cases h
  | resume i choice =>
    simp only [step] at h
    split at h
    · rename_i hw
      exact .resume hw (Or.inl rfl) (.of_waitLoop s.idle (Or.inr rfl)
        (by simp [Worker.waits, indicator, Worker.inWait]) h)
    · rename_i hw
      exact .resume hw (Or.inr rfl) (.of_afterWait s.idle (Or.inr (Or.inr rfl))
        (by simp [Worker.waits, indicator, Worker.inWait]) (fun _ => rfl) (by simp) h)
    · cases h
  | runTask i =>
    simp only [step] at h
    split at h
    · rename_i hw
      obtain ⟨task, htask, h⟩ := bind_eq_next.mp h
      cases h
      exact .runTask hw (ofAccess_eq_next.mp htask)
    · cases h
  | freeTask i =>
    simp only [step] at h
    split at h
    · rename_i hw
      obtain ⟨task, htask, h⟩ := bind_eq_next.mp h
      cases h
      exact .freeTask hw (ofAccess_eq_next.mp htask)
    · cases h
  | recheck i choice =>
    simp only [step] at h
    split at h
    · rename_i hw
      exact .recheck hw (.of_afterTask h)
    · cases h
  | callDestroy =>
    cases h
    exact .callDestroy
  | testQuit j =>
    simp only [step] at h
    split at h
    · rename_i hd
      split at h
      · rename_i hq
        cases h
        exact .refuse hd hq
      · rename_i hq
        cases h
        exact .proceed hd (by simpa using hq)
    · cases h
  | lockDestroy j =>
    simp only [step] at h
    split at h
    · rename_i hd
      cases h
      exact .announce hd
    · cases h
  | resumeDestroy j =>
    simp only [step] at h
    split at h
    · rename_i hd
      cases h
      exact .await hd
    · cases h
  | finishDestroy j =>
    simp only [step] at h
    split at h
    · rename_i hd
      cases h
      exact .finish hd
    · cases h

end NetworkCode.ThreadPool
