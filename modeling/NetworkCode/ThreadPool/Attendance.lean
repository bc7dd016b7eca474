import NetworkCode.ThreadPool.Accounting

/-!
# Queued tasks and the workers that will take them

A queued task is attended when some worker is neither asleep nor behind its
decision to exit. `threadPool_addtask` always leaves its task attended: either
`idle` counts a thread in the waiting loop, which is woken or awake already, or
a thread is started, or all `maxThread` workers are busy. A worker that goes to
sleep or quits sees an empty queue. Only the exit on the `timeout` flag behind a
task does not look at the queue: the flag is set before the task runs and is
tested after it, whatever was added in between. Runs in which that exit is taken
on an empty queue only never strand a task.
-/

namespace NetworkCode.ThreadPool

open StepResult

variable {F A : Type*} {s t : State F A}

/-- The worker will look at the queue again: it is executing a task, at the head
of its loop, or on its way out of its wait. -/
def Worker.awake : Worker → Bool
  | .waiting | .exited => false
  | _ => true

/-- Queued tasks have a worker that is not asleep and not behind its decision to exit. -/
def Attended (s : State F A) : Prop := s.first ≠ none → ∃ w ∈ s.workers, w.awake = true

/-- When a worker that timed out before its last task comes back from it, the queue is empty. -/
def GivesUpIdle (s : State F A) : Action F A → Prop
  | .recheck i _ => s.workers[i]? = some (.relock true) → s.first = none
  | _ => True

instance (s : State F A) (a : Action F A) : Decidable (GivesUpIdle s a) :=
  match a with
  | .recheck i _ =>
    inferInstanceAs (Decidable (s.workers[i]? = some (Worker.relock true) → s.first = none))
  | .addtask .. | .enter .. | .timeout .. | .spurious .. | .resume .. | .runTask .. | .freeTask ..
  | .callDestroy | .testQuit .. | .lockDestroy .. | .resumeDestroy .. | .finishDestroy .. =>
    inferInstanceAs (Decidable True)

/-- The action belongs to a caller of `threadPool_destroy`. -/
def Action.byDestroyer : Action F A → Bool
  | .callDestroy | .testQuit _ | .lockDestroy _ | .resumeDestroy _ | .finishDestroy _ => true
  | _ => false

/-- An awake worker is counted by `count` but not asleep. -/
theorem Worker.awake_iff {w : Worker} : w.awake = true ↔ w.alive = true ∧ w ≠ .waiting := by
  cases w <;> simp [Worker.awake, Worker.alive]

/-- Nothing is stranded in an empty queue. -/
theorem attended_of_empty (h : s.first = none) : Attended s := fun hne => absurd h hne

/-- A state in which some worker is awake is attended. -/
theorem attended_of_awake {w : Worker} (hw : w ∈ s.workers) (hawake : w.awake = true) :
    Attended s := fun _ => ⟨w, hw, hawake⟩

/-- Replacing a worker by an awake one leaves the queue attended. -/
theorem attended_of_setWorker {i : Nat} {w : Worker} (w' : Worker) (hw : s.workers[i]? = some w)
    (hworkers : t.workers = s.workers.set i w') (hawake : w'.awake = true) : Attended t :=
  attended_of_awake (hworkers ▸ mem_set_of_getElem? hw w') hawake

/-- A wake-up leaves the queue attended. -/
theorem Attended.wake (h : Attended s) {w : Waiter} (hw : s.asleep w = true) :
    Attended (s.wake w) := by
  cases w with
  | worker i =>
    have hi : s.workers[i]? = some .waiting := by simpa [State.asleep] using hw
    exact attended_of_setWorker .woken hi rfl rfl
  | destroyer j => exact h

/-- The critical sections of `thread_routine` strand nothing, except for the
exit of a worker whose timeout predates its last task. -/
theorem Attended.section {i : Nat} {w : Worker} (hw : s.workers[i]? = some w)
    (hidle : w = .relock true → s.first = none) (hsec : Section s i w t) : Attended t := by
  cases hsec with
  | sleep _ _ hfirst _ => exact attended_of_empty hfirst
  | take _ _ _ _ => exact attended_of_setWorker (.running _ _) hw rfl rfl
  | @quit idle' u _ _ _ hfirst _ hu ht =>
    have hempty : u.first = none := by rw [hu]; exact hfirst
    rcases ht with ⟨_, rfl⟩ | ⟨_, hsig⟩
    · exact attended_of_empty hempty
    · have hkept : t.first = none :=
        hsig.keeps (P := fun u => u.first = none) hempty fun w _ => by simpa using hempty
      exact attended_of_empty hkept
  | giveUp hpc _ _ =>
    rcases hpc with ⟨_, hfirst⟩ | hrelock
    · exact attended_of_empty hfirst
    · exact attended_of_empty (hidle hrelock)
  | again _ _ => exact attended_of_setWorker .start hw rfl rfl

/-- While `idle` is positive, a signal finds or leaves an awake worker. -/
theorem Accounted.attended_of_signal {threads : Int} (h : Accounted threads s)
    (hpos : 0 < s.idle) (hs : Signalled s t) : Attended t := by
  have hcount : 0 < s.workers.countP Worker.inWait := by
    have := h.idle
    omega
  obtain ⟨w, hmem, hin⟩ := List.countP_pos_iff.mp hcount
  have hawake : Worker.waiting ∉ s.workers → w.awake = true := by
    intro hquiet
    cases w <;> simp_all [Worker.inWait, Worker.awake]
  cases hs with
  | nobody hnone =>
    have hquiet : Worker.waiting ∉ s.workers := by
      simp only [State.anyAsleep, Bool.or_eq_false_iff] at hnone
      simpa using hnone.1
    exact attended_of_awake hmem (hawake hquiet)
  | @woke waiter hw =>
    cases waiter with
    | worker i =>
      have hi : s.workers[i]? = some .waiting := by simpa [State.asleep] using hw
      exact attended_of_setWorker .woken hi rfl rfl
    | destroyer j =>
      -- The signal meant for a worker went to a caller of `threadPool_destroy`: then
      -- `quit` is set, and the workers that `idle` counts are awake already.
      have hj : s.destroyers[j]? = some .waiting := by simpa [State.asleep] using hw
      have hq : s.quit = true :=
        h.quit.mpr (List.countP_pos_iff.mpr ⟨_, List.mem_of_getElem? hj, rfl⟩)
      exact attended_of_awake hmem (hawake (h.noSleeper hq))

/-- `threadPool_addtask` leaves its task attended, if the pool may have workers at all. -/
theorem Accounted.attended_of_engaged {threads : Int} (h : Accounted threads s)
    (hthreads : 1 ≤ threads) (heng : Engaged s true t) : Attended t := by
  cases heng with
  | signal hpos hs => exact h.attended_of_signal hpos hs
  | create _ _ => exact attended_of_awake (w := .start) (by simp) rfl
  | full hidle hcount =>
    have hmax := h.maxThread
    have hlive : 0 < s.workers.countP Worker.alive := by
      have := h.count
      omega
    obtain ⟨w, hmem, halive⟩ := List.countP_pos_iff.mp hlive
    have hnot : Worker.waiting ∉ s.workers := by
      intro hw
      have := h.idle_pos hw
      omega
    have hne : w ≠ .waiting := fun he => hnot (he ▸ hmem)
    exact attended_of_awake hmem (Worker.awake_iff.mpr ⟨halive, hne⟩)

/-- Going back to sleep or leaving does not touch the workers. -/
theorem Attended.awaitWorkers (h : Attended s) (j : Nat) : Attended (awaitWorkers s j) := by
  unfold ThreadPool.awaitWorkers
  split <;> exact h

/-- Broadcasting leaves every awake worker awake. -/
theorem Attended.conditionBroadcast (h : Attended s) : Attended (conditionBroadcast s) := by
  intro hne
  obtain ⟨w, hmem, hawake⟩ := h hne
  refine ⟨w, List.mem_map.mpr ⟨w, hmem, ?_⟩, hawake⟩
  exact if_neg (Worker.awake_iff.mp hawake).2

/-- The critical section of `threadPool_destroy` strands nothing. -/
theorem Attended.announceQuit (h : Attended s) (j : Nat) : Attended (announceQuit s j) := by
  have hquit : Attended { s with quit := true } := h
  unfold ThreadPool.announceQuit
  simp only
  split
  · apply Attended.awaitWorkers
    split
    · exact hquit.conditionBroadcast
    · exact hquit
  · exact h

/-- Every step that satisfies the guard leaves the queue attended. -/
theorem Attended.step {threads : Int} (h : Attended s) (hacc : Accounted threads s)
    (hthreads : 1 ≤ threads) {a : Action F A} (hcreate : CreateSucceeds a)
    (hidle : GivesUpIdle s a) (hs : step s a = next t) : Attended t := by
  cases Effect.of_step hs with
  | addtask _ hlink hengage =>
    obtain rfl : _ = true := hcreate
    exact (hacc.linked hlink).attended_of_engaged hthreads hengage
  | enter hw hsec => exact Attended.section hw (by simp) hsec
  | resume hw hpc hsec =>
    refine Attended.section hw ?_ hsec
    rcases hpc with rfl | rfl <;> simp
  | recheck hw hsec =>
    refine Attended.section hw ?_ hsec
    rintro hrelock
    exact hidle (hrelock ▸ hw)
  | timeout hw => exact attended_of_setWorker .timedOut hw rfl rfl
  | spurious hw => exact h.wake hw
  | runTask hw _ => exact attended_of_setWorker (.ran _ _) hw rfl rfl
  | freeTask hw _ => exact attended_of_setWorker (.relock _) hw rfl rfl
  | callDestroy => exact h
  | refuse _ _ => exact h
  | proceed _ _ => exact h
  | announce _ => exact h.announceQuit _
  | await _ => exact h.awaitWorkers _
  | finish _ => exact h

/-- The steps of the runs considered here: threads are created, and no worker
leaves on a stale timeout while tasks are queued. -/
def Prompt (s : State F A) (a : Action F A) : Prop := CreateSucceeds a ∧ GivesUpIdle s a

instance (s : State F A) (a : Action F A) : Decidable (Prompt s a) :=
  inferInstanceAs (Decidable (_ ∧ _))

/-- Queued tasks are attended in every state of such a run. -/
theorem Reachable.attended {threads : Int} (hthreads : 1 ≤ threads)
    {ok : State F A → Action F A → Prop} (hok : ∀ s a, ok s a → Prompt s a)
    (h : Reachable ok threads s) : Attended s :=
  Reaches.invariant_with h (fun _ hr => Reachable.accounted hr fun s a ha => (hok s a ha).1)
    (attended_of_empty rfl) fun _ _ _ hacc hinv ha hs =>
      hinv.step hacc hthreads (hok _ _ ha).1 (hok _ _ ha).2 hs

/-- No task is stranded on a run in which every worker that leaves on its
timeout leaves an empty queue behind, whatever else is interleaved. -/
theorem no_stranded_task {threads : Int} (hthreads : 1 ≤ threads)
    (h : Reachable Prompt threads s) : Attended s :=
  h.attended hthreads fun _ _ hp => hp

/-- A busy pool of one worker: its second task is queued while the first one runs. -/
def busyRun : List (Action Unit Nat) :=
  [.addtask () 1 0 true none, .enter 0 none, .addtask () 2 1 true none]

/-- On the busy run the queued task is attended by the worker that runs the first one. -/
theorem no_stranded_task_busyRun :
    ∃ t, runGuarded step Prompt (threadPoolInit 1) busyRun = next t ∧ t.first = some 1 ∧
      Attended t := by
  obtain ⟨t, ht, hfirst⟩ :
      ∃ t, runGuarded step Prompt (threadPoolInit 1) busyRun = next t ∧ t.first = some 1 :=
    ⟨_, rfl, rfl⟩
  exact ⟨t, ht, hfirst, no_stranded_task (by decide) (Reaches.of_runGuarded step Prompt ht)⟩

/-- One worker times out, finds a task when it gets the mutex back, and leaves
behind that task although another one was queued meanwhile. -/
def staleTimeoutRun : List (Action Unit Nat) :=
  [.addtask () 1 0 true none, .enter 0 none, .runTask 0, .freeTask 0, .recheck 0 none,
    .enter 0 none, .timeout 0, .addtask () 2 0 true none, .resume 0 none,
    .addtask () 3 1 true none, .runTask 0, .freeTask 0, .recheck 0 none]

/-- Without the guard a task is stranded: after `staleTimeoutRun` the third task
is queued and the only worker is gone. -/
theorem stale_timeout_strands_task :
    ¬ ∀ (threads : Int) (s : State Unit Nat), 1 ≤ threads →
      Reachable (fun _ a => CreateSucceeds a ∧ a.byDestroyer = false) threads s →
        Attended s := by
  intro h
  obtain ⟨t, ht, hfirst, hworkers⟩ :
      ∃ t, runGuarded step (fun _ a => CreateSucceeds a ∧ a.byDestroyer = false)
        (threadPoolInit 1) staleTimeoutRun = next t ∧ t.first = some 1 ∧ t.workers = [.exited] :=
    ⟨_, rfl, rfl, rfl⟩
  have hreach := Reaches.of_runGuarded step _ ht
  obtain ⟨w, hw, hawake⟩ := h 1 t (by decide) hreach (by simp [hfirst])
  rw [hworkers, List.mem_singleton] at hw
  subst hw
  exact absurd hawake (by decide)

end NetworkCode.ThreadPool
