import NetworkCode.Core.Potential
import NetworkCode.ThreadPool.Shutdown
import Mathlib.Algebra.Order.BigOperators.Group.List

/-!
# How much the workers have to do

Each worker stands at some distance from its exit, or from its next sleep. A task that is
added pays for the steps that it causes: the worker that is started or woken for it, the
steps of the worker that takes it, and those until that worker sleeps and times out. So the
workers take at most nine steps for each task, besides those behind a wake-up without a
signal, and workers that are left alone come to rest.

At rest all tasks were run, and no node is allocated: in every state the allocated nodes are
those in the queue and those in the hands of workers.
-/

namespace NetworkCode.ThreadPool

open StepResult

variable {F A : Type*} {s t u : State F A}

/-! ## The steps of the workers -/

/-- The action is a step of a worker. -/
def Action.byWorker : Action F A → Bool
  | .enter .. | .timeout _ | .resume .. | .runTask _ | .freeTask _ | .recheck .. => true
  | _ => false

/-- The action is a wake-up without a signal. -/
def Action.unsignalled : Action F A → Bool
  | .spurious _ => true
  | _ => false

/-- The steps from here to the exit, when nothing is queued and every wait times out. They are
fewer when the pool quits. -/
def Worker.effort (quit : Bool) : Worker → Nat
  | .exited => 0
  | .timedOut => 1
  | .waiting => 2
  | .start | .woken => if quit then 2 else 3
  | .relock _ => if quit then 3 else 4
  | .ran .. => if quit then 4 else 5
  | .running .. => if quit then 5 else 6

/-- The steps ahead of all workers. -/
def State.effort (s : State F A) : Nat := (s.workers.map (Worker.effort s.quit)).sum

/-- The steps ahead, less what was paid by the tasks that were added and taken. -/
def State.potential (s : State F A) : Int :=
  s.effort - 3 * s.added.length - 6 * s.taken.length

/-- A pool that quits leaves less to do. -/
theorem Worker.effort_true_le (quit : Bool) (w : Worker) : w.effort true ≤ w.effort quit := by
  cases quit <;> cases w <;> simp [Worker.effort]

/-- A worker that is woken has at most one step more to do. -/
theorem Worker.effort_woken_le (quit : Bool) :
    Worker.woken.effort quit ≤ Worker.waiting.effort quit + 1 := by
  cases quit <;> simp [Worker.effort]

/-- One worker moves on. -/
theorem effort_set {i : Nat} {w w' : Worker} (hw : s.workers[i]? = some w)
    (hworkers : t.workers = s.workers.set i w') (hquit : t.quit = s.quit) :
    t.effort + w.effort s.quit = s.effort + w'.effort s.quit := by
  rw [State.effort, State.effort, hworkers, hquit]
  exact sum_map_set _ hw w'

/-- Waking a thread adds at most one step. -/
theorem effort_wake {w : Waiter} (hw : s.asleep w = true) : (s.wake w).effort ≤ s.effort + 1 := by
  cases w with
  | worker i =>
    have hi : s.workers[i]? = some .waiting := by simpa [State.asleep] using hw
    have hset := effort_set (t := s.wake (.worker i)) hi rfl rfl
    have hle := Worker.effort_woken_le s.quit
    omega
  | destroyer j => exact Nat.le_succ _

/-- Waking a thread of a pool that quits adds no step. -/
theorem effort_wake_of_quit {w : Waiter} (hw : s.asleep w = true) (hquit : s.quit = true) :
    (s.wake w).effort ≤ s.effort := by
  cases w with
  | worker i =>
    have hi : s.workers[i]? = some .waiting := by simpa [State.asleep] using hw
    have hset := effort_set (t := s.wake (.worker i)) hi rfl rfl
    have hsame : Worker.woken.effort s.quit = Worker.waiting.effort s.quit := by
      rw [hquit]
      rfl
    omega
  | destroyer j => exact Nat.le_refl _

/-- A signal adds at most one step. -/
theorem Signalled.effort_le (hs : Signalled s t) : t.effort ≤ s.effort + 1 := by
  cases hs with
  | woke hw => exact effort_wake hw
  | nobody _ => exact Nat.le_succ _

/-- A signal of a pool that quits adds no step. -/
theorem Signalled.effort_le_of_quit (hs : Signalled s t) (hquit : s.quit = true) :
    t.effort ≤ s.effort := by
  cases hs with
  | woke hw => exact effort_wake_of_quit hw hquit
  | nobody _ => exact Nat.le_refl _

/-- What a signal and a wake-up leave alone. -/
theorem Signalled.keeps_log (hs : Signalled s t) :
    t.added = s.added ∧ t.taken = s.taken ∧ t.quit = s.quit := by
  cases hs with
  | woke _ => simp
  | nobody _ => simp

/-- A critical section of a worker brings it closer to its exit, or it takes a task. -/
theorem Section.potential_le {i : Nat} {w : Worker} (hw : s.workers[i]? = some w)
    (hsec : Section s i w t) : 1 + t.potential ≤ s.potential := by
  cases hsec with
  | @sleep idle' hpc _ _ hquit =>
    have hset := effort_set (t := { s with
      idle := idle', workers := s.workers.set i .waiting }) hw rfl rfl
    have hdrop : w.effort s.quit = 3 := by
      rcases hpc with rfl | rfl <;> simp [Worker.effort, hquit]
    have hwait : Worker.waiting.effort s.quit = 2 := rfl
    simp only [State.potential]
    omega
  | @take idle' timeout a task hpc _ _ _ =>
    have hset := effort_set (t := { s with
      idle := idle'
      first := task.next
      workers := s.workers.set i (.running a timeout)
      taken := s.taken ++ [(i, task.run, task.arg)] }) hw rfl rfl
    have hrise : (Worker.running a timeout).effort s.quit ≤ w.effort s.quit + 5 := by
      rcases hpc with rfl | rfl | rfl <;> cases s.quit <;> simp [Worker.effort]
    simp only [State.potential, List.length_append, List.length_singleton]
    push_cast
    omega
  | @quit idle' u _ hpc _ _ hquit hu ht =>
    have hset := effort_set (t := u) hw (by rw [hu]) (by rw [hu])
    have hdrop : 1 ≤ w.effort s.quit := by
      cases w <;> cases s.quit <;> simp [Worker.effort, Worker.atLock] at hpc ⊢
    have hexit : Worker.exited.effort s.quit = 0 := rfl
    have hlog : u.added = s.added ∧ u.taken = s.taken ∧ u.quit = true := by
      rw [hu]
      exact ⟨rfl, rfl, hquit⟩
    obtain ⟨hadded, htaken, hq⟩ := hlog
    rcases ht with ⟨-, rfl⟩ | ⟨-, hsig⟩
    · simp only [State.potential, hadded, htaken]
      omega
    · have hle := hsig.effort_le_of_quit hq
      obtain ⟨hadded', htaken', -⟩ := hsig.keeps_log
      simp only [State.potential, hadded', htaken', hadded, htaken]
      omega
  | @giveUp idle' hpc _ _ =>
    have hset := effort_set (t := { s with
      idle := idle', count := s.count - 1, workers := s.workers.set i .exited }) hw rfl rfl
    have hdrop : 1 ≤ w.effort s.quit := by
      rcases hpc with ⟨rfl, -⟩ | rfl <;> cases s.quit <;> simp [Worker.effort]
    have hexit : Worker.exited.effort s.quit = 0 := rfl
    simp only [State.potential]
    omega
  | again hpc _ =>
    subst hpc
    have hset := effort_set (t := { s with workers := s.workers.set i .start }) hw rfl rfl
    have hdrop : Worker.start.effort s.quit + 1 = (Worker.relock false).effort s.quit := by
      cases s.quit <;> rfl
    simp only [State.potential]
    omega

/-- Linking a node leaves the workers alone. -/
theorem Linked.keeps_effort {node : Addr} {run : F} {arg : A} (hlink : Linked s node run arg t) :
    t.effort = s.effort ∧ t.added.length = s.added.length + 1 ∧ t.taken = s.taken := by
  cases hlink <;> exact ⟨rfl, by simp, rfl⟩

/-- Waking or starting a worker adds at most three steps. -/
theorem Engaged.effort_le {created : Bool} (heng : Engaged s created t) :
    t.effort ≤ s.effort + 3 ∧ t.added = s.added ∧ t.taken = s.taken := by
  cases heng with
  | signal _ hs =>
    have hle := hs.effort_le
    obtain ⟨hadded, htaken, -⟩ := hs.keeps_log
    exact ⟨by omega, hadded, htaken⟩
  | create _ _ =>
    refine ⟨?_, rfl, rfl⟩
    cases created with
    | false => exact Nat.le_add_right _ _
    | true =>
      have hstart : Worker.start.effort s.quit ≤ 3 := by cases s.quit <;> simp [Worker.effort]
      simp only [State.effort, if_true, List.map_append, List.map_singleton, List.sum_append,
        List.sum_singleton]
      omega
  | full _ _ => exact ⟨Nat.le_add_right _ _, rfl, rfl⟩

/-- Going back to sleep or leaving is nothing that a worker does. -/
theorem effort_awaitWorkers (s : State F A) (j : Nat) :
    (awaitWorkers s j).effort = s.effort ∧ (awaitWorkers s j).added = s.added ∧
      (awaitWorkers s j).taken = s.taken := by
  unfold awaitWorkers
  split <;> exact ⟨rfl, rfl, rfl⟩

/-- A broadcast to a pool that quits adds no step. -/
theorem effort_broadcast (hquit : s.quit = true) :
    (conditionBroadcast s).effort ≤ s.effort := by
  simp only [State.effort, conditionBroadcast, List.map_map, hquit]
  apply List.sum_le_sum
  intro w _
  rw [Function.comp_apply]
  split
  · rename_i hw
    rw [hw]
    rfl
  · exact Nat.le_refl _

/-- The announcement that the pool quits brings every worker closer to its exit. -/
theorem effort_announceQuit (s : State F A) (j : Nat) :
    (announceQuit s j).effort ≤ s.effort ∧ (announceQuit s j).added = s.added ∧
      (announceQuit s j).taken = s.taken := by
  have hquit : ({ s with quit := true } : State F A).effort ≤ s.effort :=
    List.sum_le_sum fun w _ => w.effort_true_le s.quit
  have hbroadcast := effort_broadcast (s := { s with quit := true }) rfl
  simp only [announceQuit]
  split
  · obtain ⟨heffort, hadded, htaken⟩ :=
      effort_awaitWorkers (if s.idle > 0 then conditionBroadcast { s with quit := true }
        else { s with quit := true }) j
    rw [heffort, hadded, htaken]
    split
    · exact ⟨Nat.le_trans hbroadcast hquit, rfl, rfl⟩
    · exact ⟨hquit, rfl, rfl⟩
  · exact ⟨hquit, rfl, rfl⟩

/-- Steps that are not those of workers and that leave the workers and the tasks alone. -/
theorem potential_of_effort (heffort : t.effort ≤ s.effort) (hadded : t.added = s.added)
    (htaken : t.taken = s.taken) : t.potential ≤ s.potential := by
  rw [State.potential, State.potential, hadded, htaken]
  omega

/-- A worker on its way has one step less ahead of it. -/
theorem potential_set {i : Nat} {w w' : Worker} (hw : s.workers[i]? = some w)
    (hworkers : t.workers = s.workers.set i w') (hquit : t.quit = s.quit)
    (hadded : t.added = s.added) (htaken : t.taken = s.taken)
    (hdrop : ∀ quit, w'.effort quit + 1 = w.effort quit) : 1 + t.potential ≤ s.potential := by
  have hset := effort_set hw hworkers hquit
  have hone := hdrop s.quit
  rw [State.potential, State.potential, hadded, htaken]
  omega

/-- Every step of a worker uses up potential, and only wake-ups without a signal bring in some. -/
theorem potential_step {a : Action F A} (hs : step s a = next t) :
    indicator Action.byWorker a + t.potential ≤
      s.potential + indicator Action.unsignalled a := by
  -- a step of a worker, a wake-up without a signal, or any other step
  have hwork (h : 1 + t.potential ≤ s.potential) (hw : a.byWorker = true)
      (hu : a.unsignalled = false) : indicator Action.byWorker a + t.potential ≤
        s.potential + indicator Action.unsignalled a := by
    simpa [indicator, hw, hu] using h
  have hother (h : t.potential ≤ s.potential) (hw : a.byWorker = false)
      (hu : a.unsignalled = false) : indicator Action.byWorker a + t.potential ≤
        s.potential + indicator Action.unsignalled a := by
    simpa [indicator, hw, hu] using h
  cases Effect.of_step hs with
  | addtask _ hlink hengage =>
    obtain ⟨heffort, hadded, htaken⟩ := hlink.keeps_effort
    obtain ⟨hle, hadded', htaken'⟩ := hengage.effort_le
    refine hother ?_ rfl rfl
    simp only [State.potential, hadded', htaken', hadded, htaken]
    push_cast
    omega
  | enter hw hsec => exact hwork (hsec.potential_le hw) rfl rfl
  | resume hw _ hsec => exact hwork (hsec.potential_le hw) rfl rfl
  | recheck hw hsec => exact hwork (hsec.potential_le hw) rfl rfl
  | timeout hw => exact hwork (potential_set hw rfl rfl rfl rfl fun _ => rfl) rfl rfl
  | @spurious w hw =>
    have hwake := effort_wake hw
    simp only [indicator, Action.byWorker, Action.unsignalled, State.potential, State.wake_added,
      State.wake_taken, Bool.false_eq_true, if_false, if_true]
    omega
  | runTask hw _ =>
    exact hwork (potential_set hw rfl rfl rfl rfl fun quit => by cases quit <;> rfl) rfl rfl
  | freeTask hw _ =>
    exact hwork (potential_set hw rfl rfl rfl rfl fun quit => by cases quit <;> rfl) rfl rfl
  | callDestroy => exact hother (Int.le_refl _) rfl rfl
  | refuse _ _ => exact hother (Int.le_refl _) rfl rfl
  | proceed _ _ => exact hother (Int.le_refl _) rfl rfl
  | @announce j _ =>
    obtain ⟨heffort, hadded, htaken⟩ := effort_announceQuit s j
    exact hother (potential_of_effort heffort hadded htaken) rfl rfl
  | @await j _ =>
    obtain ⟨heffort, hadded, htaken⟩ := effort_awaitWorkers s j
    exact hother (potential_of_effort heffort.le hadded htaken) rfl rfl
  | finish _ => exact hother (Int.le_refl _) rfl rfl

/-- No more tasks are taken than were added. -/
theorem Represents.taken_le {l : List (Addr × F × A)} (h : Represents s l) :
    s.taken.length + l.length = s.added.length := by
  have hlen := congrArg List.length h.fifo
  rwa [List.length_append, List.length_map, List.length_map] at hlen

/-- On every run the workers take at most nine steps for each task that was added and one for each
wake-up without a signal. -/
theorem worker_steps_le {threads : Int} {as : List (Action F A)}
    (h : Runs step (threadPoolInit threads) as s) :
    as.countP Action.byWorker ≤ 9 * s.added.length + as.countP Action.unsignalled := by
  have hcount := h.countP_le fun _ _ _ hs => potential_step hs
  have hstart : (threadPoolInit threads : State F A).potential = 0 := rfl
  obtain ⟨l, hl⟩ := Reachable.represents h.reaches
  have htaken := hl.taken_le
  rw [hstart, State.potential] at hcount
  omega

/-- A worker that sleeps, times out, finds a task that was added in between, and exits. -/
def lateRun : List (Action Unit Nat) :=
  [.addtask () 1 0 true none, .enter 0 none, .runTask 0, .freeTask 0, .recheck 0 none,
    .enter 0 none, .spurious (.worker 0), .resume 0 none, .timeout 0,
    .addtask () 2 0 true none, .resume 0 none, .runTask 0, .freeTask 0, .recheck 0 none]

/-- On that run the worker takes eleven steps for two tasks. -/
theorem worker_steps_le_lateRun : ∃ s : State Unit Nat,
    s.added.length = 2 ∧ lateRun.countP Action.byWorker = 11 ∧
      lateRun.countP Action.byWorker ≤ 9 * s.added.length + lateRun.countP Action.unsignalled := by
  obtain ⟨r, hr, hactions, hadded⟩ : ∃ r, traceGuarded step (fun _ _ => True) (fun _ a => [a]) []
      (threadPoolInit 1) lateRun = next r ∧ r.1 = lateRun ∧ r.2.added.length = 2 :=
    ⟨_, rfl, rfl, rfl⟩
  have htrace := Traces.of_traceGuarded step (fun _ _ => True) .nil hr
  rw [hactions] at htrace
  exact ⟨r.2, hadded, rfl, worker_steps_le htrace.runs⟩

/-! ## The nodes -/

/-- The node is linked in the queue or in the hands of a worker. -/
def Owned (s : State F A) (l : List (Addr × F × A)) (a : Addr) : Prop :=
  a ∈ addresses l ∨ ∃ i b, s.load i = some (a, b)

/-- Every allocated node is in the queue or in the hands of a worker. -/
def NoLeak (s : State F A) (l : List (Addr × F × A)) : Prop :=
  ∀ a, s.heap a ≠ none → Owned s l a

section

variable {l l' : List (Addr × F × A)}

/-- What is allocated was allocated before, and its owner keeps it or hands it on. -/
theorem NoLeak.pass (h : NoLeak s l) (hheap : ∀ a, t.heap a ≠ none → s.heap a ≠ none)
    (howner : ∀ a, t.heap a ≠ none → Owned s l a → Owned t l' a) : NoLeak t l' :=
  fun a ha => howner a ha (h a (hheap a ha))

/-- Steps that leave the heap, the queue and the loads alone. -/
theorem NoLeak.congr (h : NoLeak s l) (hheap : t.heap = s.heap)
    (hload : ∀ i, t.load i = s.load i) : NoLeak t l := by
  refine h.pass (fun a ha => by rwa [hheap] at ha) fun a _ hown => hown.imp_right ?_
  rintro ⟨i, b, hi⟩
  exact ⟨i, b, (hload i).trans hi⟩

/-- A new node is linked at the end of the queue. -/
theorem NoLeak.linked {node : Addr} {run : F} {arg : A} (h : NoLeak s l)
    (hlink : Linked s node run arg t) : NoLeak t (l ++ [(node, run, arg)]) := by
  have hkeep (a : Addr) (hne : a ≠ node) (ha : s.heap a ≠ none) :
      Owned t (l ++ [(node, run, arg)]) a := by
    refine (h a ha).imp (fun hmem => ?_) ?_
    · rw [addresses_append]
      exact List.mem_append_left _ hmem
    · rintro ⟨i, b, hi⟩
      refine ⟨i, b, ?_⟩
      cases hlink <;> exact hi
  intro a ha
  by_cases hnode : a = node
  · left
    rw [hnode, addresses_append]
    exact List.mem_append_right _ List.mem_cons_self
  · apply hkeep a hnode
    cases hlink with
    | empty _ =>
      dsimp only at ha
      rwa [Function.update_of_ne hnode] at ha
    | @behind b last task _ _ htask =>
      dsimp only at ha
      by_cases hlast : a = last
      · subst hlast
        rw [Function.update_of_ne hnode] at htask
        rw [htask]
        simp
      · rwa [Function.update_of_ne hlast, Function.update_of_ne hnode] at ha

/-- Waking a thread leaves the nodes alone. -/
theorem NoLeak.wake (h : NoLeak s l) {w : Waiter} (hw : s.asleep w = true) :
    NoLeak (s.wake w) l := by
  refine h.congr (s.wake_heap w) ?_
  cases w with
  | worker i =>
    have hi : s.workers[i]? = some .waiting := by simpa [State.asleep] using hw
    exact load_of_set .woken hi rfl rfl
  | destroyer j => exact fun _ => rfl

/-- A worker whose hands stay as they are leaves the nodes alone. -/
theorem NoLeak.setWorker (h : NoLeak s l) {i : Nat} {w : Worker} (w' : Worker)
    (hw : s.workers[i]? = some w) (hload : w'.load = w.load) (hheap : t.heap = s.heap)
    (hworkers : t.workers = s.workers.set i w') : NoLeak t l :=
  h.congr hheap (load_of_set w' hw hworkers hload)

/-- The first node of the queue goes to the hands of a worker. -/
theorem NoLeak.take {i : Nat} {w : Worker} {a : Addr} {c : F × A} {timeout : Bool}
    (h : NoLeak s ((a, c) :: l)) (hw : s.workers[i]? = some w) (hload : w.load = none)
    (hheap : t.heap = s.heap) (hworkers : t.workers = s.workers.set i (.running a timeout)) :
    NoLeak t l := by
  have hset (j : Nat) : t.load j = if j = i then some (a, false) else s.load j := by
    unfold State.load
    rw [hworkers]
    exact State.load_set hw
  refine h.pass (fun b hb => by rwa [hheap] at hb) fun b _ hown => ?_
  rcases hown with hmem | ⟨j, d, hj⟩
  · rcases List.mem_cons.mp hmem with rfl | hrest
    · exact .inr ⟨i, false, by rw [hset, if_pos rfl]⟩
    · exact .inl hrest
  · right
    refine ⟨j, d, ?_⟩
    rw [hset, if_neg ?_, hj]
    rintro rfl
    rw [State.load, hw, Option.bind_some, hload] at hj
    cases hj

/-- The critical sections of the workers leave the nodes alone, or take one. -/
theorem NoLeak.section (h : NoLeak s l) (hl : Represents s l) {i : Nat} {w : Worker}
    (hw : s.workers[i]? = some w) (hsec : Section s i w t) :
    ∃ l', Represents t l' ∧ NoLeak t l' := by
  cases hsec with
  | sleep hpc _ _ _ =>
    have hload : Worker.waiting.load = w.load := by rcases hpc with rfl | rfl <;> rfl
    exact ⟨l, hl.congr rfl rfl rfl (load_of_set _ hw rfl hload) rfl rfl rfl rfl,
      h.setWorker _ hw hload rfl rfl⟩
  | take hpc _ hfirst htask =>
    have hload : w.load = none := by rcases hpc with rfl | rfl | rfl <;> rfl
    obtain ⟨rest, rfl, hrest⟩ := hl.take hw hload hfirst htask
    exact ⟨rest, hrest, h.take hw hload rfl rfl⟩
  | @quit idle' u _ hpc _ _ _ hu ht =>
    have hload : Worker.exited.load = w.load := (Worker.load_of_atLock hpc).symm
    have hexit : Represents u l ∧ NoLeak u l := by
      subst hu
      exact ⟨hl.congr rfl rfl rfl (load_of_set _ hw rfl hload) rfl rfl rfl rfl,
        h.setWorker _ hw hload rfl rfl⟩
    rcases ht with ⟨_, rfl⟩ | ⟨_, hsig⟩
    · exact ⟨l, hexit⟩
    · exact ⟨l, hsig.keeps (P := fun u => Represents u l ∧ NoLeak u l) hexit
        fun _ hwake => ⟨hexit.1.wake hwake, hexit.2.wake hwake⟩⟩
  | giveUp hpc _ _ =>
    have hload : Worker.exited.load = w.load := by rcases hpc with ⟨rfl, _⟩ | rfl <;> rfl
    exact ⟨l, hl.congr rfl rfl rfl (load_of_set _ hw rfl hload) rfl rfl rfl rfl,
      h.setWorker _ hw hload rfl rfl⟩
  | again hpc _ =>
    subst hpc
    exact ⟨l, hl.congr rfl rfl rfl (load_of_set _ hw rfl rfl) rfl rfl rfl rfl,
      h.setWorker .start hw rfl rfl rfl⟩

/-- A worker that is started has nothing in its hands. -/
theorem NoLeak.engaged {created : Bool} (h : NoLeak s l) (heng : Engaged s created t) :
    NoLeak t l := by
  cases heng with
  | signal _ hs => exact hs.keeps (P := fun u => NoLeak u l) h fun _ hw => h.wake hw
  | create _ _ =>
    refine h.pass (fun _ ha => ha) fun a _ hown => hown.imp_right ?_
    rintro ⟨i, b, hi⟩
    refine ⟨i, b, ?_⟩
    obtain ⟨w, hw, hload⟩ := Option.bind_eq_some_iff.mp hi
    obtain ⟨hlt, -⟩ := List.getElem?_eq_some_iff.mp hw
    refine Option.bind_eq_some_iff.mpr ⟨w, ?_, hload⟩
    cases created with
    | false => exact hw
    | true => exact (List.getElem?_append_left hlt).trans hw
  | full _ _ => exact h

/-- The announcement that the pool quits leaves the nodes alone. -/
theorem NoLeak.announceQuit (h : NoLeak s l) (j : Nat) : NoLeak (announceQuit s j) l := by
  have hwait (u : State F A) (hu : NoLeak u l) : NoLeak (awaitWorkers u j) l := by
    unfold awaitWorkers
    split <;> exact hu.congr rfl fun _ => rfl
  simp only [ThreadPool.announceQuit]
  split
  · apply hwait
    split
    · refine h.congr rfl fun i => ?_
      simp only [State.load, conditionBroadcast, List.getElem?_map]
      cases s.workers[i]? with
      | none => rfl
      | some w => cases w <;> rfl
    · exact h
  · exact h.congr rfl fun _ => rfl

/-- Every step keeps account of the nodes. -/
theorem NoLeak.step (h : NoLeak s l) (hl : Represents s l) {a : Action F A}
    (hs : step s a = next t) : ∃ l', Represents t l' ∧ NoLeak t l' := by
  cases Effect.of_step hs with
  | addtask hfree hlink hengage =>
    exact ⟨_, (hl.linked hfree hlink).engaged hengage, (h.linked hlink).engaged hengage⟩
  | enter hw hsec => exact h.section hl hw hsec
  | resume hw _ hsec => exact h.section hl hw hsec
  | recheck hw hsec => exact h.section hl hw hsec
  | timeout hw =>
    exact ⟨l, hl.congr rfl rfl rfl (load_of_set _ hw rfl rfl) rfl rfl rfl rfl,
      h.setWorker .timedOut hw rfl rfl rfl⟩
  | spurious hw => exact ⟨l, hl.wake hw, h.wake hw⟩
  | @runTask i a timeout task hw htask =>
    refine ⟨l, hl.runTask hw htask, h.pass (fun _ ha => ha) fun b _ hown => hown.imp_right ?_⟩
    rintro ⟨j, c, hj⟩
    by_cases hji : j = i
    · subst hji
      have hload : s.load j = some (a, false) := by simp [State.load, hw, Worker.load]
      cases hload.symm.trans hj
      exact ⟨j, true, (State.load_set hw).trans (if_pos rfl)⟩
    · exact ⟨j, c, (State.load_set hw).trans ((if_neg hji).trans hj)⟩
  | @freeTask i a timeout task hw htask =>
    refine ⟨l, hl.freeTask hw htask, h.pass (fun b hb => ?_) fun b hb hown => hown.imp_right ?_⟩
    · dsimp only at hb
      by_cases hba : b = a
      · rw [hba, Function.update_self] at hb
        exact absurd rfl hb
      · rwa [Function.update_of_ne hba] at hb
    · rintro ⟨j, c, hj⟩
      have hji : j ≠ i := by
        rintro rfl
        have hload : s.load j = some (a, true) := by simp [State.load, hw, Worker.load]
        cases hload.symm.trans hj
        exact hb (Function.update_self ..)
      exact ⟨j, c, (State.load_set hw).trans ((if_neg hji).trans hj)⟩
  | callDestroy =>
    exact ⟨l, hl.congr rfl rfl rfl (fun _ => rfl) rfl rfl rfl rfl, h.congr rfl fun _ => rfl⟩
  | refuse _ _ =>
    exact ⟨l, hl.congr rfl rfl rfl (fun _ => rfl) rfl rfl rfl rfl, h.congr rfl fun _ => rfl⟩
  | proceed _ _ =>
    exact ⟨l, hl.congr rfl rfl rfl (fun _ => rfl) rfl rfl rfl rfl, h.congr rfl fun _ => rfl⟩
  | announce _ => exact ⟨l, hl.announceQuit _, h.announceQuit _⟩
  | @await j _ =>
    refine ⟨l, hl.awaitWorkers _, ?_⟩
    unfold awaitWorkers
    split <;> exact h.congr rfl fun _ => rfl
  | finish _ =>
    exact ⟨l, hl.congr rfl rfl rfl (fun _ => rfl) rfl rfl rfl rfl, h.congr rfl fun _ => rfl⟩

end

/-- Every reachable state keeps account of the nodes. -/
theorem Reachable.noLeak {threads : Int} {ok : State F A → Action F A → Prop}
    (h : Reachable ok threads s) : ∃ l, Represents s l ∧ NoLeak s l := by
  induction h with
  | refl => exact ⟨[], represents_init threads, fun a ha => absurd rfl ha⟩
  | tail _ _ hs ih =>
    obtain ⟨l, hl, hleak⟩ := ih
    exact hleak.step hl hs

/-- No worker has a step to take, unless its wait times out. -/
def State.Resting (s : State F A) : Prop :=
  ∀ a : Action F A, a.byWorker = true → (∀ i, a ≠ .timeout i) → step s a = disabled

/-- All tasks that were added were run and freed, and no node is allocated. -/
structure State.AllDone (s : State F A) : Prop where
  first : s.first = none
  ran : (s.ran.map Prod.snd).Perm s.added
  freed : (s.freed.map Prod.snd).Perm s.added
  unallocated : ∀ a, s.heap a = none

/-- The implementation of `condition_signal` has a thread to choose, or none is asleep. -/
theorem exists_signal (s : State F A) : ∃ choice, conditionSignal s choice ≠ disabled := by
  cases hany : s.anyAsleep with
  | false => exact ⟨none, by simp [conditionSignal, hany]⟩
  | true =>
    rw [State.anyAsleep, Bool.or_eq_true, List.contains_iff_mem, List.contains_iff_mem] at hany
    rcases hany with hw | hd
    · obtain ⟨i, hi⟩ := List.getElem?_of_mem hw
      exact ⟨some (.worker i), by simp [conditionSignal, State.asleep, hi]⟩
    · obtain ⟨j, hj⟩ := List.getElem?_of_mem hd
      exact ⟨some (.destroyer j), by simp [conditionSignal, State.asleep, hj]⟩

theorem exists_afterTask (s : State F A) (i : Nat) (timeout : Bool) :
    ∃ choice, afterTask s i timeout choice ≠ disabled := by
  obtain ⟨choice, hchoice⟩ := exists_signal
    { s with count := s.count - 1, workers := s.workers.set i .exited }
  refine ⟨choice, ?_⟩
  unfold afterTask
  split
  · dsimp only
    split
    · exact hchoice
    · simp
  · split <;> simp

theorem exists_afterWait (s : State F A) (i : Nat) (timeout : Bool) :
    ∃ choice, afterWait s i timeout choice ≠ disabled := by
  obtain ⟨choice, hchoice⟩ := exists_afterTask { s with idle := s.idle - 1 } i timeout
  refine ⟨choice, ?_⟩
  unfold afterWait
  dsimp only
  cases hfirst : s.first with
  | none => simpa [hfirst] using hchoice
  | some a => cases hheap : s.heap a <;> simp [hheap]

theorem exists_waitLoop (s : State F A) (i : Nat) :
    ∃ choice, waitLoop s i choice ≠ disabled := by
  obtain ⟨choice, hchoice⟩ := exists_afterWait s i false
  refine ⟨choice, ?_⟩
  unfold waitLoop
  split
  · simp
  · exact hchoice

/-- A worker that is awake has a step to take. -/
theorem exists_step_of_awake {i : Nat} {w : Worker} (hw : s.workers[i]? = some w)
    (hawake : w.awake = true) : ¬ s.Resting := by
  intro hrest
  cases w with
  | start =>
    obtain ⟨choice, hchoice⟩ := exists_waitLoop { s with idle := s.idle + 1 } i
    exact hchoice (by simpa [step, hw] using hrest (.enter i choice) rfl (by simp))
  | waiting => cases hawake
  | woken =>
    obtain ⟨choice, hchoice⟩ := exists_waitLoop s i
    exact hchoice (by simpa [step, hw] using hrest (.resume i choice) rfl (by simp))
  | timedOut =>
    obtain ⟨choice, hchoice⟩ := exists_afterWait s i true
    exact hchoice (by simpa [step, hw] using hrest (.resume i choice) rfl (by simp))
  | running a timeout =>
    have hoff := hrest (.runTask i) rfl (by simp)
    cases hheap : s.heap a <;> simp [step, hw, hheap] at hoff
  | ran a timeout =>
    have hoff := hrest (.freeTask i) rfl (by simp)
    cases hheap : s.heap a <;> simp [step, hw, hheap] at hoff
  | relock timeout =>
    obtain ⟨choice, hchoice⟩ := exists_afterTask s i timeout
    exact hchoice (by simpa [step, hw] using hrest (.recheck i choice) rfl (by simp))
  | exited => cases hawake

/-- The workers are at rest when all of them are asleep or gone. -/
theorem resting_iff : s.Resting ↔ ∀ w ∈ s.workers, w.awake = false := by
  constructor
  · intro hrest w hw
    obtain ⟨i, hi⟩ := List.getElem?_of_mem hw
    by_contra hawake
    exact exists_step_of_awake hi (by simpa using hawake) hrest
  · intro hasleep a ha htimeout
    have hworker (i : Nat) : s.workers[i]? = none ∨ s.workers[i]? = some .waiting ∨
        s.workers[i]? = some .exited := by
      cases hi : s.workers[i]? with
      | none => exact .inl rfl
      | some w =>
        have hw := hasleep w (List.mem_of_getElem? hi)
        cases w <;> simp_all [Worker.awake]
    cases a with
    | enter i | resume i | runTask i | freeTask i | recheck i =>
      rcases hworker i with hi | hi | hi <;> simp [step, hi]
    | timeout i => exact absurd rfl (htimeout i)
    | addtask | spurious | callDestroy | testQuit | lockDestroy | resumeDestroy | finishDestroy =>
      cases ha

/-- At rest nobody has a task in hand, so that an attended queue is empty and all is done. -/
theorem State.Resting.allDone {l : List (Addr × F × A)} (hrest : s.Resting)
    (hattended : Attended s) (hl : Represents s l) (hleak : NoLeak s l) : s.AllDone := by
  have hasleep := resting_iff.mp hrest
  have hfirst : s.first = none := by
    by_contra hne
    obtain ⟨w, hw, hawake⟩ := hattended hne
    rw [hasleep w hw] at hawake
    cases hawake
  have hload : ∀ i, s.load i = none := by
    intro i
    unfold State.load
    cases hi : s.workers[i]? with
    | none => rfl
    | some w =>
      have hw := hasleep w (List.mem_of_getElem? hi)
      cases w <;> simp_all [Worker.load, Worker.awake]
  obtain rfl : l = [] := hl.chain.eq_nil_iff.mpr hfirst
  have hadded : s.taken.map Prod.snd = s.added := by simpa using hl.fifo
  have hruns (i : Nat) : byWorker i s.taken = byWorker i s.ran := by
    rw [hl.runs i, State.unrun, hload, List.append_nil]
  have hfrees (i : Nat) : byWorker i s.ran = byWorker i s.freed := by
    rw [hl.frees i, State.unfreed, hload, List.append_nil]
  have hperm {log log' : List (Nat × F × A)} (h : ∀ i, byWorker i log = byWorker i log') :
      log.Perm log' :=
    (subperm_of_byWorker fun i => ((h i).symm.trans (List.append_nil _).symm)).antisymm
      (subperm_of_byWorker fun i => ((h i).trans (List.append_nil _).symm))
  refine ⟨hfirst, hadded ▸ ((hperm hruns).map _).symm,
    hadded ▸ (((hperm hfrees).symm.trans (hperm hruns).symm).map _), fun a => ?_⟩
  by_contra hne
  rcases hleak a hne with hmem | ⟨i, b, hi⟩
  · cases hmem
  · rw [hload i] at hi
    cases hi

/-- Workers add no tasks. -/
theorem Section.keeps_added {i : Nat} {w : Worker} (hsec : Section s i w t) :
    t.added = s.added := by
  cases hsec with
  | sleep | take | giveUp | again => rfl
  | quit _ _ _ _ hu ht =>
    have hadded := congrArg State.added hu
    rcases ht with ⟨-, rfl⟩ | ⟨-, hsig⟩
    · exact hadded
    · exact hsig.keeps_log.1.trans hadded

theorem added_of_byWorker {a : Action F A} (hs : step s a = next t) (ha : a.byWorker = true) :
    t.added = s.added := by
  cases Effect.of_step hs with
  | enter _ hsec => exact hsec.keeps_added
  | resume _ _ hsec => exact hsec.keeps_added
  | recheck _ hsec => exact hsec.keeps_added
  | timeout | runTask | freeTask => rfl
  | addtask | spurious | callDestroy | refuse | proceed | announce | await | finish => cases ha

/-- The steps of workers that are left alone, on runs on which no task is stranded. -/
def ByWorkers (s : State F A) (a : Action F A) : Prop := Prompt s a ∧ a.byWorker = true

instance instDecidableByWorkers (s : State F A) (a : Action F A) : Decidable (ByWorkers s a) :=
  inferInstanceAs (Decidable (_ ∧ _))

/-- Workers that are left alone come to rest after a number of steps that is known before, in
whatever order they take them, and at rest every task that was added was run and freed. -/
theorem workers_come_to_rest {threads : Int} (hthreads : 1 ≤ threads)
    (h : Reachable Prompt threads s) {as : List (Action F A)}
    (hr : Traces step ByWorkers (fun _ a => [a]) s as t) :
    as.length ≤ s.effort + 6 * (s.added.length - s.taken.length) ∧ (t.Resting → t.AllDone) := by
  have hall : ∀ a ∈ as, a.byWorker = true := hr.forall_mem fun _ _ ha => ha.2
  have hreach : Reachable Prompt threads t := h.trans (hr.reaches.mono fun _ _ ha => ha.1)
  have hadded : t.added = s.added :=
    hr.reaches.invariant (I := fun u => u.added = s.added) rfl fun _ _ _ hu ha hs =>
      (added_of_byWorker hs ha.2).trans hu
  obtain ⟨l, hl, hleak⟩ := hreach.noLeak
  refine ⟨?_, fun hrest => hrest.allDone (no_stranded_task hthreads hreach) hl hleak⟩
  have hcount := hr.runs.countP_le fun _ _ _ hs => potential_step hs
  have hlength : as.countP Action.byWorker = as.length := List.countP_eq_length.mpr hall
  have hnone : as.countP Action.unsignalled = 0 := by
    rw [List.countP_eq_zero]
    intro a ha hu
    have hworker := hall a ha
    cases a <;> simp [Action.byWorker, Action.unsignalled] at hworker hu
  obtain ⟨l', hl'⟩ := Reachable.represents h
  have htaken := hl.taken_le
  have htaken' := hl'.taken_le
  rw [hlength, hnone, State.potential, State.potential] at hcount
  rw [hadded] at hcount htaken
  omega

/-- Two tasks are added to a pool of one worker. -/
def twoTasks : List (Action Unit Nat) := [.addtask () 1 0 true none, .addtask () 2 1 true none]

/-- The worker runs both of them and goes to sleep. -/
def bothRun : List (Action Unit Nat) :=
  [.enter 0 none, .runTask 0, .freeTask 0, .recheck 0 none,
    .enter 0 none, .runTask 0, .freeTask 0, .recheck 0 none, .enter 0 none]

/-- The worker takes nine of the fifteen steps that it may take. -/
theorem workers_come_to_rest_twoTasks : ∃ s t : State Unit Nat,
    s.effort + 6 * (s.added.length - s.taken.length) = 15 ∧
      bothRun.length ≤ s.effort + 6 * (s.added.length - s.taken.length) ∧
      t.added = [((), 1), ((), 2)] ∧ t.AllDone := by
  obtain ⟨s, r, hs, hr, hactions, heffort, hadded, hworkers⟩ : ∃ s r,
      runGuarded step Prompt (threadPoolInit 1) twoTasks = next s ∧
        traceGuarded step ByWorkers (fun _ a => [a]) [] s bothRun = next r ∧ r.1 = bothRun ∧
        s.effort + 6 * (s.added.length - s.taken.length) = 15 ∧
        r.2.added = [((), 1), ((), 2)] ∧ r.2.workers = [.waiting] :=
    ⟨_, _, rfl, rfl, rfl, rfl, rfl, rfl⟩
  have htrace := Traces.of_traceGuarded step ByWorkers .nil hr
  rw [hactions] at htrace
  obtain ⟨hle, hdone⟩ :=
    workers_come_to_rest (by decide) (Reaches.of_runGuarded step Prompt hs) htrace
  refine ⟨s, r.2, heffort, hle, hadded, hdone (resting_iff.mpr ?_)⟩
  rw [hworkers, List.forall_mem_singleton]
  rfl

end NetworkCode.ThreadPool
