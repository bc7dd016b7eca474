import NetworkCode.ThreadPool.Attendance

/-!
# The counters and the workers that exist

While `pthread_create` succeeds the counters are exact: `count` is the number of
workers behind their creation and before their final decrement, `idle` the
number inside the waiting loop, and what is left of `count` bounds the tasks
that execute. A failed `pthread_create` is counted like a worker, and nothing
takes it back: the pool may then start nobody for a new task, and
`threadPool_destroy` may sleep although no worker is left to wake it.
-/

namespace NetworkCode.ThreadPool

open StepResult

variable {F A : Type*} {s t : State F A}

/-! ## Exact counters -/

/-- The worker is in `task->run`. -/
def Worker.executing : Worker → Bool
  | .running _ _ => true
  | _ => false

/-- The counters of a pool initialised with `threads`, in a state in which nobody
holds the mutex. -/
structure Balanced (threads : Int) (s : State F A) : Prop where
  maxThread : s.maxThread = threads
  count : s.count = s.workers.countP Worker.alive
  idle : s.idle = s.workers.countP Worker.inWait
  idle_nonneg : 0 ≤ s.idle
  idle_le_count : s.idle ≤ s.count
  count_le : s.count ≤ s.maxThread
  executing : s.workers.countP Worker.executing ≤ s.count - s.idle

/-- A worker is not in the waiting loop and in a task at once, and is alive in both. -/
theorem countP_executing_add_inWait (ws : List Worker) :
    ws.countP Worker.executing + ws.countP Worker.inWait ≤ ws.countP Worker.alive := by
  induction ws with
  | nil => exact Nat.le_refl 0
  | cons w ws ih =>
    rw [List.countP_cons, List.countP_cons, List.countP_cons]
    have hw : (if w.executing = true then 1 else 0) + (if w.inWait = true then 1 else 0) ≤
        if w.alive = true then 1 else 0 := by
      cases w <;> simp [Worker.executing, Worker.inWait, Worker.alive]
    omega

/-- `count` stays within the bound that `threadPool_init` was given. -/
theorem Reachable.count_le {threads : Int} (hthreads : 0 ≤ threads)
    {ok : State F A → Action F A → Prop} (h : Reachable ok threads s) :
    s.count ≤ s.maxThread := by
  refine Reaches.invariant (I := fun s => s.count ≤ s.maxThread) h hthreads ?_
  intro s a t hinv _ hs
  obtain ⟨hmax, hcount⟩ := bound_step hs
  omega

/-- The counters are exact in every state of a run in which creations succeed. -/
theorem counters_balanced {threads : Int} (hthreads : 0 ≤ threads)
    (h : Reachable (fun _ a => CreateSucceeds a) threads s) : Balanced threads s := by
  have hacc : Accounted threads s := h.accounted fun _ _ ha => ha
  have hsum := countP_executing_add_inWait s.workers
  have hcount := hacc.count
  have hidle := hacc.idle
  exact ⟨hacc.maxThread, hcount, hidle, by omega, by omega, h.count_le hthreads, by omega⟩

/-- On the busy run the one worker is counted and executes its task. -/
theorem counters_balanced_busyRun :
    ∃ t, runGuarded step (fun _ a => CreateSucceeds a) (threadPoolInit 1) busyRun = next t ∧
      t.count = 1 ∧ t.workers.countP Worker.executing = 1 ∧ Balanced 1 t := by
  obtain ⟨t, ht, hcount, hexec⟩ :
      ∃ t, runGuarded step (fun _ a => CreateSucceeds a) (threadPoolInit 1) busyRun = next t ∧
        t.count = 1 ∧ t.workers.countP Worker.executing = 1 :=
    ⟨_, rfl, rfl, rfl⟩
  exact ⟨t, ht, hcount, hexec, counters_balanced (by decide) (Reaches.of_runGuarded step _ ht)⟩

/-! ## Failed creations -/

/-- With nobody in the waiting loop and fewer live workers than allowed, a call of
`threadPool_addtask` tries to start a worker. -/
def State.Retries (s : State F A) : Prop :=
  ∀ (run : F) (arg : A) (node : Addr) (choice : Option Waiter) (t : State F A),
    s.workers.countP Worker.inWait = 0 → s.workers.countP Worker.alive < s.maxThread →
      step s (.addtask run arg node true choice) = next t → t.workers = s.workers ++ [.start]

/-- A caller of `threadPool_destroy` goes to sleep only while some worker is alive. -/
def State.AwaitsWorkers (s : State F A) : Prop :=
  ∀ (a : Action F A) (j : Nat) (t : State F A), a = .lockDestroy j ∨ a = .resumeDestroy j →
    step s a = next t → t.destroyers[j]? = some .waiting → ∃ w ∈ t.workers, w.alive = true

/-- `count` is the number of workers that really exist, with what rests on it. -/
structure Staffed (s : State F A) : Prop where
  count : s.count = s.workers.countP Worker.alive
  retries : s.Retries
  awaits : s.AwaitsWorkers

/-- On every run `count` exceeds the live workers by the failed creations. -/
theorem manned_of_traces {threads : Int} {ok : State F A → Action F A → Prop}
    {results : List Bool} (h : Traces step ok State.creations (threadPoolInit threads) results s) :
    Manned (results.count false) s := by
  refine h.invariant (I := fun results s => Manned (results.count false) s) ⟨rfl, rfl⟩ ?_
  intro results s a t hinv _ hs
  rw [List.count_append]
  exact hinv.step hs

/-- A pool that has lost no creation starts a worker whenever it may. -/
theorem Manned.retries (h : Manned 0 s) : s.Retries := by
  intro run arg node choice t hwait halive hs
  have hidle := h.idle
  have hcount := h.count
  cases Effect.of_step hs with
  | addtask _ hlink hengage =>
    obtain ⟨hworkers, -, hidle', hcount', hmax, -⟩ := hlink.keeps
    cases hengage with
    | signal hpos _ => omega
    | create _ _ => exact congrArg (· ++ [Worker.start]) hworkers
    | full _ hfull => omega

/-- A caller that is asleep behind its look at `count` has seen one other than 0. -/
theorem Destroyer.Looked.count_ne_zero {count : Int} {d : Destroyer} (h : d.Looked count)
    {ds : List Destroyer} {j : Nat} (hd : (ds.set j d)[j]? = some .waiting) : count ≠ 0 := by
  rcases getElem?_set_eq_some hd with ⟨-, rfl⟩ | ⟨hne, -⟩
  · rcases h with ⟨-, hcount⟩ | ⟨he, -⟩
    · exact hcount
    · cases he
  · exact absurd rfl hne

/-- A caller that goes to sleep has seen a count other than 0. -/
theorem count_ne_zero_of_awaitWorkers {j : Nat}
    (h : (awaitWorkers s j).destroyers[j]? = some .waiting) : (awaitWorkers s j).count ≠ 0 := by
  obtain ⟨d, hlook, he⟩ := awaitWorkers_eq s j
  rw [he] at h ⊢
  exact hlook.count_ne_zero h

/-- The critical section of `threadPool_destroy` ends in sleep only with a count other than 0. -/
theorem count_ne_zero_of_announceQuit {j : Nat}
    (h : (announceQuit s j).destroyers[j]? = some .waiting) : (announceQuit s j).count ≠ 0 := by
  obtain ⟨u, d, hlook, ⟨rfl, -⟩ | rfl, he⟩ := announceQuit_eq s j
  · rw [he] at h ⊢
    exact hlook.count_ne_zero h
  · rw [he] at h ⊢
    exact hlook.count_ne_zero h

/-- In a pool that has lost no creation nobody waits for a worker that does not exist. -/
theorem Manned.awaits (h : Manned 0 s) : s.AwaitsWorkers := by
  intro a j t ha hs hwaiting
  have hm : Manned 0 t := by
    rcases ha with rfl | rfl <;> exact h.step hs
  have hne : t.count ≠ 0 := by
    rcases ha with rfl | rfl
    · cases Effect.of_step hs with
      | announce _ => exact count_ne_zero_of_announceQuit hwaiting
    · cases Effect.of_step hs with
      | await _ => exact count_ne_zero_of_awaitWorkers hwaiting
  apply List.countP_pos_iff.mp
  have hcount := hm.count
  omega

/-- On every run the pool is staffed exactly as long as no creation has failed. -/
theorem staffed_iff_created {threads : Int} {results : List Bool}
    (h : Traces step (fun _ _ => True) State.creations (threadPoolInit threads) results s) :
    Staffed s ↔ false ∉ results := by
  have hm := manned_of_traces h
  rw [← List.count_eq_zero]
  constructor
  · intro hs
    have hcount := hm.count
    have hexact := hs.count
    omega
  · intro hzero
    rw [hzero] at hm
    exact ⟨hm.count.trans (Int.add_zero _), hm.retries, hm.awaits⟩

/-- A created worker leaves a fresh pool staffed. -/
theorem staffed_iff_created_fresh :
    ∃ r, traceGuarded step (fun _ _ => True) State.creations [] (threadPoolInit 1)
      [.addtask () 1 0 true none] = next r ∧ r.1 = [true] ∧ Staffed r.2 := by
  obtain ⟨r, hr, hresults⟩ :
      ∃ r, traceGuarded step (fun _ _ => True) State.creations [] (threadPoolInit 1)
        [.addtask () 1 0 true none] = next r ∧ r.1 = [true] :=
    ⟨_, rfl, rfl⟩
  refine ⟨r, hr, hresults, (staffed_iff_created (Traces.of_traceGuarded step _ .nil hr)).mpr ?_⟩
  rw [hresults]
  decide

/-- The only creation of the run fails; a task more is added and the pool destroyed. -/
def unstaffedRun : List (Action Unit Nat) :=
  [.addtask () 1 0 false none, .addtask () 2 1 true none, .callDestroy, .testQuit 0,
    .lockDestroy 0]

/-- After one failed creation `count` is wrong, the next task finds no worker and starts none,
and `threadPool_destroy` sleeps although nobody is there to wake it. -/
theorem failed_creation_unstaffs :
    (¬ ∀ (threads : Int) (s : State Unit Nat), Reachable (fun _ _ => True) threads s →
      s.count = s.workers.countP Worker.alive) ∧
    (¬ ∀ (threads : Int) (s : State Unit Nat), Reachable (fun _ _ => True) threads s →
      s.Retries) ∧
    ¬ ∀ (threads : Int) (s : State Unit Nat), Reachable (fun _ _ => True) threads s →
      s.AwaitsWorkers := by
  refine ⟨?_, ?_, ?_⟩
  · intro h
    obtain ⟨s, hs, hcount, hworkers⟩ :
        ∃ s, runGuarded step (fun _ _ => True) (threadPoolInit 1) (unstaffedRun.take 1) = next s ∧
          s.count = 1 ∧ s.workers = [] :=
      ⟨_, rfl, rfl, rfl⟩
    have hexact := h 1 s (Reaches.of_runGuarded step _ hs)
    rw [hcount, hworkers] at hexact
    cases hexact
  · intro h
    obtain ⟨s, t, hs, hmax, hworkers, ht, hnone⟩ :
        ∃ s t, runGuarded step (fun _ _ => True) (threadPoolInit 1) (unstaffedRun.take 1) = next s ∧
          s.maxThread = 1 ∧ s.workers = [] ∧ step s (.addtask () 2 1 true none) = next t ∧
          t.workers = [] :=
      ⟨_, _, rfl, rfl, rfl, rfl, rfl⟩
    have hretry := h 1 s (Reaches.of_runGuarded step _ hs) () 2 1 none t
    rw [hworkers, hmax, hnone] at hretry
    exact absurd (hretry rfl (by decide) ht) (by decide)
  · intro h
    obtain ⟨s, t, hs, ht, hwaiting, hworkers⟩ :
        ∃ s t, runGuarded step (fun _ _ => True) (threadPoolInit 1) (unstaffedRun.take 4) = next s ∧
          step s (.lockDestroy 0) = next t ∧ t.destroyers[0]? = some .waiting ∧ t.workers = [] :=
      ⟨_, _, rfl, rfl, rfl, rfl⟩
    obtain ⟨w, hw, -⟩ := h 1 s (Reaches.of_runGuarded step _ hs) _ 0 t (.inl rfl) ht hwaiting
    rw [hworkers] at hw
    cases hw

end NetworkCode.ThreadPool
