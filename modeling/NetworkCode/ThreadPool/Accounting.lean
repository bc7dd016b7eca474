import NetworkCode.ThreadPool.Step

/-!
# What `idle`, `count` and `quit` stand for

On every run `idle` counts the workers inside the waiting loop, and `count`
those that have not executed their final decrement together with the failed
calls of `pthread_create`; `quit` is set exactly when some caller of
`threadPool_destroy` is behind its critical section, and from then on no worker
is asleep. All three facts are read off the outcomes of a step.
-/

namespace NetworkCode.ThreadPool

open StepResult

variable {F A : Type*} {s t : State F A}

/-- The caller has set `quit`, or has seen it set. -/
def Destroyer.past : Destroyer → Bool
  | .called | .locking => false
  | _ => true

/-- The meaning of the counters and of `quit` in a state in which nobody holds the mutex. -/
structure Accounted (threads : Int) (s : State F A) : Prop where
  maxThread : s.maxThread = threads
  idle : s.idle = s.workers.countP Worker.inWait
  count : s.count = s.workers.countP Worker.alive
  quit : s.quit = true ↔ 0 < s.destroyers.countP Destroyer.past
  /-- Nobody goes to sleep, or stays asleep, once `quit` is set. -/
  noSleeper : s.quit = true → Worker.waiting ∉ s.workers

/-- The meaning of the counters when `lost` calls of `pthread_create` have failed. -/
structure Manned (lost : Nat) (s : State F A) : Prop where
  idle : s.idle = s.workers.countP Worker.inWait
  count : s.count = s.workers.countP Worker.alive + lost

/-- The meaning of `quit`. -/
structure Announced (s : State F A) : Prop where
  quit : s.quit = true ↔ 0 < s.destroyers.countP Destroyer.past
  noSleeper : s.quit = true → Worker.waiting ∉ s.workers

/-- The results of the calls of `pthread_create` that the action makes. -/
def State.creations (s : State F A) : Action F A → List Bool
  | .addtask _ _ _ created _ => if s.idle ≤ 0 ∧ s.count < s.maxThread then [created] else []
  | _ => []

/-! ## Fields that a wake-up leaves alone -/

@[simp] theorem State.wake_first (s : State F A) (w : Waiter) : (s.wake w).first = s.first := by
  cases w <;> rfl

@[simp] theorem State.wake_last (s : State F A) (w : Waiter) : (s.wake w).last = s.last := by
  cases w <;> rfl

@[simp] theorem State.wake_heap (s : State F A) (w : Waiter) : (s.wake w).heap = s.heap := by
  cases w <;> rfl

@[simp] theorem State.wake_count (s : State F A) (w : Waiter) : (s.wake w).count = s.count := by
  cases w <;> rfl

@[simp] theorem State.wake_quit (s : State F A) (w : Waiter) : (s.wake w).quit = s.quit := by
  cases w <;> rfl

@[simp] theorem State.wake_maxThread (s : State F A) (w : Waiter) :
    (s.wake w).maxThread = s.maxThread := by
  cases w <;> rfl

@[simp] theorem State.wake_added (s : State F A) (w : Waiter) : (s.wake w).added = s.added := by
  cases w <;> rfl

@[simp] theorem State.wake_taken (s : State F A) (w : Waiter) : (s.wake w).taken = s.taken := by
  cases w <;> rfl

@[simp] theorem State.wake_ran (s : State F A) (w : Waiter) : (s.wake w).ran = s.ran := by
  cases w <;> rfl

@[simp] theorem State.wake_freed (s : State F A) (w : Waiter) : (s.wake w).freed = s.freed := by
  cases w <;> rfl

/-- A property that every wake-up keeps survives `condition_signal`. -/
theorem Signalled.keeps {P : State F A → Prop} (h : Signalled s t) (hs : P s)
    (hwake : ∀ w, s.asleep w = true → P (s.wake w)) : P t := by
  cases h with
  | woke hw => exact hwake _ hw
  | nobody => exact hs

/-! ## The counters along one step -/

/-- Replacing one worker keeps the meaning of the counters when they move along. -/
theorem Manned.setWorker {lost : Nat} (h : Manned lost s) {i : Nat} {w : Worker} (w' : Worker)
    (hw : s.workers[i]? = some w) (hworkers : t.workers = s.workers.set i w')
    (hidle : t.idle = s.idle - w.waits + w'.waits)
    (hcount : t.count = s.count - indicator Worker.alive w + indicator Worker.alive w') :
    Manned lost t where
  idle := by rw [hworkers, countP_set_eq hw, hidle, h.idle]; rfl
  count := by
    rw [hworkers, countP_set_eq hw, hcount, h.count]
    omega

/-- A worker that stays alive outside the waiting loop changes no counter. -/
theorem Manned.moveWorker {lost : Nat} (h : Manned lost s) {i : Nat} {w : Worker} (w' : Worker)
    (hw : s.workers[i]? = some w) (hworkers : t.workers = s.workers.set i w')
    (hidle : t.idle = s.idle) (hcount : t.count = s.count) (hwait : w'.inWait = w.inWait)
    (halive : w'.alive = w.alive) : Manned lost t := by
  refine h.setWorker w' hw hworkers ?_ ?_
  · rw [hidle, Worker.waits, Worker.waits, indicator, indicator, hwait, Int.sub_add_cancel]
  · rw [hcount, indicator, indicator, halive, Int.sub_add_cancel]

/-- A wake-up keeps the meaning of the counters. -/
theorem Manned.wake {lost : Nat} (h : Manned lost s) {w : Waiter} (hw : s.asleep w = true) :
    Manned lost (s.wake w) := by
  cases w with
  | worker i =>
    have hi : s.workers[i]? = some .waiting := by simpa [State.asleep] using hw
    exact h.moveWorker .woken hi rfl rfl rfl rfl rfl
  | destroyer j => exact ⟨h.idle, h.count⟩

/-- An exit keeps the meaning of the counters. -/
theorem Manned.exit {lost : Nat} (h : Manned lost s) {i : Nat} {w : Worker} {idle' : Int}
    (hw : s.workers[i]? = some w) (hlive : w.alive = true) (hidle : idle' = s.idle - w.waits) :
    Manned lost { s with
      idle := idle', count := s.count - 1, workers := s.workers.set i .exited } := by
  refine h.setWorker .exited hw rfl ?_ ?_
  · exact hidle.trans (Int.add_zero _).symm
  · rw [indicator_eq_one hlive]
    exact (Int.add_zero _).symm

/-- The three critical sections of `thread_routine` keep the meaning of the counters. -/
theorem Manned.section {lost : Nat} (h : Manned lost s) {i : Nat} {w : Worker}
    (hw : s.workers[i]? = some w) (hsec : Section s i w t) : Manned lost t := by
  cases hsec with
  | sleep hpc hidle hfirst hquit =>
    refine h.setWorker .waiting hw rfl ?_ ?_
    · exact hidle.trans (show s.idle + 1 - w.waits = s.idle - w.waits + 1 by omega)
    · rcases hpc with rfl | rfl <;> exact (Int.sub_add_cancel _ _).symm
  | take hpc hidle hfirst htask =>
    refine h.setWorker (.running _ _) hw rfl ?_ ?_
    · exact hidle.trans (Int.add_zero _).symm
    · rcases hpc with rfl | rfl | rfl <;> exact (Int.sub_add_cancel _ _).symm
  | @quit idle' u _ hpc hidle hfirst hquit hu ht =>
    have hexit : Manned lost u := hu ▸ h.exit hw (Worker.alive_of_atLock hpc) hidle
    rcases ht with ⟨_, rfl⟩ | ⟨_, hsig⟩
    · exact hexit
    · exact hsig.keeps hexit fun _ hw => hexit.wake hw
  | giveUp hpc hidle _ =>
    have hlive : w.alive = true := by rcases hpc with ⟨rfl, _⟩ | rfl <;> rfl
    exact h.exit hw hlive hidle
  | again hpc hstay =>
    subst hpc
    exact h.moveWorker .start hw rfl rfl rfl rfl rfl

/-- Linking a node does not touch threads or counters. -/
theorem Linked.keeps {node : Addr} {run : F} {arg : A} (h : Linked s node run arg t) :
    t.workers = s.workers ∧ t.destroyers = s.destroyers ∧ t.idle = s.idle ∧ t.count = s.count ∧
      t.maxThread = s.maxThread ∧ t.quit = s.quit := by
  cases h <;> exact ⟨rfl, rfl, rfl, rfl, rfl, rfl⟩

/-- Waking or starting a worker keeps the meaning of the counters: `count++` counts a
thread that exists, or one more that could not be created. -/
theorem Manned.engaged {lost : Nat} (h : Manned lost s) {created : Bool}
    (heng : Engaged s created t) :
    Manned (lost + (if s.idle ≤ 0 ∧ s.count < s.maxThread then [created] else []).count false)
      t := by
  cases heng with
  | signal hidle hs =>
    rw [if_neg (by omega)]
    exact hs.keeps h fun _ hw => h.wake hw
  | create hidle hcount =>
    rw [if_pos ⟨hidle, hcount⟩]
    cases created with
    | true =>
      refine ⟨h.idle.trans ?_, ?_⟩
      · exact (countP_concat _ _ _ |>.trans (Int.add_zero _)).symm
      · change s.count + 1 = ((s.workers ++ [Worker.start]).countP Worker.alive : Int) + lost
        rw [countP_concat, indicator_eq_one rfl, h.count]
        omega
    | false =>
      refine ⟨h.idle, ?_⟩
      change s.count + 1 = (s.workers.countP Worker.alive : Int) + (lost + 1 : Nat)
      rw [h.count]
      omega
  | full hidle hcount =>
    rw [if_neg (by omega)]
    exact h

/-- Broadcasting keeps the counts that give the counters and `quit` their meaning. -/
theorem broadcast_counts (s : State F A) :
    (conditionBroadcast s).workers.countP Worker.inWait = s.workers.countP Worker.inWait ∧
      (conditionBroadcast s).workers.countP Worker.alive = s.workers.countP Worker.alive ∧
      (conditionBroadcast s).destroyers.countP Destroyer.past =
        s.destroyers.countP Destroyer.past := by
  refine ⟨countP_map_eq ?_ _, countP_map_eq ?_ _, countP_map_eq ?_ _⟩ <;>
    (intro x; cases x <;> rfl)

/-- Where a caller of `threadPool_destroy` stands that has looked at `count`. -/
def Destroyer.Looked (count : Int) (d : Destroyer) : Prop :=
  d = .waiting ∧ count ≠ 0 ∨ d = .leaving ∧ count ≤ 0

theorem Destroyer.Looked.past {count : Int} {d : Destroyer} (h : d.Looked count) :
    d.past = true := by
  rcases h with ⟨rfl, -⟩ | ⟨rfl, -⟩ <;> rfl

/-- Going to sleep or leaving touches one caller of `threadPool_destroy` only. -/
theorem awaitWorkers_eq (s : State F A) (j : Nat) :
    ∃ d, d.Looked s.count ∧ awaitWorkers s j = { s with destroyers := s.destroyers.set j d } := by
  unfold ThreadPool.awaitWorkers
  split
  · rename_i hne
    exact ⟨.waiting, .inl ⟨rfl, hne⟩, rfl⟩
  · rename_i hzero
    exact ⟨.leaving, .inr ⟨rfl, by omega⟩, rfl⟩

/-- The critical section of `threadPool_destroy` sets `quit`, wakes the sleeping workers when
there may be some, and puts its caller to sleep or lets it leave. -/
theorem announceQuit_eq (s : State F A) (j : Nat) :
    ∃ u d, d.Looked s.count ∧
      (u = s ∧ (s.count ≤ 0 ∨ s.idle ≤ 0) ∨ u = conditionBroadcast s) ∧
      announceQuit s j = { u with quit := true, destroyers := u.destroyers.set j d } := by
  unfold ThreadPool.announceQuit
  simp only
  split
  · split
    · obtain ⟨d, hd, he⟩ := awaitWorkers_eq (conditionBroadcast { s with quit := true }) j
      exact ⟨conditionBroadcast s, d, hd, .inr rfl, he⟩
    · rename_i hidle
      obtain ⟨d, hd, he⟩ := awaitWorkers_eq { s with quit := true } j
      exact ⟨s, d, hd, .inl ⟨rfl, .inr (by simpa using hidle)⟩, he⟩
  · rename_i hcount
    exact ⟨s, .leaving, .inr ⟨rfl, by omega⟩, .inl ⟨rfl, .inl (by simpa using hcount)⟩, rfl⟩

/-- Every step keeps the meaning of the counters. -/
theorem Manned.step {lost : Nat} (h : Manned lost s) {a : Action F A} (hs : step s a = next t) :
    Manned (lost + (s.creations a).count false) t := by
  cases Effect.of_step hs with
  | addtask _ hlink hengage =>
    obtain ⟨hworkers, -, hidle, hcount, hmax, -⟩ := hlink.keeps
    have hlinked : Manned lost _ :=
      ⟨hidle.trans (hworkers ▸ h.idle), hcount.trans (hworkers ▸ h.count)⟩
    have heng := hlinked.engaged hengage
    rwa [hidle, hcount, hmax] at heng
  | enter hw hsec => exact h.section hw hsec
  | resume hw _ hsec => exact h.section hw hsec
  | recheck hw hsec => exact h.section hw hsec
  | timeout hw => exact h.moveWorker .timedOut hw rfl rfl rfl rfl rfl
  | spurious hw => exact h.wake hw
  | runTask hw _ => exact h.moveWorker (.ran _ _) hw rfl rfl rfl rfl rfl
  | freeTask hw _ => exact h.moveWorker (.relock _) hw rfl rfl rfl rfl rfl
  | callDestroy => exact ⟨h.idle, h.count⟩
  | refuse _ _ => exact ⟨h.idle, h.count⟩
  | proceed _ _ => exact ⟨h.idle, h.count⟩
  | announce _ =>
    obtain ⟨u, d, -, ⟨rfl, -⟩ | rfl, he⟩ := announceQuit_eq s _ <;> rw [he]
    · exact ⟨h.idle, h.count⟩
    · obtain ⟨hwait, halive, -⟩ := broadcast_counts s
      exact ⟨h.idle.trans (hwait ▸ rfl), h.count.trans (halive ▸ rfl)⟩
  | await _ =>
    obtain ⟨d, -, he⟩ := awaitWorkers_eq s _
    rw [he]
    exact ⟨h.idle, h.count⟩
  | finish _ => exact ⟨h.idle, h.count⟩

/-- A sleeping worker is counted by `idle`. -/
theorem Manned.idle_pos {lost : Nat} (h : Manned lost s) (hmem : Worker.waiting ∈ s.workers) :
    0 < s.idle := by
  rw [h.idle]
  exact_mod_cast List.countP_pos_iff.mpr ⟨_, hmem, rfl⟩

/-- A worker that has not decremented `count` is counted by it. -/
theorem Manned.count_pos {lost : Nat} (h : Manned lost s) {w : Worker} (hmem : w ∈ s.workers)
    (hlive : w.alive = true) : 0 < s.count := by
  have hpos : 0 < s.workers.countP Worker.alive := List.countP_pos_iff.mpr ⟨_, hmem, hlive⟩
  have hcount := h.count
  omega

theorem Manned.count_nonneg {lost : Nat} (h : Manned lost s) : 0 ≤ s.count := by
  rw [h.count]
  exact Int.natCast_nonneg _

/-- The workers of a pool without live ones are all gone. -/
theorem Manned.exited_of_count {lost : Nat} (h : Manned lost s) (hcount : s.count = 0)
    {w : Worker} (hw : w ∈ s.workers) : w = .exited := by
  cases w with
  | exited => rfl
  | _ => exact absurd hcount (Int.ne_of_gt (h.count_pos hw rfl))

/-! ## `quit` along one step -/

/-- Some caller of `threadPool_destroy` is behind its critical section. -/
theorem Announced.quit_of {j : Nat} {d : Destroyer} (h : Announced s)
    (hd : s.destroyers[j]? = some d) (hpast : d.past = true) : s.quit = true :=
  h.quit.mpr (List.countP_pos_iff.mpr ⟨d, List.mem_of_getElem? hd, hpast⟩)

/-- Replacing one worker keeps the meaning of `quit`, unless the worker then sleeps. -/
theorem Announced.setWorker (h : Announced s) {i : Nat} (w' : Worker)
    (hquiet : s.quit = true → w' ≠ .waiting) (hworkers : t.workers = s.workers.set i w')
    (hdestroyers : t.destroyers = s.destroyers) (hquit : t.quit = s.quit) : Announced t where
  quit := by rw [hquit, hdestroyers]; exact h.quit
  noSleeper := by
    rw [hquit, hworkers]
    intro hq hmem
    rcases List.mem_or_eq_of_mem_set hmem with hmem | hmem
    · exact h.noSleeper hq hmem
    · exact hquiet hq hmem.symm

/-- Replacing one caller of `threadPool_destroy` keeps the meaning of `quit`. -/
theorem Announced.setDestroyer (h : Announced s) {j : Nat} {d : Destroyer} (d' : Destroyer)
    (hd : s.destroyers[j]? = some d) (hpast : d.past = true → d'.past = true)
    (hquit : d'.past = true → s.quit = true) :
    Announced { s with destroyers := s.destroyers.set j d' } where
  quit := by
    have hset := countP_set_eq (p := Destroyer.past) hd d'
    change s.quit = true ↔ 0 < (s.destroyers.set j d').countP Destroyer.past
    have hold := h.quit
    cases hd' : d'.past with
    | true =>
      have hq := hquit hd'
      have hpos : 0 < (s.destroyers.set j d').countP Destroyer.past :=
        List.countP_pos_iff.mpr ⟨d', mem_set_of_getElem? hd d', hd'⟩
      exact iff_of_true hq hpos
    | false =>
      have hdp : d.past = false := by
        cases hdp : d.past with
        | false => rfl
        | true => exact absurd (hpast hdp) (by simp [hd'])
      rw [indicator_eq_zero hd', indicator_eq_zero hdp] at hset
      rw [hold]
      omega
  noSleeper := h.noSleeper

/-- A wake-up keeps the meaning of `quit`. -/
theorem Announced.wake (h : Announced s) {w : Waiter} (hw : s.asleep w = true) :
    Announced (s.wake w) := by
  cases w with
  | worker i => exact h.setWorker .woken (by simp) rfl rfl rfl
  | destroyer j =>
    have hj : s.destroyers[j]? = some .waiting := by simpa [State.asleep] using hw
    exact h.setDestroyer .woken hj (fun _ => rfl) (fun _ => h.quit_of hj rfl)

/-- The three critical sections of `thread_routine` keep the meaning of `quit`. -/
theorem Announced.section (h : Announced s) {i : Nat} {w : Worker} (hsec : Section s i w t) :
    Announced t := by
  cases hsec with
  | sleep _ _ _ hquit => exact h.setWorker .waiting (by simp [hquit]) rfl rfl rfl
  | take _ _ _ _ => exact h.setWorker (.running _ _) (by simp) rfl rfl rfl
  | @quit idle' u _ _ _ _ _ hu ht =>
    have hexit : Announced u := hu ▸ h.setWorker .exited (by simp) rfl rfl rfl
    rcases ht with ⟨_, rfl⟩ | ⟨_, hsig⟩
    · exact hexit
    · exact hsig.keeps hexit fun _ hw => hexit.wake hw
  | giveUp _ _ _ => exact h.setWorker .exited (by simp) rfl rfl rfl
  | again _ _ => exact h.setWorker .start (by simp) rfl rfl rfl

/-- Waking or starting a worker keeps the meaning of `quit`. -/
theorem Announced.engaged (h : Announced s) {created : Bool} (heng : Engaged s created t) :
    Announced t := by
  cases heng with
  | signal _ hs => exact hs.keeps h fun _ hw => h.wake hw
  | create _ _ =>
    refine ⟨h.quit, ?_⟩
    intro hq hmem
    apply h.noSleeper hq
    cases created <;> simpa using hmem
  | full _ _ => exact h

/-- Broadcasting leaves nobody asleep. -/
theorem notMem_broadcast (s : State F A) :
    Worker.waiting ∉ (conditionBroadcast s).workers := by
  intro hmem
  obtain ⟨w, _, hw⟩ := List.mem_map.mp hmem
  split at hw <;> simp_all

/-- The critical section of `threadPool_destroy` establishes the meaning of `quit`: where it
does not broadcast, the counters show that nobody sleeps. -/
theorem Announced.announceQuit {lost : Nat} (hm : Manned lost s) {j : Nat}
    (hd : s.destroyers[j]? = some .locking) : Announced (announceQuit s j) := by
  obtain ⟨u, d, hlook, hu, he⟩ := announceQuit_eq s j
  have hj : ∃ d', u.destroyers[j]? = some d' := by
    rcases hu with ⟨rfl, -⟩ | rfl
    · exact ⟨_, hd⟩
    · exact ⟨.locking, by simp [conditionBroadcast, hd]⟩
  have hquiet : Worker.waiting ∉ u.workers := by
    rcases hu with ⟨rfl, hzero⟩ | rfl
    · intro hmem
      have hidle := hm.idle_pos hmem
      have hcount := hm.count_pos hmem rfl
      omega
    · exact notMem_broadcast s
  obtain ⟨d', hd'⟩ := hj
  rw [he]
  exact ⟨iff_of_true rfl (List.countP_pos_iff.mpr ⟨d, mem_set_of_getElem? hd' d, hlook.past⟩),
    fun _ => hquiet⟩

/-- Every step keeps the meaning of `quit`. -/
theorem Announced.step {lost : Nat} (h : Announced s) (hm : Manned lost s) {a : Action F A}
    (hs : step s a = next t) : Announced t := by
  cases Effect.of_step hs with
  | addtask _ hlink hengage =>
    obtain ⟨hworkers, hdestroyers, -, -, -, hquit⟩ := hlink.keeps
    have hlinked : Announced _ :=
      ⟨by rw [hquit, hdestroyers]; exact h.quit, by rw [hquit, hworkers]; exact h.noSleeper⟩
    exact hlinked.engaged hengage
  | enter _ hsec => exact h.section hsec
  | resume _ _ hsec => exact h.section hsec
  | recheck _ hsec => exact h.section hsec
  | timeout _ => exact h.setWorker .timedOut (by simp) rfl rfl rfl
  | spurious hw => exact h.wake hw
  | runTask _ _ => exact h.setWorker (.ran _ _) (by simp) rfl rfl rfl
  | freeTask _ _ => exact h.setWorker (.relock _) (by simp) rfl rfl rfl
  | callDestroy =>
    refine ⟨?_, h.noSleeper⟩
    rw [List.countP_append]
    exact h.quit
  | refuse hd hquit => exact h.setDestroyer .returned hd (fun _ => rfl) (fun _ => hquit)
  | proceed hd _ =>
    exact h.setDestroyer .locking hd (by simp [Destroyer.past]) (by simp [Destroyer.past])
  | announce hd => exact Announced.announceQuit hm hd
  | await hd =>
    obtain ⟨d, hlook, he⟩ := awaitWorkers_eq s _
    rw [he]
    exact h.setDestroyer d hd (fun _ => hlook.past) (fun _ => h.quit_of hd rfl)
  | finish hd =>
    have hset := h.setDestroyer .returned hd (fun _ => rfl) (fun _ => h.quit_of hd rfl)
    exact ⟨hset.quit, hset.noSleeper⟩

/-! ## Runs -/

/-- A signal changes neither the bound on the workers nor `count`. -/
theorem Signalled.keeps_count (hs : Signalled s t) :
    t.maxThread = s.maxThread ∧ t.count = s.count :=
  hs.keeps (P := fun t => t.maxThread = s.maxThread ∧ t.count = s.count) ⟨rfl, rfl⟩
    fun w _ => ⟨s.wake_maxThread w, s.wake_count w⟩

/-- A critical section of `thread_routine` does not raise `count`. -/
theorem Section.count_le {i : Nat} {w : Worker} (hsec : Section s i w t) :
    t.maxThread = s.maxThread ∧ t.count ≤ s.count := by
  have hless : s.count - 1 ≤ s.count := by omega
  cases hsec with
  | @quit _ u _ _ _ _ _ hu ht =>
    have hexit : u.maxThread = s.maxThread ∧ u.count ≤ s.count := by
      rw [hu]
      exact ⟨rfl, hless⟩
    rcases ht with ⟨_, rfl⟩ | ⟨_, hsig⟩
    · exact hexit
    · obtain ⟨hmax, hcount⟩ := hsig.keeps_count
      rw [hmax, hcount]
      exact hexit
  | sleep => exact ⟨rfl, Int.le_refl _⟩
  | take => exact ⟨rfl, Int.le_refl _⟩
  | giveUp => exact ⟨rfl, hless⟩
  | again => exact ⟨rfl, Int.le_refl _⟩

/-- Waking or starting a worker does not raise `count` beyond the bound. -/
theorem Engaged.count_le {created : Bool} (heng : Engaged s created t) :
    t.maxThread = s.maxThread ∧ t.count ≤ max s.count s.maxThread := by
  cases heng with
  | signal _ hs =>
    obtain ⟨hmax, hcount⟩ := hs.keeps_count
    exact ⟨hmax, hcount ▸ Int.le_max_left _ _⟩
  | create _ hlt =>
    refine ⟨rfl, ?_⟩
    change s.count + 1 ≤ _
    omega
  | full _ _ => exact ⟨rfl, Int.le_max_left _ _⟩

/-- The bound on the workers never changes, and `count` does not grow beyond it. -/
theorem bound_step {a : Action F A} (hs : step s a = next t) :
    t.maxThread = s.maxThread ∧ t.count ≤ max s.count s.maxThread := by
  have hkept : s.count ≤ max s.count s.maxThread := Int.le_max_left _ _
  have hsec {i : Nat} {w : Worker} (h : Section s i w t) :
      t.maxThread = s.maxThread ∧ t.count ≤ max s.count s.maxThread :=
    ⟨h.count_le.1, Int.le_trans h.count_le.2 hkept⟩
  cases Effect.of_step hs with
  | addtask _ hlink hengage =>
    obtain ⟨-, -, -, hcount, hmax, -⟩ := hlink.keeps
    have hbound := hengage.count_le
    rwa [hcount, hmax] at hbound
  | enter _ h => exact hsec h
  | resume _ _ h => exact hsec h
  | recheck _ h => exact hsec h
  | spurious _ => exact ⟨s.wake_maxThread _, (s.wake_count _).symm ▸ hkept⟩
  | announce _ =>
    obtain ⟨u, d, -, ⟨rfl, -⟩ | rfl, he⟩ := announceQuit_eq s _ <;> rw [he] <;>
      exact ⟨rfl, hkept⟩
  | await _ =>
    obtain ⟨d, -, he⟩ := awaitWorkers_eq s _
    rw [he]
    exact ⟨rfl, hkept⟩
  | timeout _ => exact ⟨rfl, hkept⟩
  | runTask _ _ => exact ⟨rfl, hkept⟩
  | freeTask _ _ => exact ⟨rfl, hkept⟩
  | callDestroy => exact ⟨rfl, hkept⟩
  | refuse _ _ => exact ⟨rfl, hkept⟩
  | proceed _ _ => exact ⟨rfl, hkept⟩
  | finish _ => exact ⟨rfl, hkept⟩

/-- Where creations succeed, none of those that a step makes fails. -/
theorem count_creations {a : Action F A} (h : CreateSucceeds a) :
    (s.creations a).count false = 0 := by
  cases a with
  | addtask run arg node created choice =>
    obtain rfl : created = true := h
    simp only [State.creations]
    split_ifs <;> rfl
  | _ => rfl

/-- A pool without lost creations is accounted for. -/
theorem Manned.accounted {threads : Int} (h : Manned 0 s) (ha : Announced s)
    (hmax : s.maxThread = threads) : Accounted threads s :=
  ⟨hmax, h.idle, h.count.trans (Int.add_zero _), ha.quit, ha.noSleeper⟩

/-- A pool that is accounted for has lost no creation. -/
theorem Accounted.manned {threads : Int} (h : Accounted threads s) : Manned 0 s :=
  ⟨h.idle, h.count.trans (Int.add_zero _).symm⟩

/-- In a pool that is accounted for `quit` has its meaning. -/
theorem Accounted.announced {threads : Int} (h : Accounted threads s) : Announced s :=
  ⟨h.quit, h.noSleeper⟩

/-- A sleeping worker is counted by `idle`. -/
theorem Accounted.idle_pos {threads : Int} (h : Accounted threads s)
    (hmem : Worker.waiting ∈ s.workers) : 0 < s.idle := h.manned.idle_pos hmem

/-- An exit leaves the pool accounted for. -/
theorem Accounted.exit {threads : Int} (h : Accounted threads s) {i : Nat} {w : Worker}
    {idle' : Int} (hw : s.workers[i]? = some w) (hlive : w.alive = true)
    (hidle : idle' = s.idle - w.waits) : Accounted threads { s with
      idle := idle', count := s.count - 1, workers := s.workers.set i .exited } :=
  (h.manned.exit hw hlive hidle).accounted (h.announced.setWorker .exited (by simp) rfl rfl rfl)
    h.maxThread

/-- Linking a node leaves the pool accounted for. -/
theorem Accounted.linked {threads : Int} (h : Accounted threads s) {node : Addr} {run : F}
    {arg : A} (hlink : Linked s node run arg t) : Accounted threads t := by
  cases hlink <;> exact ⟨h.maxThread, h.idle, h.count, h.quit, h.noSleeper⟩

/-- Every step that loses no creation leaves the pool accounted for. -/
theorem Accounted.step {threads : Int} (h : Accounted threads s) {a : Action F A}
    (hcreate : CreateSucceeds a) (hs : step s a = next t) : Accounted threads t := by
  have hmanned := h.manned.step hs
  rw [count_creations hcreate] at hmanned
  exact hmanned.accounted (h.announced.step h.manned hs) ((bound_step hs).1.trans h.maxThread)

/-- A fresh pool is accounted for. -/
theorem accounted_init (threads : Int) :
    Accounted threads (threadPoolInit threads : State F A) :=
  ⟨rfl, rfl, rfl, by simp [threadPoolInit], by simp [threadPoolInit]⟩

/-- The counters mean what they should in every reachable state. -/
theorem Reachable.accounted {threads : Int} {ok : State F A → Action F A → Prop}
    (h : Reachable ok threads s) (hok : ∀ s a, ok s a → CreateSucceeds a) :
    Accounted threads s :=
  h.invariant (accounted_init threads) fun _ _ _ hinv ha hs => hinv.step (hok _ _ ha) hs

/-- The workers of a pool without live ones are all gone. -/
theorem Accounted.exited_of_count {threads : Int} (h : Accounted threads s)
    (hcount : s.count = 0) {w : Worker} (hw : w ∈ s.workers) : w = .exited :=
  h.manned.exited_of_count hcount hw

end NetworkCode.ThreadPool
