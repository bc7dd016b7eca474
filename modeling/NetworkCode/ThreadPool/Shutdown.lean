import NetworkCode.ThreadPool.Attendance
import NetworkCode.ThreadPool.Queue

/-!
# Shutting the pool down

One thread calls `threadPool_destroy` after all tasks were added. Of the two
exits of a worker only the one on `quit` signals when it brings `count` to 0;
that is enough as long as the exit on `timeout` is not taken with `quit` set,
which would need a queued task. Then a sleeping destroyer always waits for a
live worker, and it returns from a pool whose workers are gone, whose queue is
empty and whose tasks have all run.
-/

namespace NetworkCode.ThreadPool

open StepResult

variable {F A : Type*} {s t : State F A}

/-- One thread calls `threadPool_destroy`, and all tasks are added before. -/
def SingleDestroy (s : State F A) : Action F A → Prop
  | .callDestroy => s.destroyers = []
  | .addtask .. => s.destroyers = []
  | _ => True

instance (s : State F A) (a : Action F A) : Decidable (SingleDestroy s a) :=
  match a with
  | .callDestroy | .addtask .. => inferInstanceAs (Decidable (s.destroyers = []))
  | .enter .. | .timeout .. | .spurious .. | .resume .. | .runTask .. | .freeTask ..
  | .recheck .. | .testQuit .. | .lockDestroy .. | .resumeDestroy .. | .finishDestroy .. =>
    inferInstanceAs (Decidable True)

/-- What `threadPool_destroy` promises when it returns: the workers are gone, the
queue is empty, and every task that was added has run to completion. -/
def Finished (s : State F A) : Prop :=
  s.count = 0 ∧ s.first = none ∧ (s.ran.map Prod.snd).Perm s.added

/-- A sleeping destroyer is waiting for a worker that still exists. -/
def Awaited (s : State F A) : Prop := Destroyer.waiting ∈ s.destroyers → s.count ≠ 0

/-- The invariant of a run with one destroyer. -/
structure Closing (s : State F A) : Prop where
  alone : s.destroyers.length ≤ 1
  awaited : Awaited s
  gone : ∀ d ∈ s.destroyers, d = .leaving ∨ d = .returned → s.count = 0

/-- The only caller found at some index is the whole list of callers. -/
theorem Closing.eq_singleton (h : Closing s) {j : Nat} {d : Destroyer}
    (hd : s.destroyers[j]? = some d) : s.destroyers = [d] ∧ j = 0 := by
  obtain ⟨hj, hget⟩ := List.getElem?_eq_some_iff.mp hd
  have hlen := h.alone
  obtain ⟨e, he⟩ := List.length_eq_one_iff.mp (show s.destroyers.length = 1 by omega)
  have hzero : j = 0 := by omega
  subst hzero
  have hde : e = d := by simpa [he] using hget
  exact ⟨by rw [he, hde], rfl⟩

/-- Replacing the only caller. -/
theorem Closing.setDestroyer (h : Closing s) {j : Nat} {d : Destroyer} (d' : Destroyer)
    (hd : s.destroyers[j]? = some d) (hdestroyers : t.destroyers = s.destroyers.set j d')
    (hsleep : d' = .waiting → t.count ≠ 0) (hgone : d' = .leaving ∨ d' = .returned → t.count = 0) :
    Closing t := by
  obtain ⟨hall, rfl⟩ := h.eq_singleton hd
  have ht : t.destroyers = [d'] := by rw [hdestroyers, hall]; rfl
  refine ⟨by simp [ht], ?_, ?_⟩
  · intro hmem
    rw [ht, List.mem_singleton] at hmem
    exact hsleep hmem.symm
  · intro e he
    rw [ht, List.mem_singleton] at he
    subst he
    exact hgone

/-- A step that changes neither the callers nor `count` keeps the invariant. -/
theorem Closing.congr (h : Closing s) (hdestroyers : t.destroyers = s.destroyers)
    (hcount : t.count = s.count) : Closing t where
  alone := hdestroyers ▸ h.alone
  awaited := by
    unfold Awaited
    rw [hdestroyers, hcount]
    exact h.awaited
  gone := by rw [hdestroyers, hcount]; exact h.gone

/-- Nothing is asked of a pool that nobody is destroying. -/
theorem closing_of_no_caller (h : s.destroyers = []) : Closing s :=
  ⟨by simp [h], by simp [Awaited, h], by simp [h]⟩

/-- A wake-up keeps the invariant. -/
theorem Closing.wake (h : Closing s) {w : Waiter} (hw : s.asleep w = true) :
    Closing (s.wake w) := by
  cases w with
  | worker i => exact h.congr rfl rfl
  | destroyer j =>
    have hj : s.destroyers[j]? = some .waiting := by simpa [State.asleep] using hw
    exact h.setDestroyer .woken hj rfl (by simp) (by simp)

/-- Where at most one destroyer and no worker sleeps, a signal leaves nobody asleep. -/
theorem Signalled.notMem_waiting (hs : Signalled s t) (hquiet : Worker.waiting ∉ s.workers)
    (hone : s.destroyers.countP (· == Destroyer.waiting) ≤ 1) :
    Destroyer.waiting ∉ t.destroyers := by
  cases hs with
  | nobody hnone =>
    simp only [State.anyAsleep, Bool.or_eq_false_iff] at hnone
    simpa using hnone.2
  | @woke w hw =>
    cases w with
    | worker i =>
      have hi : s.workers[i]? = some .waiting := by simpa [State.asleep] using hw
      exact absurd (List.mem_of_getElem? hi) hquiet
    | destroyer j =>
      have hj : s.destroyers[j]? = some .waiting := by simpa [State.asleep] using hw
      have hset := countP_set_eq (p := (· == Destroyer.waiting)) hj .woken
      rw [indicator_eq_one rfl, indicator_eq_zero rfl] at hset
      have hnone : (s.destroyers.set j .woken).countP (· == Destroyer.waiting) = 0 := by omega
      intro hmem
      exact List.countP_eq_zero.mp hnone _ hmem rfl

/-- The last worker that quits wakes the sleeping destroyer. -/
theorem Accounted.awaited_of_signal {threads : Int} (h : Accounted threads s)
    (hquit : s.quit = true) (hlen : s.destroyers.length ≤ 1) (hs : Signalled s t) :
    Destroyer.waiting ∉ t.destroyers :=
  hs.notMem_waiting (h.noSleeper hquit) (Nat.le_trans List.countP_le_length hlen)

/-- A signal from the last worker leaves a pool that may be left. -/
theorem Signalled.closing (hs : Signalled s t) (hzero : s.count = 0)
    (hlen : s.destroyers.length ≤ 1) (hawake : Destroyer.waiting ∉ t.destroyers) : Closing t := by
  have hcount : t.count = 0 :=
    hs.keeps (P := fun u => u.count = 0) hzero fun _ _ => by simpa using hzero
  have hlength : t.destroyers.length ≤ 1 := by
    refine hs.keeps (P := fun u => u.destroyers.length ≤ 1) hlen ?_
    rintro (i | j) _
    · exact hlen
    · simpa [State.wake] using hlen
  exact ⟨hlength, fun hmem => absurd hmem hawake, fun _ _ _ => hcount⟩

/-- A worker in a critical section is alive, so nobody has left the pool yet. -/
theorem Closing.not_gone {threads : Int} (h : Closing s) (hacc : Accounted threads s) {i : Nat}
    {w : Worker} (hw : s.workers[i]? = some w) (hlive : w.alive = true) :
    ∀ d ∈ s.destroyers, ¬(d = .leaving ∨ d = .returned) := by
  intro d hd hleft
  have hexit := hacc.exited_of_count (h.gone d hd hleft) (List.mem_of_getElem? hw)
  subst hexit
  cases hlive

/-- A worker that gives up without `quit` leaves no destroyer asleep: there is none. -/
theorem Accounted.no_destroyer_asleep {threads : Int} (h : Accounted threads s)
    (hquit : s.quit ≠ true) : Destroyer.waiting ∉ s.destroyers := fun hmem =>
  hquit (h.quit.mpr (List.countP_pos_iff.mpr ⟨_, hmem, rfl⟩))

/-- The critical sections of `thread_routine` keep the invariant, except for the
exit on a stale timeout. -/
theorem Closing.section {threads : Int} (h : Closing s) (hacc : Accounted threads s) {i : Nat}
    {w : Worker} (hw : s.workers[i]? = some w) (hlive : w.alive = true)
    (hidle : w = .relock true → s.first = none) (hsec : Section s i w t) : Closing t := by
  have hstill := h.not_gone hacc hw hlive
  cases hsec with
  | sleep _ _ _ _ => exact h.congr rfl rfl
  | take _ _ _ _ => exact h.congr rfl rfl
  | @quit idle' u _ hpc hi _ hquit hu ht =>
    have hexit : Accounted threads u := hu ▸ hacc.exit hw hlive hi
    have hdest : u.destroyers = s.destroyers := by rw [hu]
    have hclosing : u.count ≠ 0 → Closing u := fun hne =>
      ⟨hdest ▸ h.alone, fun _ => hne, fun d hd hleft => absurd hleft (hstill d (hdest ▸ hd))⟩
    rcases ht with ⟨hne, rfl⟩ | ⟨hzero, hsig⟩
    · exact hclosing hne
    · have hq : u.quit = true := by rw [hu]; exact hquit
      have hawake := hexit.awaited_of_signal hq (hdest ▸ h.alone) hsig
      exact hsig.closing hzero (hdest ▸ h.alone) hawake
  | giveUp hpc _ hstay =>
    have hfirst : s.first = none := by
      rcases hpc with ⟨_, hfirst⟩ | hrelock
      · exact hfirst
      · exact hidle hrelock
    have hquit : s.quit ≠ true := fun hq => hstay ⟨hq, hfirst⟩
    exact ⟨h.alone, fun hmem => absurd hmem (hacc.no_destroyer_asleep hquit),
      fun d hd hleft => absurd hleft (hstill d hd)⟩
  | again _ _ => exact h.congr rfl rfl

/-- Adding a task while nobody destroys the pool brings no destroyer about. -/
theorem no_caller_of_addtask {node : Addr} {run : F} {arg : A} {created : Bool} {u : State F A}
    (h : s.destroyers = []) (hlink : Linked s node run arg u) (heng : Engaged u created t) :
    t.destroyers = [] := by
  have hu : u.destroyers = [] := by cases hlink <;> exact h
  cases heng with
  | signal _ hs =>
    refine hs.keeps (P := fun v => v.destroyers = []) hu ?_
    rintro (i | j) _
    · exact hu
    · simp [State.wake, hu]
  | create _ _ => exact hu
  | full _ _ => exact hu

/-- A caller that is alone and has looked at `count` sleeps on live workers, or leaves a pool
without workers. -/
theorem closing_of_looked {d : Destroyer} (hall : t.destroyers = [d]) (hlook : d.Looked t.count)
    (hnonneg : 0 ≤ t.count) : Closing t where
  alone := by
    rw [hall]
    exact Nat.le_refl 1
  awaited hmem := by
    rw [hall, List.mem_singleton] at hmem
    rcases hlook with ⟨-, hne⟩ | ⟨rfl, -⟩
    · exact hne
    · cases hmem
  gone e he hleft := by
    rw [hall, List.mem_singleton] at he
    subst he
    rcases hlook with ⟨rfl, -⟩ | ⟨-, hle⟩
    · rcases hleft with hleft | hleft <;> cases hleft
    · omega

/-- The critical section of the only caller keeps the invariant. -/
theorem Closing.announceQuit {threads : Int} (h : Closing s) (hacc : Accounted threads s)
    {j : Nat} (hd : s.destroyers[j]? = some .locking) : Closing (announceQuit s j) := by
  obtain ⟨hall, rfl⟩ := h.eq_singleton hd
  have hnonneg := hacc.manned.count_nonneg
  obtain ⟨u, d, hlook, ⟨rfl, -⟩ | rfl, he⟩ := announceQuit_eq s 0
  · rw [he]
    exact closing_of_looked (by simp [hall]) hlook hnonneg
  · rw [he]
    exact closing_of_looked (by simp [conditionBroadcast, hall]) hlook hnonneg

/-- Behind its wait the only caller sleeps again on live workers, or leaves. -/
theorem Closing.awaitWorkers {threads : Int} (h : Closing s) (hacc : Accounted threads s)
    {j : Nat} {d : Destroyer} (hd : s.destroyers[j]? = some d) : Closing (awaitWorkers s j) := by
  obtain ⟨hall, rfl⟩ := h.eq_singleton hd
  obtain ⟨d', hlook, he⟩ := awaitWorkers_eq s 0
  rw [he]
  exact closing_of_looked (by simp [hall]) hlook hacc.manned.count_nonneg

/-- The steps of the runs considered here. -/
def Orderly (s : State F A) (a : Action F A) : Prop := Prompt s a ∧ SingleDestroy s a

instance (s : State F A) (a : Action F A) : Decidable (Orderly s a) :=
  inferInstanceAs (Decidable (_ ∧ _))

/-- Every orderly step keeps the invariant. -/
theorem Closing.step {threads : Int} (h : Closing s) (hacc : Accounted threads s)
    {a : Action F A} (hok : Orderly s a) (hs : step s a = next t) : Closing t := by
  obtain ⟨⟨_, hidle⟩, hsingle⟩ := hok
  cases Effect.of_step hs with
  | addtask _ hlink hengage =>
    exact closing_of_no_caller (no_caller_of_addtask hsingle hlink hengage)
  | enter hw hsec => exact h.section hacc hw rfl (by simp) hsec
  | resume hw hpc hsec =>
    refine h.section hacc hw ?_ ?_ hsec
    · rcases hpc with rfl | rfl <;> rfl
    · rcases hpc with rfl | rfl <;> simp
  | recheck hw hsec =>
    refine h.section hacc hw rfl ?_ hsec
    intro hrelock
    exact hidle (hrelock ▸ hw)
  | timeout _ => exact h.congr rfl rfl
  | spurious hw => exact h.wake hw
  | runTask _ _ => exact h.congr rfl rfl
  | freeTask _ _ => exact h.congr rfl rfl
  | callDestroy =>
    have hnone : s.destroyers = [] := hsingle
    exact ⟨by simp [hnone], by simp [Awaited, hnone], by simp [hnone]⟩
  | refuse hd hquit =>
    -- With a single caller nobody can have set `quit` before its test.
    obtain ⟨hall, _⟩ := h.eq_singleton hd
    have hpos := hacc.quit.mp hquit
    rw [hall] at hpos
    exact absurd hpos (by decide)
  | proceed hd _ => exact h.setDestroyer .locking hd rfl (by simp) (by simp)
  | announce hd => exact h.announceQuit hacc hd
  | await hd => exact h.awaitWorkers hacc hd
  | finish hd =>
    have hzero := h.gone _ (List.mem_of_getElem? hd) (Or.inl rfl)
    exact h.setDestroyer .returned hd rfl (by simp) (fun _ => hzero)

/-- The invariant holds on every orderly run. -/
theorem Reachable.closing {threads : Int} (h : Reachable Orderly threads s) : Closing s :=
  Reaches.invariant_with h (fun _ hr => Reachable.accounted hr fun _ _ ha => ha.1.1)
    (closing_of_no_caller rfl) fun _ _ _ hacc hinv hok hs => hinv.step hacc hok hs

/-- A pool without live workers whose queue is attended has run all its tasks. -/
theorem Accounted.finished {threads : Int} (h : Accounted threads s) (hattended : Attended s)
    {l : List (Addr × F × A)} (hl : Represents s l) (hcount : s.count = 0) : Finished s := by
  have hexited : ∀ w ∈ s.workers, w = .exited := fun w hw => h.exited_of_count hcount hw
  have hfirst : s.first = none := by
    by_contra hne
    obtain ⟨w, hw, hawake⟩ := hattended hne
    rw [hexited w hw] at hawake
    cases hawake
  have hunrun : ∀ i, s.unrun i = [] := by
    intro i
    have hload : s.load i = none := by
      unfold State.load
      cases hi : s.workers[i]? with
      | none => rfl
      | some w => rw [hexited w (List.mem_of_getElem? hi)]; rfl
    simp [State.unrun, hload]
  obtain rfl : l = [] := hl.chain.eq_nil_iff.mpr hfirst
  have hadded : s.taken.map Prod.snd = s.added := by simpa using hl.fifo
  have hback : ∀ i, byWorker i s.ran = byWorker i s.taken ++ [] := by
    intro i
    rw [hl.runs i, hunrun i, List.append_nil, List.append_nil]
  have hran : s.ran.Perm s.taken :=
    (subperm_of_byWorker hl.runs).antisymm (subperm_of_byWorker hback)
  exact ⟨hcount, hfirst, hadded ▸ hran.map Prod.snd⟩

/-- On every orderly run `threadPool_destroy` returns only from a finished pool,
and while it sleeps there is a live worker that will wake it. -/
theorem destroy_finishes {threads : Int} (hthreads : 1 ≤ threads)
    (h : Reachable Orderly threads s) :
    (Destroyer.returned ∈ s.destroyers → Finished s) ∧ Awaited s := by
  have hclosing := h.closing
  have hacc : Accounted threads s := h.accounted fun _ _ ha => ha.1.1
  have hattended : Attended s := Reachable.attended hthreads (fun _ _ ha => ha.1) h
  obtain ⟨l, hl⟩ := h.represents
  refine ⟨fun hret => ?_, hclosing.awaited⟩
  exact hacc.finished hattended hl (hclosing.gone _ hret (Or.inr rfl))

/-- One task is added, run by one worker, and the pool is destroyed while it runs. -/
def orderlyRun : List (Action Unit Nat) :=
  [.addtask () 1 0 true none, .enter 0 none, .callDestroy, .testQuit 0, .lockDestroy 0,
    .runTask 0, .freeTask 0, .recheck 0 (some (.destroyer 0)), .resumeDestroy 0,
    .finishDestroy 0]

/-- The orderly run ends with the destroyer returned from a finished pool. -/
theorem destroy_finishes_orderlyRun :
    ∃ t, runGuarded step Orderly (threadPoolInit 1) orderlyRun = next t ∧
      t.destroyers = [.returned] ∧ Finished t := by
  obtain ⟨t, ht, hdest⟩ :
      ∃ t, runGuarded step Orderly (threadPoolInit 1) orderlyRun = next t ∧
        t.destroyers = [.returned] :=
    ⟨_, rfl, rfl⟩
  have hpool := destroy_finishes (by decide) (Reaches.of_runGuarded step Orderly ht)
  exact ⟨t, ht, hdest, hpool.1 (by simp [hdest])⟩

/-- The pool is destroyed after `staleTimeoutRun` has lost its worker. -/
def destroyStrandedRun : List (Action Unit Nat) :=
  staleTimeoutRun ++ [.callDestroy, .testQuit 0, .lockDestroy 0, .finishDestroy 0]

/-- The pool is destroyed while its worker, timed out earlier, runs the second task. -/
def destroyBusyRun : List (Action Unit Nat) :=
  [.addtask () 1 0 true none, .enter 0 none, .runTask 0, .freeTask 0, .recheck 0 none,
    .enter 0 none, .timeout 0, .addtask () 2 0 true none, .resume 0 none,
    .addtask () 3 1 true none, .callDestroy, .testQuit 0, .lockDestroy 0, .runTask 0,
    .freeTask 0, .recheck 0 none]

/-- Without the guard both promises fail: `threadPool_destroy` returns from a pool
with a queued task, and it sleeps for ever on a pool without workers. -/
theorem stale_timeout_breaks_destroy :
    ¬(∀ (threads : Int) (s : State Unit Nat), 1 ≤ threads →
      Reachable (fun s a => CreateSucceeds a ∧ SingleDestroy s a) threads s →
        Destroyer.returned ∈ s.destroyers → Finished s) ∧
    ¬(∀ (threads : Int) (s : State Unit Nat), 1 ≤ threads →
      Reachable (fun s a => CreateSucceeds a ∧ SingleDestroy s a) threads s → Awaited s) := by
  constructor
  · intro h
    obtain ⟨t, ht, hfirst, hdest⟩ :
        ∃ t, runGuarded step (fun s a => CreateSucceeds a ∧ SingleDestroy s a)
          (threadPoolInit 1) destroyStrandedRun = next t ∧ t.first = some 1 ∧
          t.destroyers = [.returned] :=
      ⟨_, rfl, rfl, rfl⟩
    have hdone := h 1 t (by decide) (Reaches.of_runGuarded step _ ht) (by simp [hdest])
    rw [hdone.2.1] at hfirst
    cases hfirst
  · intro h
    obtain ⟨t, ht, hcount, hdest⟩ :
        ∃ t, runGuarded step (fun s a => CreateSucceeds a ∧ SingleDestroy s a)
          (threadPoolInit 1) destroyBusyRun = next t ∧ t.count = 0 ∧
          t.destroyers = [.waiting] :=
      ⟨_, rfl, rfl, rfl⟩
    exact h 1 t (by decide) (Reaches.of_runGuarded step _ ht) (by simp [hdest]) hcount

end NetworkCode.ThreadPool
