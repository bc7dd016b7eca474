import NetworkCode.ThreadPool.Shutdown
import NetworkCode.ThreadPool.Staffing

/-!
# Several calls of `threadPool_destroy`

`threadPool_destroy` tests `quit` without the mutex and returns when it is set, before the
workers are gone. Two callers that both find it unset both wait, of which the last worker wakes
one, and both destroy the mutex and the condition variable. In runs in which the calls come in
turn, the first one alone waits and destroys, and the others find the pool empty.
-/

namespace NetworkCode.ThreadPool

open StepResult

variable {F A : Type*} {s t u : State F A}

/-! ## What several calls are promised -/

/-- The state of the pool when a call of `threadPool_destroy` returns. -/
structure Return where
  count : Int
  executing : Nat
  deriving DecidableEq, Repr

/-- The return that the action brings about: that of a call which finds `quit` set, or which has
destroyed the mutex and the condition variable. -/
def State.returns (s : State F A) : Action F A → List Return
  | .testQuit _ =>
    if s.quit then [⟨s.count, s.workers.countP Worker.executing⟩] else []
  | .finishDestroy _ => [⟨s.count, s.workers.countP Worker.executing⟩]
  | _ => []

/-- Nobody waits for workers that are gone, which would be for ever (`Manned.asleep_forever`), and
the mutex and the condition variable are destroyed once, after their last use: what calls do then
is come and test `quit` (`Dissolved.passive`). -/
structure Dissolved (s : State F A) : Prop where
  awaited : Awaited s
  destroyed_le : s.destroyed ≤ 1
  destroyed_eq : s.destroyers ≠ [] → (∀ d ∈ s.destroyers, d = .returned) → s.destroyed = 1
  unused : 0 < s.destroyed → (∀ w ∈ s.workers, w = .exited) ∧
    ∀ d ∈ s.destroyers, d = .called ∨ d = .returned

/-- The calls come in turn: one that finds `quit` unset is alone between its test and its lock,
one that finds it set comes behind the last worker. The last worker does not leave a waiting
caller because of a timeout with tasks queued, and no task is added behind the last worker. -/
def InTurn (s : State F A) : Action F A → Prop
  | .testQuit _ => if s.quit then s.count = 0 else Destroyer.locking ∉ s.destroyers
  | .recheck i _ => s.workers[i]? = some (.relock true) → s.first ≠ none → s.count = 1 →
      Destroyer.waiting ∉ s.destroyers
  | .addtask .. => Destroyer.leaving ∉ s.destroyers ∧ s.destroyed = 0
  | _ => True

instance decidableInTurn (s : State F A) (a : Action F A) : Decidable (InTurn s a) :=
  match a with
  | .testQuit _ =>
    inferInstanceAs (Decidable (if s.quit then s.count = 0 else Destroyer.locking ∉ s.destroyers))
  | .recheck i _ =>
    inferInstanceAs (Decidable (s.workers[i]? = some (Worker.relock true) → s.first ≠ none →
      s.count = 1 → Destroyer.waiting ∉ s.destroyers))
  | .addtask .. =>
    inferInstanceAs (Decidable (Destroyer.leaving ∉ s.destroyers ∧ s.destroyed = 0))
  | .enter .. | .timeout .. | .spurious .. | .resume .. | .runTask .. | .freeTask ..
  | .callDestroy | .lockDestroy .. | .resumeDestroy .. | .finishDestroy .. =>
    inferInstanceAs (Decidable True)

/-! ## A caller that nobody wakes -/

/-- No task is added, and no caller wakes up without a signal. -/
def Unprompted (_ : State F A) : Action F A → Prop
  | .addtask .. => False
  | .spurious (.destroyer _) => False
  | _ => True

/-- Replacing a caller that does not sleep leaves the sleeping one asleep. -/
theorem waiting_of_set {j k : Nat} {d d' : Destroyer} (h : s.destroyers[j]? = some .waiting)
    (hd : s.destroyers[k]? = some d) (hne : d ≠ .waiting) :
    (s.destroyers.set k d')[j]? = some .waiting := by
  have hkj : k ≠ j := by
    rintro rfl
    exact hne (Option.some.inj (hd.symm.trans h))
  rw [List.getElem?_set_ne hkj, h]

/-- A caller that sleeps on a pool without workers is not woken by a step. -/
theorem Manned.asleep_step {lost : Nat} (hm : Manned lost s) {j : Nat}
    (h : s.destroyers[j]? = some .waiting) (hzero : s.count = 0) {a : Action F A}
    (hok : Unprompted s a) (hs : ThreadPool.step s a = next t) :
    t.destroyers[j]? = some .waiting ∧ t.count = 0 := by
  have hexited {i : Nat} {w : Worker} (hw : s.workers[i]? = some w) : w = .exited :=
    hm.exited_of_count hzero (List.mem_of_getElem? hw)
  cases Effect.of_step hs with
  | addtask => exact hok.elim
  | enter hw _ => cases hexited hw
  | resume hw hpc _ =>
    obtain rfl := hexited hw
    rcases hpc with hpc | hpc <;> cases hpc
  | recheck hw _ => cases hexited hw
  | timeout hw => cases hexited hw
  | @spurious w hw =>
    cases w with
    | worker i =>
      have hi : s.workers[i]? = some .waiting := by simpa [State.asleep] using hw
      cases hexited hi
    | destroyer k => exact hok.elim
  | runTask hw _ => cases hexited hw
  | freeTask hw _ => cases hexited hw
  | callDestroy =>
    obtain ⟨hj, -⟩ := List.getElem?_eq_some_iff.mp h
    exact ⟨(List.getElem?_append_left hj).trans h, hzero⟩
  | refuse hd _ => exact ⟨waiting_of_set h hd (by simp), hzero⟩
  | proceed hd _ => exact ⟨waiting_of_set h hd (by simp), hzero⟩
  | announce hd =>
    -- With `count` 0 the critical section broadcasts nothing.
    have hle : ¬ s.count > 0 := by omega
    simp only [ThreadPool.announceQuit, if_neg hle]
    exact ⟨waiting_of_set h hd (by simp), hzero⟩
  | await hd =>
    obtain ⟨d, -, he⟩ := awaitWorkers_eq s _
    rw [he]
    exact ⟨waiting_of_set h hd (by simp), hzero⟩
  | finish hd => exact ⟨waiting_of_set h hd (by simp), hzero⟩

/-- A caller that sleeps on a pool without workers sleeps for ever. -/
theorem Manned.asleep_forever {lost : Nat} (hm : Manned lost s) {j : Nat}
    (h : s.destroyers[j]? = some .waiting) (hzero : s.count = 0)
    (hrun : Reaches ThreadPool.step Unprompted s t) : t.destroyers[j]? = some .waiting := by
  have hinv : (∃ lost, Manned lost t) ∧ t.destroyers[j]? = some .waiting ∧ t.count = 0 := by
    refine hrun.invariant (I := fun t => (∃ lost, Manned lost t) ∧
      t.destroyers[j]? = some .waiting ∧ t.count = 0) ⟨⟨lost, hm⟩, h, hzero⟩ ?_
    rintro t a u ⟨⟨lost, hm⟩, h, hzero⟩ hok hs
    exact ⟨⟨_, hm.step hs⟩, hm.asleep_step h hzero hok hs⟩
  exact hinv.2.1

/-! ## The invariant -/

/-- The caller has passed its test and has not destroyed anything yet. -/
def Destroyer.active : Destroyer → Bool
  | .called | .returned => false
  | _ => true

/-- How many calls have passed their test, those that have destroyed counted as often as they
did. -/
def State.parties (s : State F A) : Nat := s.destroyers.countP Destroyer.active + s.destroyed

/-- One call at most takes part in the destruction: it waits for live workers, and leaves when
there are none. -/
structure Sole (s : State F A) : Prop where
  alone : s.parties ≤ 1
  begun : s.quit = true → 1 ≤ s.parties
  opened : s.quit = false → s.destroyed = 0
  awaited : Awaited s
  gone : Destroyer.leaving ∈ s.destroyers ∨ 0 < s.destroyed → s.count = 0

/-- Nobody takes part before the first call. -/
theorem sole_init (threads : Int) : Sole (threadPoolInit threads : State F A) where
  alone := Nat.zero_le 1
  begun hquit := by cases hquit
  opened _ := rfl
  awaited hmem := absurd hmem List.not_mem_nil
  gone hgone := hgone.elim (fun hmem => absurd hmem List.not_mem_nil)
    fun hpos => absurd hpos (Nat.lt_irrefl 0)

/-- A step that changes neither `quit` nor who takes part keeps the invariant as long as `count`
fits the callers. -/
theorem Sole.keep (h : Sole s) (hparties : t.parties = s.parties) (hquit : t.quit = s.quit)
    (hdestroyed : t.destroyed = s.destroyed) (hawaited : Awaited t)
    (hgone : Destroyer.leaving ∈ t.destroyers ∨ 0 < t.destroyed → t.count = 0) : Sole t where
  alone := by
    rw [hparties]
    exact h.alone
  begun := by
    rw [hparties, hquit]
    exact h.begun
  opened := by
    rw [hquit, hdestroyed]
    exact h.opened
  awaited := hawaited
  gone := hgone

/-- A step that changes neither the callers nor `count` keeps the invariant. -/
theorem Sole.congr (h : Sole s) (hdestroyers : t.destroyers = s.destroyers)
    (hdestroyed : t.destroyed = s.destroyed) (hquit : t.quit = s.quit)
    (hcount : t.count = s.count) : Sole t := by
  refine h.keep ?_ hquit hdestroyed ?_ ?_
  · rw [State.parties, State.parties, hdestroyers, hdestroyed]
  · rw [Awaited, hdestroyers, hcount]
    exact h.awaited
  · rw [hdestroyers, hdestroyed, hcount]
    exact h.gone

/-- Replacing one caller moves the number of those that take part. -/
theorem parties_set {j : Nat} {d : Destroyer} (hd : s.destroyers[j]? = some d) (d' : Destroyer)
    (hdestroyers : t.destroyers = s.destroyers.set j d') :
    (t.parties : Int) = s.parties - indicator Destroyer.active d + indicator Destroyer.active d' +
      (t.destroyed - s.destroyed) := by
  have hset := countP_set_eq (p := Destroyer.active) hd d'
  rw [State.parties, State.parties, hdestroyers]
  omega

/-- Behind a replacement that puts nobody to sleep on a pool without workers, nobody sleeps on
one. -/
theorem Sole.awaited_set (h : Sole s) {j : Nat} {d : Destroyer}
    (hsleep : d = .waiting → s.count ≠ 0) (hmem : Destroyer.waiting ∈ s.destroyers.set j d) :
    s.count ≠ 0 := by
  rcases List.mem_or_eq_of_mem_set hmem with hmem | hmem
  · exact h.awaited hmem
  · exact hsleep hmem.symm

/-- Behind a replacement that lets nobody leave a pool with workers, nobody leaves one. -/
theorem Sole.gone_set (h : Sole s) {j : Nat} {d : Destroyer} (hleave : d = .leaving → s.count = 0)
    (hgone : Destroyer.leaving ∈ s.destroyers.set j d ∨ 0 < s.destroyed) : s.count = 0 := by
  rcases hgone with hmem | hpos
  · rcases List.mem_or_eq_of_mem_set hmem with hmem | hmem
    · exact h.gone (.inl hmem)
    · exact hleave hmem.symm
  · exact h.gone (.inr hpos)

/-- A caller that goes on without passing its test or destroying anything. -/
theorem Sole.setDestroyer (h : Sole s) {j : Nat} {d : Destroyer} (d' : Destroyer)
    (hd : s.destroyers[j]? = some d) (hactive : d'.active = d.active)
    (hsleep : d' = .waiting → s.count ≠ 0) (hleave : d' = .leaving → s.count = 0) :
    Sole { s with destroyers := s.destroyers.set j d' } := by
  refine h.keep ?_ rfl rfl (h.awaited_set hsleep) (h.gone_set hleave)
  have hset := parties_set (t := { s with destroyers := s.destroyers.set j d' }) hd d' rfl
  rw [indicator, indicator, hactive] at hset
  dsimp only at hset
  omega

/-- A wake-up keeps the invariant. -/
theorem Sole.wake (h : Sole s) {w : Waiter} (hw : s.asleep w = true) : Sole (s.wake w) := by
  cases w with
  | worker i => exact h.congr rfl rfl rfl rfl
  | destroyer j =>
    have hj : s.destroyers[j]? = some .waiting := by simpa [State.asleep] using hw
    exact h.setDestroyer .woken hj rfl (by simp) (by simp)

/-- A broadcast keeps the invariant. -/
theorem Sole.broadcast (h : Sole s) : Sole (conditionBroadcast s) := by
  refine h.keep ?_ rfl rfl ?_ ?_
  · have hcount : (conditionBroadcast s).destroyers.countP Destroyer.active =
        s.destroyers.countP Destroyer.active := by
      refine countP_map_eq ?_ _
      intro d
      cases d <;> rfl
    exact congrArg (· + s.destroyed) hcount
  · intro hmem
    obtain ⟨d, -, hd⟩ := List.mem_map.mp hmem
    split at hd <;> simp_all
  · rintro (hmem | hpos)
    · obtain ⟨d, hd, he⟩ := List.mem_map.mp hmem
      split at he
      · cases he
      · exact h.gone (.inl (he ▸ hd))
    · exact h.gone (.inr hpos)

/-! ## The workers -/

/-- What `condition_signal` leaves alone. -/
theorem Signalled.keeps_parties (hs : Signalled s t) : t.parties = s.parties ∧
    t.quit = s.quit ∧ t.destroyed = s.destroyed ∧ t.count = s.count := by
  refine hs.keeps (P := fun t => t.parties = s.parties ∧ t.quit = s.quit ∧
    t.destroyed = s.destroyed ∧ t.count = s.count) ⟨rfl, rfl, rfl, rfl⟩ ?_
  rintro (i | j) hw
  · exact ⟨rfl, rfl, rfl, rfl⟩
  · have hj : s.destroyers[j]? = some .waiting := by simpa [State.asleep] using hw
    have hset := parties_set (t := s.wake (.destroyer j)) hj .woken rfl
    rw [indicator_eq_one rfl, indicator_eq_one rfl] at hset
    have hdestroyed : (s.wake (.destroyer j)).destroyed = s.destroyed := rfl
    exact ⟨by omega, rfl, rfl, rfl⟩

/-- At most one caller waits. -/
theorem Sole.waiting_le (h : Sole s) :
    s.destroyers.countP (· == Destroyer.waiting) ≤ 1 := by
  have hle : s.destroyers.countP (· == Destroyer.waiting) ≤
      s.destroyers.countP Destroyer.active := by
    refine List.countP_mono_left fun d _ hd => ?_
    rw [eq_of_beq hd]
    rfl
  have halone := h.alone
  rw [State.parties] at halone
  omega

/-- A sleeping caller has set `quit`. -/
theorem Announced.quit_of_waiting (h : Announced s) (hmem : Destroyer.waiting ∈ s.destroyers) :
    s.quit = true :=
  h.quit.mpr (List.countP_pos_iff.mpr ⟨_, hmem, rfl⟩)

/-- A critical section of `thread_routine` keeps the invariant, unless the last worker leaves
because of a timeout while a caller waits. -/
theorem Sole.section (h : Sole s) {lost : Nat} (hm : Manned lost s) (ha : Announced s) {i : Nat}
    {w : Worker} (hw : s.workers[i]? = some w) (hlive : w.alive = true)
    (hlast : w = .relock true → s.first ≠ none → s.count = 1 →
      Destroyer.waiting ∉ s.destroyers) (hsec : Section s i w t) : Sole t := by
  have hpos : 0 < s.count := hm.count_pos (List.mem_of_getElem? hw) hlive
  have hstill : ¬ (Destroyer.leaving ∈ s.destroyers ∨ 0 < s.destroyed) := by
    intro hgone
    have hzero := h.gone hgone
    omega
  cases hsec with
  | sleep _ _ _ _ => exact h.congr rfl rfl rfl rfl
  | take _ _ _ _ => exact h.congr rfl rfl rfl rfl
  | @quit idle' u _ _ _ _ hquit hu ht =>
    rcases ht with ⟨hne, rfl⟩ | ⟨hzero, hsig⟩
    · subst hu
      exact h.keep rfl rfl rfl (fun _ => hne) (fun hgone => absurd hgone hstill)
    · -- The signal of the last worker finds the only caller that may wait.
      obtain ⟨hparties, hquit', hdestroyed, hcount⟩ := hsig.keeps_parties
      have hquiet : Worker.waiting ∉ u.workers := by
        have hexit : Announced u := hu ▸ ha.setWorker .exited (by simp) rfl rfl rfl
        exact hexit.noSleeper (hu ▸ hquit)
      have hawake : Destroyer.waiting ∉ t.destroyers := by
        refine hsig.notMem_waiting hquiet ?_
        subst hu
        exact h.waiting_le
      refine h.keep ?_ ?_ ?_ (fun hmem => absurd hmem hawake) (fun _ => hcount.trans hzero)
      · rw [hparties, hu]
        rfl
      · rw [hquit', hu]
      · rw [hdestroyed, hu]
  | giveUp hpc _ hstay =>
    refine h.keep rfl rfl rfl ?_ (fun hgone => absurd hgone hstill)
    intro hmem hzero
    have hfirst : s.first ≠ none := fun hnone => hstay ⟨ha.quit_of_waiting hmem, hnone⟩
    have hcount : s.count = 1 := by
      dsimp only at hzero
      omega
    rcases hpc with ⟨-, hnone⟩ | hrelock
    · exact hfirst hnone
    · exact hlast hrelock hfirst hcount hmem
  | again _ _ => exact h.congr rfl rfl rfl rfl

/-- Linking a node does not touch what `condition_destroy` counts. -/
theorem Linked.keeps_destroyed {node : Addr} {run : F} {arg : A} (h : Linked s node run arg t) :
    t.destroyed = s.destroyed := by
  cases h <;> rfl

/-- Waking or starting a worker keeps the invariant as long as nobody leaves. -/
theorem Sole.engaged (h : Sole s) {lost : Nat} (hm : Manned lost s)
    (hstill : ¬ (Destroyer.leaving ∈ s.destroyers ∨ 0 < s.destroyed)) {created : Bool}
    (heng : Engaged s created t) : Sole t := by
  cases heng with
  | signal _ hs => exact hs.keeps h fun _ hw => h.wake hw
  | create _ _ =>
    refine h.keep rfl rfl rfl ?_ (fun hgone => absurd hgone hstill)
    intro _ hzero
    have hnonneg := hm.count_nonneg
    dsimp only at hzero
    omega
  | full _ _ => exact h

/-! ## The callers -/

/-- A caller that takes part looks at `count`. -/
theorem Sole.look (h : Sole s) {lost : Nat} (hm : Manned lost s) {j : Nat} {d d' : Destroyer}
    (hd : s.destroyers[j]? = some d) (hactive : d.active = true) (hlook : d'.Looked s.count) :
    Sole { s with destroyers := s.destroyers.set j d' } := by
  have hnonneg := hm.count_nonneg
  rcases hlook with ⟨rfl, hne⟩ | ⟨rfl, hle⟩
  · exact h.setDestroyer .waiting hd hactive.symm (fun _ => hne) (by simp)
  · exact h.setDestroyer .leaving hd hactive.symm (by simp) (fun _ => by omega)

/-- Its first look comes with `quit` set. -/
theorem Sole.announce (h : Sole s) {lost : Nat} (hm : Manned lost s) {j : Nat} {d d' : Destroyer}
    (hd : s.destroyers[j]? = some d) (hactive : d.active = true) (hlook : d'.Looked s.count) :
    Sole { s with quit := true, destroyers := s.destroyers.set j d' } := by
  have hset := h.look hm hd hactive hlook
  have hmem : d' ∈ s.destroyers.set j d' := mem_set_of_getElem? hd d'
  have hactive' : d'.active = true := by rcases hlook with ⟨rfl, -⟩ | ⟨rfl, -⟩ <;> rfl
  have hpos : 0 < (s.destroyers.set j d').countP Destroyer.active :=
    List.countP_pos_iff.mpr ⟨d', hmem, hactive'⟩
  refine ⟨hset.alone, fun _ => ?_, fun hquit => (by cases hquit), hset.awaited, hset.gone⟩
  exact Nat.le_trans hpos (Nat.le_add_right _ _)

/-- The critical section of `threadPool_destroy` keeps the invariant. -/
theorem Sole.announceQuit (h : Sole s) {lost : Nat} (hm : Manned lost s) {j : Nat}
    (hd : s.destroyers[j]? = some .locking) : Sole (announceQuit s j) := by
  obtain ⟨u, d, hlook, ⟨rfl, -⟩ | rfl, he⟩ := announceQuit_eq s j
  · rw [he]
    exact h.announce hm hd rfl hlook
  · rw [he]
    have hmanned : Manned lost (conditionBroadcast s) := by
      obtain ⟨hwait, halive, -⟩ := broadcast_counts s
      exact ⟨hm.idle.trans (hwait ▸ rfl), hm.count.trans (halive ▸ rfl)⟩
    have hd' : (conditionBroadcast s).destroyers[j]? = some .locking := by
      simp [conditionBroadcast, hd]
    exact h.broadcast.announce hmanned hd' rfl hlook

/-- A call that finds `quit` unset, and nobody between test and lock, is the only one. -/
theorem Sole.proceed (h : Sole s) (ha : Announced s) {j : Nat}
    (hd : s.destroyers[j]? = some .called) (hquit : s.quit = false)
    (hturn : Destroyer.locking ∉ s.destroyers) :
    Sole { s with destroyers := s.destroyers.set j .locking } := by
  have hnone : s.destroyers.countP Destroyer.active = 0 := by
    rw [List.countP_eq_zero]
    intro d hmem hactive
    by_cases hpast : d.past = true
    · have hset : s.quit = true := ha.quit.mpr (List.countP_pos_iff.mpr ⟨d, hmem, hpast⟩)
      rw [hquit] at hset
      cases hset
    · cases d with
      | locking => exact hturn hmem
      | called => cases hactive
      | _ => exact hpast rfl
  have hzero : s.parties = 0 := by rw [State.parties, hnone, h.opened hquit]
  have hset := parties_set (t := { s with destroyers := s.destroyers.set j .locking }) hd .locking
    rfl
  rw [indicator_eq_zero rfl, indicator_eq_one rfl, hzero] at hset
  dsimp only at hset
  refine ⟨by omega, fun hq => ?_, h.opened, h.awaited_set (by simp), h.gone_set (by simp)⟩
  rw [hquit] at hq
  cases hq

/-- The caller that leaves destroys the mutex and the condition variable. -/
theorem Sole.finish (h : Sole s) (ha : Announced s) {j : Nat}
    (hd : s.destroyers[j]? = some .leaving) :
    Sole { s with destroyers := s.destroyers.set j .returned, destroyed := s.destroyed + 1 } := by
  have hzero : s.count = 0 := h.gone (.inl (List.mem_of_getElem? hd))
  have hquit : s.quit = true := ha.quit_of hd rfl
  have hset := parties_set (t := { s with
    destroyers := s.destroyers.set j .returned, destroyed := s.destroyed + 1 }) hd .returned rfl
  rw [indicator_eq_one rfl, indicator_eq_zero rfl] at hset
  have halone := h.alone
  have hbegun := h.begun hquit
  dsimp only at hset
  refine ⟨by omega, fun _ => by omega, fun hq => ?_, h.awaited_set (by simp), fun _ => hzero⟩
  rw [hquit] at hq
  cases hq

/-! ## Runs -/

/-- Every step in turn keeps the invariant. -/
theorem Sole.step (h : Sole s) {lost : Nat} (hm : Manned lost s) (ha : Announced s)
    {a : Action F A} (hok : InTurn s a) (hs : step s a = next t) : Sole t := by
  cases Effect.of_step hs with
  | addtask _ hlink hengage =>
    obtain ⟨hworkers, hdestroyers, hidle, hcount, -, hquit⟩ := hlink.keeps
    have hdestroyed : _ = s.destroyed := hlink.keeps_destroyed
    have hlinked := h.congr hdestroyers hdestroyed hquit hcount
    have hmanned : Manned lost _ :=
      ⟨hidle.trans (hworkers ▸ hm.idle), hcount.trans (hworkers ▸ hm.count)⟩
    refine hlinked.engaged hmanned ?_ hengage
    rw [hdestroyers, hdestroyed]
    rintro (hmem | hpos)
    · exact hok.1 hmem
    · exact absurd hok.2 (Nat.ne_of_gt hpos)
  | enter hw hsec => exact h.section hm ha hw rfl (by simp) hsec
  | resume hw hpc hsec =>
    refine h.section hm ha hw ?_ ?_ hsec
    · rcases hpc with rfl | rfl <;> rfl
    · rcases hpc with rfl | rfl <;> simp
  | recheck hw hsec =>
    refine h.section hm ha hw rfl ?_ hsec
    intro hrelock
    exact hok (hrelock ▸ hw)
  | timeout _ => exact h.congr rfl rfl rfl rfl
  | spurious hw => exact h.wake hw
  | runTask _ _ => exact h.congr rfl rfl rfl rfl
  | freeTask _ _ => exact h.congr rfl rfl rfl rfl
  | callDestroy =>
    refine h.keep ?_ rfl rfl ?_ ?_
    · exact congrArg (· + s.destroyed) (List.countP_append.trans (Nat.add_zero _))
    · intro hmem
      rcases List.mem_append.mp hmem with hmem | hmem
      · exact h.awaited hmem
      · simp at hmem
    · rintro (hmem | hpos)
      · rcases List.mem_append.mp hmem with hmem | hmem
        · exact h.gone (.inl hmem)
        · simp at hmem
      · exact h.gone (.inr hpos)
  | refuse hd _ => exact h.setDestroyer .returned hd rfl (by simp) (by simp)
  | proceed hd hquit =>
    have hturn : Destroyer.locking ∉ s.destroyers := by
      simpa [InTurn, hquit] using hok
    exact h.proceed ha hd hquit hturn
  | announce hd => exact h.announceQuit hm hd
  | await hd =>
    obtain ⟨d, hlook, he⟩ := awaitWorkers_eq s _
    rw [he]
    exact h.look hm hd rfl hlook
  | finish hd => exact h.finish ha hd

/-- A call that returns in turn returns from a pool without workers. -/
theorem Sole.returns (h : Sole s) {lost : Nat} (hm : Manned lost s) {a : Action F A}
    (hok : InTurn s a) (hs : ThreadPool.step s a = next t) :
    ∀ r ∈ s.returns a, r.count = 0 ∧ r.executing = 0 := by
  have hidle (hzero : s.count = 0) : s.workers.countP Worker.executing = 0 := by
    rw [List.countP_eq_zero]
    intro w hw
    rw [hm.exited_of_count hzero hw]
    exact Bool.false_ne_true
  intro r hr
  cases Effect.of_step hs with
  | refuse _ hquit =>
    rw [State.returns, if_pos hquit, List.mem_singleton] at hr
    have hzero : s.count = 0 := by simpa [InTurn, hquit] using hok
    exact hr ▸ ⟨hzero, hidle hzero⟩
  | proceed _ hquit =>
    rw [State.returns, hquit] at hr
    cases hr
  | finish hd =>
    rw [State.returns, List.mem_singleton] at hr
    have hzero : s.count = 0 := h.gone (.inl (List.mem_of_getElem? hd))
    exact hr ▸ ⟨hzero, hidle hzero⟩
  | _ => cases hr

/-- What takes part in turn keeps what several calls are promised. -/
theorem Sole.dissolved (h : Sole s) {lost : Nat} (hm : Manned lost s) (ha : Announced s) :
    Dissolved s where
  awaited := h.awaited
  destroyed_le := Nat.le_trans (Nat.le_add_left _ _) h.alone
  destroyed_eq hne hall := by
    obtain ⟨d, hd⟩ := List.exists_mem_of_ne_nil _ hne
    have hquit : s.quit = true := by
      refine ha.quit.mpr (List.countP_pos_iff.mpr ⟨d, hd, ?_⟩)
      rw [hall d hd]
      rfl
    have hnone : s.destroyers.countP Destroyer.active = 0 := by
      rw [List.countP_eq_zero]
      intro d hd
      rw [hall d hd]
      exact Bool.false_ne_true
    have halone := h.alone
    have hbegun := h.begun hquit
    rw [State.parties] at halone hbegun
    omega
  unused hpos := by
    refine ⟨fun w hw => hm.exited_of_count (h.gone (.inr hpos)) hw, fun d hd => ?_⟩
    have halone := h.alone
    rw [State.parties] at halone
    have hnone : s.destroyers.countP Destroyer.active = 0 := by omega
    have hpassive := List.countP_eq_zero.mp hnone d hd
    cases d with
    | called => exact .inl rfl
    | returned => exact .inr rfl
    | _ => exact absurd rfl hpassive

/-- Once they are destroyed nobody is left to use the mutex or the condition variable: calls only
come and test `quit`. -/
theorem Dissolved.passive (h : Dissolved s) (hpos : 0 < s.destroyed) {a : Action F A}
    (hok : InTurn s a) (hs : step s a = next t) : a = .callDestroy ∨ ∃ j, a = .testQuit j := by
  obtain ⟨hexited, hcallers⟩ := h.unused hpos
  have hworker {i : Nat} {w : Worker} (hw : s.workers[i]? = some w) : w = .exited :=
    hexited w (List.mem_of_getElem? hw)
  have hcaller {j : Nat} {d : Destroyer} (hd : s.destroyers[j]? = some d) :
      d.active = false := by
    rcases hcallers d (List.mem_of_getElem? hd) with rfl | rfl <;> rfl
  cases Effect.of_step hs with
  | addtask => exact absurd hok.2 (Nat.ne_of_gt hpos)
  | enter hw _ => cases hworker hw
  | resume hw hpc _ =>
    obtain rfl := hworker hw
    rcases hpc with hpc | hpc <;> cases hpc
  | recheck hw _ => cases hworker hw
  | timeout hw => cases hworker hw
  | @spurious w hw =>
    cases w with
    | worker i =>
      have hi : s.workers[i]? = some .waiting := by simpa [State.asleep] using hw
      cases hworker hi
    | destroyer j =>
      have hj : s.destroyers[j]? = some .waiting := by simpa [State.asleep] using hw
      cases hcaller hj
  | runTask hw _ => cases hworker hw
  | freeTask hw _ => cases hworker hw
  | callDestroy => exact .inl rfl
  | @refuse j _ _ => exact .inr ⟨j, rfl⟩
  | @proceed j _ _ => exact .inr ⟨j, rfl⟩
  | announce hd => cases hcaller hd
  | await hd => cases hcaller hd
  | finish hd => cases hcaller hd

/-- In every run whose steps are in turn each call returns from a pool without workers, nobody
waits for workers that are gone, and the mutex and the condition variable are destroyed once,
after their last use. -/
theorem dissolved_in_turn {threads : Int} {returns : List Return}
    (h : Traces step InTurn State.returns (threadPoolInit threads) returns s) :
    (∀ r ∈ returns, r.count = 0 ∧ r.executing = 0) ∧ Dissolved s := by
  have hinv : (∀ r ∈ returns, r.count = 0 ∧ r.executing = 0) ∧ (∃ lost, Manned lost s) ∧
      Announced s ∧ Sole s := by
    refine h.invariant (I := fun returns s => (∀ r ∈ returns, r.count = 0 ∧ r.executing = 0) ∧
      (∃ lost, Manned lost s) ∧ Announced s ∧ Sole s) ?_ ?_
    · have hinit : Accounted threads (threadPoolInit threads : State F A) := accounted_init threads
      exact ⟨List.forall_mem_nil _, ⟨0, hinit.manned⟩, hinit.announced, sole_init threads⟩
    · rintro returns s a t ⟨hreturns, ⟨lost, hm⟩, ha, hsole⟩ hok hs
      refine ⟨fun r hr => ?_, ⟨_, hm.step hs⟩, ha.step hm hs, hsole.step hm ha hok hs⟩
      rcases List.mem_append.mp hr with hr | hr
      · exact hreturns r hr
      · exact hsole.returns hm hok hs r hr
  obtain ⟨hreturns, ⟨lost, hm⟩, ha, hsole⟩ := hinv
  exact ⟨hreturns, hsole.dissolved hm ha⟩

/-- Two calls, of which the second one finds the pool destroyed. -/
def inTurnRun : List (Action Unit Nat) :=
  [.addtask () 1 0 true none, .enter 0 none, .callDestroy, .testQuit 0, .lockDestroy 0,
    .runTask 0, .freeTask 0, .recheck 0 (some (.destroyer 0)), .resumeDestroy 0,
    .finishDestroy 0, .callDestroy, .testQuit 1]

/-- Both calls return from an empty pool, which is destroyed once. -/
theorem dissolved_in_turn_twice :
    ∃ r, traceGuarded step InTurn State.returns [] (threadPoolInit 1) inTurnRun = next r ∧
      r.1 = [⟨0, 0⟩, ⟨0, 0⟩] ∧ r.2.destroyers = [.returned, .returned] ∧ r.2.destroyed = 1 ∧
      (∀ q ∈ r.1, q.count = 0 ∧ q.executing = 0) ∧ Dissolved r.2 := by
  obtain ⟨r, hr, hreturns, hdestroyers, hdestroyed⟩ :
      ∃ r, traceGuarded step InTurn State.returns [] (threadPoolInit 1) inTurnRun = next r ∧
        r.1 = [⟨0, 0⟩, ⟨0, 0⟩] ∧ r.2.destroyers = [.returned, .returned] ∧ r.2.destroyed = 1 :=
    ⟨_, rfl, rfl, rfl, rfl⟩
  exact ⟨r, hr, hreturns, hdestroyers, hdestroyed,
    dissolved_in_turn (Traces.of_traceGuarded step _ .nil hr)⟩

/-! ## Calls out of turn -/

/-- All tasks are added before the first call, threads are created, and nobody wakes up without a
signal. -/
def AddsBefore (s : State F A) : Action F A → Prop
  | .addtask _ _ _ created _ => created = true ∧ s.destroyers = []
  | .spurious _ => False
  | _ => True

instance decidableAddsBefore (s : State F A) (a : Action F A) : Decidable (AddsBefore s a) :=
  match a with
  | .addtask _ _ _ created _ => inferInstanceAs (Decidable (created = true ∧ s.destroyers = []))
  | .spurious _ => inferInstanceAs (Decidable False)
  | .enter .. | .timeout .. | .resume .. | .runTask .. | .freeTask .. | .recheck ..
  | .callDestroy | .testQuit .. | .lockDestroy .. | .resumeDestroy .. | .finishDestroy .. =>
    inferInstanceAs (Decidable True)

/-- A second call comes while the worker executes its task. -/
def earlyRun : List (Action Unit Nat) :=
  [.addtask () 1 0 true none, .enter 0 none, .callDestroy, .callDestroy, .testQuit 0,
    .lockDestroy 0, .testQuit 1]

/-- Two calls pass the test and wait for the same worker. -/
def overlappingRun : List (Action Unit Nat) :=
  [.addtask () 1 0 true none, .enter 0 none, .callDestroy, .callDestroy, .testQuit 0,
    .testQuit 1, .lockDestroy 0, .lockDestroy 1, .runTask 0, .freeTask 0,
    .recheck 0 (some (.destroyer 0))]

/-- Two calls pass the test on a pool without workers. -/
def idleRun : List (Action Unit Nat) :=
  [.callDestroy, .callDestroy, .testQuit 0, .testQuit 1, .lockDestroy 0, .finishDestroy 0,
    .lockDestroy 1, .finishDestroy 1]

/-- Out of turn all promises fail: a call returns while a task executes, a caller sleeps on a pool
without workers, and the mutex is destroyed while it is still used, and a second time. -/
theorem overlapping_calls_break_destroy :
    (¬ ∀ (threads : Int) (returns : List Return) (s : State Unit Nat),
      Traces step AddsBefore State.returns (threadPoolInit threads) returns s →
        ∀ r ∈ returns, r.count = 0 ∧ r.executing = 0) ∧
    (¬ ∀ (threads : Int) (returns : List Return) (s : State Unit Nat),
      Traces step AddsBefore State.returns (threadPoolInit threads) returns s → Awaited s) ∧
    (¬ ∀ (threads : Int) (returns : List Return) (s : State Unit Nat),
      Traces step AddsBefore State.returns (threadPoolInit threads) returns s →
        0 < s.destroyed → ∀ d ∈ s.destroyers, d = .called ∨ d = .returned) ∧
    ¬ ∀ (threads : Int) (returns : List Return) (s : State Unit Nat),
      Traces step AddsBefore State.returns (threadPoolInit threads) returns s →
        s.destroyed ≤ 1 := by
  refine ⟨?_, ?_, ?_, ?_⟩
  · intro h
    obtain ⟨r, hr, hreturns⟩ :
        ∃ r, traceGuarded step AddsBefore State.returns [] (threadPoolInit 1) earlyRun = next r ∧
          r.1 = [⟨1, 1⟩] :=
      ⟨_, rfl, rfl⟩
    have hquiet := h 1 r.1 r.2 (Traces.of_traceGuarded step _ .nil hr) ⟨1, 1⟩ (by simp [hreturns])
    cases hquiet.1
  · intro h
    obtain ⟨r, hr, hcount, hdestroyers⟩ :
        ∃ r, traceGuarded step AddsBefore State.returns [] (threadPoolInit 1) overlappingRun =
          next r ∧ r.2.count = 0 ∧ r.2.destroyers = [.woken, .waiting] :=
      ⟨_, rfl, rfl, rfl⟩
    exact h 1 r.1 r.2 (Traces.of_traceGuarded step _ .nil hr) (by simp [hdestroyers]) hcount
  · intro h
    obtain ⟨r, hr, hdestroyed, hdestroyers⟩ :
        ∃ r, traceGuarded step AddsBefore State.returns [] (threadPoolInit 1) (idleRun.take 6) =
          next r ∧ r.2.destroyed = 1 ∧ r.2.destroyers = [.returned, .locking] :=
      ⟨_, rfl, rfl, rfl⟩
    have hout := h 1 r.1 r.2 (Traces.of_traceGuarded step _ .nil hr) (by simp [hdestroyed])
      .locking (by simp [hdestroyers])
    rcases hout with hout | hout <;> cases hout
  · intro h
    obtain ⟨r, hr, hdestroyed⟩ :
        ∃ r, traceGuarded step AddsBefore State.returns [] (threadPoolInit 1) idleRun = next r ∧
          r.2.destroyed = 2 :=
      ⟨_, rfl, rfl⟩
    have honce := h 1 r.1 r.2 (Traces.of_traceGuarded step _ .nil hr)
    omega

end NetworkCode.ThreadPool
