import NetworkCode.Core.Chain
import NetworkCode.ThreadPool.Accounting
import Mathlib.Data.List.Perm.Subperm

/-!
# The task queue as a linked list

The abstract queue is the list of the tasks that were added and not yet taken.
`Represents` ties it to the nodes linked from `first`: they form a chain of
allocated cells that ends at `last`, and the nodes in the hands of workers are
allocated, pairwise different and outside the chain. The dequeue never updates
`last`, so `last` may dangle, but only while `first` is null, where
`threadPool_addtask` does not read it.

The history says where each task is: the tasks taken so far followed by the
queue are the tasks added so far, and each worker has run and freed exactly the
tasks it took, in that order, up to the one in its hands.
-/

namespace NetworkCode.ThreadPool

open StepResult

variable {F A : Type*} {s t : State F A}

/-- What a node asks for: the routine and its argument. -/
def Task.call (t : Task F A) : F × A := (t.run, t.arg)

/-- The node in the hands of a worker, and whether its routine has returned. -/
def Worker.load : Worker → Option (Addr × Bool)
  | .running a _ => some (a, false)
  | .ran a _ => some (a, true)
  | _ => none

/-- The node in the hands of worker `i`. -/
def State.load (s : State F A) (i : Nat) : Option (Addr × Bool) := s.workers[i]?.bind Worker.load

/-- The tasks that worker `i` left in a log, in order. -/
def byWorker (i : Nat) (log : List (Nat × F × A)) : List (F × A) :=
  log.filterMap fun e => if e.1 = i then some e.2 else none

/-- The task in the hands of worker `i` whose routine has not returned. -/
def State.unrun (s : State F A) (i : Nat) : List (F × A) :=
  match s.load i with
  | some (a, false) => ((s.heap a).map Task.call).toList
  | _ => []

/-- The task in the hands of worker `i` whose routine has returned. -/
def State.unfreed (s : State F A) (i : Nat) : List (F × A) :=
  match s.load i with
  | some (a, true) => ((s.heap a).map Task.call).toList
  | _ => []

@[simp] theorem byWorker_concat_self (i : Nat) (log : List (Nat × F × A)) (c : F × A) :
    byWorker i (log ++ [(i, c)]) = byWorker i log ++ [c] := by
  simp [byWorker]

theorem byWorker_concat_of_ne {i j : Nat} (h : j ≠ i) (log : List (Nat × F × A)) (c : F × A) :
    byWorker i (log ++ [(j, c)]) = byWorker i log := by
  simp [byWorker, h]

/-- The queue `l` of nodes and tasks is what the state holds, and every task
added so far is in exactly one place. -/
structure Represents (s : State F A) (l : List (Addr × F × A)) : Prop where
  /-- The nodes linked from `first` are allocated and hold the queued tasks. -/
  chain : Chain Task.next Task.call s.heap s.first l
  /-- `last` is the final node of a non-empty queue. -/
  last : s.first ≠ none → s.last = (addresses l).getLast?
  /-- A node in the hands of a worker is allocated. -/
  loaded : ∀ i a b, s.load i = some (a, b) → ∃ task, s.heap a = some task
  /-- A node in the hands of a worker is not linked. -/
  apart : ∀ i a b, s.load i = some (a, b) → a ∉ addresses l
  /-- No node is in the hands of two workers. -/
  separate : ∀ i j a b c, s.load i = some (a, b) → s.load j = some (a, c) → i = j
  /-- The tasks taken so far, followed by the queue, are the tasks added so far. -/
  fifo : s.taken.map Prod.snd ++ l.map Prod.snd = s.added
  /-- Each worker ran what it took, in order, up to the task it is running. -/
  runs : ∀ i, byWorker i s.taken = byWorker i s.ran ++ s.unrun i
  /-- Each worker freed what it ran, in order, up to the task it has just run. -/
  frees : ∀ i, byWorker i s.ran = byWorker i s.freed ++ s.unfreed i

/-- A worker that is about to take the mutex has nothing in its hands. -/
theorem Worker.load_of_atLock {w : Worker} (h : w.atLock = true) : w.load = none := by
  cases w <;> simp_all [Worker.atLock, Worker.load]

/-! ## Steps that do not touch the queue -/

@[simp] theorem State.load_set {ws : List Worker} {i j : Nat} {w w' : Worker}
    (hw : ws[i]? = some w) :
    ((ws.set i w')[j]?).bind Worker.load = if j = i then w'.load else ws[j]?.bind Worker.load := by
  obtain ⟨hi, _⟩ := List.getElem?_eq_some_iff.mp hw
  by_cases hj : j = i
  · subst hj
    simp [List.getElem?_set_self hi]
  · rw [if_neg hj, List.getElem?_set_ne (Ne.symm hj)]

/-- Replacing a worker by one with the same load changes nobody's load. -/
theorem load_of_set {i : Nat} {w : Worker} (w' : Worker) (hw : s.workers[i]? = some w)
    (hworkers : t.workers = s.workers.set i w') (hload : w'.load = w.load) (j : Nat) :
    t.load j = s.load j := by
  unfold State.load
  rw [hworkers, State.load_set hw]
  by_cases hj : j = i
  · subst hj
    rw [if_pos rfl, hw, hload]
    rfl
  · rw [if_neg hj]

/-- What a worker has still to run depends on its load and on that node only. -/
theorem unrun_congr {i : Nat} (hload : t.load i = s.load i)
    (hheap : ∀ a b, s.load i = some (a, b) → t.heap a = s.heap a) : t.unrun i = s.unrun i := by
  unfold State.unrun
  rw [hload]
  cases hi : s.load i with
  | none => rfl
  | some x =>
    obtain ⟨a, b⟩ := x
    cases b <;> simp only [hheap a _ hi]

/-- What a worker has still to free depends on its load and on that node only. -/
theorem unfreed_congr {i : Nat} (hload : t.load i = s.load i)
    (hheap : ∀ a b, s.load i = some (a, b) → t.heap a = s.heap a) :
    t.unfreed i = s.unfreed i := by
  unfold State.unfreed
  rw [hload]
  cases hi : s.load i with
  | none => rfl
  | some x =>
    obtain ⟨a, b⟩ := x
    cases b <;> simp only [hheap a _ hi]

/-- A step that leaves the loaded nodes and their history alone has to account
for the queue only. -/
theorem Represents.relink {l l' : List (Addr × F × A)} (h : Represents s l)
    (hload : ∀ i, t.load i = s.load i)
    (hheap : ∀ i a b, s.load i = some (a, b) → t.heap a = s.heap a) (htaken : t.taken = s.taken)
    (hran : t.ran = s.ran) (hfreed : t.freed = s.freed)
    (hchain : Chain Task.next Task.call t.heap t.first l')
    (hlast : t.first ≠ none → t.last = (addresses l').getLast?)
    (hapart : ∀ i a b, s.load i = some (a, b) → a ∉ addresses l')
    (hfifo : t.taken.map Prod.snd ++ l'.map Prod.snd = t.added) : Represents t l' where
  chain := hchain
  last := hlast
  loaded := by
    intro i a b hi
    rw [hload] at hi
    rw [hheap i a b hi]
    exact h.loaded i a b hi
  apart := fun i a b hi => hapart i a b (hload i ▸ hi)
  separate := fun i j a b c hi hj => h.separate i j a b c (hload i ▸ hi) (hload j ▸ hj)
  fifo := hfifo
  runs := fun i => by rw [htaken, hran, unrun_congr (hload i) (hheap i)]; exact h.runs i
  frees := fun i => by rw [hran, hfreed, unfreed_congr (hload i) (hheap i)]; exact h.frees i

/-- The representation depends on the queue, the loads and the history only. -/
theorem Represents.congr {l : List (Addr × F × A)} (h : Represents s l)
    (hheap : t.heap = s.heap) (hfirst : t.first = s.first) (hlast : t.last = s.last)
    (hload : ∀ i, t.load i = s.load i) (hadded : t.added = s.added) (htaken : t.taken = s.taken)
    (hran : t.ran = s.ran) (hfreed : t.freed = s.freed) : Represents t l := by
  refine h.relink hload (fun _ a _ _ => congrFun hheap a) htaken hran hfreed ?_ ?_ h.apart ?_
  · rw [hheap, hfirst]
    exact h.chain
  · rw [hfirst, hlast]
    exact h.last
  · rw [htaken, hadded]
    exact h.fifo

/-- A wake-up does not touch the queue. -/
theorem Represents.wake {l : List (Addr × F × A)} (h : Represents s l) {w : Waiter}
    (hw : s.asleep w = true) : Represents (s.wake w) l := by
  refine h.congr (by simp) (by simp) (by simp) ?_ (by simp) (by simp) (by simp) (by simp)
  cases w with
  | worker i =>
    have hi : s.workers[i]? = some .waiting := by simpa [State.asleep] using hw
    exact load_of_set .woken hi rfl rfl
  | destroyer j => exact fun _ => rfl

/-- Broadcasting does not touch the queue. -/
theorem Represents.conditionBroadcast {l : List (Addr × F × A)} (h : Represents s l) :
    Represents (conditionBroadcast s) l := by
  refine h.congr rfl rfl rfl ?_ rfl rfl rfl rfl
  intro i
  unfold State.load ThreadPool.conditionBroadcast
  simp only [List.getElem?_map]
  cases s.workers[i]? with
  | none => rfl
  | some w => cases w <;> rfl

/-- Going back to sleep or leaving does not touch the queue. -/
theorem Represents.awaitWorkers {l : List (Addr × F × A)} (h : Represents s l) (j : Nat) :
    Represents (awaitWorkers s j) l := by
  unfold ThreadPool.awaitWorkers
  split <;> exact h.congr rfl rfl rfl (fun _ => rfl) rfl rfl rfl rfl

/-- Announcing `quit` does not touch the queue. -/
theorem Represents.announceQuit {l : List (Addr × F × A)} (h : Represents s l) (j : Nat) :
    Represents (announceQuit s j) l := by
  have hquit : Represents { s with quit := true } l :=
    h.congr rfl rfl rfl (fun _ => rfl) rfl rfl rfl rfl
  unfold ThreadPool.announceQuit
  simp only
  split
  · apply Represents.awaitWorkers
    split
    · exact hquit.conditionBroadcast
    · exact hquit
  · exact h.congr rfl rfl rfl (fun _ => rfl) rfl rfl rfl rfl

/-! ## Enqueue and dequeue -/

/-- Linking a fresh node appends its task to the queue. -/
theorem Represents.linked {l : List (Addr × F × A)} (h : Represents s l) {node : Addr} {run : F}
    {arg : A} (hfree : s.heap node = none) (hlink : Linked s node run arg t) :
    Represents t (l ++ [(node, run, arg)]) := by
  have hnode : node ∉ addresses l := by
    intro hmem
    obtain ⟨n, hn⟩ := h.chain.allocated hmem
    rw [hfree] at hn
    cases hn
  have hother : ∀ i a b, s.load i = some (a, b) → a ≠ node := by
    rintro i a b hi rfl
    obtain ⟨task, htask⟩ := h.loaded i a b hi
    rw [hfree] at htask
    cases htask
  have hapart : ∀ i a b, s.load i = some (a, b) → a ∉ addresses (l ++ [(node, run, arg)]) := by
    intro i a b hi
    simp only [addresses_append, addresses_cons, addresses_nil, List.mem_append,
      List.mem_singleton, not_or]
    exact ⟨h.apart i a b hi, hother i a b hi⟩
  have hfifo : s.taken.map Prod.snd ++ (l ++ [(node, run, arg)]).map Prod.snd =
      s.added ++ [(run, arg)] := by
    rw [List.map_append, ← List.append_assoc, h.fifo]
    rfl
  have hkeep : ∀ i a b, s.load i = some (a, b) →
      Function.update s.heap node (some ⟨run, arg, none⟩) a = s.heap a :=
    fun i a b hi => Function.update_of_ne (hother i a b hi) _ _
  cases hlink with
  | empty hfirst =>
    obtain rfl : l = [] := h.chain.eq_nil_iff.mpr hfirst
    exact h.relink (fun _ => rfl) hkeep rfl rfl rfl
      (chain_singleton (Function.update_self ..) rfl) (fun _ => rfl) hapart hfifo
  | @behind a l' task hfirst hlast htask =>
    have hfinal : (addresses l).getLast? = some l' := by
      rw [← h.last (by simp [hfirst]), hlast]
    have hl' : l' ∈ addresses l := List.mem_of_getLast? hfinal
    have hchain := h.chain.update_of_notMem (c := some ⟨run, arg, none⟩) hnode
    refine h.relink (fun _ => rfl) ?_ rfl rfl rfl ?_ (fun _ => ?_) hapart hfifo
    · intro i b c hi
      have hne : b ≠ l' := fun he => h.apart i b c hi (he ▸ hl')
      exact (Function.update_of_ne hne _ _).trans (hkeep i b c hi)
    · exact hchain.append { task with next := some node } hfinal
        (Function.update_self ..) rfl hnode htask rfl rfl
    · simp [addresses_append]

/-- The nodes in the hands of workers are allocated, outside of the queue, and each in the hands of
one worker. -/
structure InHand (heap : Addr → Option (Task F A)) (queued : List Addr)
    (load : Nat → Option (Addr × Bool)) : Prop where
  loaded : ∀ i a b, load i = some (a, b) → ∃ task, heap a = some task
  apart : ∀ i a b, load i = some (a, b) → a ∉ queued
  separate : ∀ i j a b c, load i = some (a, b) → load j = some (a, c) → i = j

theorem Represents.inHand {l : List (Addr × F × A)} (h : Represents s l) :
    InHand s.heap (addresses l) s.load :=
  ⟨h.loaded, h.apart, h.separate⟩

section InHand

variable {heap : Addr → Option (Task F A)} {queued : List Addr}
  {load : Nat → Option (Addr × Bool)} {i : Nat} {a : Addr}

/-- A worker takes the first node of the queue. -/
theorem InHand.take (h : InHand heap (a :: queued) load) (hheap : ∃ task, heap a = some task)
    (ha : a ∉ queued) (b : Bool) :
    InHand heap queued fun j => if j = i then some (a, b) else load j where
  loaded := by
    intro j c d hj
    split at hj
    · cases hj
      exact hheap
    · exact h.loaded j c d hj
  apart := by
    intro j c d hj
    split at hj
    · cases hj
      exact ha
    · exact fun hmem => h.apart j c d hj (List.mem_cons_of_mem a hmem)
  separate := by
    intro j k c d e hj hk
    have hnotin {j : Nat} {d : Bool} (hj : load j = some (a, d)) : False :=
      h.apart j a d hj List.mem_cons_self
    split at hj <;> split at hk
    · rename_i hji hki
      exact hji.trans hki.symm
    · cases hj
      exact (hnotin hk).elim
    · cases hk
      exact (hnotin hj).elim
    · exact h.separate j k c d e hj hk

/-- A worker goes on with the node in its hands. -/
theorem InHand.mark (h : InHand heap queued load) {b : Bool} (hi : load i = some (a, b))
    (d : Bool) : InHand heap queued fun j => if j = i then some (a, d) else load j := by
  have hnode : ∀ j c e, (if j = i then some (a, d) else load j) = some (c, e) →
      ∃ e', load j = some (c, e') := by
    intro j c e hj
    split at hj
    · rename_i hji
      cases hj
      exact ⟨b, hji ▸ hi⟩
    · exact ⟨e, hj⟩
  refine ⟨?_, ?_, ?_⟩
  · intro j c e hj
    obtain ⟨e', hj'⟩ := hnode j c e hj
    exact h.loaded j c e' hj'
  · intro j c e hj
    obtain ⟨e', hj'⟩ := hnode j c e hj
    exact h.apart j c e' hj'
  · intro j k c e f hj hk
    obtain ⟨e', hj'⟩ := hnode j c e hj
    obtain ⟨f', hk'⟩ := hnode k c f hk
    exact h.separate j k c e' f' hj' hk'

/-- A node that another worker has is not the one that is freed. -/
theorem InHand.update_of_ne (h : InHand heap queued load) {b c : Bool} {d : Addr} {j : Nat}
    (hi : load i = some (a, b)) (hne : j ≠ i) (hj : load j = some (d, c)) :
    Function.update heap a none d = heap d := by
  apply Function.update_of_ne
  rintro rfl
  exact hne (h.separate j i d c b hj hi)

/-- A worker frees the node in its hands. -/
theorem InHand.free (h : InHand heap queued load) {b : Bool} (hi : load i = some (a, b)) :
    InHand (Function.update heap a none) queued fun j => if j = i then none else load j where
  loaded := by
    intro j c d hj
    split at hj
    · cases hj
    · rename_i hne
      rw [h.update_of_ne hi hne hj]
      exact h.loaded j c d hj
  apart := by
    intro j c d hj
    split at hj
    · cases hj
    · exact h.apart j c d hj
  separate := by
    intro j k c d e hj hk
    split at hj
    · cases hj
    · split at hk
      · cases hk
      · exact h.separate j k c d e hj hk

end InHand

/-- Dequeuing hands the first task of the queue to the worker. -/
theorem Represents.take {l : List (Addr × F × A)} (h : Represents s l) {i : Nat} {w : Worker}
    {a : Addr} {task : Task F A} {timeout : Bool} {idle' : Int} (hw : s.workers[i]? = some w)
    (hload : w.load = none) (hfirst : s.first = some a) (htask : s.heap a = some task) :
    ∃ rest, l = (a, task.call) :: rest ∧ Represents { s with
      idle := idle'
      first := task.next
      workers := s.workers.set i (.running a timeout)
      taken := s.taken ++ [(i, task.run, task.arg)] } rest := by
  have hc := h.chain
  cases l with
  | nil => rw [chain_nil, hfirst] at hc; cases hc
  | cons x rest =>
    obtain ⟨b, v⟩ := x
    obtain ⟨hb, n, hn, hv, hrest⟩ := hc
    obtain rfl : a = b := Option.some.inj (hfirst.symm.trans hb)
    obtain rfl : task = n := Option.some.inj (htask.symm.trans hn)
    subst hv
    refine ⟨rest, rfl, ?_⟩
    have hidle : s.load i = none := by simp [State.load, hw, hload]
    have hset : State.load { s with
        idle := idle'
        first := task.next
        workers := s.workers.set i (.running a timeout)
        taken := s.taken ++ [(i, task.run, task.arg)] } =
          fun j => if j = i then some (a, false) else s.load j :=
      funext fun j => State.load_set hw
    have hand := h.inHand.take (i := i) ⟨task, htask⟩ (List.nodup_cons.mp h.chain.nodup).1 false
    rw [← hset] at hand
    exact
      { chain := hrest
        last := by
          intro hne
          have hcons : rest ≠ [] := fun he => hne (hrest.eq_nil_iff.mp he)
          have hlast := h.last (by simp [hfirst])
          obtain ⟨y, ys, rfl⟩ := List.exists_cons_of_ne_nil hcons
          simpa [addresses] using hlast
        loaded := hand.loaded
        apart := hand.apart
        separate := hand.separate
        fifo := by
          rw [← h.fifo]
          simp [Task.call]
        runs := by
          intro j
          have hold := h.runs j
          by_cases hj : j = i
          · subst hj
            have hnone : s.unrun j = [] := by simp [State.unrun, hidle]
            rw [hnone, List.append_nil] at hold
            simp only [byWorker_concat_self, hold, State.unrun, hset, if_true, htask]
            rfl
          · rw [byWorker_concat_of_ne (Ne.symm hj), hold]
            simp only [State.unrun, hset, if_neg hj]
        frees := by
          intro j
          have hold := h.frees j
          by_cases hj : j = i
          · subst hj
            have hnone : s.unfreed j = [] := by simp [State.unfreed, hidle]
            rw [hnone] at hold
            simpa only [State.unfreed, hset, if_true] using hold
          · simpa only [State.unfreed, hset, if_neg hj] using hold }

/-- The return of `task->run` moves the task from the running to the run ones. -/
theorem Represents.runTask {l : List (Addr × F × A)} (h : Represents s l) {i : Nat} {a : Addr}
    {task : Task F A} {timeout : Bool} (hw : s.workers[i]? = some (.running a timeout))
    (htask : s.heap a = some task) :
    Represents { s with
      workers := s.workers.set i (.ran a timeout)
      ran := s.ran ++ [(i, task.run, task.arg)] } l := by
  have hload : s.load i = some (a, false) := by simp [State.load, hw, Worker.load]
  have hset : State.load { s with
      workers := s.workers.set i (.ran a timeout)
      ran := s.ran ++ [(i, task.run, task.arg)] } =
        fun j => if j = i then some (a, true) else s.load j :=
    funext fun j => State.load_set hw
  have hand := h.inHand.mark hload true
  rw [← hset] at hand
  exact
    { chain := h.chain
      last := h.last
      loaded := hand.loaded
      apart := hand.apart
      separate := hand.separate
      fifo := h.fifo
      runs := by
        intro j
        have hold := h.runs j
        by_cases hj : j = i
        · subst hj
          simp only [State.unrun, hload, htask] at hold
          simp only [byWorker_concat_self, State.unrun, hset, if_true, hold, List.append_nil]
          rfl
        · rw [byWorker_concat_of_ne (Ne.symm hj), hold]
          simp only [State.unrun, hset, if_neg hj]
      frees := by
        intro j
        have hold := h.frees j
        by_cases hj : j = i
        · subst hj
          simp only [State.unfreed, hload, List.append_nil] at hold
          simp only [byWorker_concat_self, hold, State.unfreed, hset, if_true, htask]
          rfl
        · rw [byWorker_concat_of_ne (Ne.symm hj), hold]
          simp only [State.unfreed, hset, if_neg hj] }

/-- Freeing the node in hand touches no other node. -/
theorem Represents.freeTask {l : List (Addr × F × A)} (h : Represents s l) {i : Nat} {a : Addr}
    {task : Task F A} {timeout : Bool} (hw : s.workers[i]? = some (.ran a timeout))
    (htask : s.heap a = some task) :
    Represents { s with
      workers := s.workers.set i (.relock timeout)
      heap := Function.update s.heap a none
      freed := s.freed ++ [(i, task.run, task.arg)] } l := by
  have hload : s.load i = some (a, true) := by simp [State.load, hw, Worker.load]
  have hset : State.load { s with
      workers := s.workers.set i (.relock timeout)
      heap := Function.update s.heap a none
      freed := s.freed ++ [(i, task.run, task.arg)] } =
        fun j => if j = i then none else s.load j :=
    funext fun j => State.load_set hw
  have hkeep : ∀ j b c, j ≠ i → s.load j = some (b, c) →
      Function.update s.heap a none b = s.heap b :=
    fun j b c hne hj => h.inHand.update_of_ne hload hne hj
  have hand := h.inHand.free hload
  rw [← hset] at hand
  exact
    { chain := h.chain.update_of_notMem (h.apart i a true hload)
      last := h.last
      loaded := hand.loaded
      apart := hand.apart
      separate := hand.separate
      fifo := h.fifo
      runs := by
        intro j
        rw [h.runs j]
        by_cases hj : j = i
        · subst hj
          simp only [State.unrun, hset, if_true, hload]
        · congr 1
          have hsame := (congrFun hset j).trans (if_neg hj)
          exact (unrun_congr hsame fun b c hb => hkeep j b c hj hb).symm
      frees := by
        intro j
        have hold := h.frees j
        by_cases hj : j = i
        · subst hj
          simp only [State.unfreed, hload, htask] at hold
          simp only [byWorker_concat_self, State.unfreed, hset, if_true, List.append_nil, hold]
          rfl
        · rw [byWorker_concat_of_ne (Ne.symm hj), hold]
          congr 1
          have hsame := (congrFun hset j).trans (if_neg hj)
          exact (unfreed_congr hsame fun b c hb => hkeep j b c hj hb).symm }

/-! ## Runs -/

/-- The critical sections of `thread_routine` dequeue at most the first task. -/
theorem Represents.section {l : List (Addr × F × A)} (h : Represents s l) {i : Nat} {w : Worker}
    (hw : s.workers[i]? = some w) (hsec : Section s i w t) : ∃ l', Represents t l' := by
  cases hsec with
  | sleep hpc _ _ _ =>
    have hload : Worker.waiting.load = w.load := by rcases hpc with rfl | rfl <;> rfl
    exact ⟨l, h.congr rfl rfl rfl (load_of_set _ hw rfl hload) rfl rfl rfl rfl⟩
  | take hpc _ hfirst htask =>
    have hload : w.load = none := by rcases hpc with rfl | rfl | rfl <;> rfl
    obtain ⟨rest, _, hrest⟩ := h.take hw hload hfirst htask
    exact ⟨rest, hrest⟩
  | @quit idle' u _ hpc _ _ _ hu ht =>
    have hload : Worker.exited.load = w.load := (Worker.load_of_atLock hpc).symm
    have hexit : Represents u l := by
      subst hu
      exact h.congr rfl rfl rfl (load_of_set _ hw rfl hload) rfl rfl rfl rfl
    rcases ht with ⟨_, rfl⟩ | ⟨_, hsig⟩
    · exact ⟨l, hexit⟩
    · exact ⟨l, hsig.keeps (P := fun u => Represents u l) hexit fun _ hwake => hexit.wake hwake⟩
  | giveUp hpc _ _ =>
    have hload : Worker.exited.load = w.load := by rcases hpc with ⟨rfl, _⟩ | rfl <;> rfl
    exact ⟨l, h.congr rfl rfl rfl (load_of_set _ hw rfl hload) rfl rfl rfl rfl⟩
  | again hpc _ =>
    subst hpc
    exact ⟨l, h.congr rfl rfl rfl (load_of_set _ hw rfl rfl) rfl rfl rfl rfl⟩

/-- Waking or starting a worker does not touch the queue. -/
theorem Represents.engaged {l : List (Addr × F × A)} (h : Represents s l) {created : Bool}
    (heng : Engaged s created t) : Represents t l := by
  cases heng with
  | signal _ hs => exact hs.keeps (P := fun u => Represents u l) h fun _ hw => h.wake hw
  | create _ _ =>
    refine h.congr rfl rfl rfl ?_ rfl rfl rfl rfl
    intro i
    cases created with
    | false => rfl
    | true =>
      change (s.workers ++ [.start])[i]?.bind Worker.load = s.workers[i]?.bind Worker.load
      by_cases hi : i < s.workers.length
      · rw [List.getElem?_append_left hi]
      · rw [List.getElem?_append_right (Nat.le_of_not_lt hi),
          List.getElem?_eq_none (Nat.le_of_not_lt hi)]
        cases hget : [Worker.start][i - s.workers.length]? with
        | none => rfl
        | some w =>
          obtain rfl := List.mem_singleton.mp (List.mem_of_getElem? hget)
          rfl
  | full _ _ => exact h

/-- Every step keeps the queue represented. -/
theorem Represents.step {l : List (Addr × F × A)} (h : Represents s l) {a : Action F A}
    (hs : step s a = next t) : ∃ l', Represents t l' := by
  cases Effect.of_step hs with
  | addtask hfree hlink hengage => exact ⟨_, (h.linked hfree hlink).engaged hengage⟩
  | enter hw hsec => exact h.section hw hsec
  | resume hw _ hsec => exact h.section hw hsec
  | recheck hw hsec => exact h.section hw hsec
  | timeout hw => exact ⟨l, h.congr rfl rfl rfl (load_of_set _ hw rfl rfl) rfl rfl rfl rfl⟩
  | spurious hw => exact ⟨l, h.wake hw⟩
  | runTask hw htask => exact ⟨l, h.runTask hw htask⟩
  | freeTask hw htask => exact ⟨l, h.freeTask hw htask⟩
  | callDestroy => exact ⟨l, h.congr rfl rfl rfl (fun _ => rfl) rfl rfl rfl rfl⟩
  | refuse _ _ => exact ⟨l, h.congr rfl rfl rfl (fun _ => rfl) rfl rfl rfl rfl⟩
  | proceed _ _ => exact ⟨l, h.congr rfl rfl rfl (fun _ => rfl) rfl rfl rfl rfl⟩
  | announce _ => exact ⟨l, h.announceQuit _⟩
  | await _ => exact ⟨l, h.awaitWorkers _⟩
  | finish _ => exact ⟨l, h.congr rfl rfl rfl (fun _ => rfl) rfl rfl rfl rfl⟩

/-- A fresh pool holds the empty queue. -/
theorem represents_init (threads : Int) :
    Represents (threadPoolInit threads : State F A) [] where
  chain := rfl
  last := fun h => absurd rfl h
  loaded := by simp [State.load, threadPoolInit]
  apart := by simp [State.load, threadPoolInit]
  separate := by simp [State.load, threadPoolInit]
  fifo := rfl
  runs := fun _ => rfl
  frees := fun _ => rfl

/-- Every reachable state represents some queue. -/
theorem Reachable.represents {threads : Int} {ok : State F A → Action F A → Prop}
    (h : Reachable ok threads s) : ∃ l, Represents s l := by
  induction h with
  | refl => exact ⟨[], represents_init threads⟩
  | tail _ _ hs ih =>
    obtain ⟨l, hl⟩ := ih
    exact hl.step hs

/-! ## Every task at most once -/

/-- A log entry of worker `i` is counted in the part of the log that belongs to `i`. -/
theorem count_byWorker [DecidableEq F] [DecidableEq A] (i : Nat) (c : F × A)
    (log : List (Nat × F × A)) : log.count (i, c) = (byWorker i log).count c := by
  rw [byWorker, List.count_filterMap, List.count_eq_countP]
  apply List.countP_congr
  intro e _
  by_cases he : e.1 = i
  · simp [he, Prod.ext_iff]
  · simp [he, Prod.ext_iff]

/-- A log whose part for each worker starts the part of another log is contained in it,
each entry as often. -/
theorem subperm_of_byWorker {log log' : List (Nat × F × A)} {rest : Nat → List (F × A)}
    (h : ∀ i, byWorker i log' = byWorker i log ++ rest i) : log.Subperm log' := by
  classical
  rw [List.subperm_ext_iff]
  rintro ⟨i, c⟩ _
  rw [count_byWorker, count_byWorker, h i, List.count_append]
  exact Nat.le_add_right _ _

/-! ## No access to an unallocated node -/

/-- The decisions behind a task access no node. -/
theorem afterTask_ne_undefined (s : State F A) (i : Nat) (timeout : Bool)
    (choice : Option Waiter) : afterTask s i timeout choice ≠ undefined := by
  unfold afterTask
  simp only
  split
  · split
    · exact conditionSignal_ne_undefined _ _
    · simp
  · split <;> simp

/-- Leaving the waiting loop accesses the first node only. -/
theorem Represents.afterWait_ne_undefined {l : List (Addr × F × A)} (h : Represents s l)
    (idle' : Int) (i : Nat) (timeout : Bool) (choice : Option Waiter) :
    afterWait { s with idle := idle' } i timeout choice ≠ undefined := by
  unfold afterWait
  simp only
  have hc := h.chain
  cases hfirst : s.first with
  | none => exact afterTask_ne_undefined _ _ _ _
  | some a =>
    cases l with
    | nil => rw [chain_nil, hfirst] at hc; cases hc
    | cons x rest =>
      obtain ⟨b, v⟩ := x
      obtain ⟨hb, n, hn, _⟩ := hc
      obtain rfl : a = b := Option.some.inj (hfirst.symm.trans hb)
      simp [hn]

/-- Entering the waiting loop accesses the first node only. -/
theorem Represents.waitLoop_ne_undefined {l : List (Addr × F × A)} (h : Represents s l)
    (idle' : Int) (i : Nat) (choice : Option Waiter) :
    waitLoop { s with idle := idle' } i choice ≠ undefined := by
  unfold waitLoop
  split
  · simp
  · exact h.afterWait_ne_undefined idle' i false choice

/-- Enqueuing accesses the new node and the final node of the chain only. -/
theorem Represents.addtask_ne_undefined {l : List (Addr × F × A)} (h : Represents s l) (run : F)
    (arg : A) (node : Addr) (created : Bool) (choice : Option Waiter) :
    threadPoolAddtask s run arg node created choice ≠ undefined := by
  have hengage : ∀ u : State F A, engageWorker u created choice ≠ undefined := by
    intro u
    unfold engageWorker
    split
    · exact conditionSignal_ne_undefined _ _
    · split <;> simp
  have hlink : linkTask s node run arg ≠ undefined := by
    unfold linkTask
    cases hfirst : s.first with
    | none => simp
    | some a =>
      have hne : l ≠ [] := fun he => by simp [h.chain.eq_nil_iff.mp he] at hfirst
      obtain ⟨b, hb⟩ : ∃ b, (addresses l).getLast? = some b := by
        cases hl : (addresses l).getLast? with
        | none => simp [addresses] at hl; exact absurd hl hne
        | some b => exact ⟨b, rfl⟩
      obtain ⟨task, htask⟩ := h.chain.allocated (List.mem_of_getLast? hb)
      have hlast : s.last = some b := (h.last (by simp [hfirst])).trans hb
      by_cases hbn : b = node
      · simp [hlast, hbn]
      · simp [hlast, Function.update_of_ne hbn, htask]
  unfold threadPoolAddtask
  split
  · simp
  · rw [Ne, bind_eq_undefined]
    rintro (hu | ⟨u, _, hu⟩)
    · exact hlink hu
    · exact hengage u hu

/-- No step accesses an unallocated node or a null `last`. -/
theorem Represents.step_ne_undefined {l : List (Addr × F × A)} (h : Represents s l)
    (a : Action F A) : ThreadPool.step s a ≠ undefined := by
  have hload : ∀ (i : Nat) (w : Worker), s.workers[i]? = some w → ∀ b c, w.load = some (b, c) →
      ∃ task, s.heap b = some task := by
    intro i w hw b c hb
    exact h.loaded i b c (by simp [State.load, hw, hb])
  cases a with
  | addtask run arg node created choice => exact h.addtask_ne_undefined run arg node created choice
  | enter i choice =>
    simp only [ThreadPool.step]
    split
    · exact h.waitLoop_ne_undefined _ i choice
    · simp
  | timeout i => simp only [ThreadPool.step]; split <;> simp
  | spurious w => simp only [ThreadPool.step]; split <;> simp
  | resume i choice =>
    simp only [ThreadPool.step]
    split
    · exact h.waitLoop_ne_undefined s.idle i choice
    · exact h.afterWait_ne_undefined s.idle i true choice
    · simp
  | runTask i =>
    simp only [ThreadPool.step]
    split
    · rename_i hw
      obtain ⟨task, htask⟩ := hload i _ hw _ _ rfl
      simp [htask]
    · simp
  | freeTask i =>
    simp only [ThreadPool.step]
    split
    · rename_i hw
      obtain ⟨task, htask⟩ := hload i _ hw _ _ rfl
      simp [htask]
    · simp
  | recheck i choice =>
    simp only [ThreadPool.step]
    split
    · exact afterTask_ne_undefined _ _ _ _
    · simp
  | callDestroy => simp [ThreadPool.step]
  | testQuit j =>
    simp only [ThreadPool.step]
    split
    · split <;> simp
    · simp
  | lockDestroy j => simp only [ThreadPool.step]; split <;> simp
  | resumeDestroy j => simp only [ThreadPool.step]; split <;> simp
  | finishDestroy j => simp only [ThreadPool.step]; split <;> simp

/-- In every reachable state the tasks taken so far followed by the linked ones
are the tasks added so far, each worker has run and freed what it took at most
once and in order, and no thread can access a node that is not allocated. -/
theorem exactly_once_fifo {threads : Int} (h : Reachable (fun _ _ => True) threads s) :
    (∃ l, Represents s l ∧ (addresses l).Nodup ∧
      ∀ a ∈ addresses l, ∃ task, s.heap a = some task) ∧
    s.freed.Subperm s.ran ∧ s.ran.Subperm s.taken ∧ s.taken.map Prod.snd <+: s.added ∧
    ∀ a, step s a ≠ undefined := by
  obtain ⟨l, hl⟩ := h.represents
  refine ⟨⟨l, hl, hl.chain.nodup, fun a ha => hl.chain.allocated ha⟩, ?_, ?_, ?_, ?_⟩
  · exact subperm_of_byWorker hl.frees
  · exact subperm_of_byWorker hl.runs
  · exact ⟨l.map Prod.snd, hl.fifo⟩
  · exact hl.step_ne_undefined

/-- The queue drains, its node is freed, and the next two tasks reuse that address
while `last` still holds it. -/
def drainedRun : List (Action Unit Nat) :=
  [.addtask () 1 0 true none, .enter 0 none, .runTask 0, .freeTask 0,
    .addtask () 2 0 true none, .addtask () 3 1 true none]

/-- After the queue has drained and filled again, the first task has been freed
once and the next two are linked in order. -/
theorem exactly_once_fifo_drainedRun :
    ∃ t, runGuarded step (fun _ _ => True) (threadPoolInit 1) drainedRun = next t ∧
      t.freed = [(0, (), 1)] ∧ t.added = [((), 1), ((), 2), ((), 3)] ∧ t.first = some 0 ∧
      t.freed.Subperm t.ran ∧ ∃ l, Represents t l := by
  obtain ⟨t, ht, hfreed, hadded, hfirst⟩ :
      ∃ t, runGuarded step (fun _ _ => True) (threadPoolInit 1) drainedRun = next t ∧
        t.freed = [(0, (), 1)] ∧ t.added = [((), 1), ((), 2), ((), 3)] ∧ t.first = some 0 :=
    ⟨_, rfl, rfl, rfl, rfl⟩
  obtain ⟨⟨l, hl, _⟩, hsub, _⟩ := exactly_once_fifo (Reaches.of_runGuarded step _ ht)
  exact ⟨t, ht, hfreed, hadded, hfirst, hsub, l, hl⟩

end NetworkCode.ThreadPool
