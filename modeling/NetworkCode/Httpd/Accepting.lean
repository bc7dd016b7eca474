import NetworkCode.Core.Handles
import NetworkCode.Core.Potential
import NetworkCode.Httpd.Ledger
import NetworkCode.Httpd.Logging

/-!
# The web server: accepting connections

`main` accepts one connection after the other and starts a thread for each, which runs
`HandleSock` on it. All threads share one table of descriptors. The system gives out the
lowest free number below its limit. A thread knows its descriptors by their numbers, and
`close` takes a number out of the table, whoever has it.

Threads take turns at every event. What the system answers to a thread, and what its client and its
CGI program do, is fixed when the connection is accepted; a run where it opens something needs a
free number. A thread that writes to somebody who is gone ends the process with SIGPIPE.
-/

namespace NetworkCode.Httpd

open Prog StepResult Text

/-- The user of a descriptor of the process. -/
inductive Owner where
  | standard
  | listening
  /-- `PrintLog` does not close the log. -/
  | log
  /-- A connection that has no thread yet. -/
  | accepted
  | thread (i : Nat) (d : Descriptor)
  deriving DecidableEq, Repr

/-- A thread: its connection and what the system answers it, what it did, and the numbers
that its variables hold. -/
structure Thread where
  env : Env
  inbox : Bytes
  ending : Ending
  conduct : Conduct
  past : List Event
  vars : List (Descriptor × Int)

namespace Thread

/-- `HandleSock` on the connection of a thread within some bound. -/
def run (t : Thread) (fuel : Nat) : Outcome Int × World :=
  (handleSock t.env).run fuel (connected t.inbox t.ending t.conduct)

/-- What it does there. -/
def work (t : Thread) (fuel : Nat) : List Event := (t.run fuel).2.trace

/-- Behind what the thread did it makes a call that raises SIGPIPE. -/
def breaks (t : Thread) (fuel : Nat) : Bool :=
  match (t.run fuel).1 with
  | .killed => t.past == t.work fuel
  | _ => false

/-- The next event of a thread, as far as the bound shows it. -/
def next (t : Thread) (fuel : Nat) : Option Event :=
  if t.past <+: t.work fuel then (t.work fuel)[t.past.length]? else none

/-- The number that a variable holds. -/
def number (t : Thread) (d : Descriptor) : Option Int :=
  (t.vars.find? fun v => v.1 == d).map Prod.snd

/-- One more event without an effect on the variables. -/
def did (t : Thread) (e : Event) : Thread := { t with past := t.past ++ [e] }

/-- A descriptor was opened under a number. -/
def gain (t : Thread) (d : Descriptor) (fd : Int) : Thread :=
  { t.did (.opened d) with vars := (d, fd) :: t.vars }

/-- A descriptor was closed. -/
def drop (t : Thread) (d : Descriptor) : Thread :=
  { t.did (.closed d) with vars := t.vars.filter fun v => v.1 != d }

end Thread

/-- Where `main` stands in its loop. -/
inductive Main where
  | accepting
  /-- In front of `pthread_create` for an accepted connection. -/
  | creating (fd : Int) (env : Env) (inbox : Bytes) (ending : Ending) (conduct : Conduct)
  /-- In `PrintLog`, with the connection that gets no thread. -/
  | logging (unserved : Option Int)
  /-- In front of `close(sock)`. -/
  | closing (fd : Int)

/-- The number of the connection that has no thread. -/
def Main.unserved : Main → Option Int
  | accepting => none
  | creating fd _ _ _ _ => some fd
  | logging fd => fd
  | closing fd => some fd

/-- How the process ended. -/
inductive Exit where
  | status (code : Int)
  /-- Nobody handles SIGPIPE. -/
  | sigpipe
  deriving DecidableEq, Repr

/-- The process. -/
structure Process where
  table : Handles Owner
  threads : List Thread
  main : Main
  log : Option Bytes
  ended : Option Exit

/-- The descriptors behind `StartUp`. -/
def startTable : Handles Owner :=
  [(0, .standard), (1, .standard), (2, .standard), (3, .listening), (4, .log)]

/-- The process in front of its loop: the log is the one that `StartUp` has written. -/
def Process.start (log : Bytes) : Process := ⟨startTable, [], .accepting, some log, none⟩

/-- What happens next. -/
inductive Action where
  /-- `accept` returns a connection. -/
  | accept (fd : Int) (env : Env) (inbox : Bytes) (ending : Ending) (conduct : Conduct)
  | acceptFailed
  /-- `pthread_create`, and whether it succeeds. -/
  | create (ok : Bool)
  /-- `PrintLog`: the number that `open` returns, if it succeeds, and whether `write` succeeds. -/
  | printLog (fd : Option Int) (writes : Bool)
  | closeUnserved
  /-- The next event of a thread, which gets the number if it opens something. -/
  | event (i : Nat) (fuel : Nat) (fd : Int)
  /-- The next call of a thread raises SIGPIPE. -/
  | breaks (i : Nat) (fuel : Nat)

/-- Behind `PrintLog` a connection without a thread is closed. -/
def Main.behindLog : Option Int → Main
  | none => accepting
  | some fd => closing fd

@[simp] theorem unserved_behindLog (fd : Option Int) : (Main.behindLog fd).unserved = fd := by
  cases fd <;> rfl

/-- The warning that is logged. -/
def Main.warning : Option Int → Bytes
  | none => ascii "Server con't accept client"
  | some _ => ascii "server can't create pthread"

namespace Process

/-- A number that the system can give out. -/
def Free (limit : Int) (s : Process) (fd : Int) : Prop :=
  LowestFree s.table.numbers fd ∧ fd < limit

instance instDecidableFree (limit : Int) (s : Process) (fd : Int) : Decidable (s.Free limit fd) :=
  inferInstanceAs (Decidable (_ ∧ _))

/-- Replace a thread. -/
def setThread (s : Process) (i : Nat) (t : Thread) : Process :=
  { s with threads := s.threads.set i t }

/-- The event of a thread. -/
def doEvent (limit : Int) (s : Process) (i : Nat) (t : Thread) (fd : Int) :
    Event → StepResult Process
  | .opened d =>
    if s.Free limit fd then
      next { s.setThread i (t.gain d fd) with table := (fd, .thread i d) :: s.table }
    else disabled
  | .closed d =>
    match t.number d with
    | some n => next { s.setThread i (t.drop d) with table := s.table.revoke n }
    | none => undefined
  | e => next (s.setThread i (t.did e))

/-- `PrintLog` in the loop of `main`. -/
def doPrintLog (limit : Int) (s : Process) (unserved : Option Int) (fd : Option Int)
    (writes : Bool) : StepResult Process :=
  match fd with
  | none => next { s with ended := some (.status 1) }
  | some fd =>
    if s.Free limit fd then
      match printLog ⟨s.log, limit.toNat - s.table.length⟩ writes (Main.warning unserved) 2 with
      | .written log => next { s with
          table := (fd, .log) :: s.table
          log := log.file
          main := .behindLog unserved }
      | .exit code => next { s with ended := some (.status code) }
      | .undefined => undefined
    else disabled

/-- `pthread_create` on an accepted connection. -/
def doCreate (s : Process) (fd : Int) (env : Env) (inbox : Bytes) (ending : Ending)
    (conduct : Conduct) (ok : Bool) : Process :=
  if ok then
    { s with
      table := s.table.pass fd (.thread s.threads.length .sock)
      threads := s.threads ++ [⟨env, inbox, ending, conduct, [], [(.sock, fd)]⟩]
      main := .accepting }
  else { s with main := .logging (some fd) }

end Process

open Process

/-- One step of the process. -/
def step (limit : Int) (s : Process) (a : Action) : StepResult Process :=
  if s.ended.isSome then disabled
  else match a, s.main with
    | .accept fd env inbox ending conduct, .accepting =>
      if s.Free limit fd then
        next { s with
          table := (fd, .accepted) :: s.table
          main := .creating fd env inbox ending conduct }
      else disabled
    | .acceptFailed, .accepting => next { s with main := .logging none }
    | .create ok, .creating fd env inbox ending conduct =>
      next (s.doCreate fd env inbox ending conduct ok)
    | .printLog fd writes, .logging unserved => s.doPrintLog limit unserved fd writes
    | .closeUnserved, .closing fd =>
      next { s with table := s.table.revoke fd, main := .accepting }
    | .event i fuel fd, _ =>
      match s.threads[i]? with
      | some t =>
        match t.next fuel with
        | some e => s.doEvent limit i t fd e
        | none => disabled
      | none => disabled
    | .breaks i fuel, _ =>
      match s.threads[i]? with
      | some t => if t.breaks fuel then next { s with ended := some .sigpipe } else disabled
      | none => disabled
    | _, _ => disabled

/-! ### What one step does -/

variable {limit fd n : Int} {s t : Process} {a : Action} {th : Thread} {d : Descriptor}
  {env : Env} {inbox : Bytes} {ending : Ending} {conduct : Conduct} {fuel i : Nat} {e : Event}

/-- The steps of the process. -/
inductive Steps (limit : Int) (s : Process) : Action → Process → Prop where
  | accept {fd : Int} {env : Env} {inbox : Bytes} {ending : Ending} {conduct : Conduct} :
      s.main = .accepting → s.Free limit fd → Steps limit s (.accept fd env inbox ending conduct)
        { s with
          table := (fd, .accepted) :: s.table
          main := .creating fd env inbox ending conduct }
  | acceptFailed : s.main = .accepting →
      Steps limit s .acceptFailed { s with main := .logging none }
  | create {fd : Int} {env : Env} {inbox : Bytes} {ending : Ending} {conduct : Conduct} :
      s.main = .creating fd env inbox ending conduct → Steps limit s (.create true)
        { s with
          table := s.table.pass fd (.thread s.threads.length .sock)
          threads := s.threads ++ [⟨env, inbox, ending, conduct, [], [(.sock, fd)]⟩]
          main := .accepting }
  | createFailed {fd : Int} {env : Env} {inbox : Bytes} {ending : Ending} {conduct : Conduct} :
      s.main = .creating fd env inbox ending conduct →
        Steps limit s (.create false) { s with main := .logging (some fd) }
  | openFailed {unserved : Option Int} {writes : Bool} : s.main = .logging unserved →
      Steps limit s (.printLog none writes) { s with ended := some (.status 1) }
  | logFailed {unserved : Option Int} {fd : Int} {writes : Bool} {code : Int} :
      s.main = .logging unserved → s.Free limit fd → Steps limit s (.printLog (some fd) writes)
        { s with ended := some (.status code) }
  | logged {unserved : Option Int} {fd : Int} {writes : Bool} {log : Option Bytes} :
      s.main = .logging unserved → s.Free limit fd → Steps limit s (.printLog (some fd) writes)
        { s with
          table := (fd, .log) :: s.table
          log := log
          main := .behindLog unserved }
  | closeUnserved {fd : Int} : s.main = .closing fd → Steps limit s .closeUnserved
      { s with table := s.table.revoke fd, main := .accepting }
  | opened {i fuel : Nat} {fd : Int} {th : Thread} {d : Descriptor} : s.threads[i]? = some th →
      th.next fuel = some (.opened d) → s.Free limit fd → Steps limit s (.event i fuel fd)
        { s.setThread i (th.gain d fd) with table := (fd, .thread i d) :: s.table }
  | closed {i fuel : Nat} {fd n : Int} {th : Thread} {d : Descriptor} : s.threads[i]? = some th →
      th.next fuel = some (.closed d) → th.number d = some n → Steps limit s (.event i fuel fd)
        { s.setThread i (th.drop d) with table := s.table.revoke n }
  | other {i fuel : Nat} {fd : Int} {th : Thread} {e : Event} : s.threads[i]? = some th →
      th.next fuel = some e → e.use = none →
        Steps limit s (.event i fuel fd) (s.setThread i (th.did e))
  | breaks {i fuel : Nat} {th : Thread} : s.threads[i]? = some th → th.breaks fuel = true →
      Steps limit s (.breaks i fuel) { s with ended := some .sigpipe }

/-- A call of `PrintLog` is one of the steps. -/
theorem steps_of_doPrintLog {unserved fd : Option Int} {writes : Bool}
    (hmain : s.main = .logging unserved) (h : s.doPrintLog limit unserved fd writes = .next t) :
    Steps limit s (.printLog fd writes) t := by
  unfold doPrintLog at h
  cases fd with
  | none =>
    cases h
    exact .openFailed hmain
  | some fd =>
    dsimp only at h
    split at h
    · split at h
      · cases h
        exact .logged hmain (by assumption)
      · cases h
        exact .logFailed hmain (by assumption)
      · cases h
    · cases h

/-- A call of a thread is one of the steps. -/
theorem steps_of_doEvent (hth : s.threads[i]? = some th) (he : th.next fuel = some e)
    (h : s.doEvent limit i th fd e = .next t) : Steps limit s (.event i fuel fd) t := by
  cases e with
  | opened d =>
    rw [doEvent] at h
    split at h
    · cases h
      exact .opened hth he (by assumption)
    · cases h
  | closed d =>
    rw [doEvent] at h
    split at h
    · cases h
      exact .closed hth he (by assumption)
    · cases h
  | line | stat | openPath | execl | sent | sentFile | passed | outputEnded | waited =>
    cases h
    exact .other hth he rfl

/-- A process that has ended does nothing, and otherwise it does one of these steps. -/
theorem steps_of_step (h : step limit s a = .next t) : s.ended = none ∧ Steps limit s a t := by
  unfold step at h
  split at h
  · cases h
  · rename_i hlive
    refine ⟨Option.not_isSome_iff_eq_none.mp hlive, ?_⟩
    split at h
    · split at h
      · cases h
        exact .accept (by assumption) (by assumption)
      · cases h
    · cases h
      exact .acceptFailed (by assumption)
    · rename_i ok fd env inbox ending conduct hmain
      cases ok with
      | true =>
        cases h
        exact .create hmain
      | false =>
        cases h
        exact .createFailed hmain
    · exact steps_of_doPrintLog (by assumption) h
    · cases h
      exact .closeUnserved (by assumption)
    · split at h
      · split at h
        · exact steps_of_doEvent (by assumption) (by assumption) h
        · cases h
      · cases h
    · split at h
      · split at h
        · cases h
          exact .breaks (by assumption) (by assumption)
        · cases h
      · cases h
    · cases h

/-! ### Threads -/

/-- The next event of a thread is one that `HandleSock` does behind the past ones. -/
theorem Thread.part_of_next (h : th.next fuel = some e) : th.past ++ [e] <+: th.work fuel := by
  unfold Thread.next at h
  split at h
  · rename_i hpre
    obtain ⟨rest, hrest⟩ := hpre
    rw [← hrest, List.getElem?_append_right (Nat.le_refl _), Nat.sub_self] at h
    obtain ⟨more, rfl⟩ : ∃ more, rest = e :: more := by
      cases rest with
      | nil => cases h
      | cons c more => exact ⟨more, by rw [Option.some.inj h]⟩
    exact ⟨more, by rw [← hrest, List.append_assoc]; rfl⟩
  · cases h

/-- The descriptors of a thread behind its next event. -/
theorem Thread.ledger_next {ds : List Descriptor} (h : th.next fuel = some e)
    (hpast : ledger th.past = some ds) : ∃ left, ledger (th.past ++ [e]) = some left ∧
      ∀ u, e.use = some u → u.settle ds = some left := by
  have hbalanced : (ledger (th.work fuel)).isSome = true :=
    balanced_handleSock th.env th.inbox th.ending th.conduct fuel
  have hpre := (Thread.part_of_next h).filterMap Event.use
  obtain ⟨left, hleft⟩ := Option.isSome_iff_exists.mp (isSome_settle_part hbalanced hpre)
  refine ⟨left, hleft, fun u hu => ?_⟩
  rw [List.filterMap_append, List.filterMap_cons_some hu, List.filterMap_nil,
    settle_snoc hpast] at hleft
  exact hleft

/-- A variable that is named by the number of a descriptor holds it. -/
theorem Thread.mem_of_number (h : th.number d = some n) : (d, n) ∈ th.vars := by
  obtain ⟨v, hv, rfl⟩ := Option.map_eq_some_iff.mp h
  have hd : v.1 = d := by simpa using List.find?_some hv
  rw [← hd]
  exact List.mem_of_find?_eq_some hv

/-- A descriptor that a thread has open has a number. -/
theorem Thread.number_isSome (h : d ∈ th.vars.map Prod.fst) : (th.number d).isSome = true := by
  obtain ⟨v, hv, rfl⟩ := List.mem_map.mp h
  rw [Thread.number, Option.isSome_map, List.find?_isSome]
  exact ⟨v, hv, by simp⟩

/-- Without its variable a descriptor is not held any more. -/
theorem Thread.vars_drop (h : (th.vars.map Prod.fst).Nodup) :
    (th.drop d).vars.map Prod.fst = (th.vars.map Prod.fst).erase d := by
  rw [h.erase_eq_filter, List.filter_map]
  rfl

/-! ### Ownership -/

/-- Every number has one user, and each party knows the numbers it uses. -/
structure Owned (limit : Int) (s : Process) : Prop where
  distinct : s.table.numbers.Nodup
  bound : ∀ k ∈ s.table.numbers, 0 ≤ k ∧ k < limit
  fixed : startTable ⊆ s.table
  held : ∀ (i : Nat) (th : Thread), s.threads[i]? = some th →
    ledger th.past = some (th.vars.map Prod.fst)
  owns : ∀ i d n, (n, Owner.thread i d) ∈ s.table ↔
    ∃ th : Thread, s.threads[i]? = some th ∧ (d, n) ∈ th.vars
  waits : ∀ n, (n, Owner.accepted) ∈ s.table ↔ s.main.unserved = some n

/-- At the start only the listening socket is open. -/
theorem owned_start (hlimit : 5 ≤ limit) (log : Bytes) : Owned limit (.start log) where
  distinct := by
    change startTable.numbers.Nodup
    decide
  bound k hk := by
    have hk' : k ∈ ([0, 1, 2, 3, 4] : List Int) := hk
    simp only [List.mem_cons, List.not_mem_nil, or_false] at hk'
    omega
  fixed := List.Subset.refl _
  held i th h := by cases h
  owns i d n := by simp [Process.start, startTable]
  waits n := by simp [Process.start, startTable, Main.unserved]

namespace Owned

/-- A free number is given to a party. -/
theorem issue {o : Owner} (h : Owned limit s) (hfree : s.Free limit fd) :
    (Handles.numbers ((fd, o) :: s.table)).Nodup ∧
      (∀ k ∈ Handles.numbers ((fd, o) :: s.table), 0 ≤ k ∧ k < limit) ∧
        startTable ⊆ (fd, o) :: s.table := by
  refine ⟨Handles.nodup_issue h.distinct hfree.1.free, ?_, fun p hp => .tail _ (h.fixed hp)⟩
  rw [Handles.numbers_cons]
  exact List.forall_mem_cons.mpr ⟨⟨hfree.1.nonneg, hfree.2⟩, h.bound⟩

/-- A number that does not belong to the process itself is taken out of use. -/
theorem revoke {o : Owner} (h : Owned limit s) (hmem : (fd, o) ∈ s.table)
    (ho : ∀ k, (k, o) ∉ startTable) : (s.table.revoke fd).numbers.Nodup ∧
      (∀ k ∈ (s.table.revoke fd).numbers, 0 ≤ k ∧ k < limit) ∧
        startTable ⊆ s.table.revoke fd := by
  refine ⟨Handles.nodup_revoke h.distinct, ?_, fun p hp => Handles.mem_revoke.mpr ⟨h.fixed hp, ?_⟩⟩
  · intro k hk
    obtain ⟨p, hp, rfl⟩ := List.mem_map.mp hk
    exact h.bound _ (Handles.mem_numbers (Handles.mem_revoke.mp hp).1)
  · intro he
    have hsame := Handles.user_unique h.distinct (h.fixed hp) hmem he
    rw [hsame] at hp
    exact ho fd hp

/-- No descriptor of a thread stands twice among its variables. -/
theorem nodup_vars (h : Owned limit s) (hth : s.threads[i]? = some th) :
    (th.vars.map Prod.fst).Nodup :=
  nodup_settle (h.held i th hth) (List.nodup_singleton _)

/-- A number belongs to one variable of one thread. -/
theorem unique {j : Nat} {c : Descriptor} (h : Owned limit s) (hi : (n, .thread i d) ∈ s.table)
    (hj : (n, .thread j c) ∈ s.table) : i = j ∧ d = c := by
  have hsame := congrArg Prod.snd (Handles.user_unique h.distinct hi hj rfl)
  exact Owner.thread.inj hsame

/-- What a thread has open is in the table. -/
theorem mem_of_var (h : Owned limit s) (hth : s.threads[i]? = some th) (hv : (d, n) ∈ th.vars) :
    (n, .thread i d) ∈ s.table :=
  (h.owns i d n).mpr ⟨th, hth, hv⟩

/-- A step of `main` that gives a new number to `main` or to the log. -/
theorem of_issue {o : Owner} {m : Main} (log : Option Bytes) (h : Owned limit s)
    (hfree : s.Free limit fd) (ho : ∀ i d, o ≠ .thread i d)
    (hwaits : ∀ n, (n, Owner.accepted) ∈ (fd, o) :: s.table ↔ m.unserved = some n) :
    Owned limit { s with table := (fd, o) :: s.table, main := m, log := log } := by
  obtain ⟨hdistinct, hbound, hfixed⟩ := h.issue (o := o) hfree
  refine ⟨hdistinct, hbound, hfixed, h.held, fun i d n => ?_, hwaits⟩
  rw [List.mem_cons, ← h.owns i d n]
  constructor
  · rintro (he | hmem)
    · exact absurd (congrArg Prod.snd he).symm (ho i d)
    · exact hmem
  · exact Or.inr

/-- An accepted connection is `main`'s. -/
theorem accept (h : Owned limit s) (hmain : s.main = .accepting) (hfree : s.Free limit fd) :
    Owned limit
      { s with
        table := (fd, .accepted) :: s.table
        main := .creating fd env inbox ending conduct } := by
  refine of_issue s.log h hfree (fun _ _ => by simp) fun n => ?_
  rw [List.mem_cons, h.waits n, hmain]
  simp [Main.unserved, eq_comm]

/-- The descriptor of the log stays open. -/
theorem logged {unserved : Option Int} {log : Option Bytes} (h : Owned limit s)
    (hmain : s.main = .logging unserved) (hfree : s.Free limit fd) : Owned limit
      { s with
        table := (fd, .log) :: s.table
        log := log
        main := .behindLog unserved } := by
  refine of_issue log h hfree (fun _ _ => by simp) fun n => ?_
  rw [List.mem_cons, h.waits n, hmain, unserved_behindLog]
  simp [Main.unserved]

/-- Where `main` stands matters as far as it has a connection without a thread. -/
theorem of_main {m : Main} (h : Owned limit s) (hm : m.unserved = s.main.unserved) :
    Owned limit { s with main := m } :=
  ⟨h.distinct, h.bound, h.fixed, h.held, h.owns, fun n => (h.waits n).trans (by rw [← hm])⟩

/-- A new thread gets the connection. -/
theorem create (h : Owned limit s) (hmain : s.main = .creating fd env inbox ending conduct) :
    Owned limit
      { s with
        table := s.table.pass fd (.thread s.threads.length .sock)
        threads := s.threads ++ [⟨env, inbox, ending, conduct, [], [(.sock, fd)]⟩]
        main := .accepting } := by
  have hfd : (fd, Owner.accepted) ∈ s.table := (h.waits fd).mpr (by rw [hmain]; rfl)
  have hother {p : Int × Owner} (hp : p ∈ s.table) (ho : p.2 ≠ .accepted) : p.1 ≠ fd := by
    intro he
    exact ho (congrArg Prod.snd (Handles.user_unique h.distinct hp hfd he))
  refine ⟨?_, ?_, fun p hp => ?_, fun i th hth => ?_, fun i d n => ?_, fun n => ?_⟩
  · rw [Handles.numbers_pass]
    exact h.distinct
  · rw [Handles.numbers_pass]
    exact h.bound
  · refine Handles.mem_pass.mpr (.inl ⟨h.fixed hp, hother (h.fixed hp) ?_⟩)
    intro ho
    simp only [startTable, List.mem_cons, List.not_mem_nil, or_false] at hp
    rcases hp with rfl | rfl | rfl | rfl | rfl <;> cases ho
  · rcases Nat.lt_trichotomy i s.threads.length with hlt | rfl | hgt
    · rw [List.getElem?_append_left hlt] at hth
      exact h.held i th hth
    · rw [List.getElem?_concat_length] at hth
      obtain rfl := Option.some.inj hth
      rfl
    · rw [List.getElem?_eq_none (by simp; omega)] at hth
      cases hth
  · rw [Handles.mem_pass]
    constructor
    · rintro (⟨hmem, -⟩ | ⟨he, -⟩)
      · obtain ⟨th, hth, hv⟩ := (h.owns i d n).mp hmem
        have hlt := (List.getElem?_eq_some_iff.mp hth).1
        exact ⟨th, by rw [List.getElem?_append_left hlt]; exact hth, hv⟩
      · cases he
        exact ⟨_, List.getElem?_concat_length .., List.mem_singleton_self _⟩
    · rintro ⟨th, hth, hv⟩
      rcases Nat.lt_trichotomy i s.threads.length with hlt | rfl | hgt
      · rw [List.getElem?_append_left hlt] at hth
        have hmem := h.mem_of_var hth hv
        exact .inl ⟨hmem, hother hmem (by simp)⟩
      · rw [List.getElem?_concat_length] at hth
        obtain rfl := Option.some.inj hth
        obtain ⟨rfl, rfl⟩ := Prod.mk.inj (List.mem_singleton.mp hv)
        exact .inr ⟨rfl, Handles.mem_numbers hfd⟩
      · rw [List.getElem?_eq_none (by simp; omega)] at hth
        cases hth
  · rw [Handles.mem_pass, h.waits n, hmain]
    simp [Main.unserved, eq_comm]

/-- A connection that got no thread is closed. -/
theorem closeUnserved (h : Owned limit s) (hmain : s.main = .closing fd) :
    Owned limit { s with table := s.table.revoke fd, main := .accepting } := by
  have hfd : (fd, Owner.accepted) ∈ s.table := (h.waits fd).mpr (by rw [hmain]; rfl)
  obtain ⟨hdistinct, hbound, hfixed⟩ := h.revoke hfd (by simp [startTable])
  refine ⟨hdistinct, hbound, hfixed, h.held, fun i d n => ?_, fun n => ?_⟩
  · rw [Handles.mem_revoke, ← h.owns i d n]
    refine ⟨And.left, fun hmem => ⟨hmem, ?_⟩⟩
    rintro rfl
    have hsame := congrArg Prod.snd (Handles.user_unique h.distinct hmem hfd rfl)
    cases hsame
  · rw [Handles.mem_revoke, h.waits n, hmain]
    simp [Main.unserved, eq_comm]

/-- A thread does something, and nothing is said of the table yet. -/
theorem held_set {th' : Thread} (h : Owned limit s)
    (hledger : ledger th'.past = some (th'.vars.map Prod.fst)) (j : Nat) (x : Thread)
    (hx : (s.threads.set i th')[j]? = some x) : ledger x.past = some (x.vars.map Prod.fst) := by
  rw [List.getElem?_set] at hx
  split at hx
  · split at hx
    · obtain rfl := Option.some.inj hx
      exact hledger
    · cases hx
  · exact h.held j x hx

/-- What a thread opens is in the table as its own. -/
theorem opened (h : Owned limit s) (hth : s.threads[i]? = some th)
    (he : th.next fuel = some (.opened d)) (hfree : s.Free limit fd) : Owned limit
      { s.setThread i (th.gain d fd) with table := (fd, .thread i d) :: s.table } := by
  obtain ⟨hdistinct, hbound, hfixed⟩ := h.issue (o := .thread i d) hfree
  obtain ⟨left, hleft, hsettle⟩ := Thread.ledger_next he (h.held i th hth)
  obtain ⟨-, rfl⟩ := Use.settle_acquire.mp (hsettle _ rfl)
  have hlt := (List.getElem?_eq_some_iff.mp hth).1
  refine ⟨hdistinct, hbound, hfixed, h.held_set hleft, fun j c n => ?_, fun n => ?_⟩
  · change _ ↔ ∃ x, (s.threads.set i (th.gain d fd))[j]? = some x ∧ (c, n) ∈ x.vars
    rw [List.mem_cons, h.owns j c n, List.getElem?_set]
    by_cases hj : i = j
    · subst hj
      rw [if_pos rfl, if_pos hlt, hth]
      simp [Thread.gain, eq_comm, and_comm]
    · rw [if_neg hj]
      simp [Ne.symm hj]
  · rw [List.mem_cons]
    exact (or_iff_right (by simp)).trans (h.waits n)

/-- What a thread closes is no more in the table. -/
theorem closed (h : Owned limit s) (hth : s.threads[i]? = some th)
    (he : th.next fuel = some (.closed d)) (hn : th.number d = some n) : Owned limit
      { s.setThread i (th.drop d) with table := s.table.revoke n } := by
  have hvar : (d, n) ∈ th.vars := Thread.mem_of_number hn
  have hmem := h.mem_of_var hth hvar
  obtain ⟨hdistinct, hbound, hfixed⟩ := h.revoke hmem (by simp [startTable])
  obtain ⟨left, hleft, hsettle⟩ := Thread.ledger_next he (h.held i th hth)
  obtain ⟨-, rfl⟩ := Use.settle_release.mp (hsettle _ rfl)
  have hlt := (List.getElem?_eq_some_iff.mp hth).1
  rw [← Thread.vars_drop (h.nodup_vars hth)] at hleft
  refine ⟨hdistinct, hbound, hfixed, h.held_set hleft, fun j c m => ?_, fun m => ?_⟩
  · change _ ↔ ∃ x, (s.threads.set i (th.drop d))[j]? = some x ∧ (c, m) ∈ x.vars
    rw [Handles.mem_revoke, List.getElem?_set]
    by_cases hj : i = j
    · subst hj
      rw [if_pos rfl, if_pos hlt]
      have hdrop : (∃ x, some (th.drop d) = some x ∧ (c, m) ∈ x.vars) ↔
          (c, m) ∈ th.vars ∧ c ≠ d := by
        simp [Thread.drop]
      rw [hdrop]
      constructor
      · rintro ⟨hm, hne⟩
        obtain ⟨x, hx, hv⟩ := (h.owns i c m).mp hm
        obtain rfl := Option.some.inj (hth.symm.trans hx)
        refine ⟨hv, ?_⟩
        rintro rfl
        exact hne (congrArg Prod.snd (List.inj_on_of_nodup_map (h.nodup_vars hth) hv hvar rfl))
      · rintro ⟨hv, hne⟩
        refine ⟨h.mem_of_var hth hv, ?_⟩
        rintro rfl
        exact hne (h.unique (h.mem_of_var hth hv) hmem).2
    · rw [if_neg hj, ← h.owns j c m]
      refine ⟨And.left, fun hm => ⟨hm, ?_⟩⟩
      rintro rfl
      exact hj (h.unique hmem hm).1
  · rw [Handles.mem_revoke]
    refine ⟨fun hm => (h.waits m).mp hm.1, fun hm => ?_⟩
    have hm' := (h.waits m).mpr hm
    refine ⟨hm', ?_⟩
    rintro rfl
    have hsame := congrArg Prod.snd (Handles.user_unique h.distinct hm' hmem rfl)
    cases hsame

/-- The other calls of a thread change no descriptor. -/
theorem other (h : Owned limit s) (hth : s.threads[i]? = some th)
    (he : e.use = none) : Owned limit (s.setThread i (th.did e)) := by
  have hledger : ledger (th.past ++ [e]) = some (th.vars.map Prod.fst) :=
    (ledger_append (by simpa using he) _).trans (h.held i th hth)
  have hlt := (List.getElem?_eq_some_iff.mp hth).1
  refine ⟨h.distinct, h.bound, h.fixed, h.held_set hledger, fun j c n => ?_, h.waits⟩
  change (n, Owner.thread j c) ∈ s.table ↔
    ∃ x, (s.threads.set i (th.did e))[j]? = some x ∧ (c, n) ∈ x.vars
  rw [h.owns j c n, List.getElem?_set]
  by_cases hj : i = j
  · subst hj
    rw [if_pos rfl, if_pos hlt, hth]
    simp [Thread.did]
  · rw [if_neg hj]

end Owned

/-- A step keeps each open descriptor with its owner. -/
theorem Owned.steps (h : Owned limit s) (hs : Steps limit s a t) : Owned limit t := by
  cases hs with
  | accept hmain hfree => exact h.accept hmain hfree
  | acceptFailed hmain => exact h.of_main (by rw [hmain]; rfl)
  | create hmain => exact h.create hmain
  | createFailed hmain => exact h.of_main (by rw [hmain]; rfl)
  | openFailed | logFailed | breaks =>
    exact ⟨h.distinct, h.bound, h.fixed, h.held, h.owns, h.waits⟩
  | logged hmain hfree => exact h.logged hmain hfree
  | closeUnserved hmain => exact h.closeUnserved hmain
  | opened hth he hfree => exact h.opened hth he hfree
  | closed hth he hn => exact h.closed hth he hn
  | other hth he huse => exact h.other hth huse

/-! ### How many descriptors there are -/

/-- The records that were logged: each keeps a descriptor. -/
def Process.logs (s : Process) : Nat := s.table.countP fun p => p.2 == .log

/-- The descriptors that the threads hold. -/
def Process.held (s : Process) : Nat := (s.threads.map fun th => th.vars.length).sum

/-- All entries of the table are accounted for. -/
def Counted (s : Process) : Prop :=
  s.table.length = 4 + s.logs + s.held + s.main.unserved.toList.length

/-- The first entries are those of the start. -/
theorem counted_start (log : Bytes) : Counted (.start log) := rfl

/-- A thread that changed holds more or fewer descriptors. -/
theorem held_setThread (th' : Thread) (hth : s.threads[i]? = some th) :
    (s.setThread i th').held + th.vars.length = s.held + th'.vars.length :=
  sum_map_set (fun th => th.vars.length) hth th'

/-- Revoking a number of a thread. -/
theorem count_revoke {o : Owner} (h : Owned limit s) (hmem : (n, o) ∈ s.table) (ho : o ≠ .log) :
    (s.table.revoke n).length + 1 = s.table.length ∧
      (s.table.revoke n).countP (fun p => p.2 == .log) = s.logs := by
  have hperm := Handles.perm_cons_revoke h.distinct hmem
  have hcount := hperm.countP_eq fun p : Int × Owner => p.2 == .log
  rw [List.countP_cons_of_neg (by simpa using ho)] at hcount
  exact ⟨hperm.length_eq.symm, hcount.symm⟩

/-- A step keeps all entries accounted for. -/
theorem Counted.steps (h : Owned limit s) (hc : Counted s) (hs : Steps limit s a t) :
    Counted t := by
  unfold Counted at hc ⊢
  cases hs with
  | accept hmain hfree =>
    rw [hmain] at hc
    simp only [Process.logs, Process.held, Main.unserved, List.length_cons, Option.toList_none,
      Option.toList_some, List.length_nil] at hc ⊢
    rw [List.countP_cons_of_neg (by simp)]
    omega
  | acceptFailed hmain =>
    rw [hmain] at hc
    exact hc
  | @create fd _ _ _ _ hmain =>
    have hfd : (fd, Owner.accepted) ∈ s.table := (h.waits fd).mpr (by rw [hmain]; rfl)
    obtain ⟨hlen, hlogs⟩ := count_revoke h hfd (by simp)
    have hpass : (s.table.pass fd (.thread s.threads.length .sock)).countP (fun p => p.2 == .log) =
        s.logs := by
      rw [(Handles.perm_pass h.distinct hfd).countP_eq, List.countP_cons_of_neg (by simp), hlogs]
    rw [hmain] at hc
    simp only [Process.held, Main.unserved, Option.toList_none, Option.toList_some,
      List.length_nil, List.length_cons, List.map_append, List.sum_append, List.map_cons,
      List.map_nil, List.sum_cons, List.sum_nil, Handles.length_pass] at hc ⊢
    rw [Process.logs, hpass]
    omega
  | createFailed hmain =>
    rw [hmain] at hc
    exact hc
  | openFailed | logFailed | breaks => exact hc
  | logged hmain hfree =>
    rw [hmain] at hc
    simp only [Process.logs, Process.held, unserved_behindLog, List.length_cons] at hc ⊢
    rw [List.countP_cons_of_pos (by simp)]
    simp only [Main.unserved] at hc
    omega
  | @closeUnserved fd hmain =>
    have hfd : (fd, Owner.accepted) ∈ s.table := (h.waits fd).mpr (by rw [hmain]; rfl)
    obtain ⟨hlen, hlogs⟩ := count_revoke h hfd (by simp)
    rw [hmain] at hc
    simp only [Process.held, Main.unserved, Option.toList_none, Option.toList_some,
      List.length_nil, List.length_cons] at hc ⊢
    rw [Process.logs, hlogs]
    omega
  | @opened i _ fd th d hth he hfree =>
    have hheld := held_setThread (th.gain d fd) hth
    have hvars : (th.gain d fd).vars.length = th.vars.length + 1 := rfl
    simp only [Process.logs, Process.held, List.length_cons, Process.setThread] at hc hheld ⊢
    rw [List.countP_cons_of_neg (by simp)]
    omega
  | @closed i _ fd n th d hth he hn =>
    have hvar := Thread.mem_of_number hn
    obtain ⟨hlen, hlogs⟩ := count_revoke h (h.mem_of_var hth hvar) (by simp)
    have hheld := held_setThread (th.drop d) hth
    have hvars : (th.drop d).vars.length + 1 = th.vars.length := by
      have hlength := congrArg List.length (Thread.vars_drop (d := d) (h.nodup_vars hth))
      have hd : d ∈ th.vars.map Prod.fst := List.mem_map_of_mem hvar
      have hpos := List.length_pos_of_mem hd
      rw [List.length_erase_of_mem hd] at hlength
      simp only [List.length_map] at hlength hpos
      omega
    simp only [Process.held, Process.setThread] at hc hheld ⊢
    rw [Process.logs, hlogs]
    omega
  | @other i _ _ th e hth he huse =>
    have hheld := held_setThread (th.did e) hth
    have hvars : (th.did e).vars = th.vars := rfl
    rw [hvars] at hheld
    simp only [Process.logs, Process.setThread] at hc hheld ⊢
    omega

/-! ### Runs -/

/-- The states that the process comes to when each thread goes on in its turn. -/
def Reachable (limit : Int) (log : Bytes) (s : Process) : Prop :=
  Reaches (step limit) (fun _ _ => True) (.start log) s

variable {log : Bytes}

/-- Each open descriptor has its owner in every state reached. -/
theorem Reachable.owned (h : Reachable limit log s) (hlimit : 5 ≤ limit) : Owned limit s :=
  Reaches.invariant h (owned_start hlimit log) fun _ _ _ hI _ hs => hI.steps (steps_of_step hs).2

/-- All entries are accounted for in every state reached. -/
theorem Reachable.counted (h : Reachable limit log s) (hlimit : 5 ≤ limit) : Counted s :=
  Reaches.invariant_with h (fun _ hr => Reachable.owned hr hlimit) (counted_start log)
    fun _ _ _ hbase hI _ hs => hI.steps hbase (steps_of_step hs).2

/-- Both warnings fit into the array of `PrintLog`. -/
theorem printLog_warning_ne (log : Log) (unserved : Option Int) (writes : Bool) :
    printLog log writes (Main.warning unserved) 2 ≠ .undefined := by
  have hfits : LogCall.fits ⟨writes, Main.warning unserved, 2⟩ = true := by
    cases unserved <;> rfl
  obtain ⟨file, free⟩ := log
  cases file with
  | none => exact fun h => by cases h
  | some content =>
    cases free with
    | zero => exact fun h => by cases h
    | succ free =>
      have hlog := @printLog_succ content free ⟨writes, Main.warning unserved, 2⟩
      rw [hfits, if_pos rfl] at hlog
      dsimp only at hlog
      rw [hlog]
      cases writes <;> exact fun h => by cases h

/-- No thread closes a descriptor that it does not hold. -/
theorem Owned.defined (h : Owned limit s) : step limit s a ≠ .undefined := by
  intro hundef
  unfold step at hundef
  split at hundef
  · cases hundef
  · split at hundef
    · split at hundef <;> cases hundef
    · cases hundef
    · cases hundef
    · rename_i fd writes unserved hmain
      unfold doPrintLog at hundef
      split at hundef
      · cases hundef
      · split at hundef
        · split at hundef
          · cases hundef
          · cases hundef
          · exact printLog_warning_ne _ _ _ (by assumption)
        · cases hundef
    · cases hundef
    · rename_i i fuel fd
      split at hundef
      · rename_i th hth
        split at hundef
        · rename_i e he
          obtain ⟨left, -, hsettle⟩ := Thread.ledger_next he (h.held i th hth)
          cases e with
          | opened d =>
            rw [doEvent] at hundef
            split at hundef <;> cases hundef
          | closed d =>
            have hd := (Use.settle_release.mp (hsettle _ rfl)).1
            obtain ⟨n, hn⟩ := Option.isSome_iff_exists.mp (Thread.number_isSome hd)
            rw [doEvent, hn] at hundef
            cases hundef
          | line | stat | openPath | execl | sent | sentFile | passed | outputEnded | waited =>
            cases hundef
        · cases hundef
      · cases hundef
    · split at hundef
      · split at hundef <;> cases hundef
      · cases hundef
    · cases hundef

/-- Who may close a descriptor: its thread, and `main` a connection without a thread. -/
def Action.mayClose : Action → Owner → Prop
  | .event i _ _, .thread j _ => i = j
  | .closeUnserved, .accepted => True
  | _, _ => False

/-- A descriptor that goes out of use was closed by its user. -/
theorem Owned.mayClose {p : Int × Owner} (h : Owned limit s) (hs : Steps limit s a t)
    (hp : p ∈ s.table) (hgone : p.1 ∉ t.table.numbers) : a.mayClose p.2 := by
  have hin := Handles.mem_numbers hp
  have hrevoked {n : Int} {o : Owner} (hmem : (n, o) ∈ s.table)
      (hgone : p.1 ∉ (s.table.revoke n).numbers) : p = (n, o) := by
    refine Handles.user_unique h.distinct hp hmem ?_
    by_contra hne
    exact hgone (Handles.mem_numbers (Handles.mem_revoke.mpr ⟨hp, hne⟩))
  cases hs with
  | accept | logged | opened => exact absurd (List.mem_cons_of_mem _ hin) hgone
  | acceptFailed | createFailed | openFailed | logFailed | other | breaks =>
    exact absurd hin hgone
  | create hmain =>
    rw [Handles.numbers_pass] at hgone
    exact absurd hin hgone
  | @closeUnserved fd hmain =>
    rw [hrevoked ((h.waits fd).mpr (by rw [hmain]; rfl)) hgone]
    trivial
  | closed hth he hn =>
    rw [hrevoked (h.mem_of_var hth (Thread.mem_of_number hn)) hgone]
    rfl

/-- However the threads take turns, every number in use is below the limit and has one user,
a thread uses exactly the numbers that its variables hold, nothing is closed that is not
open, and what goes out of use was closed by its user. -/
theorem descriptors_owned (hlimit : 5 ≤ limit) (h : Reachable limit log s) :
    s.table.numbers.Nodup ∧ (∀ k ∈ s.table.numbers, 0 ≤ k ∧ k < limit) ∧
      (∀ i d n, (n, .thread i d) ∈ s.table ↔
        ∃ th : Thread, s.threads[i]? = some th ∧ (d, n) ∈ th.vars) ∧
      ∀ a, step limit s a ≠ .undefined ∧ ∀ t, step limit s a = .next t →
        ∀ p ∈ s.table, p.1 ∉ t.table.numbers → a.mayClose p.2 := by
  have howned := h.owned hlimit
  refine ⟨howned.distinct, howned.bound, howned.owns, fun a => ⟨howned.defined, ?_⟩⟩
  intro t hs p hp hgone
  exact howned.mayClose (steps_of_step hs).2 hp hgone

/-- A connection whose thread answers a request with the method HEAD. -/
def headRun : List Action :=
  [.accept 5 emptyDisk (ascii "HEAD /\n\n") .silent .willing, .create true, .event 0 60 0,
    .event 0 60 0, .event 0 60 0, .event 0 60 0]

/-- The only thread has returned, its table is full, and `main` accepts. -/
def Process.spent (s : Process) : Bool :=
  (match s.main with
    | .accepting => true
    | _ => false) && s.ended.isNone && s.table.length == 6 &&
  match s.threads with
  | [th] => (th.run 60).1 == .done (-1) && th.past == th.work 60
  | _ => false

/-- A table can come to be full of what was left open. -/
theorem exists_spent : ∃ s, Reachable 6 [] s ∧ s.spent = true := by
  have hrun : ∃ s, runGuarded (step 6) (fun _ _ => True) (.start []) headRun = next s ∧
      s.spent = true :=
    exists_next_of_map (by decide +kernel)
  obtain ⟨s, hs, hspent⟩ := hrun
  exact ⟨s, Reaches.of_runGuarded _ _ hs, hspent⟩

/-- In a full table every number has one user. -/
theorem descriptors_owned_headRun : ∃ s, Reachable 6 [] s ∧ s.table.length = 6 ∧
    s.table.numbers.Nodup ∧ ∀ k ∈ s.table.numbers, 0 ≤ k ∧ k < 6 := by
  obtain ⟨s, hreach, hspent⟩ := exists_spent
  simp only [Process.spent, Bool.and_eq_true, beq_iff_eq] at hspent
  have howned := descriptors_owned (by omega) hreach
  exact ⟨s, hreach, hspent.1.2, howned.1, howned.2.1⟩

/-! ### What is never closed -/

/-- The thread has returned from `HandleSock`. -/
def Thread.Completed (th : Thread) : Prop :=
  ∃ r w, (handleSock th.env).Returns (connected th.inbox th.ending th.conduct) r w ∧
    th.past = w.trace

/-- How many descriptors `HandleSock` leaves open on the connection of a thread. -/
def Thread.leftOver (th : Thread) : Nat :=
  match LineStream.takeChunk th.ending.seen 1024 th.inbox with
  | some (line, rest) =>
    (leftOpen th.env (LineStream.lines th.ending.seen rest) (lineRoute th.env line)).length
  | none => 0

/-- How many descriptors are left open on a connection. -/
def Process.leftOver (s : Process) (i : Nat) : Nat := ((s.threads[i]?).map Thread.leftOver).getD 0

/-- A thread that has returned holds what its route leaves open. -/
theorem Owned.length_vars (h : Owned limit s) (hth : s.threads[i]? = some th)
    (hdone : th.Completed) : th.vars.length = th.leftOver := by
  obtain ⟨r, w, hreturns, hpast⟩ := hdone
  obtain ⟨line, rest, hchunk, hleft⟩ := ledger_of_returns hreturns
  have hheld := h.held i th hth
  rw [hpast, hleft] at hheld
  have hlength := congrArg List.length (Option.some.inj hheld)
  rw [List.length_map] at hlength
  rw [Thread.leftOver, hchunk]
  exact hlength.symm

/-- The table has no more than its limit. -/
theorem Owned.length_le (h : Owned limit s) : s.table.length ≤ limit.toNat :=
  Handles.length_le h.distinct h.bound

/-- In every run the descriptors that threads left open when they returned, one for each
request with another method than GET and POST, the records that were logged and the descriptors of
the start are no more than the limit. -/
theorem left_open_bounded (hlimit : 5 ≤ limit) (h : Reachable limit log s) {is : List Nat}
    (hnodup : is.Nodup)
    (hdone : ∀ i ∈ is, ∃ th : Thread, s.threads[i]? = some th ∧ th.Completed) :
    (is.map s.leftOver).sum + s.logs + 4 ≤ limit.toNat := by
  have howned := h.owned hlimit
  have hcounted : Counted s := h.counted hlimit
  have hlength := howned.length_le
  have hleft : (is.map s.leftOver).sum ≤ s.held := by
    refine sum_map_le_sum_map hnodup fun i hi => ?_
    obtain ⟨th, hth, hcompleted⟩ := hdone i hi
    refine ⟨th, hth, ?_⟩
    rw [Process.leftOver, hth, Option.map_some, Option.getD_some,
      howned.length_vars hth hcompleted]
  unfold Counted at hcounted
  omega

/-- One request with the method HEAD fills a table for one connection. -/
theorem left_open_bounded_headRun : ∃ s, Reachable 6 [] s ∧
    ([0].map s.leftOver).sum + s.logs + 4 ≤ (6 : Int).toNat := by
  obtain ⟨s, hreach, hspent⟩ := exists_spent
  refine ⟨s, hreach, left_open_bounded (by omega) hreach (List.nodup_singleton 0) ?_⟩
  rw [Process.spent, Bool.and_eq_true] at hspent
  obtain ⟨-, hthread⟩ := hspent
  split at hthread
  · rename_i th hth
    rw [Bool.and_eq_true, beq_iff_eq, beq_iff_eq] at hthread
    obtain ⟨hdone, hpast⟩ := hthread
    intro i hi
    obtain rfl := List.mem_singleton.mp hi
    exact ⟨th, by rw [hth]; rfl, _, _, returns_of_run hdone, hpast⟩
  · cases hthread

/-! ### A full table -/

/-- The step closes no descriptor of a thread. -/
def Unclosing (s : Process) (a : Action) : Prop :=
  ∀ i fuel fd th d, a = .event i fuel fd → s.threads[i]? = some th → th.next fuel ≠ some (.closed d)

/-- The table is full, and `main` has no connection in hand. -/
structure Stuck (s u : Process) : Prop where
  table : u.table = s.table
  threads : u.threads.length = s.threads.length
  main : u.main = .accepting ∨ u.main = .logging none
  ended : u.ended = s.ended ∨ u.ended = some (.status 1) ∨ u.ended = some .sigpipe

/-- Nothing is opened in a full table, and `PrintLog` or SIGPIPE ends the process. -/
theorem Stuck.steps {u v : Process} (h : Stuck s u) (howned : Owned limit u)
    (hfull : u.table.length = limit.toNat) (hquiet : Unclosing u a) (hlive : u.ended = none)
    (hs : Steps limit u a v) : Stuck s v := by
  have hnone {fd : Int} : ¬ u.Free limit fd := fun hfree =>
    Handles.not_lt_of_full howned.distinct howned.bound hfull.ge hfree.1 hfree.2
  obtain ⟨htable, hthreads, hmain, hended⟩ := h
  have hstart : s.ended = none := by
    rcases hended with hended | hended | hended
    · rw [← hended, hlive]
    · rw [hlive] at hended
      cases hended
    · rw [hlive] at hended
      cases hended
  cases hs with
  | accept _ hfree => exact absurd hfree hnone
  | logged _ hfree => exact absurd hfree hnone
  | opened _ _ hfree => exact absurd hfree hnone
  | acceptFailed => exact ⟨htable, hthreads, .inr rfl, hended⟩
  | create hcreate => rcases hmain with hmain | hmain <;> rw [hmain] at hcreate <;> cases hcreate
  | createFailed hcreate =>
    rcases hmain with hmain | hmain <;> rw [hmain] at hcreate <;> cases hcreate
  | openFailed => exact ⟨htable, hthreads, hmain, .inr (.inl rfl)⟩
  | breaks => exact ⟨htable, hthreads, hmain, .inr (.inr rfl)⟩
  | logFailed _ hfree => exact absurd hfree hnone
  | closeUnserved hclose =>
    rcases hmain with hmain | hmain <;> rw [hmain] at hclose <;> cases hclose
  | closed hth he _ => exact absurd he (hquiet _ _ _ _ _ rfl hth)
  | other hth _ _ =>
    refine ⟨htable, ?_, hmain, hended⟩
    rw [← hthreads]
    exact List.length_set ..

/-- Once the table is full and until a thread closes something, no connection is accepted and
nothing is logged, and the process can only end with status 1, or by a SIGPIPE of a thread. -/
theorem full_table_accepts_nothing (hlimit : 5 ≤ limit) (h : Reachable limit log s)
    (hfull : s.table.length = limit.toNat) (hmain : s.main = .accepting)
    (hr : Reaches (step limit) Unclosing s t) : Stuck s t := by
  have howned {u : Process} (hu : Reaches (step limit) Unclosing s u) : Owned limit u :=
    Reachable.owned (Reaches.trans h (hu.mono fun _ _ _ => trivial)) hlimit
  refine hr.invariant_with (fun _ => howned) ⟨rfl, rfl, .inl hmain, .inl rfl⟩ ?_
  intro u a v hu hstuck hquiet hs
  obtain ⟨hlive, hsteps⟩ := steps_of_step hs
  exact hstuck.steps hu (hstuck.table ▸ hfull) hquiet hlive hsteps

/-- A server whose table is full exits when it fails to accept. -/
theorem full_table_accepts_nothing_headRun :
    ∃ s t, Reachable 6 [] s ∧ Stuck s t ∧ t.ended = some (.status 1) := by
  obtain ⟨s, hreach, hspent⟩ := exists_spent
  simp only [Process.spent, Bool.and_eq_true, beq_iff_eq] at hspent
  obtain ⟨⟨⟨hmain, hended⟩, hlength⟩, -⟩ := hspent
  have hmain : s.main = .accepting := by
    cases hm : s.main with
    | accepting => rfl
    | creating | logging | closing => simp [hm] at hmain
  have hlive : s.ended.isSome = false := by
    rw [Option.isNone_iff_eq_none.mp hended]
    rfl
  have hfail : step 6 s .acceptFailed = next { s with main := .logging none } := by
    simp [step, hlive, hmain]
  have hlog : step 6 { s with main := .logging none } (.printLog none true) =
      next { s with main := .logging none, ended := some (.status 1) } := by
    simp [step, hlive, doPrintLog]
  have hruns : Reaches (step 6) Unclosing s
      { s with main := .logging none, ended := some (.status 1) } :=
    .tail (.tail .refl (fun _ _ _ _ _ h => by cases h) hfail) (fun _ _ _ _ _ h => by cases h) hlog
  exact ⟨s, _, hreach, full_table_accepts_nothing (by omega) hreach hlength hmain hruns, rfl⟩

end NetworkCode.Httpd
