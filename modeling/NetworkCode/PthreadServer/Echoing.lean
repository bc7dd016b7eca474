import NetworkCode.Core.Handles
import NetworkCode.Core.Text
import NetworkCode.PthreadServer.Handover
import Mathlib.Data.List.NodupEquivFin

/-!
# What the threads echo

A thread reads some of what its client has sent into its own array, and writes it back to the
same socket before it reads again. Whichever sockets the threads got from `arg`, each client gets
back what was read from it and nothing else, and in the order in which it was sent when one
thread serves it. With two threads the parts may change places, and without one nothing comes back.

A call of `write` waits until all that it is given is taken, unless the connection was reset. The
result is not looked at, so that a part is then lost, or `SIGPIPE` ends the process. No socket is
ever closed, so that a descriptor stands for one connection.
-/

namespace NetworkCode.PthreadServer

open StepResult Text

/-! ## The source -/

/-- The server with the streams of its connections. -/
structure Service where
  process : State
  /-- What the threads have read and not written back, under their numbers, each with the socket. -/
  inHand : Handles (Fd × Bytes)
  /-- What the clients have sent. -/
  sent : Fd → Bytes
  /-- What was not read of it. -/
  unread : Fd → Bytes
  /-- What was written to the sockets. -/
  echoed : Fd → Bytes
  /-- The connections that were reset by their clients. -/
  resets : List Fd
  /-- `SIGPIPE` has ended the process. -/
  killed : Bool

/-- The server before its loop. -/
def Service.start (listenSock : Fd) (arg : Log) : Service where
  process := PthreadServer.start listenSock arg
  inHand := []
  sent _ := []
  unread _ := []
  echoed _ := []
  resets := []
  killed := false

/-- What happens next. -/
inductive Event where
  /-- A step of `main`, or of a thread outside of `read` and `write`. -/
  | process (a : Action)
  /-- A client sends something. -/
  | arrive (fd : Fd) (bytes : Bytes)
  /-- `read` returns `count` bytes to the thread `i`. -/
  | read (i count : Nat)
  /-- `write` takes `count` of them from the thread `i`. -/
  | write (i count : Nat)
  /-- The client has left, and something was written to it behind that. -/
  | reset (fd : Fd)
  /-- The thread `i` writes to a connection that was reset. -/
  | sigpipe (i : Nat)
  deriving DecidableEq

/-- The action is a call of `read` that returns bytes. -/
def Action.isData : Action → Bool
  | .data _ _ => true
  | _ => false

namespace Service

/-- The thread of an action has nothing in hand. -/
def idle (v : Service) (a : Action) : Bool :=
  a.thread.all fun i => !v.inHand.numbers.contains (i : Int)

/-- The thread `i` takes `count` bytes from its socket. -/
def doRead (v : Service) (i count : Nat) (sock : Fd) : Service :=
  { v with
    inHand := ((i : Int), (sock, (v.unread sock).take count)) :: v.inHand
    unread := Function.update v.unread sock ((v.unread sock).drop count) }

/-- The thread `i` writes bytes to its socket, and has nothing in hand then. -/
def doWrite (v : Service) (i : Int) (sock : Fd) (bytes : Bytes) : Service :=
  { v with
    inHand := v.inHand.revoke i
    echoed := Function.update v.echoed sock (v.echoed sock ++ bytes) }

/-- What the thread `i` has in hand. -/
def holding (v : Service) (i : Nat) : Option (Int × (Fd × Bytes)) :=
  v.inHand.find? fun e => e.1 == (i : Int)

/-- One step of the server or of a client, as long as the process lives. -/
def live (v : Service) : Event → StepResult Service
  | .process a =>
    if a.isData = false ∧ v.idle a = true then
      (PthreadServer.step v.process a).bind fun process => next { v with process }
    else disabled
  | .arrive fd bytes =>
    next { v with
      sent := Function.update v.sent fd (v.sent fd ++ bytes)
      unread := Function.update v.unread fd (v.unread fd ++ bytes) }
  | .read i count =>
    match (v.process.handlers[i]?).bind Handler.sock? with
    | some sock =>
      if v.idle (.data i count) = true ∧ count ≤ (v.unread sock).length then
        (PthreadServer.step v.process (.data i count)).bind fun _ => next (v.doRead i count sock)
      else disabled
    | none => disabled
  | .write i count =>
    match v.holding i with
    | some e =>
      if count = e.2.2.length ∨ count < e.2.2.length ∧ e.2.1 ∈ v.resets then
        next (v.doWrite e.1 e.2.1 (e.2.2.take count))
      else disabled
    | none => disabled
  | .reset fd => next { v with resets := fd :: v.resets }
  | .sigpipe i =>
    match v.holding i with
    | some e => if e.2.1 ∈ v.resets then next { v with killed := true } else disabled
    | none => disabled

/-- One step; there is none behind the end of the process. -/
def step (v : Service) (e : Event) : StepResult Service :=
  if v.killed then disabled else v.live e

end Service

/-! ## What the threads serve -/

variable {s t : State} {a : Action} {v w : Service} {e : Event} {i j count : Nat} {fd sock : Fd}

/-- The thread `i` serves the socket. -/
def State.Serves (s : State) (i : Nat) (sock : Fd) : Prop :=
  (s.handlers[i]?).bind Handler.sock? = some sock

/-- A thread serves a socket when it has loaded this descriptor. -/
theorem serves_iff : s.Serves i sock ↔ (s.handlers.map Handler.sock?)[i]? = some (some sock) := by
  rw [State.Serves, List.getElem?_map, Option.map_eq_some_iff, Option.bind_eq_some_iff]

/-- What the threads have read of their sockets stays. -/
theorem serves_of_step (hs : step s a = next t) :
    (∀ i sock, s.Serves i sock → t.Serves i sock) ∧ ∀ sock, s.servers sock ≤ t.servers sock := by
  have hsame (hmap : t.handlers.map Handler.sock? = s.handlers.map Handler.sock?) :
      (∀ i sock, s.Serves i sock → t.Serves i sock) ∧
        ∀ sock, s.servers sock ≤ t.servers sock := by
    simp only [serves_iff, State.servers, hmap]
    exact ⟨fun _ _ => id, fun _ => Nat.le_refl _⟩
  cases Effect.of_step hs with
  | passed | accepted | storedSock | stored | notCreated => exact hsame rfl
  | created hmain =>
    have hmap : (s.handlers ++ [Handler.started]).map Handler.sock? =
        s.handlers.map Handler.sock? ++ [none] := List.map_append
    simp only [serves_iff, State.servers, hmap]
    refine ⟨fun i sock hi => ?_, fun sock => by simp⟩
    rw [List.getElem?_append_left (List.getElem?_eq_some_iff.mp hi).1, hi]
  | @loadedSock i hi =>
    refine ⟨fun j sock hj => ?_, fun sock => ?_⟩
    · have hne : i ≠ j := by
        rintro rfl
        rw [State.Serves, hi] at hj
        cases hj
      rw [State.Serves, State.moved, List.getElem?_set_ne hne]
      exact hj
    · rw [(count_moved s.arg.sock hi).1]
      exact Nat.le_add_right _ _
  | loaded hi hsock => exact hsame (map_moved hi hsock)
  | left ha hi => exact hsame (map_moved hi rfl)

/-- A socket with one thread at most has only this one. -/
theorem serves_unique (hle : s.servers sock ≤ 1) (hi : s.Serves i sock) (hj : s.Serves j sock) :
    i = j := by
  rw [serves_iff] at hi hj
  by_contra hne
  have hdup : List.Duplicate (some sock) (s.handlers.map Handler.sock?) := by
    obtain ⟨hilt, hi⟩ := List.getElem?_eq_some_iff.mp hi
    obtain ⟨hjlt, hj⟩ := List.getElem?_eq_some_iff.mp hj
    rw [List.duplicate_iff_exists_distinct_get]
    rcases Nat.lt_or_gt_of_ne hne with hlt | hlt
    · exact ⟨⟨i, hilt⟩, ⟨j, hjlt⟩, hlt, hi.symm, hj.symm⟩
    · exact ⟨⟨j, hjlt⟩, ⟨i, hilt⟩, hlt, hj.symm, hi.symm⟩
  have htwo := (List.duplicate_iff_sublist.mp hdup).count_le (some sock)
  have hcount : [some sock, some sock].count (some sock) = 2 := by simp
  rw [hcount] at htwo
  exact absurd (htwo.trans hle) (by decide)

/-! ## The account of a connection -/

namespace Service

/-- What threads have in hand for a socket. -/
def hands (v : Service) (fd : Fd) : List Bytes :=
  (v.inHand.filter fun e => e.2.1 == fd).map fun e => e.2.2

/-- What was sent on a connection was read in these parts or was not read yet, and `write` was
called with the parts `done` of it and took `written`, all of them unless the connection was
reset. -/
structure Accounts (v : Service) (fd : Fd) (parts done written : List Bytes) : Prop where
  taken : parts.flatten ++ v.unread fd = v.sent fd
  beginnings : List.Forall₂ (· <+: ·) written done
  whole : fd ∉ v.resets → written = done
  returned : written.flatten = v.echoed fd
  balance : parts.Perm (done ++ v.hands fd)
  ordered : v.process.servers fd ≤ 1 → parts = done ++ v.hands fd
  served : v.process.servers fd = 0 → parts = []

/-- Each thread has one text in hand at most, for the socket that it serves, and all connections
have their accounts. -/
structure Echoes (v : Service) : Prop where
  distinct : v.inHand.numbers.Nodup
  owned : ∀ e ∈ v.inHand, ∃ i : Nat, e.1 = i ∧ v.process.Serves i e.2.1
  accounts : ∀ fd, ∃ parts done written, v.Accounts fd parts done written
  killed : v.killed = true → v.resets ≠ []

/-- Before the first client nothing was sent or read. -/
theorem echoes_start (listenSock : Fd) (arg : Log) : (Service.start listenSock arg).Echoes where
  distinct := List.nodup_nil
  owned := List.forall_mem_nil _
  accounts _ := ⟨[], [], [], rfl, .nil, fun _ => rfl, rfl, .nil, fun _ => rfl, fun _ => rfl⟩
  killed hk := by cases hk

/-- A step without `read` and `write`. -/
theorem Echoes.process (h : v.Echoes) (hs : PthreadServer.step v.process a = next t) :
    ({ v with process := t } : Service).Echoes := by
  obtain ⟨hserves, hservers⟩ := serves_of_step hs
  refine ⟨h.distinct, fun e he => ?_, fun fd => ?_, h.killed⟩
  · obtain ⟨i, hi, hserve⟩ := h.owned e he
    exact ⟨i, hi, hserves i _ hserve⟩
  · obtain ⟨parts, done, written, hacc⟩ := h.accounts fd
    have hle := hservers fd
    exact ⟨parts, done, written, hacc.taken, hacc.beginnings, hacc.whole, hacc.returned,
      hacc.balance, fun hone => hacc.ordered (hle.trans hone),
      fun hnone => hacc.served (Nat.le_zero.mp (hle.trans (Nat.le_of_eq hnone)))⟩

/-- A client sends more. -/
theorem Echoes.arrive (h : v.Echoes) (fd : Fd) (bytes : Bytes) :
    ({ v with
      sent := Function.update v.sent fd (v.sent fd ++ bytes)
      unread := Function.update v.unread fd (v.unread fd ++ bytes) } : Service).Echoes := by
  refine ⟨h.distinct, h.owned, fun x => ?_, h.killed⟩
  obtain ⟨parts, done, written, hacc⟩ := h.accounts x
  refine ⟨parts, done, written, ?_, hacc.beginnings, hacc.whole, hacc.returned, hacc.balance,
    hacc.ordered, hacc.served⟩
  by_cases hx : x = fd
  · subst hx
    simp only [Function.update_self]
    rw [← List.append_assoc, hacc.taken]
  · simp only [Function.update_of_ne hx]
    exact hacc.taken

/-- A connection is reset. -/
theorem Echoes.reset (h : v.Echoes) (fd : Fd) :
    ({ v with resets := fd :: v.resets } : Service).Echoes := by
  refine ⟨h.distinct, h.owned, fun x => ?_, fun _ => List.cons_ne_nil _ _⟩
  obtain ⟨parts, done, written, hacc⟩ := h.accounts x
  exact ⟨parts, done, written, hacc.taken, hacc.beginnings,
    fun hx => hacc.whole fun hmem => hx (List.mem_cons_of_mem _ hmem), hacc.returned,
    hacc.balance, hacc.ordered, hacc.served⟩

/-- `SIGPIPE` ends the process where a connection was reset. -/
theorem Echoes.sigpipe (h : v.Echoes) (hreset : fd ∈ v.resets) :
    ({ v with killed := true } : Service).Echoes := by
  refine ⟨h.distinct, h.owned, fun x => ?_, fun _ => List.ne_nil_of_mem hreset⟩
  obtain ⟨parts, done, written, hacc⟩ := h.accounts x
  exact ⟨parts, done, written, hacc.taken, hacc.beginnings, hacc.whole, hacc.returned,
    hacc.balance, hacc.ordered, hacc.served⟩

/-- A socket with one thread is in no hand but that of its thread. -/
theorem Echoes.eq_of_owned (h : v.Echoes) (hone : v.process.servers sock ≤ 1)
    (hi : v.process.Serves i sock) {e : Int × (Fd × Bytes)} (he : e ∈ v.inHand)
    (hsock : e.2.1 = sock) : e.1 = i := by
  obtain ⟨j, hj, hserves⟩ := h.owned e he
  rw [hj, serves_unique hone hi (hsock ▸ hserves)]

/-- A thread that reads has nothing in hand, so that its part is the last one of its socket. -/
theorem Echoes.read (h : v.Echoes) (hi : v.process.Serves i sock)
    (hidle : (i : Int) ∉ v.inHand.numbers) : (v.doRead i count sock).Echoes := by
  refine ⟨Handles.nodup_issue h.distinct hidle, ?_, fun x => ?_, h.killed⟩
  · exact List.forall_mem_cons.mpr ⟨⟨i, rfl, hi⟩, h.owned⟩
  obtain ⟨parts, done, written, hacc⟩ := h.accounts x
  by_cases hx : x = sock
  · subst hx
    have hhands : (v.doRead i count x).hands x = (v.unread x).take count :: v.hands x := by
      simp [hands, doRead]
    refine ⟨parts ++ [(v.unread x).take count], done, written, ?_, hacc.beginnings, hacc.whole,
      hacc.returned, ?_, fun hone => ?_, fun hnone => ?_⟩
    · simp only [doRead, Function.update_self, List.flatten_append, List.flatten_singleton]
      rw [List.append_assoc, List.take_append_drop, hacc.taken]
    · rw [hhands]
      have hlast := (List.perm_append_singleton ((v.unread x).take count)
        (v.hands x)).append_left done
      rw [← List.append_assoc] at hlast
      exact (hacc.balance.append_right _).trans hlast
    · have hfree : v.hands x = [] := by
        rw [hands, List.map_eq_nil_iff, List.filter_eq_nil_iff]
        intro e he hsock
        have hfirst := h.eq_of_owned hone hi he (by simpa using hsock)
        exact hidle (hfirst ▸ Handles.mem_numbers he)
      rw [hhands, hacc.ordered hone, hfree, List.append_nil]
    · have hpos := List.count_pos_iff.mpr (List.mem_of_getElem? (serves_iff.mp hi))
      exact absurd hnone (Nat.ne_of_gt hpos)
  · have hhands : (v.doRead i count sock).hands x = v.hands x := by
      have hne : (sock == x) = false := by simpa using fun he => hx he.symm
      simp [hands, doRead, hne]
    refine ⟨parts, done, written, ?_, hacc.beginnings, hacc.whole, hacc.returned, ?_, ?_,
      hacc.served⟩
    · simp only [doRead, Function.update_of_ne hx]
      exact hacc.taken
    · rw [hhands]
      exact hacc.balance
    · rw [hhands]
      exact hacc.ordered

/-- A thread writes what it has in hand, or a beginning of it to a connection that was reset. -/
theorem Echoes.write {e : Int × (Fd × Bytes)} {count : Nat} (h : v.Echoes) (he : e ∈ v.inHand)
    (hcount : count = e.2.2.length ∨ e.2.1 ∈ v.resets) :
    (v.doWrite e.1 e.2.1 (e.2.2.take count)).Echoes := by
  have hperm := Handles.perm_cons_revoke h.distinct he
  refine ⟨Handles.nodup_revoke h.distinct,
    fun d hd => h.owned d (Handles.mem_revoke.mp hd).1, fun x => ?_, h.killed⟩
  obtain ⟨parts, done, written, hacc⟩ := h.accounts x
  by_cases hx : e.2.1 = x
  · subst hx
    have hhands : (v.hands e.2.1).Perm
        (e.2.2 :: (v.doWrite e.1 e.2.1 (e.2.2.take count)).hands e.2.1) := by
      refine ((hperm.filter _).map _).trans ?_
      simp [hands, doWrite]
    refine ⟨parts, done ++ [e.2.2], written ++ [e.2.2.take count], hacc.taken,
      List.rel_append hacc.beginnings (.cons (List.take_prefix _ _) .nil), fun hopen => ?_, ?_, ?_,
      fun hone => ?_, hacc.served⟩
    · obtain rfl := hcount.resolve_right hopen
      rw [hacc.whole hopen, List.take_length]
    · simp only [doWrite, Function.update_self, List.flatten_append, List.flatten_singleton,
        hacc.returned]
    · rw [List.append_assoc, List.singleton_append]
      exact hacc.balance.trans (hhands.append_left done)
    · have hfree : (v.doWrite e.1 e.2.1 (e.2.2.take count)).hands e.2.1 = [] := by
        rw [hands, List.map_eq_nil_iff, List.filter_eq_nil_iff]
        intro d hd hsock
        obtain ⟨hd, hne⟩ := Handles.mem_revoke.mp hd
        obtain ⟨i, hi, hserves⟩ := h.owned e he
        exact hne (hi ▸ h.eq_of_owned hone hserves hd (by simpa using hsock))
      rw [hfree] at hhands
      rw [hfree, List.append_nil, hacc.ordered hone, List.perm_singleton.mp hhands]
  · have hhands : (v.doWrite e.1 e.2.1 (e.2.2.take count)).hands x = v.hands x := by
      rw [hands, doWrite, Handles.revoke, List.filter_filter, hands]
      refine congrArg _ (List.filter_congr fun d hd => ?_)
      by_cases hsock : d.2.1 = x
      · have hother : d.1 ≠ e.1 := fun hsame =>
          hx (Handles.user_unique h.distinct hd he hsame ▸ hsock)
        simp [hsock, hother]
      · simp [hsock]
    refine ⟨parts, done, written, hacc.taken, hacc.beginnings, hacc.whole, ?_, ?_, ?_,
      hacc.served⟩
    · simp only [doWrite, Function.update_of_ne (Ne.symm hx)]
      exact hacc.returned
    · rw [hhands]
      exact hacc.balance
    · rw [hhands]
      exact hacc.ordered

/-- Every step keeps the accounts. -/
theorem Echoes.step (h : v.Echoes) (hs : v.step e = next w) : w.Echoes := by
  unfold Service.step at hs
  split at hs
  · cases hs
  cases e with
  | process a =>
    dsimp only [live] at hs
    split at hs
    · obtain ⟨t, ht, hw⟩ := bind_eq_next.mp hs
      cases hw
      exact h.process ht
    · cases hs
  | arrive fd bytes =>
    cases hs
    exact h.arrive fd bytes
  | read i count =>
    dsimp only [live] at hs
    split at hs
    · rename_i sock hi
      split at hs
      · rename_i hguard
        obtain ⟨t, -, hw⟩ := bind_eq_next.mp hs
        cases hw
        exact h.read hi (by simpa [idle, Action.thread] using hguard.1)
      · cases hs
    · cases hs
  | write i count =>
    dsimp only [live] at hs
    split at hs
    · rename_i e he
      split at hs
      · rename_i hcount
        cases hs
        exact h.write (List.mem_of_find?_eq_some he) (hcount.imp_right And.right)
      · cases hs
    · cases hs
  | reset fd =>
    cases hs
    exact h.reset fd
  | sigpipe i =>
    dsimp only [live] at hs
    split at hs
    · split at hs
      · rename_i hreset
        cases hs
        exact h.sigpipe hreset
      · cases hs
    · cases hs

end Service

/-- In every run, whichever sockets the threads got: what was sent on a connection is what was read
of it, in parts, and what was not read yet; each part was written back once or is in the hands of
the thread that read it. All of it was taken unless the client has reset the connection, and only
then `SIGPIPE` can end the process. When one thread serves a connection that was not reset, the
parts come back in their order, and when none does, nothing is read. -/
theorem echoed_once {listenSock : Fd} {arg : Log}
    (h : Reaches Service.step (fun _ _ => True) (.start listenSock arg) v) :
    (∀ fd, ∃ parts done written : List Bytes, parts.flatten ++ v.unread fd = v.sent fd ∧
      parts.Perm (done ++ v.hands fd) ∧ List.Forall₂ (· <+: ·) written done ∧
      (fd ∉ v.resets → written = done) ∧ written.flatten = v.echoed fd ∧
      (v.process.servers fd ≤ 1 → fd ∉ v.resets →
        v.echoed fd ++ (v.hands fd).flatten ++ v.unread fd = v.sent fd) ∧
      (v.process.servers fd = 0 → v.unread fd = v.sent fd)) ∧
    (v.killed = true → v.resets ≠ []) := by
  have hechoes : v.Echoes := h.invariant (Service.echoes_start listenSock arg)
    fun _ _ _ hv _ hs => hv.step hs
  refine ⟨fun fd => ?_, hechoes.killed⟩
  obtain ⟨parts, done, written, hacc⟩ := hechoes.accounts fd
  refine ⟨parts, done, written, hacc.taken, hacc.balance, hacc.beginnings, hacc.whole,
    hacc.returned, fun hone hopen => ?_, fun hnone => ?_⟩
  · have htaken := hacc.taken
    have hreturned := hacc.returned
    rw [hacc.whole hopen] at hreturned
    rwa [hacc.ordered hone, List.flatten_append, hreturned] at htaken
  · have htaken := hacc.taken
    rwa [hacc.served hnone] at htaken

/-- Both threads serve the second client, and the thread that reads second writes first. -/
def swappedRun : List Event :=
  ([.accept 4 5000, .store, .store, .store, .create true, .accept 5 5001, .store, .store, .store,
    .create true, .load 0, .load 0, .load 0, .load 1, .load 1, .load 1] : List Action).map
      .process ++
    [.arrive 4 [120], .arrive 5 [97, 98], .read 0 1, .read 1 1, .write 1 1, .write 0 1]

theorem swappedRun_echoes :
    (runGuarded Service.step (fun _ _ => True) (.start 3 ⟨0, 0⟩) swappedRun).state?.map (fun v =>
      (v.sent 5, v.echoed 5, v.process.servers 4, v.sent 4, v.resets)) =
    some ([97, 98], [98, 97], 0, [120], []) := by
  decide +kernel

/-- The second client gets its letters in the wrong order, and what the first one sent is never
read. -/
theorem echoed_once_swappedRun : ∃ v : Service, v.sent 5 = [97, 98] ∧ v.echoed 5 = [98, 97] ∧
    (∃ parts done : List Bytes, parts.flatten ++ v.unread 5 = [97, 98] ∧
      done.flatten = [98, 97] ∧ parts.Perm (done ++ v.hands 5)) ∧ v.unread 4 = [120] := by
  obtain ⟨v, hrun, hsaw⟩ := exists_next_of_map swappedRun_echoes
  simp only [Prod.mk.injEq] at hsaw
  obtain ⟨hsent, hechoed, hnone, hfirst, hresets⟩ := hsaw
  obtain ⟨haccounts, -⟩ := echoed_once (Reaches.of_runGuarded _ _ hrun)
  obtain ⟨parts, done, written, htaken, hbalance, -, hwhole, hreturned, -, -⟩ := haccounts 5
  obtain ⟨-, -, -, -, -, -, -, -, -, hunread⟩ := haccounts 4
  rw [hwhole (by rw [hresets]; exact List.not_mem_nil)] at hreturned
  exact ⟨v, hsent, hechoed, ⟨parts, done, hsent ▸ htaken, hechoed ▸ hreturned, hbalance⟩,
    (hunread hnone).trans hfirst⟩

end NetworkCode.PthreadServer
