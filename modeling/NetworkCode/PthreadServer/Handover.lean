import NetworkCode.PthreadServer.State
import NetworkCode.Core.Lists
import Mathlib.Data.List.Nodup

/-!
# Handing a connection over to its thread

The thread created for a connection reads the socket from `arg` some time later. As long as
`main` overwrites `arg.sock` only behind that reading, at most one thread waits for its socket
and `arg` still holds it, so every connection gets one thread of its own. The threads never
close a socket.
-/

namespace NetworkCode.PthreadServer

open StepResult

variable {s t : State} {a : Action} {i : Nat} {h h' : Handler} {fd sock x : Fd} {port : Nat}

/-- The socket a thread has read. -/
def Handler.sock? : Handler → Option Fd
  | .started => none
  | .hasSock sock => some sock
  | .hasIp sock => some sock
  | .echoing sock _ => some sock
  | .left sock => some sock

/-- The connection that `main` has not created a thread for yet. -/
def Main.held : Main → Option Fd
  | .accepting => none
  | .storingSock sock _ => some sock
  | .storingPort sock _ => some sock
  | .storingIp sock => some sock
  | .creating sock => some sock

/-- Whether `main` is about to store to `arg.sock`. -/
def Main.storesSock : Main → Bool
  | .storingSock _ _ => true
  | _ => false

/-- What one step does. -/
inductive Effect (s : State) : Action → State → Prop
  | passed {a : Action} (ha : (∃ i count, a = .data i count) ∨ a = .acceptFailed) : Effect s a s
  | accepted {fd : Fd} {port : Nat} (hmain : s.main = .accepting) (hnew : fd ∉ s.opened) :
      Effect s (.accept fd port) { s with
        main := .storingSock fd port
        accepted := s.accepted ++ [fd]
        opened := fd :: s.opened }
  | storedSock {sock : Fd} {port : Nat} (hmain : s.main = .storingSock sock port) :
      Effect s .store { s with main := .storingPort sock port, arg := { s.arg with sock := sock } }
  /-- Another field is stored. -/
  | stored {m : Main} {arg : Log} (hbehind : s.main ≠ .accepting)
      (hmain : s.main.storesSock = false)
      (hheld : m.held = s.main.held) (harg : arg.sock = s.arg.sock) :
      Effect s .store { s with main := m, arg := arg }
  | created {sock : Fd} (hmain : s.main = .creating sock) :
      Effect s (.create true) { s with main := .accepting, handlers := s.handlers ++ [.started] }
  | notCreated {sock : Fd} (hmain : s.main = .creating sock) :
      Effect s (.create false) { s with main := .accepting }
  | loadedSock {i : Nat} (hi : s.handlers[i]? = some .started) :
      Effect s (.load i) (s.moved i (.hasSock s.arg.sock))
  /-- Another field is read. -/
  | loaded {i : Nat} {h h' : Handler} (hi : s.handlers[i]? = some h) (hsock : h'.sock? = h.sock?)
      (hh : h.sock?.isSome) (hh' : ∀ sock, h' ≠ .left sock) : Effect s (.load i) (s.moved i h')
  | left {a : Action} {i : Nat} {sock : Fd} {port : Nat} (ha : a = .quit i ∨ a = .readFailed i)
      (hi : s.handlers[i]? = some (.echoing sock port)) : Effect s a (s.moved i (.left sock))

/-- A step of `main` is one of the effects. -/
theorem Effect.of_mainStep (hs : s.mainStep s.main a = next t) : Effect s a t := by
  cases hmain : s.main with
  | accepting =>
    rw [hmain] at hs
    cases a with
    | acceptFailed =>
      cases hs
      exact .passed (.inr rfl)
    | accept fd port =>
      simp only [State.mainStep] at hs
      split at hs
      · cases hs
      · rename_i hnew
        cases hs
        exact .accepted hmain (not_or.mp hnew).2
    | _ => cases hs
  | storingSock sock port =>
    rw [hmain] at hs
    cases a with
    | store =>
      cases hs
      exact .storedSock hmain
    | _ => cases hs
  | storingPort sock port =>
    rw [hmain] at hs
    cases a with
    | store =>
      cases hs
      exact .stored (by simp [hmain]) (by rw [hmain]; rfl) (by rw [hmain]; rfl) rfl
    | _ => cases hs
  | storingIp sock =>
    rw [hmain] at hs
    cases a with
    | store =>
      cases hs
      exact .stored (by simp [hmain]) (by rw [hmain]; rfl) (by rw [hmain]; rfl) rfl
    | _ => cases hs
  | creating sock =>
    rw [hmain] at hs
    cases a with
    | create succeeded =>
      cases succeeded with
      | false =>
        cases hs
        exact .notCreated hmain
      | true =>
        cases hs
        exact .created hmain
    | _ => cases hs

/-- A step of a thread is one of the effects. -/
theorem Effect.of_handlerStep (hi : s.handlers[i]? = some h) (ha : a.thread = some i)
    (hs : s.handlerStep i h a = next t) : Effect s a t := by
  cases h with
  | started =>
    cases a with
    | load =>
      cases ha
      cases hs
      exact .loadedSock hi
    | _ => cases hs
  | hasSock sock =>
    cases a with
    | load =>
      cases ha
      cases hs
      exact .loaded hi rfl rfl (by simp)
    | _ => cases hs
  | hasIp sock =>
    cases a with
    | load =>
      cases ha
      cases hs
      exact .loaded hi rfl rfl (by simp)
    | _ => cases hs
  | echoing sock port =>
    cases a with
    | data j count =>
      simp only [State.handlerStep] at hs
      split at hs
      · cases hs
        exact .passed (.inl ⟨j, count, rfl⟩)
      · cases hs
    | quit =>
      cases ha
      cases hs
      exact .left (.inl rfl) hi
    | readFailed =>
      cases ha
      cases hs
      exact .left (.inr rfl) hi
    | _ => cases hs
  | left sock => cases hs

/-- A step of the server is one of the effects. -/
theorem Effect.of_step (hs : step s a = next t) : Effect s a t := by
  unfold step at hs
  cases ha : a.thread with
  | none =>
    rw [ha] at hs
    exact of_mainStep hs
  | some i =>
    rw [ha] at hs
    cases hi : s.handlers[i]? with
    | none => simp [hi] at hs
    | some h =>
      simp only [hi] at hs
      exact of_handlerStep hi ha hs

/-! ## The property -/

/-- The number of threads that serve a socket. -/
def State.servers (s : State) (sock : Fd) : Nat :=
  (s.handlers.map Handler.sock?).count (some sock)

/-- The number of threads that have not read their socket yet. -/
def State.waiting (s : State) : Nat := (s.handlers.map Handler.sock?).count none

/-- Each connection is served by one thread at most, and by one as soon as `main` is back in
`accept` and all threads have read their sockets. Nothing else is served. -/
structure State.HandedOver (s : State) : Prop where
  once : ∀ sock ∈ s.accepted, s.servers sock ≤ 1
  served : s.main = .accepting → s.waiting = 0 → ∀ sock ∈ s.accepted, s.servers sock = 1
  only : ∀ sock, sock ∉ s.accepted → s.servers sock = 0

/-- The threads behind their loops have closed their sockets. -/
def State.Closes (s : State) : Prop := ∀ sock, .left sock ∈ s.handlers → sock ∉ s.opened

/-- `arg.sock` is overwritten when all threads have read their sockets, a thread is created
for every connection, and none leaves its loop. -/
def Careful (s : State) : Action → Prop
  | .store => s.main.storesSock = true → s.waiting = 0
  | .create succeeded => succeeded = true
  | .quit _ => False
  | .readFailed _ => False
  | _ => True

instance decidableCareful (s : State) : (a : Action) → Decidable (Careful s a)
  | .store => inferInstanceAs (Decidable (_ → _))
  | .create _ => inferInstanceAs (Decidable (_ = _))
  | .quit _ => isFalse id
  | .readFailed _ => isFalse id
  | .acceptFailed => isTrue trivial
  | .accept _ _ => isTrue trivial
  | .load _ => isTrue trivial
  | .data _ _ => isTrue trivial

/-- Where each connection is: it has a thread, or a thread will read it from `arg`, or `main`
has not created its thread yet. -/
structure Handing (s : State) : Prop where
  distinct : s.accepted.Nodup
  stillOpen : ∀ sock ∈ s.accepted, sock ∈ s.opened
  balance : ∀ sock, s.accepted.count sock = s.servers sock +
    (if s.arg.sock = sock then s.waiting else 0) + (if s.main.held = some sock then 1 else 0)
  atMostOne : s.waiting ≤ 1
  stored : s.main ≠ .accepting → s.main.storesSock = false →
    s.waiting = 0 ∧ s.main.held = some s.arg.sock
  none_left : ∀ sock, .left sock ∉ s.handlers

/-- At the start there is no connection to hand over. -/
theorem handing_start (listenSock : Fd) (arg : Log) : Handing (start listenSock arg) where
  distinct := List.nodup_nil
  stillOpen := by simp [start]
  balance := by simp [start, State.servers, State.waiting, Main.held]
  atMostOne := Nat.zero_le 1
  stored := fun h => absurd rfl h
  none_left := by simp [start]

/-- A thread that goes on and keeps what it has read of its socket. -/
theorem map_moved (hi : s.handlers[i]? = some h) (hsock : h'.sock? = h.sock?) :
    (s.moved i h').handlers.map Handler.sock? = s.handlers.map Handler.sock? :=
  map_set_of_eq hi hsock

/-- A thread that reads its socket. -/
theorem count_moved (sock : Fd) (hi : s.handlers[i]? = some .started) :
    (∀ x, (s.moved i (.hasSock sock)).servers x = s.servers x + if sock = x then 1 else 0) ∧
      (s.moved i (.hasSock sock)).waiting + 1 = s.waiting := by
  have hmap : (s.moved i (.hasSock sock)).handlers.map Handler.sock? =
      (s.handlers.map Handler.sock?).set i (some sock) := List.map_set
  have hnone : (s.handlers.map Handler.sock?)[i]? = some none := by
    rw [List.getElem?_map, hi]
    rfl
  obtain ⟨hlt, heq⟩ := List.getElem?_eq_some_iff.mp hnone
  have hpos : 0 < (s.handlers.map Handler.sock?).count none :=
    List.count_pos_iff.mpr (heq ▸ List.getElem_mem hlt)
  constructor
  · intro x
    rw [State.servers, hmap, List.count_set hlt, heq]
    simp [State.servers]
  · rw [State.waiting, hmap, List.count_set hlt, heq]
    simp only [beq_self_eq_true, if_true, State.waiting]
    simp
    omega

/-- A new thread. -/
theorem count_created (s : State) (m : Main) :
    (∀ x, State.servers { s with main := m, handlers := s.handlers ++ [.started] } x =
      s.servers x) ∧
      State.waiting { s with main := m, handlers := s.handlers ++ [.started] } =
        s.waiting + 1 := by
  constructor
  · intro x
    simp [State.servers, Handler.sock?]
  · simp [State.waiting, Handler.sock?]

/-- A thread that goes on without reading its socket changes no count. -/
theorem Handing.move (hs : Handing s) (hi : s.handlers[i]? = some h) (hsock : h'.sock? = h.sock?)
    (hleft : ∀ sock, h' ≠ .left sock) : Handing (s.moved i h') := by
  have hmap := map_moved hi hsock
  have hservers (x : Fd) : (s.moved i h').servers x = s.servers x := by
    rw [State.servers, hmap, State.servers]
  have hwaiting : (s.moved i h').waiting = s.waiting := by rw [State.waiting, hmap, State.waiting]
  refine ⟨hs.distinct, hs.stillOpen, fun x => ?_, ?_, fun hmain hsock => ?_, fun sock hmem => ?_⟩
  · rw [hservers, hwaiting]
    exact hs.balance x
  · rw [hwaiting]
    exact hs.atMostOne
  · rw [hwaiting]
    exact hs.stored hmain hsock
  · rcases List.mem_or_eq_of_mem_set hmem with hold | heq
    · exact hs.none_left sock hold
    · exact hleft sock heq.symm

/-- A new connection is in the hands of `main`. -/
theorem Handing.accept (hs : Handing s) (hmain : s.main = .accepting) (hnew : fd ∉ s.opened) :
    Handing { s with
      main := .storingSock fd port
      accepted := s.accepted ++ [fd]
      opened := fd :: s.opened } where
  distinct := by
    have hfresh : fd ∉ s.accepted := fun hmem => hnew (hs.stillOpen fd hmem)
    refine List.nodup_append.mpr ⟨hs.distinct, List.pairwise_singleton _ fd, ?_⟩
    rintro x hx y hy rfl
    exact hfresh (List.mem_singleton.mp hy ▸ hx)
  stillOpen x hx := by
    rcases List.mem_append.mp hx with hold | hnew'
    · exact List.mem_cons_of_mem fd (hs.stillOpen x hold)
    · exact List.mem_singleton.mp hnew' ▸ List.mem_cons_self
  balance x := by
    have hbalance := hs.balance x
    rw [hmain] at hbalance
    simp only [Main.held, reduceCtorEq, if_false] at hbalance
    simp only [List.count_append, List.count_singleton, beq_iff_eq, Main.held,
      Option.some.injEq, hbalance]
    rfl
  atMostOne := hs.atMostOne
  stored _ hsock := Bool.noConfusion hsock
  none_left := hs.none_left

/-- The socket is stored while no thread waits to read one. -/
theorem Handing.storeSock (hs : Handing s) (hmain : s.main = .storingSock sock port)
    (hnone : s.waiting = 0) :
    Handing { s with main := .storingPort sock port, arg := { s.arg with sock := sock } } where
  distinct := hs.distinct
  stillOpen := hs.stillOpen
  balance x := by
    have hbalance := hs.balance x
    rw [hmain, hnone] at hbalance
    change s.accepted.count x = s.servers x + (if sock = x then s.waiting else 0) +
      (if some sock = some x then 1 else 0)
    rw [hnone]
    simpa [Main.held] using hbalance
  atMostOne := hs.atMostOne
  stored _ _ := ⟨hnone, rfl⟩
  none_left := hs.none_left

/-- Storing another field than the descriptor hands nothing over. -/
theorem Handing.store (hs : Handing s) {m : Main} {arg : Log} (hbehind : s.main ≠ .accepting)
    (hmain : s.main.storesSock = false) (hheld : m.held = s.main.held)
    (harg : arg.sock = s.arg.sock) : Handing { s with main := m, arg := arg } where
  distinct := hs.distinct
  stillOpen := hs.stillOpen
  balance x := by
    change s.accepted.count x = s.servers x + (if arg.sock = x then s.waiting else 0) +
      (if m.held = some x then 1 else 0)
    rw [harg, hheld]
    exact hs.balance x
  atMostOne := hs.atMostOne
  stored _ _ := by
    obtain ⟨hnone, hsock⟩ := hs.stored hbehind hmain
    exact ⟨hnone, by rw [hheld, harg]; exact hsock⟩
  none_left := hs.none_left

/-- The new thread is the only one that waits to read its socket. -/
theorem Handing.create (hs : Handing s) (hmain : s.main = .creating sock) :
    Handing { s with main := .accepting, handlers := s.handlers ++ [.started] } := by
  obtain ⟨hnone, hsock⟩ := hs.stored (by simp [hmain]) (by rw [hmain]; rfl)
  rw [hmain] at hsock
  obtain rfl : sock = s.arg.sock := Option.some.inj hsock
  obtain ⟨hservers, hwaiting⟩ := count_created s .accepting
  rw [hnone] at hwaiting
  refine ⟨hs.distinct, hs.stillOpen, fun x => ?_, Nat.le_of_eq hwaiting, fun h => absurd rfl h,
    fun x hx => ?_⟩
  · have hbalance := hs.balance x
    rw [hmain, hnone] at hbalance
    rw [hservers, hwaiting]
    simpa [Main.held] using hbalance
  · rcases List.mem_append.mp hx with hold | hnew
    · exact hs.none_left x hold
    · cases List.mem_singleton.mp hnew

/-- The thread that waited has read its socket. -/
theorem Handing.loadSock (hs : Handing s) (hi : s.handlers[i]? = some .started) :
    Handing (s.moved i (.hasSock s.arg.sock)) := by
  obtain ⟨hservers, hwaiting⟩ := count_moved s.arg.sock hi
  have hone := hs.atMostOne
  refine ⟨hs.distinct, hs.stillOpen, fun x => ?_, by omega, fun hbehind hmain => ?_,
    fun x hx => ?_⟩
  · have hbalance := hs.balance x
    rw [hservers]
    have hzero : (s.moved i (.hasSock s.arg.sock)).waiting = 0 := by omega
    have hwas : s.waiting = 1 := by omega
    rw [hwas] at hbalance
    rw [hzero]
    simp only [ite_self, Nat.add_zero]
    exact hbalance
  · have hnone := (hs.stored hbehind hmain).1
    omega
  · rcases List.mem_or_eq_of_mem_set hx with hold | heq
    · exact hs.none_left x hold
    · cases heq

/-- Every step that meets the condition keeps the account of the connections. -/
theorem Handing.step (hs : Handing s) (hcare : Careful s a) (hstep : step s a = next t) :
    Handing t := by
  cases Effect.of_step hstep with
  | passed _ => exact hs
  | accepted hmain hnew => exact hs.accept hmain hnew
  | storedSock hmain => exact hs.storeSock hmain (hcare (by rw [hmain]; rfl))
  | stored hbehind hmain hheld harg => exact hs.store hbehind hmain hheld harg
  | created hmain => exact hs.create hmain
  | notCreated => cases hcare
  | loadedSock hi => exact hs.loadSock hi
  | loaded hi hsock _ hh' => exact hs.move hi hsock hh'
  | left ha => rcases ha with rfl | rfl <;> cases hcare

/-- The invariant holds on every run of careful steps. -/
theorem handing_of_reaches {listenSock : Fd} {arg : Log}
    (h : Reaches step Careful (start listenSock arg) s) : Handing s :=
  h.invariant (handing_start listenSock arg) fun _ _ _ hs hcare hstep => hs.step hcare hstep

/-- Each connection is served by at most one thread, and by one once it was handed over. -/
theorem Handing.handedOver (hs : Handing s) : s.HandedOver := by
  refine ⟨fun x hx => ?_, fun hmain hnone x hx => ?_, fun x hx => ?_⟩
  · have hbalance := hs.balance x
    have hone := List.nodup_iff_count_le_one.mp hs.distinct x
    omega
  · have hbalance := hs.balance x
    rw [hmain, hnone, List.count_eq_one_of_mem hs.distinct hx] at hbalance
    simpa [Main.held] using hbalance.symm
  · have hbalance := hs.balance x
    rw [List.count_eq_zero_of_not_mem hx] at hbalance
    omega

/-- Threads behind their loops have closed their sockets. -/
theorem Handing.closes (hs : Handing s) : s.Closes :=
  fun sock hmem => absurd hmem (hs.none_left sock)

/-! ## The first careless step -/

/-- The socket a thread serves is an open connection. -/
theorem Handing.mem_opened (hs : Handing s) (hmem : h ∈ s.handlers) (hsock : h.sock? = some sock) :
    sock ∈ s.opened := by
  have hpos : 0 < s.servers sock :=
    List.count_pos_iff.mpr (List.mem_map.mpr ⟨h, hmem, hsock⟩)
  refine hs.stillOpen sock (List.count_pos_iff.mp ?_)
  rw [hs.balance sock]
  omega

/-- A connection that `main` holds is served by no thread. -/
theorem Handing.held (hs : Handing s) (hheld : s.main.held = some sock) :
    sock ∈ s.accepted ∧ s.servers sock = 0 := by
  have hbalance := hs.balance sock
  have hone := List.nodup_iff_count_le_one.mp hs.distinct sock
  rw [if_pos hheld] at hbalance
  refine ⟨List.count_pos_iff.mp (by omega), by omega⟩

/-- When `arg.sock` has been overwritten for a thread that waits, this thread and the one that
is created next serve the same socket. -/
theorem served_twice (hmain : s.main = .storingPort sock port) (hsock : s.arg.sock = sock)
    (hi : s.handlers[i]? = some .started) :
    ∃ u, Reaches step (fun _ _ => True) s u ∧ u.accepted = s.accepted ∧
      u.servers sock = s.servers sock + 2 := by
  subst hsock
  -- the waiting thread reads its socket, `main` creates the next one, and this reads its own
  let s₁ := s.moved i (.hasSock s.arg.sock)
  let s₂ : State := { s₁ with main := .storingIp s.arg.sock, arg := { s₁.arg with port := port } }
  let s₃ : State := { s₂ with main := .creating s.arg.sock }
  let s₄ : State := { s₃ with main := .accepting, handlers := s₃.handlers ++ [.started] }
  have hlast : s₄.handlers[s₃.handlers.length]? = some .started := List.getElem?_concat_length
  have h₁ : step s (.load i) = next s₁ := by simp [step, Action.thread, hi, State.handlerStep, s₁]
  have h₂ : step s₁ .store = next s₂ := by
    simp [step, Action.thread, State.mainStep, State.moved, hmain, s₁, s₂]
  have h₃ : step s₂ .store = next s₃ := rfl
  have h₄ : step s₃ (.create true) = next s₄ := rfl
  have h₅ : step s₄ (.load s₃.handlers.length) =
      next (s₄.moved s₃.handlers.length (.hasSock s.arg.sock)) := by
    simp only [step, Action.thread, hlast]
    rfl
  refine ⟨s₄.moved s₃.handlers.length (.hasSock s.arg.sock), ?_, rfl, ?_⟩
  · exact ((((Reaches.refl.tail trivial h₁).tail trivial h₂).tail trivial h₃).tail trivial
      h₄).tail trivial h₅
  · rw [(count_moved s.arg.sock hlast).1, (count_created s₃ .accepting).1, if_pos rfl]
    change s₁.servers s.arg.sock + 1 = _
    rw [(count_moved s.arg.sock hi).1, if_pos rfl]

/-- A step that does not meet the condition leads to a connection with two threads or none, or
to a thread that does not close its socket. -/
theorem Handing.not_handedOver (hs : Handing s) (hcare : ¬ Careful s a)
    (hstep : PthreadServer.step s a = next t) :
    ∃ u, Reaches PthreadServer.step (fun _ _ => True) t u ∧ ¬ (u.HandedOver ∧ u.Closes) := by
  cases Effect.of_step hstep with
  | @storedSock sock port hmain =>
    have hpos : 0 < s.waiting :=
      Nat.pos_of_ne_zero fun hnone => hcare fun _ => hnone
    obtain ⟨h, hmem, hnone⟩ := List.mem_map.mp (List.count_pos_iff.mp hpos)
    cases h with
    | started =>
      obtain ⟨i, hi⟩ := List.mem_iff_getElem?.mp hmem
      obtain ⟨u, hreach, haccepted, hservers⟩ := served_twice (s := { s with
        main := .storingPort sock port, arg := { s.arg with sock := sock } }) rfl rfl hi
      refine ⟨u, hreach, fun hu => ?_⟩
      have honce := hu.1.once sock (haccepted ▸ (hs.held (by rw [hmain]; rfl)).1)
      omega
    | _ => cases hnone
  | @notCreated sock hmain =>
    refine ⟨_, .refl, fun hu => ?_⟩
    obtain ⟨hmem, hzero⟩ := hs.held (hmain ▸ rfl : s.main.held = some sock)
    have hnone := (hs.stored (by simp [hmain]) (by rw [hmain]; rfl)).1
    have hserved : s.servers sock = 1 := hu.1.served rfl hnone sock hmem
    omega
  | @left a i sock port ha hi =>
    refine ⟨_, .refl, fun hu => hu.2 sock ?_ (hs.mem_opened (List.mem_of_getElem? hi) rfl)⟩
    exact mem_set_of_getElem? hi (.left sock)
  | stored _ hmain => exact absurd (fun hsock => absurd (hmain ▸ hsock) (by simp)) hcare
  | created _ => exact absurd rfl hcare
  | passed ha => rcases ha with ⟨_, _, rfl⟩ | rfl <;> exact absurd trivial hcare
  | _ => exact absurd trivial hcare

/-- In every run where `main` overwrites `arg.sock` only when all threads have read their
sockets, where `pthread_create` succeeds and where no thread leaves its loop, each connection
is handed over to one thread. The first step that does not meet this has an interleaving
behind which a connection has two threads or none, or a thread has not closed its socket. -/
theorem handed_over {listenSock : Fd} {arg : Log}
    (h : Reaches step Careful (start listenSock arg) s) : s.HandedOver ∧ s.Closes ∧
      ∀ a t, ¬ Careful s a → step s a = next t →
        ∃ u, Reaches step (fun _ _ => True) t u ∧ ¬ (u.HandedOver ∧ u.Closes) := by
  have hs := handing_of_reaches h
  exact ⟨hs.handedOver, hs.closes, fun a t hcare hstep => hs.not_handedOver hcare hstep⟩

/-- Two clients are accepted, and each thread reads its socket before the next `accept`. -/
def orderlyRun : List Action :=
  [.accept 4 5000, .store, .store, .store, .create true, .load 0, .load 0, .load 0, .data 0 2,
    .accept 5 5001, .store, .store, .store, .create true, .load 1, .data 0 3]

theorem orderlyRun_serves :
    (runGuarded step Careful (start 3 ⟨0, 0⟩) orderlyRun).state?.map
      (fun s => (s.servers 4, s.servers 5)) = some (1, 1) := by
  decide +kernel

/-- Two clients come one after the other, and each gets a thread of its own. -/
theorem handed_over_orderlyRun : ∃ s, Reaches step Careful (start 3 ⟨0, 0⟩) s ∧
    (s.servers 4, s.servers 5) = (1, 1) ∧ s.HandedOver ∧ s.Closes ∧
      ∀ a t, ¬ Careful s a → step s a = next t →
        ∃ u, Reaches step (fun _ _ => True) t u ∧ ¬ (u.HandedOver ∧ u.Closes) := by
  obtain ⟨s, hrun, hs⟩ := exists_next_of_map orderlyRun_serves
  have hreach := Reaches.of_runGuarded _ _ hrun
  exact ⟨s, hreach, hs, handed_over hreach⟩

/-- Two clients are accepted before the first thread reads its socket. -/
def hastyRun : List Action :=
  [.accept 4 5000, .store, .store, .store, .create true,
    .accept 5 5001, .store, .store, .store, .create true,
    .load 0, .load 0, .load 0, .load 1, .load 1, .load 1, .quit 0]

theorem hastyRun_serves :
    (runGuarded step (fun _ _ => True) (start 3 ⟨0, 0⟩) hastyRun).state?.map
      (fun s => (s.accepted, s.handlers, s.opened)) =
    some ([4, 5], [.left 5, .echoing 5 5001], [5, 4]) := by
  decide +kernel

/-- Both threads serve the second client, none the first, and the thread that has left its loop
has not closed its socket. -/
theorem second_client_served_twice : ∃ s,
    runGuarded step (fun _ _ => True) (start 3 ⟨0, 0⟩) hastyRun = next s ∧
      s.servers 5 = 2 ∧ s.servers 4 = 0 ∧ ¬ s.HandedOver ∧ ¬ s.Closes := by
  obtain ⟨s, hrun, hs⟩ := exists_next_of_map hastyRun_serves
  simp only [Prod.mk.injEq] at hs
  obtain ⟨haccepted, hhandlers, hopened⟩ := hs
  have htwo : s.servers 5 = 2 := by rw [State.servers, hhandlers]; rfl
  have hzero : s.servers 4 = 0 := by rw [State.servers, hhandlers]; rfl
  refine ⟨s, hrun, htwo, hzero, fun hover => ?_, fun hcloses => ?_⟩
  · have honce := hover.once 5 (by simp [haccepted])
    omega
  · exact hcloses 5 (by simp [hhandlers]) (by simp [hopened])

end NetworkCode.PthreadServer
