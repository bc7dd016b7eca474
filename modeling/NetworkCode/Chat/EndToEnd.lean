import NetworkCode.Chat.Client
import NetworkCode.Chat.Closing
import NetworkCode.Chat.Relay

/-!
# The server and its clients

The chat server and any number of clients, each at the other end of a connection, take their
steps in any order. What the server reads from a descriptor is a beginning of what the client
has sent and what it writes arrives there. So what a client's screen shows comes from what
the other clients have typed.
-/

namespace NetworkCode.Chat

open StepResult Text

/-- The server with all clients. A connection has the number of its client. The `log` and `since`
are read by no step. -/
structure Network where
  server : State
  links : Nat → Link
  /-- The number of clients. -/
  connected : Nat
  /-- The connections that were not accepted yet, in order. -/
  pending : List Nat
  /-- The connection of a descriptor that was accepted. -/
  wire : Fd → Nat
  /-- The length of the log when the descriptor was accepted. -/
  since : Fd → Nat
  /-- What the server has read, with its connections. -/
  log : List (Nat × Bytes)

/-- One step of a client or of the server. -/
inductive Deed where
  | connect
  | client (c : Nat) (m : Move)
  | serve (a : Action)
  deriving DecidableEq, Repr

/-- The server, and no client. -/
def Network.start (listenSock : Fd) (entries : Int) (tmpbuf : Bytes) : Network where
  server := Chat.start listenSock entries tmpbuf
  links _ := .start
  connected := 0
  pending := []
  wire _ := 0
  since _ := 0
  log := []

/-- The server writes to a connection. -/
def Link.arrive (l : Link) (bs : Bytes) : Link := { l with down := l.down ++ bs }

/-- The server closes a connection. -/
def Link.close (l : Link) : Link := { l with closed := true }

/-- The server reads from a connection, which has `rest` left. -/
def Link.leave (l : Link) (rest : Bytes) : Link := { l with up := rest }

/-- A connection changes. -/
def Network.setLink (n : Network) (c : Nat) (l : Link) : Network :=
  { n with links := Function.update n.links c l }

/-- `clients is limit..` as far as `sizeof(info)-1` goes, `info` being a pointer. -/
def limitInfo : Bytes := [99, 108, 105, 101, 110, 116, 115]

/-- What a branch of the server does to the connections. -/
def Network.transfer (n : Network) (i : Int) : Branch → Action → StepResult Network
  | .accept, .accept (some fd) =>
    match n.pending with
    | [] => disabled
    | c :: pending =>
      if n.server.userCount ≥ userLimit then
        next { n.setLink c ((n.links c).arrive limitInfo).close with pending }
      else
        next { n with
          pending := pending
          wire := Function.update n.wire fd c
          since := Function.update n.since fd n.log.length }
  | .hangUp, .hangUp =>
    let c := n.wire (n.server.fds i).fd
    next (n.setLink c (n.links c).close)
  | .read, .read (some data) =>
    let c := n.wire (n.server.fds i).fd
    if data.isPrefixOf (n.links c).up then
      next { n.setLink c ((n.links c).leave ((n.links c).up.drop data.length)) with
        log := n.log ++ [(c, data)] }
    else disabled
  | .write, .write taken =>
    let c := n.wire (n.server.fds i).fd
    next (n.setLink c ((n.links c).arrive ((cstr n.server.tmpbuf).take taken)))
  | _, _ => next n

/-- The connections behind a step of the server. -/
def Network.transmit (n : Network) (a : Action) : StepResult Network :=
  match n.server.loop with
  | .handling i => n.transfer i (n.server.branch (n.server.fds i)) a
  | _ => next n

/-- One step. -/
def Network.step (n : Network) : Deed → StepResult Network
  | .connect =>
    next { n.setLink n.connected .start with
      connected := n.connected + 1, pending := n.pending ++ [n.connected] }
  | .client c m =>
    if c < n.connected then ((n.links c).move m).bind fun l => next (n.setLink c l) else disabled
  | .serve a =>
    (Chat.step n.server a).bind fun t => (n.transmit a).bind fun u => next { u with server := t }

/-- The end that was replaced. -/
@[simp] theorem setLink_links_self (n : Network) (c : Nat) (l : Link) :
    (n.setLink c l).links c = l :=
  Function.update_self ..

/-- The ends that were not replaced. -/
theorem setLink_links_of_ne {n : Network} {c k : Nat} (h : k ≠ c) (l : Link) :
    (n.setLink c l).links k = n.links k :=
  Function.update_of_ne h _ _

/-- The server takes safe steps, and a client writes all that it has read. -/
def Network.Safe (n : Network) : Deed → Prop
  | .connect => True
  | .client _ m => Whole m
  | .serve a => Chat.Safe n.server a

instance Network.decidableSafe (n : Network) (d : Deed) : Decidable (n.Safe d) :=
  match d with
  | .connect => .isTrue trivial
  | .client _ m => inferInstanceAs (Decidable (Whole m))
  | .serve a => inferInstanceAs (Decidable (Chat.Safe n.server a))

/-! ## What a step of the server does -/

/-- What a step of the server does to the connections, with the state of the server behind it. -/
inductive Served (n : Network) : Action → State → Network → Prop
  /-- The messages that are due and that were written stay what they are. -/
  | quiet {a : Action} {t : State} (hclients : t.clients = n.server.clients)
      (hdue : t.due = n.server.due) (hgot : t.got = n.server.got) : Served n a t n
  | refused {fd : Fd} {i : Int} {c : Nat} {pending : List Nat} (h : n.pending = c :: pending) :
      Served n (.accept (some fd)) (n.server.advance i)
        { n.setLink c ((n.links c).arrive limitInfo).close with pending }
  | admitted {fd : Fd} {i : Int} {c : Nat} {pending : List Nat} (h : n.pending = c :: pending)
      (hclosed : fd ∉ n.server.opened) : Served n (.accept (some fd)) (n.server.withUser i fd)
        { n with
          pending := pending
          wire := Function.update n.wire fd c
          since := Function.update n.since fd n.log.length }
  | hungUp {i : Int} (hat : n.server.At i .hangUp) :
      Served n .hangUp
        { n.server.without i with opened := n.server.opened.erase (n.server.fds i).fd }
        (n.setLink (n.wire (n.server.fds i).fd) (n.links (n.wire (n.server.fds i).fd)).close)
  | dropped {i : Int} (hat : n.server.At i .read) : Served n (.read none) (n.server.without i) n
  | heard {i : Int} {data rest : Bytes} {t : State} (hat : n.server.At i .read)
      (ht : (n.server.keep i data).queueAll (n.server.fds i).fd data n.server.userCount.toNat =
        next t) (hup : (n.links (n.wire (n.server.fds i).fd)).up = data ++ rest) :
      Served n (.read (some data)) (t.advance i)
        { n.setLink (n.wire (n.server.fds i).fd)
            ((n.links (n.wire (n.server.fds i).fd)).leave rest) with
          log := n.log ++ [(n.wire (n.server.fds i).fd, data)] }
  | wrote {i : Int} {taken : Nat} (hat : n.server.At i .write)
      (hlen : taken ≤ (cstr n.server.tmpbuf).length) :
      Served n (.write taken) (n.server.written i taken)
        (n.setLink (n.wire (n.server.fds i).fd)
          ((n.links (n.wire (n.server.fds i).fd)).arrive ((cstr n.server.tmpbuf).take taken)))

variable {n n' : Network} {s t : State} {a : Action} {i j : Int} {b : Branch} {fd : Fd}
  {data : Bytes} {l l' : Link} {m : Move} {c : Nat}

/-- A branch of the server does to the connections what `Served` lists. -/
theorem Served.of_handle (hat : n.server.At i b) (hs : n.server.handle i b a = next t)
    (hn : n.transfer i b a = next n') : Served n a t n' := by
  cases b with
  | accept =>
    cases a with
    | accept fd =>
      cases fd with
      | none =>
        cases hs
        cases hn
        exact .quiet rfl rfl rfl
      | some fd =>
        simp only [Network.transfer] at hn
        simp only [State.handle] at hs
        split at hn
        · cases hn
        · rename_i c pending hpending
          split at hs
          · cases hs
          · rename_i hfree
            simp only [not_or, Int.not_lt] at hfree
            split at hs
            · rename_i hlimit
              rw [if_pos hlimit] at hn
              cases hs
              cases hn
              exact .refused hpending
            · rename_i hlimit
              rw [if_neg hlimit] at hn
              cases hn
              split at hs
              · cases hs
                exact .admitted hpending hfree.2.2
              · cases hs
    | _ => cases hs
  | error =>
    cases a with
    | error =>
      cases hs
      cases hn
      exact .quiet rfl rfl rfl
    | _ => cases hs
  | hangUp =>
    cases a with
    | hangUp =>
      obtain ⟨u, hu, hnext⟩ := bind_eq_next.mp hs
      obtain ⟨-, -, rfl⟩ := dropUser_eq_next hu
      cases hnext
      cases hn
      exact .hungUp hat
    | _ => cases hs
  | read =>
    cases a with
    | read data =>
      cases data with
      | none =>
        obtain ⟨-, -, rfl⟩ := dropUser_eq_next hs
        cases hn
        exact .dropped hat
      | some data =>
        simp only [State.handle] at hs
        simp only [Network.transfer] at hn
        split at hs
        · obtain ⟨-, -, u, hu, rfl⟩ := readFrom_eq_next hs
          split at hn
          · rename_i hprefix
            obtain ⟨rest, hrest⟩ := List.isPrefixOf_iff_prefix.mp hprefix
            cases hn
            rw [← hrest, List.drop_left]
            exact .heard hat hu hrest.symm
          · cases hn
        · cases hs
    | _ => cases hs
  | write =>
    cases a with
    | write taken =>
      obtain ⟨-, -, -, hlen, rfl⟩ := writeTo_eq_next hs
      cases hn
      exact .wrote hat hlen
    | skip =>
      simp only [State.handle] at hs
      cases hn
      split at hs
      · split at hs
        · cases hs
          exact .quiet rfl rfl rfl
        · cases hs
      · cases hs
    | _ => cases hs
  | none =>
    cases a with
    | skip =>
      cases hs
      cases hn
      exact .quiet rfl rfl rfl
    | _ => cases hs

/-- A step of the server does to the connections what `Served` lists. -/
theorem Served.of_step (hs : Chat.step n.server a = next t) (hn : n.transmit a = next n') :
    Served n a t n' := by
  unfold Chat.step at hs
  unfold Network.transmit at hn
  cases hloop : n.server.loop with
  | stopped => simp [hloop] at hs
  | polling =>
    rw [hloop] at hs hn
    cases hn
    cases a with
    | poll revents =>
      dsimp only at hs
      split at hs
      · cases hs
        exact .quiet (clients_congr rfl fun _ => polled_fds_fd.1) rfl rfl
      · cases hs
    | pollFailed =>
      cases hs
      exact .quiet rfl rfl rfl
    | _ => cases hs
  | handling i =>
    rw [hloop] at hs hn
    dsimp only at hs hn
    split at hs
    · rename_i hbound
      exact .of_handle ⟨hloop, hbound, rfl⟩ hs hn
    · split at hs
      · rename_i ha
        subst ha
        cases hs
        have hsame : n' = n := by
          cases hb : n.server.branch (n.server.fds i) <;> rw [hb] at hn <;> cases hn <;> rfl
        subst hsame
        exact .quiet rfl rfl rfl
      · cases hs

/-- The server connects nobody itself. -/
theorem Served.connected (h : Served n a t n') : n'.connected = n.connected := by
  cases h <;> rfl

/-! ## The clients of the server -/

/-- Handing on a message leaves the clients. -/
theorem received_clients {connfd : Fd} {k : Nat}
    (ht : (s.keep i data).queueAll connfd data k = next t) : (t.advance i).clients = s.clients := by
  have hq := queued_of_queueAll ht
  exact clients_congr hq.userCount fun j => hq.fds_fd j

/-- Writing to a client leaves the clients. -/
theorem written_clients {taken : Nat} : (s.written i taken).clients = s.clients := by
  refine clients_congr rfl fun j => ?_
  by_cases hj : j = i
  · rw [hj, written_fds_self]
  · rw [written_fds_of_ne hj]

/-- No client comes in when one is taken out. -/
theorem mem_of_mem_without (hi : 1 ≤ i) (hi' : i ≤ s.userCount) {opened : List Fd}
    (h : fd ∈ ({ s.without i with opened } : State).clients) : fd ∈ s.clients :=
  (without_clients hi hi').subset (List.mem_cons_of_mem _ h)

/-- A client's descriptor is open. -/
theorem opened_of_mem_clients (h : Tabled s) (hfd : fd ∈ s.clients) : fd ∈ s.opened := by
  rw [clients_eq, mem_slots] at hfd
  obtain ⟨k, hk, hk', rfl⟩ := hfd
  exact (h.client k hk hk').opened

/-! ## Connections and descriptors -/

/-- Different clients of the server have different connections, and none of these waits. -/
structure Routed (n : Network) : Prop where
  pending_lt : ∀ c ∈ n.pending, c < n.connected
  pending_nodup : n.pending.Nodup
  accepted : ∀ fd ∈ n.server.clients, n.wire fd < n.connected ∧ n.wire fd ∉ n.pending
  distinct : ∀ fd ∈ n.server.clients, ∀ fd' ∈ n.server.clients, n.wire fd = n.wire fd' → fd = fd'

/-- Clients may leave. -/
theorem Routed.leave (h : Routed n) (hclients : ∀ fd ∈ n'.server.clients, fd ∈ n.server.clients)
    (hwire : n'.wire = n.wire) (hpending : n'.pending = n.pending)
    (hconnected : n'.connected = n.connected) : Routed n' where
  pending_lt c hc := by
    rw [hconnected]
    exact h.pending_lt c (hpending ▸ hc)
  pending_nodup := hpending ▸ h.pending_nodup
  accepted fd hfd := by
    rw [hwire, hpending, hconnected]
    exact h.accepted fd (hclients fd hfd)
  distinct fd hfd fd' hfd' he := by
    rw [hwire] at he
    exact h.distinct fd (hclients fd hfd) fd' (hclients fd' hfd') he

/-- A client that connects waits to be accepted, behind the others. -/
theorem Routed.connect (h : Routed n) (hn : n.step .connect = next n') : Routed n' := by
  cases hn
  refine ⟨fun c hc => ?_, ?_, fun fd hfd => ?_, h.distinct⟩
  · rcases List.mem_append.mp hc with hc | hc
    · exact Nat.lt_succ_of_lt (h.pending_lt c hc)
    · rw [List.mem_singleton.mp hc]
      exact Nat.lt_succ_self _
  · refine List.nodup_append.mpr ⟨h.pending_nodup, List.nodup_singleton _, fun c hc c' hc' he => ?_⟩
    obtain rfl := List.mem_singleton.mp hc'
    exact absurd (h.pending_lt c hc) (he ▸ Nat.lt_irrefl _)
  · obtain ⟨hlt, hwaits⟩ := h.accepted fd hfd
    refine ⟨Nat.lt_succ_of_lt hlt, fun hmem => ?_⟩
    rcases List.mem_append.mp hmem with hmem | hmem
    · exact hwaits hmem
    · rw [List.mem_singleton] at hmem
      exact absurd hlt (hmem ▸ Nat.lt_irrefl _)

/-- The descriptor that is accepted goes to the connection that waited longest. -/
theorem Routed.admitted {pending : List Nat} (h : Routed n) (htable : Tabled n.server)
    (hpending : n.pending = c :: pending) (hclosed : fd ∉ n.server.opened) :
    Routed { n with
      server := n.server.withUser i fd
      pending := pending
      wire := Function.update n.wire fd c
      since := Function.update n.since fd n.log.length } := by
  have hnodup := h.pending_nodup
  rw [hpending] at hnodup
  have hmem : ∀ k ∈ c :: pending, k ∈ n.pending := fun k hk => hpending ▸ hk
  have hother {fd' : Fd} (hfd' : fd' ∈ n.server.clients) : fd' ≠ fd :=
    fun he => hclosed (he ▸ opened_of_mem_clients htable hfd')
  have hwire {fd' : Fd} (hfd' : fd' ∈ n.server.clients) :
      Function.update n.wire fd c fd' = n.wire fd' ∧ n.wire fd' ≠ c :=
    ⟨Function.update_of_ne (hother hfd') _ _,
      fun he => (h.accepted fd' hfd').2 (he ▸ hmem c List.mem_cons_self)⟩
  refine ⟨fun k hk => h.pending_lt k (hmem k (List.mem_cons_of_mem _ hk)),
    (List.nodup_cons.mp hnodup).2, fun fd' hfd' => ?_, fun fd₁ h₁ fd₂ h₂ he => ?_⟩
  · rw [withUser_clients htable] at hfd'
    rcases List.mem_append.mp hfd' with hold | hnew
    · obtain ⟨hlt, hwaits⟩ := h.accepted fd' hold
      dsimp only
      rw [(hwire hold).1]
      exact ⟨hlt, fun hk => hwaits (hmem _ (List.mem_cons_of_mem _ hk))⟩
    · obtain rfl := List.mem_singleton.mp hnew
      dsimp only
      rw [Function.update_self]
      exact ⟨h.pending_lt c (hmem c List.mem_cons_self), (List.nodup_cons.mp hnodup).1⟩
  · dsimp only at he
    rw [withUser_clients htable] at h₁ h₂
    rcases List.mem_append.mp h₁ with h₁ | h₁ <;> rcases List.mem_append.mp h₂ with h₂ | h₂
    · rw [(hwire h₁).1, (hwire h₂).1] at he
      exact h.distinct fd₁ h₁ fd₂ h₂ he
    · rw [List.mem_singleton.mp h₂, Function.update_self, (hwire h₁).1] at he
      exact absurd he (hwire h₁).2
    · rw [List.mem_singleton.mp h₁, Function.update_self, (hwire h₂).1] at he
      exact absurd he.symm (hwire h₂).2
    · rw [List.mem_singleton.mp h₁, List.mem_singleton.mp h₂]

/-- A client that is refused waits no more, and is in the table no more than before. -/
theorem Routed.refused {pending : List Nat} (h : Routed n) (hpending : n.pending = c :: pending)
    {server : State} (hclients : server.clients = n.server.clients) :
    Routed { n.setLink c l with pending, server } := by
  have hnodup := h.pending_nodup
  rw [hpending] at hnodup
  have hmem : ∀ k ∈ pending, k ∈ n.pending :=
    fun k hk => hpending ▸ List.mem_cons_of_mem _ hk
  have hsame {fd : Fd} (hfd : fd ∈ server.clients) : fd ∈ n.server.clients := hclients ▸ hfd
  exact ⟨fun k hk => h.pending_lt k (hmem k hk), (List.nodup_cons.mp hnodup).2,
    fun fd hfd => ⟨(h.accepted fd (hsame hfd)).1,
      fun hk => (h.accepted fd (hsame hfd)).2 (hmem _ hk)⟩,
    fun fd hfd fd' hfd' => h.distinct fd (hsame hfd) fd' (hsame hfd')⟩

/-- A step of the server keeps each connection with its client. -/
theorem Routed.served (h : Routed n) (htable : Tabled n.server) (hs : Served n a t n') :
    Routed { n' with server := t } := by
  cases hs with
  | quiet hclients hdue hgot =>
    exact h.leave (fun fd hfd => hclients ▸ hfd) rfl rfl rfl
  | refused hpending => exact h.refused hpending rfl
  | admitted hpending hclosed => exact h.admitted htable hpending hclosed
  | hungUp hat =>
    obtain ⟨hi, hi'⟩ := htable.client_slot hat (.inl rfl)
    exact h.leave (fun fd hfd => mem_of_mem_without hi hi' hfd) rfl rfl rfl
  | dropped hat =>
    obtain ⟨hi, hi'⟩ := htable.client_slot hat (.inr (.inl rfl))
    exact h.leave (fun fd hfd => mem_of_mem_without hi hi' hfd) rfl rfl rfl
  | heard hat ht hup => exact h.leave (fun fd hfd => received_clients ht ▸ hfd) rfl rfl rfl
  | wrote hat hlen => exact h.leave (fun fd hfd => written_clients ▸ hfd) rfl rfl rfl

/-! ## From the server to the screens -/

/-- What the server wrote to a client: what it has read and what is on its way. -/
def Link.arrived (l : Link) : Bytes := l.read ++ l.down

/-- What a client does itself moves nothing on to its connection or off it. -/
theorem Moved.arrived (h : Moved l m l') : l'.arrived = l.arrived := by
  cases h with
  | shown input n hopen =>
    simp only [Link.arrived, Link.show]
    rw [List.append_assoc, List.take_append_drop]
  | _ => rfl

/-- What was written to a client is on its connection, and nothing on one that waits. -/
structure Downward (n : Network) : Prop where
  fresh : ∀ c ∈ n.pending, (n.links c).arrived = []
  carried : ∀ fd ∈ n.server.clients, (n.server.got fd).flatten = (n.links (n.wire fd)).arrived

/-- A connection changes and what has arrived on it does not. -/
theorem Downward.setLink (h : Downward n) (hl : l.arrived = (n.links c).arrived) :
    Downward (n.setLink c l) := by
  have hsame (k : Nat) : ((n.setLink c l).links k).arrived = (n.links k).arrived := by
    by_cases hk : k = c
    · rw [hk, setLink_links_self, hl]
    · rw [setLink_links_of_ne hk]
  exact ⟨fun k hk => (hsame k).trans (h.fresh k hk),
    fun fd hfd => (h.carried fd hfd).trans (hsame _).symm⟩

/-- Clients may leave. -/
theorem Downward.leave (h : Downward n) (hclients : ∀ fd ∈ s.clients, fd ∈ n.server.clients)
    (hgot : s.got = n.server.got) : Downward { n with server := s } where
  fresh := h.fresh
  carried fd hfd := hgot ▸ h.carried fd (hclients fd hfd)

/-- To a client that has just connected nothing was sent. -/
theorem Downward.connect (h : Downward n) (hrouted : Routed n) (hn : n.step .connect = next n') :
    Downward n' := by
  cases hn
  refine ⟨fun k hk => ?_, fun fd hfd => ?_⟩
  · dsimp only
    rcases List.mem_append.mp hk with hk | hk
    · rw [setLink_links_of_ne (Nat.ne_of_lt (hrouted.pending_lt k hk)), h.fresh k hk]
    · rw [List.mem_singleton.mp hk, setLink_links_self]
      rfl
  · dsimp only [Network.setLink]
    rw [Function.update_of_ne (Nat.ne_of_lt (hrouted.accepted fd hfd).1)]
    exact h.carried fd hfd

/-- An accepted client has got nothing yet. -/
theorem Downward.admitted {pending : List Nat} (h : Downward n)
    (htable : Tabled n.server) (hpending : n.pending = c :: pending)
    (hclosed : fd ∉ n.server.opened) :
    Downward { n with
      server := n.server.withUser i fd
      pending := pending
      wire := Function.update n.wire fd c
      since := Function.update n.since fd n.log.length } := by
  refine ⟨fun k hk => h.fresh k (hpending ▸ List.mem_cons_of_mem _ hk), fun fd' hfd' => ?_⟩
  rw [withUser_clients htable] at hfd'
  rcases List.mem_append.mp hfd' with hold | hnew
  · have hne : fd' ≠ fd := fun he => hclosed (he ▸ opened_of_mem_clients htable hold)
    dsimp only [State.withUser]
    rw [Function.update_of_ne hne, Function.update_of_ne hne]
    exact h.carried fd' hold
  · obtain rfl := List.mem_singleton.mp hnew
    dsimp only [State.withUser]
    rw [Function.update_self, Function.update_self, h.fresh c (hpending ▸ List.mem_cons_self)]
    rfl

/-- What a refused client is sent is no matter of the table. -/
theorem Downward.refused {pending : List Nat} (h : Downward n) (hrouted : Routed n)
    (hpending : n.pending = c :: pending) {server : State}
    (hclients : server.clients = n.server.clients) (hgot : server.got = n.server.got) :
    Downward { n.setLink c l with pending, server } := by
  have hnodup := hrouted.pending_nodup
  rw [hpending] at hnodup
  refine ⟨fun k hk => ?_, fun fd hfd => ?_⟩
  · have hne : k ≠ c := fun he => (List.nodup_cons.mp hnodup).1 (he ▸ hk)
    dsimp only
    rw [setLink_links_of_ne hne]
    exact h.fresh k (hpending ▸ List.mem_cons_of_mem _ hk)
  · have hfd' : fd ∈ n.server.clients := hclients ▸ hfd
    have hne : n.wire fd ≠ c :=
      fun he => (hrouted.accepted fd hfd').2 (he ▸ hpending ▸ List.mem_cons_self)
    dsimp only [Network.setLink]
    rw [hgot, h.carried fd hfd', Function.update_of_ne hne]

/-- What is written to a client goes to its connection. -/
theorem Downward.wrote {taken : Nat} (h : Downward n) (hrouted : Routed n) (hi : 1 ≤ i)
    (hi' : i ≤ n.server.userCount) :
    Downward { n.setLink (n.wire (n.server.fds i).fd)
        ((n.links (n.wire (n.server.fds i).fd)).arrive ((cstr n.server.tmpbuf).take taken)) with
      server := n.server.written i taken } := by
  have hmem := mem_clients hi hi'
  refine ⟨fun k hk => ?_, fun fd hfd => ?_⟩
  · have hne : k ≠ n.wire (n.server.fds i).fd := fun he => (hrouted.accepted _ hmem).2 (he ▸ hk)
    dsimp only
    rw [setLink_links_of_ne hne]
    exact h.fresh k hk
  · have hfd' : fd ∈ n.server.clients := written_clients (s := n.server) ▸ hfd
    have hcarried := h.carried fd hfd'
    by_cases he : fd = (n.server.fds i).fd
    · subst he
      dsimp only [State.written, Network.setLink]
      rw [Function.update_self, Function.update_self, List.flatten_append, hcarried]
      dsimp only [Link.arrived, Link.arrive]
      rw [List.append_assoc]
      congr 2
      split
      · rename_i hzero
        rw [hzero, List.take_zero]
        rfl
      · rw [List.flatten_singleton]
    · have hne : n.wire fd ≠ n.wire (n.server.fds i).fd :=
        fun hwire => he (hrouted.distinct fd hfd' _ hmem hwire)
      dsimp only [State.written, Network.setLink]
      rw [Function.update_of_ne he, Function.update_of_ne hne, hcarried]

/-- A step of the server keeps what clients get in step with what it has written. -/
theorem Downward.served (h : Downward n) (hrouted : Routed n) (htable : Tabled n.server)
    (hs : Served n a t n') : Downward { n' with server := t } := by
  cases hs with
  | quiet hclients hdue hgot => exact h.leave (fun fd hfd => hclients ▸ hfd) hgot
  | refused hpending => exact h.refused hrouted hpending rfl rfl
  | admitted hpending hclosed => exact h.admitted htable hpending hclosed
  | @hungUp i hat =>
    obtain ⟨hi, hi'⟩ := htable.client_slot hat (.inl rfl)
    have hset := h.setLink (l := (n.links (n.wire (n.server.fds i).fd)).close) rfl
    exact hset.leave (fun fd hfd => mem_of_mem_without hi hi' hfd) rfl
  | dropped hat =>
    obtain ⟨hi, hi'⟩ := htable.client_slot hat (.inr (.inl rfl))
    exact h.leave (fun fd hfd => mem_of_mem_without hi hi' hfd) rfl
  | @heard i data rest t hat ht hup =>
    have hset := h.setLink (l := (n.links (n.wire (n.server.fds i).fd)).leave rest) rfl
    have hnext : Downward { n.setLink (n.wire (n.server.fds i).fd)
        ((n.links (n.wire (n.server.fds i).fd)).leave rest) with server := t.advance i } :=
      hset.leave (fun fd hfd => received_clients ht ▸ hfd) (queued_of_queueAll ht).got
    exact ⟨hnext.fresh, hnext.carried⟩
  | wrote hat hlen =>
    obtain ⟨hi, hi'⟩ := htable.client_slot hat (.inr (.inr rfl))
    exact h.wrote hrouted hi hi'

/-! ## From the inputs to the server -/

/-- What was read from a connection. -/
def Network.heard (n : Network) (c : Nat) : List Bytes :=
  (n.log.filter (·.1 = c)).map Prod.snd

/-- What was read from the others since a descriptor was accepted. -/
def Network.fromOthers (n : Network) (fd : Fd) : List Bytes :=
  ((n.log.drop (n.since fd)).filter (·.1 ≠ n.wire fd)).map Prod.snd

/-- What the server has read from a client is a beginning of what this has sent, and due to a client
is what was read from all others since it was accepted. -/
structure Upward (n : Network) : Prop where
  log_lt : ∀ e ∈ n.log, e.1 < n.connected
  heard : ∀ c < n.connected, (n.heard c).flatten ++ (n.links c).up = (n.links c).sent
  due : ∀ fd ∈ n.server.clients, n.since fd ≤ n.log.length ∧ n.server.due fd = n.fromOthers fd

/-- What a client sends is on its connection. -/
theorem Moved.sent_up (h : Moved l m l') : ∃ bs, l'.up = l.up ++ bs ∧ l'.sent = l.sent ++ bs := by
  cases h with
  | sent hopen hle => exact ⟨_, rfl, rfl⟩
  | _ => exact ⟨[], (List.append_nil _).symm, (List.append_nil _).symm⟩

/-- A connection changes, and what was sent on it is what was read and what is on its way. -/
theorem Upward.setLink (h : Upward n) (hl : (n.heard c).flatten ++ l.up = l.sent) :
    Upward (n.setLink c l) where
  log_lt := h.log_lt
  heard k hk := by
    by_cases he : k = c
    · subst he
      rw [setLink_links_self]
      exact hl
    · rw [setLink_links_of_ne he]
      exact h.heard k hk
  due := h.due

/-- Clients may leave. -/
theorem Upward.leave (h : Upward n) (hclients : ∀ fd ∈ s.clients, fd ∈ n.server.clients)
    (hdue : s.due = n.server.due) : Upward { n with server := s } where
  log_lt := h.log_lt
  heard := h.heard
  due fd hfd := hdue ▸ h.due fd (hclients fd hfd)

/-- A client that has just connected has sent nothing. -/
theorem Upward.connect (h : Upward n) (hn : n.step .connect = next n') : Upward n' := by
  cases hn
  refine ⟨fun e he => Nat.lt_succ_of_lt (h.log_lt e he), fun k hk => ?_, h.due⟩
  dsimp only [Network.setLink]
  by_cases he : k = n.connected
  · subst he
    have hnone : n.log.filter (·.1 = n.connected) = [] :=
      List.filter_eq_nil_iff.mpr fun e hmem he => by
        have hlt := h.log_lt e hmem
        rw [of_decide_eq_true he] at hlt
        exact Nat.lt_irrefl _ hlt
    rw [Function.update_self]
    dsimp only [Network.heard]
    rw [hnone]
    rfl
  · rw [Function.update_of_ne he]
    exact h.heard k (Nat.lt_of_le_of_ne (Nat.le_of_lt_succ hk) he)

/-- A move of a client adds to what it has sent only what goes up its connection. -/
theorem Upward.client (h : Upward n) (hc : c < n.connected) (hm : Moved (n.links c) m l) :
    Upward (n.setLink c l) := by
  obtain ⟨bs, hup, hsent⟩ := hm.sent_up
  refine h.setLink ?_
  rw [hup, hsent, ← List.append_assoc, h.heard c hc]

/-- Of an accepted client nothing was read yet. -/
theorem Upward.admitted {pending : List Nat} (h : Upward n) (htable : Tabled n.server)
    (hclosed : fd ∉ n.server.opened) :
    Upward { n with
      server := n.server.withUser i fd
      pending := pending
      wire := Function.update n.wire fd c
      since := Function.update n.since fd n.log.length } := by
  refine ⟨h.log_lt, h.heard, fun fd' hfd' => ?_⟩
  rw [withUser_clients htable] at hfd'
  rcases List.mem_append.mp hfd' with hold | hnew
  · have hne : fd' ≠ fd := fun he => hclosed (he ▸ opened_of_mem_clients htable hold)
    dsimp only [State.withUser, Network.fromOthers]
    simp only [Function.update_of_ne hne]
    exact h.due fd' hold
  · obtain rfl := List.mem_singleton.mp hnew
    dsimp only [State.withUser, Network.fromOthers]
    rw [Function.update_self, Function.update_self, List.drop_length]
    exact ⟨Nat.le_refl _, rfl⟩

/-- What is read from a client is due to all others. -/
theorem Upward.read {rest : Bytes} (h : Upward n) (hrouted : Routed n) (hi : 1 ≤ i)
    (hi' : i ≤ n.server.userCount)
    (ht : (n.server.keep i data).queueAll (n.server.fds i).fd data n.server.userCount.toNat =
      next t) (hup : (n.links (n.wire (n.server.fds i).fd)).up = data ++ rest) :
    Upward { n.setLink (n.wire (n.server.fds i).fd)
        ((n.links (n.wire (n.server.fds i).fd)).leave rest) with
      log := n.log ++ [(n.wire (n.server.fds i).fd, data)], server := t.advance i } := by
  have hmem := mem_clients hi hi'
  have hlt := (hrouted.accepted _ hmem).1
  have hdue := (queued_of_queueAll ht).due
  refine ⟨fun e he => ?_, fun k hk => ?_, fun fd hfd => ?_⟩
  · rcases List.mem_append.mp he with he | he
    · exact h.log_lt e he
    · rw [List.mem_singleton.mp he]
      exact hlt
  · have hheard := h.heard k hk
    dsimp only [Network.heard] at hheard ⊢
    rw [List.filter_append, List.map_append, List.flatten_append]
    by_cases he : k = n.wire (n.server.fds i).fd
    · subst he
      rw [hup, ← List.append_assoc] at hheard
      rw [setLink_links_self]
      simpa [Link.leave] using hheard
    · rw [setLink_links_of_ne he]
      simpa [Network.setLink, Ne.symm he] using hheard
  · have hfd' : fd ∈ n.server.clients := received_clients ht ▸ hfd
    obtain ⟨hle, hold⟩ := h.due fd hfd'
    refine ⟨by rw [List.length_append]; exact Nat.le_add_right_of_le hle, ?_⟩
    change t.due fd = _
    dsimp only [Network.setLink, Network.fromOthers]
    rw [hdue, List.drop_append_of_le_length hle, List.filter_append, List.map_append]
    change (if _ then _ else _) = _
    by_cases he : fd = (n.server.fds i).fd
    · subst he
      rw [if_neg fun hdue => hdue.2 rfl, hold]
      simp [Network.fromOthers]
    · have hne : n.wire (n.server.fds i).fd ≠ n.wire fd :=
        fun hwire => he (hrouted.distinct _ hmem fd hfd' hwire).symm
      rw [if_pos ⟨hfd', he⟩, hold]
      simp [Network.fromOthers, hne]

/-- A step of the server keeps what it has read in step with what clients sent. -/
theorem Upward.served (h : Upward n) (hrouted : Routed n) (htable : Tabled n.server)
    (hs : Served n a t n') : Upward { n' with server := t } := by
  cases hs with
  | quiet hclients hdue hgot => exact h.leave (fun fd hfd => hclients ▸ hfd) hdue
  | @refused fd i c pending hpending =>
    have hlt := hrouted.pending_lt c (hpending ▸ List.mem_cons_self)
    have hset := h.setLink (l := ((n.links c).arrive limitInfo).close) (h.heard c hlt)
    exact ⟨hset.log_lt, hset.heard, hset.due⟩
  | admitted hpending hclosed => exact h.admitted htable hclosed
  | @hungUp i hat =>
    obtain ⟨hi, hi'⟩ := htable.client_slot hat (.inl rfl)
    have hlt := (hrouted.accepted _ (mem_clients hi hi')).1
    have hset := h.setLink (l := (n.links (n.wire (n.server.fds i).fd)).close) (h.heard _ hlt)
    exact hset.leave (fun fd hfd => mem_of_mem_without hi hi' hfd) rfl
  | dropped hat =>
    obtain ⟨hi, hi'⟩ := htable.client_slot hat (.inr (.inl rfl))
    exact h.leave (fun fd hfd => mem_of_mem_without hi hi' hfd) rfl
  | heard hat ht hup =>
    obtain ⟨hi, hi'⟩ := htable.client_slot hat (.inr (.inl rfl))
    exact h.read hrouted hi hi' ht hup
  | @wrote i taken hat hlen =>
    obtain ⟨hi, hi'⟩ := htable.client_slot hat (.inr (.inr rfl))
    have hlt := (hrouted.accepted _ (mem_clients hi hi')).1
    have hset := h.setLink (l := (n.links (n.wire (n.server.fds i).fd)).arrive
      ((cstr n.server.tmpbuf).take taken)) (h.heard _ hlt)
    exact hset.leave (fun fd hfd => written_clients (s := n.server) ▸ hfd) rfl

/-! ## Whole runs -/

/-- What holds in every state. -/
structure Wired (n : Network) : Prop where
  routed : Routed n
  downward : Downward n
  upward : Upward n
  faithful : ∀ c, (n.links c).Faithful

/-- Before anybody connects nothing is on its way. -/
theorem wired_start (listenSock : Fd) (entries : Int) (tmpbuf : Bytes) :
    Wired (.start listenSock entries tmpbuf) where
  routed := ⟨List.forall_mem_nil _, List.nodup_nil, List.forall_mem_nil _, List.forall_mem_nil _⟩
  downward := ⟨List.forall_mem_nil _, List.forall_mem_nil _⟩
  upward := ⟨List.forall_mem_nil _, fun c hc => absurd hc (Nat.not_lt_zero c),
    List.forall_mem_nil _⟩
  faithful _ := faithful_start

/-- A connection that changes is still one of a faithful client. -/
theorem faithful_setLink (h : ∀ c, (n.links c).Faithful) (hl : l.Faithful) (k : Nat) :
    ((n.setLink c l).links k).Faithful := by
  by_cases hk : k = c
  · rw [hk, setLink_links_self]
    exact hl
  · rw [setLink_links_of_ne hk]
    exact h k

/-- The server writes strings. -/
theorem faithful_served (h : ∀ c, (n.links c).Faithful) (hs : Served n a t n') (c : Nat) :
    (n'.links c).Faithful := by
  cases hs with
  | quiet hclients hdue hgot => exact h c
  | @refused fd i k pending hpending =>
    have hinfo : 0 ∉ limitInfo := by decide
    have hl : ((n.links k).arrive limitInfo).close.Faithful :=
      ⟨((h k).arrive hinfo).strings, (h k).screen, (h k).typed⟩
    exact faithful_setLink h hl c
  | admitted hpending hclosed => exact h c
  | hungUp hat =>
    refine faithful_setLink h ?_ c
    exact ⟨(h _).strings, (h _).screen, (h _).typed⟩
  | dropped hat => exact h c
  | @heard i data rest t hat ht hup =>
    have hl : ((n.links (n.wire (n.server.fds i).fd)).leave rest).Faithful :=
      ⟨(h _).strings, (h _).screen, (h _).typed⟩
    exact faithful_setLink h hl c
  | wrote hat hlen =>
    refine faithful_setLink h ((h _).arrive fun hmem => ?_) c
    have htext := List.mem_takeWhile_imp (List.mem_of_mem_take hmem)
    simp at htext

/-- A safe step of the network keeps the connections wired. -/
theorem Wired.step {d : Deed} (h : Wired n) (htable : Tabled n.server) (hsafe : n.Safe d)
    (hs : n.step d = next n') : Wired n' := by
  cases d with
  | connect =>
    refine ⟨h.routed.connect hs, h.downward.connect h.routed hs, h.upward.connect hs, ?_⟩
    cases hs
    exact faithful_setLink h.faithful faithful_start
  | client c m =>
    simp only [Network.step] at hs
    split at hs
    · rename_i hc
      obtain ⟨l, hl, hnext⟩ := bind_eq_next.mp hs
      cases hnext
      have hmoved := Moved.of_move hl
      exact ⟨h.routed.leave (fun fd hfd => hfd) rfl rfl rfl, h.downward.setLink hmoved.arrived,
        h.upward.client hc hmoved, faithful_setLink h.faithful ((h.faithful c).move hsafe hl)⟩
    · cases hs
  | serve a =>
    obtain ⟨t, ht, hrest⟩ := bind_eq_next.mp hs
    obtain ⟨u, hu, hnext⟩ := bind_eq_next.mp hrest
    cases hnext
    have hserved := Served.of_step ht hu
    exact ⟨h.routed.served htable hserved, h.downward.served h.routed htable hserved,
      h.upward.served h.routed htable hserved,
      fun c => (faithful_served h.faithful hserved c : (u.links c).Faithful)⟩

/-- The server in the network is the server. -/
theorem server_of_reaches {listenSock : Fd} {entries : Int} {tmpbuf : Bytes}
    (h : Reaches Network.step Network.Safe (.start listenSock entries tmpbuf) n) :
    Reaches Chat.step Chat.Safe (Chat.start listenSock entries tmpbuf) n.server := by
  induction h with
  | refl => exact .refl
  | @tail t u d _ hok hs ih =>
    cases d with
    | connect =>
      cases hs
      exact ih
    | client c m =>
      simp only [Network.step] at hs
      split at hs
      · obtain ⟨l, -, hnext⟩ := bind_eq_next.mp hs
        cases hnext
        exact ih
      · cases hs
    | serve a =>
      obtain ⟨s, hserver, hrest⟩ := bind_eq_next.mp hs
      obtain ⟨v, -, hnext⟩ := bind_eq_next.mp hrest
      cases hnext
      exact ih.tail hok hserver

/-- The connections are wired in every state of a run of safe steps. -/
theorem wired_of_reaches {listenSock : Fd} {entries : Int} {tmpbuf : Bytes}
    (h : Reaches Network.step Network.Safe (.start listenSock entries tmpbuf) n) : Wired n :=
  h.invariant_with (fun _ hr => tabled_of_reaches (server_of_reaches hr))
    (wired_start listenSock entries tmpbuf) fun _ _ _ htable hw hsafe hs => hw.step htable hsafe hs

/-- The texts that carry the messages read from the other clients since the client of a slot was
accepted make up what its screen shows, what is on its way and what waits for it. -/
def Network.Shows (n : Network) (slot : PollFd) : Prop :=
  ∃ texts, List.Forall₂ Carries texts (n.fromOthers slot.fd) ∧
    (n.links (n.wire slot.fd)).screen.flatten ++ (n.links (n.wire slot.fd)).down ++
      (n.server.inFlight slot).flatten = texts.flatten

/-- What the server has read from a client, what is on its way and what the client has still to read
make up its input. -/
def Network.Hears (n : Network) (c : Nat) : Prop :=
  (n.links c).phase ≠ .killed →
    (n.heard c).flatten ++ (n.links c).up ++ (n.links c).input = (n.links c).typed

/-- On every run of safe steps of the server and its clients each screen shows the messages of the
other clients, once each and in the order in which the server read them, and the server reads what
each client was typed, in order. -/
theorem shown_as_typed {listenSock : Fd} {entries : Int} {tmpbuf : Bytes}
    (hbuf : tmpbuf.length = bufSize)
    (h : Reaches Network.step Network.Safe (.start listenSock entries tmpbuf) n) :
    (∀ j, 1 ≤ j → j ≤ n.server.userCount → n.Shows (n.server.fds j)) ∧
      ∀ c < n.connected, n.Hears c := by
  have hwired := wired_of_reaches h
  have hrelaying := relaying_of_reaches hbuf (server_of_reaches h)
  refine ⟨fun j hj hle => ?_, fun c hc hopen => ?_⟩
  · have hmem := mem_clients hj hle
    have hdue := (hwired.upward.due _ hmem).2
    refine ⟨_, hdue ▸ (hrelaying.serves j hj hle).relayed, ?_⟩
    rw [List.flatten_append, hwired.downward.carried _ hmem, (hwired.faithful _).screen]
    rfl
  · rw [hwired.upward.heard c hc, (hwired.faithful c).typed hopen]

/-- The first of two clients types a line, and the second one shows it. -/
def oneLine : List Deed :=
  [.connect, .connect, .serve (.poll [pollIn]), .serve (.accept (some 3)), .serve .skip,
    .serve .endRound, .serve (.poll [pollIn, 0]), .serve (.accept (some 4)), .serve .skip,
    .serve .skip, .serve .endRound,
    .client 0 (.type [97, 10]), .client 0 (.poll pollIn 0), .client 0 (.socket none),
    .client 0 (.input (some 2) (some 2)),
    .serve (.poll [0, pollIn, 0]), .serve .skip, .serve (.read (some [97, 10])), .serve .skip,
    .serve .endRound, .serve (.poll [0, 0, pollOut]), .serve .skip, .serve .skip,
    .serve (.write 7), .client 1 (.deliver 7), .client 1 (.poll 0 pollIn),
    .client 1 (.socket (some 7))]

theorem oneLine_screen :
    (runGuarded Network.step Network.Safe (.start 0 userLimit (List.replicate bufSize 0))
      oneLine).state?.map (fun n => (n.connected, n.server.userCount, (n.links 1).screen)) =
    some (2, 2, [userPrefix 4 ++ [97]]) := by decide +kernel

/-- The second client shows the line that the first one has typed. -/
theorem shown_as_typed_oneLine : ∃ n,
    Reaches Network.step Network.Safe (.start 0 userLimit (List.replicate bufSize 0)) n ∧
      (n.connected, n.server.userCount, (n.links 1).screen) = (2, 2, [userPrefix 4 ++ [97]]) ∧
      (∀ j, 1 ≤ j → j ≤ n.server.userCount → n.Shows (n.server.fds j)) ∧
      ∀ c < n.connected, n.Hears c := by
  obtain ⟨n, hrun, hscreen⟩ := exists_next_of_map oneLine_screen
  have hreach := Reaches.of_runGuarded _ _ hrun
  exact ⟨n, hreach, hscreen, shown_as_typed List.length_replicate hreach⟩

/-! ## A connection that the server has closed -/

/-- The end of the connection has come in, and a look at the socket will find that out. -/
structure Link.Over (l : Link) : Prop where
  hungUp : l.hungUp = true
  noticed : ∀ input socket, l.phase = .socket input socket → has socket pollRdhup

/-- What a client has read and shown stays. -/
def Link.SameScreen (l l' : Link) : Prop := l'.screen = l.screen ∧ l'.read = l.read

/-- A client at which the end of its connection has come in prints nothing more. -/
theorem Link.Over.move (h : l.Over) (hm : l.move m = next l') : l'.Over ∧ l.SameScreen l' := by
  have hphase (phase : Phase) (hne : ∀ input socket, phase ≠ .socket input socket) :
      ∀ input socket, phase = .socket input socket → has socket pollRdhup :=
    fun input socket he => absurd he (hne input socket)
  cases m with
  | type bs =>
    simp only [Link.move] at hm
    split at hm
    · cases hm
    · cases hm
      exact ⟨⟨h.hungUp, h.noticed⟩, rfl, rfl⟩
  | endInput =>
    cases hm
    exact ⟨⟨h.hungUp, h.noticed⟩, rfl, rfl⟩
  | deliver k =>
    simp only [Link.move] at hm
    split at hm
    · cases hm
      exact ⟨⟨h.hungUp, h.noticed⟩, rfl, rfl⟩
    · cases hm
  | hangUp =>
    simp only [Link.move] at hm
    split at hm
    · cases hm
      exact ⟨⟨rfl, h.noticed⟩, rfl, rfl⟩
    · cases hm
  | poll input socket =>
    simp only [Link.move] at hm
    split at hm
    · rename_i hready
      cases hm
      refine ⟨⟨h.hungUp, fun input' socket' he => ?_⟩, rfl, rfl⟩
      cases he
      rw [hready.2.2.2, h.hungUp]
    · cases hm
  | pollFailed =>
    simp only [Link.move] at hm
    split at hm
    · cases hm
      exact ⟨⟨h.hungUp, hphase .left (by simp)⟩, rfl, rfl⟩
    · cases hm
  | socket read =>
    simp only [Link.move] at hm
    split at hm
    · rename_i input socket hsocket
      simp only [Link.handleSocket, h.noticed input socket hsocket, if_true] at hm
      cases hm
      exact ⟨⟨h.hungUp, hphase .left (by simp)⟩, rfl, rfl⟩
    · cases hm
  | input read taken =>
    simp only [Link.move] at hm
    split at hm
    · simp only [Link.handleInput] at hm
      split at hm
      · split at hm
        · cases hm
          exact ⟨⟨h.hungUp, hphase .left (by simp)⟩, rfl, rfl⟩
        · split at hm
          · split at hm
            · split at hm
              · cases hm
                exact ⟨⟨h.hungUp, hphase .killed (by simp)⟩, rfl, rfl⟩
              · cases hm
            · split at hm
              · cases hm
                exact ⟨⟨h.hungUp, hphase .polling (by simp)⟩, rfl, rfl⟩
              · cases hm
          · cases hm
      · cases hm
        exact ⟨⟨h.hungUp, hphase .polling (by simp)⟩, rfl, rfl⟩
    · cases hm

/-- The server itself changes neither what a client shows nor where it is. -/
theorem Served.keeps_over (hs : Served n a t n') (h : (n.links c).Over) :
    (n'.links c).Over ∧ (n.links c).SameScreen (n'.links c) := by
  have hset {k : Nat} {l : Link} (hphase : l.phase = (n.links k).phase)
      (hsame : (n.links k).SameScreen l) (hover : l.hungUp = (n.links k).hungUp) :
      ((n.setLink k l).links c).Over ∧ (n.links c).SameScreen ((n.setLink k l).links c) := by
    by_cases hc : c = k
    · subst hc
      rw [setLink_links_self]
      exact ⟨⟨hover.trans h.hungUp, fun input socket he => h.noticed input socket (hphase ▸ he)⟩,
        hsame⟩
    · rw [setLink_links_of_ne hc]
      exact ⟨h, rfl, rfl⟩
  cases hs with
  | quiet hclients hdue hgot => exact ⟨h, rfl, rfl⟩
  | @refused fd i k pending hpending =>
    exact hset (l := ((n.links k).arrive limitInfo).close) rfl ⟨rfl, rfl⟩ rfl
  | admitted hpending hclosed => exact ⟨h, rfl, rfl⟩
  | hungUp hat => exact hset rfl ⟨rfl, rfl⟩ rfl
  | dropped hat => exact ⟨h, rfl, rfl⟩
  | @heard i data rest t hat ht hup =>
    exact hset (l := (n.links (n.wire (n.server.fds i).fd)).leave rest) rfl ⟨rfl, rfl⟩ rfl
  | wrote hat hlen => exact hset rfl ⟨rfl, rfl⟩ rfl

/-- A step of the network shows nothing more at such a client. -/
theorem Network.over_step {d : Deed} (hc : c < n.connected) (h : (n.links c).Over)
    (hs : n.step d = next n') :
    c < n'.connected ∧ (n'.links c).Over ∧ (n.links c).SameScreen (n'.links c) := by
  cases d with
  | connect =>
    cases hs
    dsimp only
    rw [setLink_links_of_ne (Nat.ne_of_lt hc)]
    exact ⟨Nat.lt_succ_of_lt hc, h, rfl, rfl⟩
  | client k m =>
    simp only [Network.step] at hs
    split at hs
    · obtain ⟨l, hl, hnext⟩ := bind_eq_next.mp hs
      cases hnext
      by_cases hk : c = k
      · subst hk
        rw [setLink_links_self]
        exact ⟨hc, h.move hl⟩
      · rw [setLink_links_of_ne hk]
        exact ⟨hc, h, rfl, rfl⟩
    · cases hs
  | serve a =>
    obtain ⟨t, ht, hrest⟩ := bind_eq_next.mp hs
    obtain ⟨w, hw, hnext⟩ := bind_eq_next.mp hrest
    cases hnext
    have hserved := Served.of_step ht hw
    refine ⟨?_, hserved.keeps_over h⟩
    change c < w.connected
    rw [hserved.connected]
    exact hc

/-- Once the end of its connection has come in while a client is in `poll`, the client shows and
reads nothing more, whatever has come in before. -/
theorem screen_of_closed (hc : c < n.connected) (hover : (n.links c).hungUp)
    (hphase : (n.links c).phase = .polling)
    (h : Reaches Network.step (fun _ _ => True) n n') :
    (n'.links c).screen = (n.links c).screen ∧ (n'.links c).read = (n.links c).read := by
  have hkept : c < n'.connected ∧ (n'.links c).Over ∧ (n.links c).SameScreen (n'.links c) := by
    apply h.invariant (I := fun u => c < u.connected ∧ (u.links c).Over ∧
      (n.links c).SameScreen (u.links c))
    · refine ⟨hc, ⟨hover, fun input socket he => ?_⟩, rfl, rfl⟩
      rw [hphase] at he
      cases he
    · intro u d v hu _ hs
      obtain ⟨hlt, hover, hsame⟩ := hu
      obtain ⟨hlt', hover', hsame'⟩ := Network.over_step hlt hover hs
      exact ⟨hlt', hover', hsame'.1.trans hsame.1, hsame'.2.trans hsame.2⟩
  exact hkept.2.2

/-- One more client connects and is accepted. -/
def joinRound (k : Nat) : List Deed :=
  [.connect, .serve (.poll (pollIn :: List.replicate k 0)), .serve (.accept (some (k + 3)))] ++
    List.replicate (k + 1) (.serve .skip) ++ [.serve .endRound]

/-- Five clients join and a sixth is refused. The seven bytes that the server writes to it come in,
and behind them the end. -/
def sixthRefused : List Deed :=
  (List.range 5).flatMap joinRound ++
    [.connect, .serve (.poll (pollIn :: List.replicate 5 0)), .serve (.accept (some 8)),
      .client 5 (.deliver 7), .client 5 .hangUp]

theorem sixthRefused_link :
    (runGuarded Network.step (fun _ _ => True) (.start 0 10 (List.replicate bufSize 0))
      sixthRefused).state?.map (fun n => (n.connected, n.links 5)) =
    some (6, { Link.start with
      down := limitInfo, here := 7, closed := true, hungUp := true }) := by decide +kernel

theorem sixthRefused_left :
    ((runGuarded Network.step (fun _ _ => True) (.start 0 10 (List.replicate bufSize 0))
      sixthRefused).bind fun n => runGuarded Network.step (fun _ _ => True) n
        [.client 5 (.poll 0 (pollIn ||| pollRdhup)), .client 5 (.socket none)]).state?.map
          (fun n => (n.links 5).phase) = some .left := by decide +kernel

/-- The refused client leaves without a look at what the server wrote to it. -/
theorem screen_of_closed_sixthRefused : ∃ n n',
    Reaches Network.step (fun _ _ => True) (.start 0 10 (List.replicate bufSize 0)) n ∧
      (n.links 5).buffered = limitInfo ∧ Reaches Network.step (fun _ _ => True) n n' ∧
        (n'.links 5).phase = .left ∧ (n'.links 5).screen = [] := by
  obtain ⟨n', hrun, hleft⟩ := exists_next_of_map sixthRefused_left
  obtain ⟨n, hn, hn'⟩ := bind_eq_next.mp hrun
  have hlink := sixthRefused_link
  rw [hn] at hlink
  simp only [StepResult.state?, Option.map_some, Option.some.injEq, Prod.mk.injEq] at hlink
  obtain ⟨hconnected, hlink⟩ := hlink
  have hreach := Reaches.of_runGuarded _ _ hn'
  have hscreen := screen_of_closed (c := 5) (by omega) (by rw [hlink]) (by rw [hlink]; rfl) hreach
  rw [hlink] at hscreen
  exact ⟨n, n', Reaches.of_runGuarded _ _ hn, by rw [hlink]; rfl, hreach, hleft, hscreen.1⟩

end NetworkCode.Chat
