import NetworkCode.LinuxChat.Carrying
import NetworkCode.LinuxChat.Integrity
import NetworkCode.LinuxChat.Screen

/-!
# The clients and the server together

Clients send what their users type and their QUITs to the server, and show what the server sends
to them. A datagram arrives any number of times or not at all, in any order, at the endpoint it was
sent to. The threads of a client take turns at whole iterations of their loops. Whatever is shown
anywhere was said by a user of one of the clients, with its name and its school.
-/

namespace NetworkCode.LinuxChat

open StepResult Text

/-! ## The source -/

/-- The user of a client: where its socket is, and the names it sends. -/
structure User where
  endpoint : Endpoint
  nickName : Bytes
  school : Bytes
  deriving DecidableEq

/-- What a user sends to the server. -/
structure Utterance where
  user : User
  /-- The line that was typed; there is none when SIGINT came. -/
  line : Option Bytes
  deriving DecidableEq

/-- The value that is sent. -/
def Utterance.value (u : Utterance) : Json :=
  match u.line with
  | some out => message u.user.nickName u.user.school out
  | none => sigIntFun u.user.nickName u.user.school

/-- A client: what `runOutput` received last, and its windows. -/
structure Client where
  user : User
  running : Bool
  msg : Bytes
  windows : Screen

/-- The client when its threads start. -/
def Client.start (user : User) : Client := ⟨user, true, [], .start⟩

/-- The clients and the server, and what was sent to the server. -/
structure Network where
  server : Server
  clients : List Client
  said : List Utterance

/-- The network before anybody says anything. -/
def Network.start (slots : List Bytes) (redis : Bytes → Option Bytes) (users : List User) :
    Network := ⟨.start slots redis, users.map .start, []⟩

/-- What happens next. -/
inductive Deed where
  | server (a : Action)
  /-- A line is typed at a client. -/
  | enter (i : Nat) (typed : Bytes)
  /-- SIGINT comes to a client. -/
  | interrupt (i : Nat)
  /-- A datagram arrives at a client. -/
  | hear (i : Nat) (datagram : Bytes)
  /-- `recvfrom` fails at a client. -/
  | hearFailed (i : Nat)
  deriving DecidableEq

/-- The client a deed belongs to. -/
def Deed.client : Deed → Option Nat
  | .server _ => none
  | .enter i _ => some i
  | .interrupt i => some i
  | .hear i _ => some i
  | .hearFailed i => some i

section

variable (parse : Bytes → Json) (write : Json → Bytes) (y fY : Nat)

/-- An iteration of `runOutput` behind `RecvData`. An exception ends the client. -/
def Client.display (c : Client) (msg : Bytes) : Client :=
  match readMessage parse msg with
  | none => { c with msg, running := false }
  | some m => { c with msg, windows := c.windows.show y fY m }

/-- A datagram was sent to the server by this endpoint. -/
def Network.WasSent (n : Network) (remote : Endpoint) (datagram : Bytes) : Prop :=
  (remote, datagram) ∈ n.said.map fun u => (u.user.endpoint, write u.value)

/-- What the server receives was sent to it. -/
def Network.Admits (n : Network) : Action → Prop
  | .recv remote datagram => n.WasSent write remote datagram
  | _ => True

instance Network.decidableAdmits (n : Network) (a : Action) : Decidable (n.Admits write a) :=
  match a with
  | .recv remote datagram => inferInstanceAs (Decidable ((remote, datagram) ∈
      n.said.map fun u => (u.user.endpoint, write u.value)))
  | .recvFailed | .put | .handle | .replay | .call | .begin | .test | .get | .send _ =>
    .isTrue trivial

/-- The client `i` becomes another. -/
def Network.withClient (n : Network) (i : Nat) (c : Client) : Network :=
  { n with clients := n.clients.set i c }

/-- A deed of the client `i`. -/
def Network.clientStep (n : Network) (i : Nat) (c : Client) : Deed → StepResult Network
  | .server _ => disabled
  | .enter _ typed =>
    match getInputmsg typed with
    | none => undefined
    | some out => next { n with said := n.said ++ [⟨c.user, some out⟩] }
  | .interrupt _ =>
    next { n.withClient i { c with running := false } with said := n.said ++ [⟨c.user, none⟩] }
  | .hear _ datagram =>
    if (c.user.endpoint, datagram) ∈ n.server.sent then
      next (n.withClient i (c.display parse y fY (clientRecvData datagram)))
    else disabled
  | .hearFailed _ => next (n.withClient i (c.display parse y fY c.msg))

/-- One step of the network. -/
def Network.step (n : Network) (d : Deed) : StepResult Network :=
  match d.client, d with
  | none, .server a =>
    if n.Admits write a then
      (n.server.step parse a).bind fun server => next { n with server }
    else disabled
  | some i, d =>
    match n.clients[i]? with
    | some c => if c.running then n.clientStep parse y fY i c d else disabled
    | none => disabled
  | none, _ => disabled

/-- The text of what is said fits the buffer of the server. -/
def Utterance.Fits (u : Utterance) : Prop := (write u.value).length < recvSize

instance Utterance.decidableFits (u : Utterance) : Decidable (u.Fits write) :=
  inferInstanceAs (Decidable (_ < _))

/-- What is typed fits the array of the window, what is said fits the buffer of the server, and no
QUIT erases the entry the iterator of `broadCast` is at. -/
def Network.Safe (n : Network) : Deed → Prop
  | .server a => n.server.Spares parse a
  | .enter i typed => typed.length < inputSize ∧
    ∀ c ∈ n.clients[i]?, Utterance.Fits write ⟨c.user, some (cstr typed)⟩
  | .interrupt i => ∀ c ∈ n.clients[i]?, Utterance.Fits write ⟨c.user, none⟩
  | _ => True

instance Network.decidableSafe (n : Network) (d : Deed) : Decidable (n.Safe parse write d) :=
  match d with
  | .server a => inferInstanceAs (Decidable (n.server.Spares parse a))
  | .enter i typed => inferInstanceAs (Decidable (typed.length < inputSize ∧
    ∀ c ∈ n.clients[i]?, Utterance.Fits write ⟨c.user, some (cstr typed)⟩))
  | .interrupt i =>
    inferInstanceAs (Decidable (∀ c ∈ n.clients[i]?, Utterance.Fits write ⟨c.user, none⟩))
  | .hear _ _ | .hearFailed _ => .isTrue trivial

end

/-! ## What the clients show -/

section

variable {parse : Bytes → Json} {write : Json → Bytes} {y fY : Nat} {redis : Bytes → Option Bytes}
  {slots : List Bytes} {users : List User} {n k : Network} {d : Deed} {ds : List Deed}
  {c : Client} {i : Nat} {m : Bytes} {Q R : Bytes → Prop}

/-- The steps of the network. -/
inductive Network.Steps (parse : Bytes → Json) (write : Json → Bytes) (y fY : Nat) (n : Network) :
    Deed → Network → Prop
  | server {a : Action} {s : Server} : n.Admits write a → n.server.step parse a = next s →
      Steps parse write y fY n (.server a) { n with server := s }
  | enter {i : Nat} {typed out : Bytes} {c : Client} : n.clients[i]? = some c →
      getInputmsg typed = some out →
        Steps parse write y fY n (.enter i typed) { n with said := n.said ++ [⟨c.user, some out⟩] }
  | interrupt {i : Nat} {c : Client} : n.clients[i]? = some c →
      Steps parse write y fY n (.interrupt i)
        { n.withClient i { c with running := false } with said := n.said ++ [⟨c.user, none⟩] }
  | hear {i : Nat} {datagram : Bytes} {c : Client} : n.clients[i]? = some c →
      (c.user.endpoint, datagram) ∈ n.server.sent →
        Steps parse write y fY n (.hear i datagram)
          (n.withClient i (c.display parse y fY (clientRecvData datagram)))
  | hearFailed {i : Nat} {c : Client} : n.clients[i]? = some c →
      Steps parse write y fY n (.hearFailed i) (n.withClient i (c.display parse y fY c.msg))

/-- A step of the network is one of those listed. -/
theorem Network.steps_of_step (hs : n.step parse write y fY d = next k) :
    n.Steps parse write y fY d k := by
  cases d with
  | server a =>
    simp only [Network.step, Deed.client] at hs
    split at hs
    · obtain ⟨s, hserver, hk⟩ := bind_eq_next.mp hs
      cases hk
      exact .server ‹_› hserver
    · cases hs
  | enter i typed =>
    simp only [Network.step, Deed.client, Network.clientStep] at hs
    split at hs
    · split at hs
      · split at hs
        · cases hs
        · cases hs
          exact .enter ‹_› ‹_›
      · cases hs
    · cases hs
  | interrupt i =>
    simp only [Network.step, Deed.client, Network.clientStep] at hs
    split at hs
    · split at hs
      · cases hs
        exact .interrupt ‹_›
      · cases hs
    · cases hs
  | hear i datagram =>
    simp only [Network.step, Deed.client, Network.clientStep] at hs
    split at hs
    · split at hs
      · split at hs
        · cases hs
          exact .hear ‹_› ‹_›
        · cases hs
      · cases hs
    · cases hs
  | hearFailed i =>
    simp only [Network.step, Deed.client, Network.clientStep] at hs
    split at hs
    · split at hs
      · cases hs
        exact .hearFailed ‹_›
      · cases hs
    · cases hs

/-- A call of `recvfrom` fails. -/
def Deed.fails : Deed → Bool
  | .server .recvFailed => true
  | .hearFailed _ => true
  | _ => false

/-- Some call of `recvfrom` failed, or brought nothing. -/
def Unheard (write : Json → Bytes) (ds : List Deed) (said : List Utterance) : Prop :=
  (∃ d ∈ ds, d.fails = true) ∨ ∃ u ∈ said, write u.value = []

/-- The string that the server makes of something that was said, or the one there is when nothing
was received. -/
def Spoken (write : Json → Bytes) (ds : List Deed) (said : List Utterance) (m : Bytes) : Prop :=
  (∃ u ∈ said, m = cstr (write u.value) ∧ (write u.value).length < recvSize) ∨
    m = [] ∧ Unheard write ds said

/-- What was spoken stays spoken. -/
theorem Spoken.mono {said said' : List Utterance} {ds' : List Deed} (h : Spoken write ds said m)
    (hds : ds ⊆ ds') (hsaid : said ⊆ said') : Spoken write ds' said' m := by
  rcases h with ⟨u, hu, hm⟩ | ⟨hm, ⟨d, hd, hfails⟩ | ⟨u, hu, hnil⟩⟩
  · exact .inl ⟨u, hsaid hu, hm⟩
  · exact .inr ⟨hm, .inl ⟨d, hds hd, hfails⟩⟩
  · exact .inr ⟨hm, .inr ⟨u, hsaid hu, hnil⟩⟩

/-- A message that was spoken has no NUL in it. -/
theorem Spoken.cstr_eq {said : List Utterance} (h : Spoken write ds said m) : cstr m = m := by
  rcases h with ⟨u, -, rfl, -⟩ | ⟨rfl, -⟩
  · exact cstr_of_notMem (notMem_cstr _)
  · rfl

/-- A client receives it as a whole. -/
theorem Spoken.clientRecvData_eq {said : List Utterance} (h : Spoken write ds said m) :
    clientRecvData m = m := by
  have hlen : m.length ≤ clientRecvSize := by
    rcases h with ⟨u, -, rfl, hlen⟩ | ⟨rfl, -⟩
    · have hcut : (cstr (write u.value)).length ≤ (write u.value).length :=
        (List.takeWhile_prefix _).length_le
      exact Nat.le_of_lt_succ (Nat.lt_of_le_of_lt hcut hlen)
    · exact Nat.zero_le _
  rw [clientRecvData, List.take_of_length_le hlen, h.cstr_eq]

/-- The client has received only strings with the property, and its windows show what it read in
them. -/
structure Client.Shows (parse : Bytes → Json) (y fY : Nat) (Q : Bytes → Prop) (c : Client) :
    Prop where
  msg : c.msg = [] ∨ Q c.msg
  windows : ∃ ms, c.windows = screen y fY ms ∧
    ∀ m ∈ ms, ∃ msg, Q msg ∧ readMessage parse msg = some m

/-- A client that shows messages of one kind shows messages of a wider one. -/
theorem Client.Shows.mono (h : c.Shows parse y fY Q) (hQR : ∀ m, Q m → R m) :
    c.Shows parse y fY R where
  msg := h.msg.imp_right (hQR c.msg)
  windows := h.windows.imp fun _ hms =>
    ⟨hms.1, fun m hm => (hms.2 m hm).imp fun msg hmsg => ⟨hQR msg hmsg.1, hmsg.2⟩⟩

/-- A client that displays one more message of its kind. -/
theorem Client.Shows.display (h : c.Shows parse y fY Q) (hm : Q m) :
    (c.display parse y fY m).Shows parse y fY Q := by
  rw [Client.display]
  split
  · exact ⟨.inr hm, h.windows⟩
  · rename_i message hread
    obtain ⟨ms, hwindows, hms⟩ := h.windows
    refine ⟨.inr hm, ms ++ [message], ?_, ?_⟩
    · rw [screen, List.foldl_append, ← screen, ← hwindows]
      rfl
    · exact List.forall_mem_append.mpr
        ⟨hms, List.forall_mem_singleton.mpr ⟨m, hm, hread⟩⟩

/-- All strings in the network have the property. -/
structure Network.Carries (parse : Bytes → Json) (y fY : Nat) (slots : List Bytes)
    (redis : Bytes → Option Bytes) (Q : Bytes → Prop) (n : Network) : Prop where
  server : n.server.Carries Q
  runs : ∃ as, Runs (Server.step parse) (.start slots redis) as n.server
  clients : ∀ c ∈ n.clients, c.Shows parse y fY Q

/-- A network that carries messages of one kind carries messages of a wider one. -/
theorem Network.Carries.mono (h : n.Carries parse y fY slots redis Q) (hQR : ∀ m, Q m → R m) :
    n.Carries parse y fY slots redis R where
  server := h.server.mono hQR
  runs := h.runs
  clients c hc := (h.clients c hc).mono hQR

/-- A network whose client shows messages of the same kind. -/
theorem Network.Carries.withClient (h : n.Carries parse y fY slots redis Q)
    (hc : c.Shows parse y fY Q) : (n.withClient i c).Carries parse y fY slots redis Q where
  server := h.server
  runs := h.runs
  clients c' hc' := (List.mem_or_eq_of_mem_set hc').elim (h.clients c') fun he => he ▸ hc

/-- What the server receives was spoken. -/
theorem brings_of_admits {a : Action} (h : n.Admits write a) :
    a.Brings (Spoken write (ds ++ [.server a]) n.said) := by
  cases a with
  | recvFailed =>
    exact .inr ⟨rfl, .inl ⟨_, List.mem_append_right _ (List.mem_singleton_self _), rfl⟩⟩
  | recv remote datagram =>
    obtain ⟨u, hu, he⟩ := List.mem_map.mp h
    obtain ⟨-, rfl⟩ := Prod.mk.inj he
    exact fun hlen => .inl ⟨u, hu, rfl, hlen⟩
  | _ => trivial

/-- A step of the network carries what was spoken, and nothing else. -/
theorem Network.Carries.step (hslots : slots.length = poolCap)
    (h : n.Carries parse y fY slots redis (Spoken write ds n.said))
    (hs : n.step parse write y fY d = next k) :
    k.Carries parse y fY slots redis (Spoken write (ds ++ [d]) k.said) := by
  have hmono {said : List Utterance} (hsaid : n.said ⊆ said) (m : Bytes)
      (hm : Spoken write ds n.said m) : Spoken write (ds ++ [d]) said m :=
    hm.mono (List.subset_append_left _ _) hsaid
  have hkeep := h.mono (hmono (List.Subset.refl _))
  cases Network.steps_of_step hs with
  | server hadmits hserver =>
    obtain ⟨as, has⟩ := h.runs
    exact ⟨hkeep.server.step (fun m hm => hm.cstr_eq) (brings_of_admits hadmits) hserver,
      ⟨_, has.snoc hserver⟩, hkeep.clients⟩
  | enter hc hout =>
    obtain ⟨hserver, hruns, hclients⟩ := h.mono (hmono (List.subset_append_left n.said _))
    exact ⟨hserver, hruns, hclients⟩
  | @interrupt i c hc =>
    have hsaid := h.mono (hmono (List.subset_append_left n.said [⟨c.user, none⟩]))
    have hshows := hsaid.clients c (List.mem_of_getElem? hc)
    obtain ⟨hserver, hruns, hclients⟩ := hsaid.withClient (i := i)
      (c := { c with running := false }) ⟨hshows.msg, hshows.windows⟩
    exact ⟨hserver, hruns, hclients⟩
  | @hear i datagram c hc hsent =>
    obtain ⟨as, has⟩ := h.runs
    have hspoken := h.server.sent hslots has _ hsent
    have hshows := h.clients c (List.mem_of_getElem? hc)
    rw [hspoken.clientRecvData_eq]
    exact (h.withClient (hshows.display hspoken)).mono (hmono (List.Subset.refl _))
  | @hearFailed i c hc =>
    have hshows := hkeep.clients c (List.mem_of_getElem? hc)
    have hspoken : Spoken write (ds ++ [.hearFailed i]) n.said c.msg :=
      hshows.msg.elim (fun hnil => .inr ⟨hnil, .inl
        ⟨_, List.mem_append_right _ (List.mem_singleton_self _), rfl⟩⟩) id
    exact hkeep.withClient (hshows.display hspoken)

/-- What a user says, as a client shows it. -/
def Utterance.shown (u : Utterance) : Message where
  text := u.user.nickName ++ ascii ":" ++ (u.line.map cstr).getD []
  info := u.user.nickName ++ ascii "-" ++ u.user.school
  cmd := if u.line.isSome then ascii "None" else ascii "QUIT"

/-- The server is as its own runs leave it, and all that was said fits its buffer. -/
structure Network.Sound (parse : Bytes → Json) (write : Json → Bytes) (slots : List Bytes)
    (redis : Bytes → Option Bytes) (n : Network) : Prop where
  server : Reaches (Server.step parse) (Server.Spares parse) (.start slots redis) n.server
  fits : ∀ u ∈ n.said, u.Fits write

/-- Safe steps keep this. -/
theorem Network.Sound.step (h : n.Sound parse write slots redis) (hsafe : n.Safe parse write d)
    (hs : n.step parse write y fY d = next k) : k.Sound parse write slots redis := by
  cases Network.steps_of_step hs with
  | server _ hserver => exact ⟨h.server.tail hsafe hserver, h.fits⟩
  | enter hc hout =>
    obtain ⟨-, rfl⟩ := getInputmsg_eq_some.mp hout
    exact ⟨h.server,
      List.forall_mem_append.mpr ⟨h.fits, List.forall_mem_singleton.mpr (hsafe.2 _ hc)⟩⟩
  | interrupt hc =>
    exact ⟨h.server,
      List.forall_mem_append.mpr ⟨h.fits, List.forall_mem_singleton.mpr (hsafe _ hc)⟩⟩
  | hear _ _ => exact ⟨h.server, h.fits⟩
  | hearFailed _ => exact ⟨h.server, h.fits⟩

/-- What the server receives fits its buffer. -/
theorem Network.Sound.length_lt (h : n.Sound parse write slots redis) {remote : Endpoint}
    {datagram : Bytes} (hadmits : n.Admits write (.recv remote datagram)) :
    datagram.length < recvSize := by
  obtain ⟨u, hu, he⟩ := List.mem_map.mp hadmits
  obtain ⟨-, rfl⟩ := Prod.mk.inj he
  exact h.fits u hu

/-- Safe steps of the clients are defined. -/
theorem clientStep_ne_undefined (hsafe : n.Safe parse write d) (i : Nat) :
    n.clientStep parse y fY i c d ≠ undefined := by
  cases d with
  | enter j typed =>
    rw [Network.clientStep, getInputmsg_eq_some.mpr ⟨hsafe.1, rfl⟩]
    rintro ⟨⟩
  | hear j datagram =>
    rw [Network.clientStep]
    split <;> rintro ⟨⟩
  | _ => rintro ⟨⟩

/-- Safe steps of the server and its clients are defined. -/
theorem Network.Sound.step_ne_undefined (h : n.Sound parse write slots redis)
    (hslots : slots.length = poolCap) (hsafe : n.Safe parse write d) :
    n.step parse write y fY d ≠ undefined := by
  have hclient (i : Nat) : (match n.clients[i]? with
      | some c => if c.running then n.clientStep parse y fY i c d else disabled
      | none => disabled) ≠ undefined := by
    split
    · split
      · exact clientStep_ne_undefined hsafe i
      · rintro ⟨⟩
    · rintro ⟨⟩
  cases d with
  | server a =>
    simp only [Network.step, Deed.client]
    split
    · rename_i hadmits
      rw [ne_eq, bind_eq_undefined]
      rintro (hundefined | ⟨server, -, ⟨⟩⟩)
      refine (ready_of_reaches hslots h.server).step_ne_undefined ?_ hundefined
      rintro remote datagram rfl
      exact h.length_lt hadmits
    · rintro ⟨⟩
  | enter i typed => exact hclient i
  | interrupt i => exact hclient i
  | hear i datagram => exact hclient i
  | hearFailed i => exact hclient i

def twoLines : List Utterance :=
  [⟨⟨⟨2, 5000⟩, ascii "a", ascii "x"⟩, some (ascii "hi")⟩,
    ⟨⟨⟨1, 5000⟩, ascii "b", ascii "y"⟩, some (ascii "yo")⟩]

/-- The text of a line on its way. -/
def lineText (i : Nat) : Bytes := ((twoLines[i]?).map fun u => fastWrite u.value).getD []

end

end NetworkCode.LinuxChat
