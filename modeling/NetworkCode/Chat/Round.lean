import NetworkCode.Chat.Defined
import NetworkCode.Core.Lists

/-!
# One round of the chat server

Between two returns of `poll` the slots are handled one after the other, while clients
leave and one joins. The slots that were handled and those that are still to be handled
are at any time those of the last `poll` and that of the client that joined. So no client
is skipped and none is handled twice, and each is handled as `poll` reported.
-/

namespace NetworkCode.Chat

open StepResult Text

/-! ## Handling slots -/

/-- The branch for a client with these results of `poll`. -/
def dispatch (revents : Events) : Branch :=
  if has revents pollErr then .error
  else if has revents pollRdhup then .hangUp
  else if has revents pollIn then .read
  else if has revents pollOut then .write
  else .none

/-- `poll` reports an error, a hang-up, data or room for data. -/
def Ready (revents : Events) : Prop :=
  has revents pollErr ∨ has revents pollRdhup ∨ has revents pollIn ∨ has revents pollOut

/-- The handling of a slot: its descriptor and the branch that is taken. -/
structure Visit where
  fd : Fd
  branch : Branch
  deriving DecidableEq, Repr

/-- The handling of the slot `i`. -/
def State.visit (s : State) (i : Int) : Visit := ⟨(s.fds i).fd, s.branch (s.fds i)⟩

/-- The slot that the next step handles, if there is one. -/
def State.visits (s : State) (_ : Action) : List Visit :=
  match s.loop with
  | .handling i => if i < s.userCount + 1 then [s.visit i] else []
  | _ => []

/-- A step that belongs to the round after a return of `poll`. -/
def InRound (s : State) (_ : Action) : Prop := s.loop ≠ .polling

instance (s : State) (a : Action) : Decidable (InRound s a) := inferInstanceAs (Decidable (_ ≠ _))

/-- All slots were handled. -/
def State.RoundOver (s : State) : Prop := ∀ i, s.loop = .handling i → ¬ i < s.userCount + 1

variable {s t u p : State} {a : Action} {i j : Int} {fd : Fd} {b : Branch}
  {vs joined : List Visit} {revents : List Events}

/-- A step that handles a slot visits it. -/
theorem State.At.visits (h : s.At i b) : s.visits a = [s.visit i] := by
  simp only [State.visits, h.loop, if_pos h.bound]

/-- A slot for which nothing was reported is left out. -/
theorem dispatch_zero : dispatch 0 = .none := by decide

/-- The branch of a client depends on what was reported for it. -/
theorem branch_of_ne {slot : PollFd} (h : slot.fd ≠ s.listenSock) :
    s.branch slot = dispatch slot.revents := by
  unfold State.branch
  rw [if_neg fun hboth => h hboth.1]
  rfl

/-- The handling of a slot depends on its descriptor and on what `poll` reported. -/
theorem visit_congr (hlisten : t.listenSock = s.listenSock) (hfd : (t.fds j).fd = (s.fds i).fd)
    (hrev : (t.fds j).revents = (s.fds i).revents) : t.visit j = s.visit i := by
  simp only [State.visit, State.branch, hlisten, hfd, hrev]

/-! ## The slots of a round -/

/-- The slots for which `poll` returned in `p`. -/
def State.polledVisits (p : State) : List Visit := slots p.visit 0 p.userCount

/-- At most one client joined since `p`, and nothing was reported for it. -/
def Joined (p : State) (joined : List Visit) : Prop :=
  joined = [] ∨ ∃ fd, joined = [⟨fd, .none⟩] ∧ ∀ k, 0 ≤ k → k ≤ p.userCount → (p.fds k).fd ≠ fd

/-- What was handled since `poll` returned in `p`, and what is still to be handled. -/
structure Passing (p : State) (joined vs : List Visit) (t : State) : Prop where
  table : Tabled t
  listenSock : t.listenSock = p.listenSock
  newcomer : Joined p joined
  /-- The slot of the listening socket is the first one. -/
  first : t.loop = .handling 0 → t = p ∧ joined = []
  accounts : ∀ i, t.loop = .handling i →
    Accounts vs t.visit i t.userCount (p.polledVisits ++ joined)
  ended : (∀ i, t.loop ≠ .handling i) → vs.Perm (p.polledVisits ++ joined)

/-- Only the listening socket is handled by accepting a client. -/
theorem Tabled.accept_slot (h : Tabled s) (hat : s.At i .accept) : i = 0 := by
  have hpos := h.index i hat.loop
  have hle := hat.bound
  by_contra hne
  have hclient := (h.client i (by omega) (by omega)).not_listen
  have hbranch := hat.branch
  rw [branch_of_ne hclient] at hbranch
  revert hbranch
  unfold dispatch
  repeat' split
  all_goals exact nofun

/-- An accepted client is visited in the last slot, and has nothing reported. -/
theorem withUser_visit (hfd : fd ≠ s.listenSock) (k : Int) :
    (s.withUser i fd).visit k = Function.update s.visit (s.userCount + 1) ⟨fd, .none⟩ k := by
  by_cases hk : k = s.userCount + 1
  · subst hk
    have hbranch : ((s.withUser i fd).fds (s.userCount + 1)).fd ≠
        (s.withUser i fd).listenSock := by
      rw [withUser_fds_last]
      exact hfd
    rw [Function.update_self, State.visit, branch_of_ne hbranch, withUser_fds_last]
    exact congrArg (Visit.mk fd) dispatch_zero
  · rw [Function.update_of_ne hk]
    have hsame : (s.withUser i fd).fds k = s.fds k := Function.update_of_ne hk _ _
    exact visit_congr rfl (congrArg PollFd.fd hsame) (congrArg PollFd.revents hsame)

/-- The last client is visited in the slot of the one that was taken out. -/
theorem without_visit (k : Int) :
    (s.without i).visit k = Function.update s.visit i (s.visit s.userCount) k := by
  by_cases hk : k = i
  · subst hk
    have hsame : (s.without k).fds k = s.fds s.userCount := Function.update_self _ _ _
    rw [Function.update_self]
    exact visit_congr rfl (congrArg PollFd.fd hsame) (congrArg PollFd.revents hsame)
  · have hsame : (s.without i).fds k = s.fds k := Function.update_of_ne hk _ _
    rw [Function.update_of_ne hk]
    exact visit_congr rfl (congrArg PollFd.fd hsame) (congrArg PollFd.revents hsame)

/-- The slot is handled and stays. -/
theorem Passing.keep (h : Passing p joined vs t) (hat : t.At i b) (hu : Tabled u)
    (hlisten : u.listenSock = t.listenSock) (hcount : u.userCount = t.userCount)
    (hloop : u.loop = .handling (i + 1)) (hvisit : ∀ k, u.visit k = t.visit k) :
    Passing p joined (vs ++ [t.visit i]) u where
  table := hu
  listenSock := hlisten.trans h.listenSock
  newcomer := h.newcomer
  first hz := by
    rw [hloop] at hz
    have := h.table.index i hat.loop
    have := Loop.handling.inj hz
    omega
  accounts k hk := by
    obtain rfl : i + 1 = k := Loop.handling.inj (hloop.symm.trans hk)
    rw [hcount]
    have := hat.bound
    exact ((h.accounts i hat.loop).keep (by omega)).congr fun k _ _ => hvisit k
  ended hout := absurd hloop (hout _)

/-- The client in the slot leaves. -/
theorem Passing.remove (h : Passing p joined vs t) (hi : 1 ≤ i) (hi' : i ≤ t.userCount)
    (hat : t.loop = .handling i) (hu : Tabled u) (hlisten : u.listenSock = t.listenSock)
    (hcount : u.userCount = t.userCount - 1) (hloop : u.loop = .handling i)
    (hvisit : ∀ k, u.visit k = Function.update t.visit i (t.visit t.userCount) k) :
    Passing p joined (vs ++ [t.visit i]) u where
  table := hu
  listenSock := hlisten.trans h.listenSock
  newcomer := h.newcomer
  first hz := by
    have := Loop.handling.inj (hloop.symm.trans hz)
    omega
  accounts k hk := by
    obtain rfl : i = k := Loop.handling.inj (hloop.symm.trans hk)
    rw [hcount]
    exact ((h.accounts i hat).remove hi').congr fun k _ _ => hvisit k
  ended hout := absurd hloop (hout _)

/-- A client joins: the listening socket is handled first of all. -/
theorem Passing.join (h : Passing p joined vs t) (hat : t.At i .accept) (hpos : 0 ≤ fd)
    (hne : fd ≠ t.listenSock) (hclosed : fd ∉ t.opened) (hlimit : t.userCount < userLimit)
    (huser : t.hasUser fd) : Passing p [⟨fd, .none⟩] (vs ++ [t.visit i]) (t.withUser i fd) := by
  obtain rfl := h.table.accept_slot hat
  obtain ⟨rfl, rfl⟩ := h.first hat.loop
  refine ⟨h.table.withUser (Int.le_refl 0) hpos hne hclosed hlimit huser, h.listenSock,
    .inr ⟨fd, rfl, fun k hk hle he => ?_⟩, nofun, fun k hk => ?_, fun hout => absurd rfl (hout _)⟩
  · by_cases hz : k = 0
    · subst hz
      exact hne (he.symm.trans h.table.listen_fd)
    · exact hclosed (he ▸ (h.table.client k (by omega) hle).opened)
  · obtain rfl : (0 : Int) + 1 = k := Loop.handling.inj hk
    have haccounts := h.accounts 0 hat.loop
    rw [List.append_nil] at haccounts
    exact (haccounts.append h.table.count_nonneg ⟨fd, .none⟩).congr
      fun k _ _ => withUser_visit hne k

/-- Handing on a message changes no visit. -/
theorem Queued.visit {connfd : Fd} {data : Bytes} {n : Nat} (h : Queued s connfd data n t)
    (k : Int) : t.visit k = s.visit k := by
  apply visit_congr h.listenSock (h.fds_fd k)
  rw [h.fds]
  split <;> rfl

/-- Writing a message changes no visit. -/
theorem written_visit {taken : Nat} (k : Int) : (s.written i taken).visit k = s.visit k := by
  by_cases hk : k = i
  · subst hk
    refine visit_congr rfl ?_ ?_
    · rw [written_fds_self]
    · rw [written_fds_self]
  · refine visit_congr rfl ?_ ?_
    · rw [written_fds_of_ne hk]
    · rw [written_fds_of_ne hk]

/-- A step of the round handles the slot at the loop index. -/
theorem Passing.step (h : Passing p joined vs t) (hin : InRound t a)
    (hs : step t a = next u) : ∃ joined', Passing p joined' (vs ++ t.visits a) u := by
  have hu := h.table.step hs
  cases Effect.of_step hs with
  | polled hloop _ => exact absurd hloop hin
  | stopped hloop => exact absurd hloop hin
  | passed hat =>
    rw [hat.visits]
    exact ⟨joined, h.keep hat hu rfl rfl rfl fun _ => rfl⟩
  | added hat hpos hne hclosed hlimit huser =>
    rw [hat.visits]
    exact ⟨_, h.join hat hpos hne hclosed hlimit huser⟩
  | left hat _ _ =>
    obtain ⟨hi, hi'⟩ := h.table.client_slot hat (.inl rfl)
    rw [hat.visits]
    exact ⟨joined, h.remove hi hi' hat.loop hu rfl rfl hat.loop without_visit⟩
  | dropped hat _ _ =>
    obtain ⟨hi, hi'⟩ := h.table.client_slot hat (.inr (.inl rfl))
    rw [hat.visits]
    exact ⟨joined, h.remove hi hi' hat.loop hu rfl rfl hat.loop without_visit⟩
  | received hat _ _ _ ht =>
    have hqueued := queued_of_queueAll ht
    rw [hat.visits]
    exact ⟨joined, h.keep hat hu hqueued.listenSock hqueued.userCount rfl hqueued.visit⟩
  | wrote hat _ _ _ _ =>
    rw [hat.visits]
    exact ⟨joined, h.keep hat hu rfl rfl rfl written_visit⟩
  | @round i hloop hend =>
    have hnone : t.visits .endRound = [] := by
      simp only [State.visits, hloop, if_neg hend]
    rw [hnone, List.append_nil]
    exact ⟨joined, hu, h.listenSock, h.newcomer, nofun, nofun,
      fun _ => (h.accounts i hloop).done (by omega)⟩

namespace Passing

variable (h : Passing p joined vs t)

include h

/-- Behind the last slot the slots of the round were all handled. -/
theorem done (hover : t.RoundOver) : vs.Perm (p.polledVisits ++ joined) := by
  by_cases hout : ∀ i, t.loop ≠ .handling i
  · exact h.ended hout
  · simp only [not_forall, not_not] at hout
    obtain ⟨i, hi⟩ := hout
    have := hover i hi
    exact (h.accounts i hi).done (by omega)

end Passing

/-- At most one client joins in a round. -/
theorem Joined.length_le (h : Joined p joined) : joined.length ≤ 1 := by
  obtain rfl | ⟨fd, rfl, -⟩ := h
  · exact Nat.zero_le 1
  · exact Nat.le_refl 1

end NetworkCode.Chat
