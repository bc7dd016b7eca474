import NetworkCode.LinuxChat.Pool
import NetworkCode.Core.Ring

/-!
# The pool is a bounded queue

Between any two steps of `PutData` and `GetData` the slots hold a queue: the strings that
were stored and not taken. What each caller has claimed and not yet posted makes up the
difference between the semaphores and the length of that queue.
-/

namespace NetworkCode.LinuxChat

open StepResult

variable {α : Type*} {p q : Pool α} {queue : List α} {inmsg : α}

/-! ## What the callers hold -/

/-- A slot is claimed by `PutData` and not written yet. -/
def Putting.claimed : Putting α → Nat
  | .writing _ => 1
  | _ => 0

/-- A slot is written and not posted yet. -/
def Putting.unposted : Putting α → Nat
  | .stepping | .posting => 1
  | _ => 0

/-- `productStep` is still the index of the slot that was written last. -/
def Putting.behind : Putting α → Nat
  | .stepping => 1
  | _ => 0

/-- The string that is still to be written. -/
def Putting.pending : Putting α → List α
  | .waiting inmsg | .writing inmsg => [inmsg]
  | _ => []

/-- A message is claimed by `GetData` and not read yet. -/
def Getting.claimed : Getting α → Nat
  | .reading => 1
  | _ => 0

/-- A slot is read and not posted yet. -/
def Getting.unposted : Getting α → Nat
  | .stepping _ | .posting _ => 1
  | _ => 0

/-- `consumStep` is still the index of the slot that was read last. -/
def Getting.behind : Getting α → Nat
  | .stepping _ => 1
  | _ => 0

/-- The string that is still to be returned. -/
def Getting.held : Getting α → List α
  | .stepping outmsg | .posting outmsg => [outmsg]
  | _ => []

/-! ## The invariant -/

/-- The slots hold `queue`, the strings that were stored and not taken. -/
structure Pool.Holds (p : Pool α) (queue : List α) : Prop where
  cap : p.cap = poolCap
  size : p.slots.length = p.cap
  ring : InRing p.slots (p.consumStep + p.getting.behind) queue
  product : (p.productStep + p.putting.behind) % p.cap =
    (p.consumStep + p.getting.behind + queue.length) % p.cap
  productStep_lt : p.productStep < p.cap
  consumStep_lt : p.consumStep < p.cap
  blank : p.blank + p.putting.claimed + queue.length + p.getting.unposted = p.cap
  data : p.data + p.putting.unposted + p.getting.claimed = queue.length
  given : p.given = p.stored ++ p.putting.pending
  stored : p.stored = p.taken ++ queue
  taken : p.taken = p.returned ++ p.getting.held
  unread : ∀ j, p.unread j = true →
    ∃ k < queue.length, j = (p.consumStep + p.getting.behind + k) % p.cap

/-- The ring has places. -/
theorem Pool.Holds.cap_pos (h : p.Holds queue) : 0 < p.cap := by
  rw [h.cap]
  decide

/-- A new pool holds nothing. -/
theorem holds_new {slots : List α} (hslots : slots.length = poolCap) :
    (Pool.new slots).Holds [] where
  cap := rfl
  size := hslots
  ring := .nil
  product := rfl
  productStep_lt := by
    change 0 < poolCap
    decide
  consumStep_lt := by
    change 0 < poolCap
    decide
  blank := rfl
  data := rfl
  given := rfl
  stored := rfl
  taken := rfl
  unread j hj := by cases hj

/-! ## The steps of `PutData` -/

/-- The writer goes on without moving its index or touching a slot. -/
theorem Pool.Holds.goOn_putting (h : p.Holds queue) {w w' : Putting α} (hput : p.putting = w)
    {blank data : Nat} {given : List α} (hbehind : w'.behind = w.behind)
    (hblank : blank + w'.claimed = p.blank + w.claimed)
    (hdata : data + w'.unposted = p.data + w.unposted)
    (hgiven : p.given = p.stored ++ w.pending → given = p.stored ++ w'.pending) :
    Pool.Holds { p with putting := w', blank, data, given } queue := by
  subst hput
  refine { h with product := ?_, blank := ?_, data := ?_, given := hgiven h.given }
  · have hproduct := h.product
    rwa [← hbehind] at hproduct
  · have hslots := h.blank
    dsimp only
    omega
  · have hqueue := h.data
    dsimp only
    omega

/-- A call of `PutData` alone stores nothing yet. -/
theorem Pool.Holds.putData (h : p.Holds queue) (hs : p.putData inmsg = next q) :
    q.Holds queue := by
  unfold Pool.putData at hs
  cases hput : p.putting with
  | out =>
    simp only [hput, next.injEq] at hs
    subst hs
    refine h.goOn_putting hput rfl rfl rfl fun hgiven => ?_
    rw [hgiven]
    simp [Putting.pending]
  | _ => simp [hput] at hs

/-- The slot that is written next is behind the queue. -/
theorem Pool.Holds.writes_behind (h : p.Holds queue) (hput : p.putting = .writing inmsg) :
    queue.length < p.slots.length ∧
      p.productStep = (p.consumStep + p.getting.behind + queue.length) % p.slots.length := by
  have hblank := h.blank
  have hproduct := h.product
  rw [hput] at hblank hproduct
  refine ⟨?_, ?_⟩
  · rw [h.size, ← hblank]
    simp only [Putting.claimed]
    omega
  · rw [h.size, ← hproduct]
    exact (Nat.mod_eq_of_lt h.productStep_lt).symm

/-- The slot that is written next was read. -/
theorem Pool.Holds.not_unread (h : p.Holds queue) (hput : p.putting = .writing inmsg) :
    p.unread p.productStep = false := by
  obtain ⟨hroom, hstep⟩ := h.writes_behind hput
  by_contra hunread
  obtain ⟨k, hk, hj⟩ := h.unread _ (by simpa using hunread)
  rw [hstep, h.size] at hj
  rw [h.size] at hroom
  exact absurd (InRing.offset_inj hroom (Nat.lt_trans hk hroom) hj) (Nat.ne_of_gt hk)

/-- A string that is written is behind the queue. -/
theorem Pool.Holds.write (h : p.Holds queue) (hput : p.putting = .writing inmsg) :
    Pool.Holds { p with
      slots := p.slots.set p.productStep inmsg
      putting := .stepping
      stored := p.stored ++ [inmsg]
      unread := Function.update p.unread p.productStep true } (queue ++ [inmsg]) := by
  obtain ⟨hroom, hstep⟩ := h.writes_behind hput
  have hring := h.ring.push (x := inmsg) hroom
  rw [← hstep] at hring
  have hblank := h.blank
  have hdata := h.data
  have hgiven := h.given
  rw [hput] at hblank hdata hgiven
  refine { h with
    size := (List.length_set ..).trans h.size
    ring := hring
    product := ?_
    blank := ?_
    data := ?_
    given := ?_
    stored := ?_
    unread := ?_ }
  · rw [h.size] at hstep
    rw [hstep, List.length_append, ← Nat.add_assoc]
    simp only [Putting.behind, List.length_singleton, Nat.mod_add_mod]
  · simp only [Putting.claimed, List.length_append, List.length_singleton] at hblank ⊢
    omega
  · simp only [Putting.unposted, List.length_append, List.length_singleton] at hdata ⊢
    omega
  · rw [hgiven]
    simp [Putting.pending]
  · rw [h.stored, List.append_assoc]
  · intro j hj
    dsimp only at hj
    by_cases he : j = p.productStep
    · refine ⟨queue.length, ?_, ?_⟩
      · rw [List.length_append, List.length_singleton]
        exact Nat.lt_succ_self _
      · rw [he, hstep, h.size]
    · rw [Function.update_of_ne he] at hj
      obtain ⟨k, hk, hjk⟩ := h.unread j hj
      exact ⟨k, by rw [List.length_append]; omega, hjk⟩

/-- Each step of `PutData` keeps the ring, and one of them stores the message behind the others. -/
theorem Pool.Holds.put (h : p.Holds queue) (hs : p.put = next q) : ∃ queue', q.Holds queue' := by
  unfold Pool.put at hs
  cases hput : p.putting with
  | out => simp [hput] at hs
  | waiting inmsg =>
    rw [hput] at hs
    dsimp only at hs
    split at hs
    · rename_i hpos
      cases hs
      exact ⟨queue, h.goOn_putting hput rfl (Nat.sub_add_cancel hpos) rfl id⟩
    · cases hs
  | writing inmsg =>
    rw [hput] at hs
    dsimp only at hs
    split at hs
    · cases hs
      exact ⟨_, h.write hput⟩
    · cases hs
  | stepping =>
    have hblank := h.blank
    have hdata := h.data
    have hproduct := h.product
    have hgiven := h.given
    rw [hput] at hs hblank hdata hproduct hgiven
    cases hs
    refine ⟨queue, { h with
      product := ?_
      productStep_lt := Nat.mod_lt _ h.cap_pos
      blank := hblank
      data := hdata
      given := hgiven }⟩
    simp only [Putting.behind, Nat.add_zero, Nat.mod_mod] at hproduct ⊢
    exact hproduct
  | posting =>
    rw [hput] at hs
    cases hs
    exact ⟨queue, h.goOn_putting hput rfl rfl rfl id⟩

/-! ## The steps of `GetData` -/

/-- The reader goes on without moving its index or touching a slot. -/
theorem Pool.Holds.goOn_getting (h : p.Holds queue) {r r' : Getting α} (hget : p.getting = r)
    {blank data : Nat} {returned : List α} (hbehind : r'.behind = r.behind)
    (hblank : blank + r'.unposted = p.blank + r.unposted)
    (hdata : data + r'.claimed = p.data + r.claimed)
    (hheld : returned ++ r'.held = p.returned ++ r.held) :
    Pool.Holds { p with getting := r', blank, data, returned } queue := by
  subst hget
  have hring := h.ring
  have hproduct := h.product
  have hunread := h.unread
  rw [← hbehind] at hring hproduct hunread
  refine { h with
    ring := hring
    product := hproduct
    blank := ?_
    data := ?_
    taken := h.taken.trans hheld.symm
    unread := hunread }
  · have hslots := h.blank
    dsimp only
    omega
  · have hqueue := h.data
    dsimp only
    omega

/-- A call of `GetData` alone takes nothing yet. -/
theorem Pool.Holds.getData (h : p.Holds queue) (hs : p.getData = next q) : q.Holds queue := by
  unfold Pool.getData at hs
  cases hget : p.getting with
  | out =>
    simp only [hget, next.injEq] at hs
    subst hs
    exact h.goOn_getting hget rfl rfl rfl rfl
  | _ => simp [hget] at hs

/-- The slot that is read next holds the front of the queue. -/
theorem Pool.Holds.reads_front (h : p.Holds queue) (hget : p.getting = .reading) :
    ∃ x rest, queue = x :: rest ∧ p.slots[p.consumStep]? = some x := by
  have hdata := h.data
  have hring := h.ring
  rw [hget] at hdata hring
  simp only [Getting.claimed] at hdata
  cases queue with
  | nil => simp at hdata
  | cons x rest =>
    have hfront := hring.front
    rw [h.size] at hfront
    simp only [Getting.behind, Nat.add_zero, Nat.mod_eq_of_lt h.consumStep_lt] at hfront
    exact ⟨x, rest, rfl, hfront⟩

/-- The string that is read leaves the front of the queue. -/
theorem Pool.Holds.read {x : α} (h : p.Holds (x :: queue)) (hget : p.getting = .reading) :
    Pool.Holds { p with
      getting := .stepping x
      taken := p.taken ++ [x]
      unread := Function.update p.unread p.consumStep false } queue := by
  have hblank := h.blank
  have hdata := h.data
  have hproduct := h.product
  have hring := h.ring
  have htaken := h.taken
  have hunread := h.unread
  rw [hget] at hblank hdata hproduct hring htaken hunread
  refine { h with
    ring := hring.pop
    product := ?_
    blank := ?_
    data := ?_
    stored := ?_
    taken := ?_
    unread := ?_ }
  · rw [hproduct]
    simp only [Getting.behind, List.length_cons, Nat.add_zero]
    congr 1
    omega
  · simp only [Getting.unposted, List.length_cons] at hblank ⊢
    omega
  · simp only [Getting.claimed, List.length_cons] at hdata ⊢
    omega
  · rw [h.stored, List.append_assoc]
    rfl
  · simp only [Getting.held, List.append_nil] at htaken ⊢
    rw [htaken]
  · intro j hj
    dsimp only at hj
    by_cases he : j = p.consumStep
    · rw [he, Function.update_self] at hj
      cases hj
    · rw [Function.update_of_ne he] at hj
      obtain ⟨k, hk, hjk⟩ := hunread j hj
      cases k with
      | zero =>
        simp only [Getting.behind, Nat.add_zero, Nat.mod_eq_of_lt h.consumStep_lt] at hjk
        exact absurd hjk he
      | succ k =>
        refine ⟨k, Nat.lt_of_succ_lt_succ hk, ?_⟩
        rw [hjk]
        simp only [Getting.behind]
        congr 1
        omega

/-- The index of the reader moves on, and the queue stays where it is. -/
theorem Pool.Holds.advance {outmsg : α} (h : p.Holds queue)
    (hget : p.getting = .stepping outmsg) :
    Pool.Holds { p with
      consumStep := (p.consumStep + 1) % p.cap
      getting := .posting outmsg } queue := by
  have hblank := h.blank
  have hdata := h.data
  have hproduct := h.product
  have hring := h.ring
  have htaken := h.taken
  have hunread := h.unread
  rw [hget] at hblank hdata hproduct hring htaken hunread
  refine { h with
    ring := ?_
    product := ?_
    consumStep_lt := Nat.mod_lt _ h.cap_pos
    blank := hblank
    data := hdata
    taken := htaken
    unread := fun j hj => ?_ }
  · simp only [Getting.behind, Nat.add_zero] at hring ⊢
    rw [← h.size]
    exact InRing.mod_iff.mpr hring
  · simp only [Getting.behind, Nat.add_zero, Nat.mod_add_mod] at hproduct ⊢
    exact hproduct
  · obtain ⟨k, hk, hjk⟩ := hunread j hj
    refine ⟨k, hk, ?_⟩
    simp only [Getting.behind, Nat.add_zero, Nat.mod_add_mod] at hjk ⊢
    exact hjk

/-- Each step of `GetData` keeps the ring, and one of them takes the first message. -/
theorem Pool.Holds.get (h : p.Holds queue) (hs : p.get = next q) : ∃ queue', q.Holds queue' := by
  unfold Pool.get at hs
  cases hget : p.getting with
  | out => simp [hget] at hs
  | waiting =>
    rw [hget] at hs
    dsimp only at hs
    split at hs
    · rename_i hpos
      cases hs
      exact ⟨queue, h.goOn_getting hget rfl rfl (Nat.sub_add_cancel hpos) rfl⟩
    · cases hs
  | reading =>
    obtain ⟨x, rest, rfl, hfront⟩ := h.reads_front hget
    rw [hget] at hs
    simp only [hfront, ofAccess_some, bind_next, next.injEq] at hs
    subst hs
    exact ⟨rest, h.read hget⟩
  | stepping outmsg =>
    rw [hget] at hs
    cases hs
    exact ⟨queue, h.advance hget⟩
  | posting outmsg =>
    rw [hget] at hs
    cases hs
    exact ⟨queue, h.goOn_getting hget rfl rfl rfl (List.append_nil _)⟩

/-! ## The queue -/

/-- A step of either thread keeps the ring. -/
theorem Pool.Holds.step {a : Pool.Action α} (h : p.Holds queue) (hs : p.step a = next q) :
    ∃ queue', q.Holds queue' := by
  cases a with
  | putData inmsg => exact ⟨queue, h.putData hs⟩
  | put => exact h.put hs
  | getData => exact ⟨queue, h.getData hs⟩
  | get => exact h.get hs

/-- The pool holds a queue in every state reached. -/
theorem holds_of_reaches {slots : List α} (hslots : slots.length = poolCap)
    (h : Reaches Pool.step (fun _ _ => True) (.new slots) p) : ∃ queue, p.Holds queue := by
  induction h with
  | refl => exact ⟨[], holds_new hslots⟩
  | tail _ _ hs ih =>
    obtain ⟨queue, hp⟩ := ih
    exact hp.step hs

/-- What comes out is a beginning of what went in. -/
theorem Pool.Holds.in_order (h : p.Holds queue) : p.returned <+: p.given := by
  rw [h.given, h.stored, h.taken, List.append_assoc, List.append_assoc]
  exact List.prefix_append _ _

/-- No more than the capacity is stored and not yet taken. -/
theorem Pool.Holds.length_le (h : p.Holds queue) :
    p.stored.length ≤ p.taken.length + poolCap := by
  have hfits := h.ring.fits
  rw [h.size, h.cap] at hfits
  rw [h.stored, List.length_append]
  omega

/-- There is always a free slot or a message. -/
theorem Pool.Holds.not_blocked (h : p.Holds queue) : ¬ (p.PutBlocked ∧ p.GetBlocked) := by
  rintro ⟨⟨⟨inmsg, hput⟩, hzero⟩, hget, hnone⟩
  have hblank := h.blank
  have hdata := h.data
  have hpos := h.cap_pos
  rw [hput, hget] at hblank hdata
  simp only [Putting.claimed, Putting.unposted, Getting.claimed, Getting.unposted] at hblank hdata
  omega

/-- No step leaves the vector. -/
theorem Pool.Holds.step_ne_undefined (h : p.Holds queue) (a : Pool.Action α) :
    p.step a ≠ undefined := by
  cases a with
  | putData inmsg =>
    simp only [Pool.step, Pool.putData]
    split <;> rintro ⟨⟩
  | put =>
    simp only [Pool.step, Pool.put]
    cases hput : p.putting with
    | waiting inmsg =>
      dsimp only
      split <;> rintro ⟨⟩
    | writing inmsg =>
      have hlt := h.productStep_lt
      rw [← h.size] at hlt
      simp only [if_pos hlt]
      rintro ⟨⟩
    | _ => rintro ⟨⟩
  | getData =>
    simp only [Pool.step, Pool.getData]
    split <;> rintro ⟨⟩
  | get =>
    simp only [Pool.step, Pool.get]
    cases hget : p.getting with
    | waiting =>
      dsimp only
      split <;> rintro ⟨⟩
    | reading =>
      obtain ⟨x, rest, -, hfront⟩ := h.reads_front hget
      simp only [hfront, ofAccess_some, bind_next]
      rintro ⟨⟩
    | _ => rintro ⟨⟩

/-- In every interleaving the strings come out in the order in which they were put in, no slot
is overwritten before it was read, and somebody can always go on. -/
theorem pool_bounded_fifo {slots : List α} {p : Pool α} (hslots : slots.length = poolCap)
    (h : Reaches Pool.step (fun _ _ => True) (.new slots) p) :
    p.returned <+: p.given ∧ p.stored.length ≤ p.taken.length + poolCap ∧
      (∀ inmsg, p.putting = .writing inmsg → p.unread p.productStep = false) ∧
      p.productStep < poolCap ∧ p.consumStep < poolCap ∧
      ¬ (p.PutBlocked ∧ p.GetBlocked) ∧ ∀ a, p.step a ≠ undefined := by
  obtain ⟨queue, hp⟩ := holds_of_reaches hslots h
  refine ⟨hp.in_order, hp.length_le, fun _ hput => hp.not_unread hput, ?_, ?_, hp.not_blocked,
    hp.step_ne_undefined⟩
  · exact hp.cap ▸ hp.productStep_lt
  · exact hp.cap ▸ hp.consumStep_lt

/-- Two strings are put in, and one is taken out meanwhile. -/
def overlappingRun : List (Pool.Action Nat) :=
  [.putData 7, .put, .put, .getData, .put, .put, .get, .putData 8, .put, .get, .put, .get, .put,
    .get, .put]

theorem overlappingRun_returned :
    (runGuarded Pool.step (fun _ _ => True) (.new (List.replicate poolCap 0))
      overlappingRun).state?.map (fun p => (p.given, p.returned)) = some ([7, 8], [7]) := by
  decide +kernel

/-- Two messages go in while the first one comes out. -/
theorem pool_bounded_fifo_overlappingRun : ∃ p : Pool Nat,
    Reaches Pool.step (fun _ _ => True) (.new (List.replicate poolCap 0)) p ∧
      p.given = [7, 8] ∧ p.returned = [7] ∧
      p.returned <+: p.given ∧ p.stored.length ≤ p.taken.length + poolCap ∧
      (∀ inmsg, p.putting = .writing inmsg → p.unread p.productStep = false) ∧
      p.productStep < poolCap ∧ p.consumStep < poolCap ∧
      ¬ (p.PutBlocked ∧ p.GetBlocked) ∧ ∀ a, p.step a ≠ undefined := by
  obtain ⟨p, hrun, hp⟩ := exists_next_of_map overlappingRun_returned
  have hreach := Reaches.of_runGuarded _ _ hrun
  exact ⟨p, hreach, congrArg Prod.fst hp, congrArg Prod.snd hp,
    pool_bounded_fifo List.length_replicate hreach⟩

end NetworkCode.LinuxChat
