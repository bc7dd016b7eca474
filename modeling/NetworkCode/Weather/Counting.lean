import NetworkCode.Core.Lists
import NetworkCode.Weather.State
import Mathlib.Data.Set.Function
import Mathlib.Order.Interval.Set.Defs

/-!
# Counting the registrations

A register process reads the number of users and writes it back increased, in two commands.
As long as no two processes are between the two, the number is that of the processes that
have written it, and each of them has a key of its own.
-/

namespace NetworkCode.Weather

open StepResult Text

variable {s t : Site} {store store' : Store} {p p' : Register}

/-! ## What a register process does -/

/-- What one command of a register process can do. -/
inductive Moves (store : Store) (p : Register) : Store → Register → Prop
  /-- There is no `UserCount`. -/
  | lacking (hphase : p.phase = .fetching) (hout : store userCount = none) :
      Moves store p store { p with phase := .crashed }
  | fetch {out num : Bytes} (hphase : p.phase = .fetching) (hout : store userCount = some out)
      (hnum : itoa (atoi out) = some num) :
      Moves store p store { p with
        user := ascii "user" ++ num, count := atoi out + 1, phase := .raising }
  | raise {num : Bytes} (hphase : p.phase = .raising) (hnum : itoa p.count = some num) :
      Moves store p (Function.update store userCount (some num)) { p with phase := .storing }
  | store (hphase : p.phase = .storing) :
      Moves store p (Function.update store p.user (some p.email)) { p with phase := .showing }
  /-- Whether there is a `user0` decides how it ends. -/
  | finish (hphase : p.phase = .showing) {phase : Phase} (hend : phase = .done ∨ phase = .crashed) :
      Moves store p store { p with phase }

/-- A command of a register process is one of the moves. -/
theorem moves_of_step (h : p.step store = next (store', p')) : Moves store p store' p' := by
  unfold Register.step at h
  cases hphase : p.phase with
  | fetching =>
    simp only [hphase] at h
    split at h
    · rename_i hout
      cases h
      exact .lacking hphase hout
    · rename_i out hout
      obtain ⟨num, hnum, h⟩ := bind_eq_next.mp h
      cases h
      exact .fetch hphase hout (ofAccess_eq_next.mp hnum)
  | raising =>
    simp only [hphase] at h
    obtain ⟨num, hnum, h⟩ := bind_eq_next.mp h
    cases h
    exact .raise hphase (ofAccess_eq_next.mp hnum)
  | storing =>
    simp only [hphase] at h
    cases h
    exact .store hphase
  | showing =>
    simp only [hphase] at h
    split at h
    · cases h
      exact .finish hphase (.inr rfl)
    · cases h
      exact .finish hphase (.inl rfl)
  | done => simp [hphase] at h
  | crashed => simp [hphase] at h

/-- No command changes the e-mail. -/
theorem Moves.email (h : Moves store p store' p') : p'.email = p.email := by
  cases h <;> rfl

/-- A step of a register process is one of its moves. -/
theorem moves_of_register {i : Nat} (h : s.step (.register i) = next t) :
    ∃ p store' p', s.registers[i]? = some p ∧ Moves s.store p store' p' ∧
      t = { s with store := store', registers := s.registers.set i p' } := by
  simp only [Site.step] at h
  split at h
  · cases h
  · rename_i p hp
    obtain ⟨⟨store', p'⟩, hstep, ht⟩ := bind_eq_next.mp h
    cases ht
    exact ⟨p, store', p', hp, moves_of_step hstep, rfl⟩

/-- A step of a mailer only reads. -/
theorem mailers_of_mail {i : Nat} (h : s.step (.mail i) = next t) :
    ∃ m m', s.mailers[i]? = some m ∧ m.step s.store = next m' ∧
      t = { s with mailers := s.mailers.set i m' } := by
  simp only [Site.step] at h
  split at h
  · cases h
  · rename_i m hm
    obtain ⟨m', hstep, ht⟩ := bind_eq_next.mp h
    cases ht
    exact ⟨m, m', hm, hstep, rfl⟩

/-! ## The law of the count -/

/-- A process that has written `UserCount`. -/
def Register.raised (p : Register) : Bool :=
  match p.phase with
  | .fetching | .raising => false
  | .storing | .showing | .done | .crashed => true

/-- A process that has stored its e-mail. -/
def Register.stored (p : Register) : Bool :=
  match p.phase with
  | .fetching | .raising | .storing => false
  | .showing | .done | .crashed => true

/-- A process reads `UserCount` only while no other is between its read and its write. -/
def Site.Alone (s : Site) : Action → Prop
  | .register i =>
    s.registers[i]?.map Register.phase = some .fetching → ∀ q ∈ s.registers, q.phase ≠ .raising
  | .mail _ => True

instance (s : Site) (a : Action) : Decidable (s.Alone a) :=
  match a with
  | .register _ => inferInstanceAs (Decidable (_ → _))
  | .mail _ => inferInstanceAs (Decidable True)

/-- `UserCount` is `n`, the number of processes that have written it; `slot` gives the number of
the key of each of them. -/
structure Counts (s : Site) (n : Nat) (slot : Nat → Nat) : Prop where
  count : s.store userCount = some (digits n)
  small : n < 10 ^ 7
  number : (s.registers.countP Register.raised : Int) = n
  raising : ∀ (i : Nat) (p : Register), s.registers[i]? = some p → p.phase = .raising →
    p.user = userKey n ∧ p.count = (n : Int) + 1
  alone : ∀ (i j : Nat) (p q : Register), s.registers[i]? = some p → s.registers[j]? = some q →
    p.phase = .raising → q.phase = .raising → i = j
  key : ∀ (i : Nat) (p : Register), s.registers[i]? = some p → p.raised = true →
    slot i < n ∧ p.user = userKey (slot i)
  distinct : ∀ (i j : Nat) (p q : Register), s.registers[i]? = some p → s.registers[j]? = some q →
    p.raised = true → q.raised = true → slot i = slot j → i = j
  stored : ∀ (i : Nat) (p : Register), s.registers[i]? = some p → p.stored = true →
    s.store p.user = some p.email

/-- At the start nobody is counted. -/
theorem counts_start {emails : List Bytes} {mailers : Nat}
    (hcount : store userCount = some (ascii "0")) :
    Counts (.start store emails mailers) 0 id := by
  have hphase (i : Nat) (p : Register)
      (hp : (Site.start store emails mailers).registers[i]? = some p) : p.phase = .fetching := by
    obtain ⟨email, -, rfl⟩ := List.mem_map.mp (List.mem_of_getElem? hp)
    rfl
  have hraised (i : Nat) (p : Register)
      (hp : (Site.start store emails mailers).registers[i]? = some p) : p.raised = false := by
    rw [Register.raised, hphase i p hp]
  have hstored (i : Nat) (p : Register)
      (hp : (Site.start store emails mailers).registers[i]? = some p) : p.stored = false := by
    rw [Register.stored, hphase i p hp]
  exact {
    count := hcount
    small := by decide
    number := by
      have hnone : (Site.start store emails mailers).registers.countP Register.raised = 0 := by
        rw [List.countP_eq_zero]
        intro p hp
        obtain ⟨i, hi⟩ := List.mem_iff_getElem?.mp hp
        simp [hraised i p hi]
      rw [hnone]
    raising := fun i p hp hr => by
      rw [hphase i p hp] at hr
      cases hr
    alone := fun i j p q hp _ hr _ => by
      rw [hphase i p hp] at hr
      cases hr
    key := fun i p hp hr => by
      rw [hraised i p hp] at hr
      cases hr
    distinct := fun i j p q hp _ hr _ _ => by
      rw [hraised i p hp] at hr
      cases hr
    stored := fun i p hp hs => by
      rw [hstored i p hp] at hs
      cases hs }

/-- A process that has stored its e-mail has raised the number before. -/
theorem raised_of_stored (h : p.stored = true) : p.raised = true := by
  unfold Register.stored at h
  unfold Register.raised
  cases hphase : p.phase with
  | fetching => simp [hphase] at h
  | raising => simp [hphase] at h
  | storing => rfl
  | showing => rfl
  | done => rfl
  | crashed => rfl

variable {n i : Nat} {slot : Nat → Nat}

/-- The key of a process is no number of users. -/
theorem Counts.user_ne (h : Counts s n slot) {j : Nat} {q : Register}
    (hq : s.registers[j]? = some q) (hraised : q.raised = true) : q.user ≠ userCount := by
  rw [(h.key j q hq hraised).2]
  exact userKey_ne_userCount _

/-- A process begins its update while no other is at it. -/
theorem Counts.fetch {out num : Bytes} (h : Counts s n slot) (hp : s.registers[i]? = some p)
    (hphase : p.phase = .fetching) (hout : s.store userCount = some out)
    (hnum : itoa (atoi out) = some num) (hok : s.Alone (.register i)) :
    Counts { s with registers := s.registers.set i { p with
      user := ascii "user" ++ num, count := atoi out + 1, phase := .raising } } n slot := by
  obtain rfl : digits n = out := Option.some.inj (h.count.symm.trans hout)
  rw [atoi_digits (Nat.lt_trans h.small (by decide))] at hnum ⊢
  obtain ⟨rfl, -⟩ := itoa_eq_some hnum
  have hnone := hok (by rw [hp, Option.map_some, hphase])
  have hraised : p.raised = false := by rw [Register.raised, hphase]
  exact { h with
    number := by
      rw [countP_set_eq hp, indicator_eq_zero hraised, indicator_eq_zero rfl, h.number]
      omega
    raising := fun j q hq hr => by
      rcases getElem?_set_eq_some hq with ⟨rfl, rfl⟩ | ⟨-, hq⟩
      · exact ⟨rfl, rfl⟩
      · exact absurd hr (hnone q (List.mem_of_getElem? hq))
    alone := fun j k q r hq hr hqr hrr => by
      rcases getElem?_set_eq_some hq with ⟨rfl, -⟩ | ⟨-, hq⟩
      · rcases getElem?_set_eq_some hr with ⟨rfl, -⟩ | ⟨-, hr⟩
        · rfl
        · exact absurd hrr (hnone r (List.mem_of_getElem? hr))
      · exact absurd hqr (hnone q (List.mem_of_getElem? hq))
    key := fun j q hq hr => by
      rcases getElem?_set_eq_some hq with ⟨-, rfl⟩ | ⟨-, hq⟩
      · cases hr
      · exact h.key j q hq hr
    distinct := fun j k q r hq hr hqr hrr hslot => by
      rcases getElem?_set_eq_some hq with ⟨-, rfl⟩ | ⟨-, hq'⟩
      · cases hqr
      · rcases getElem?_set_eq_some hr with ⟨-, rfl⟩ | ⟨-, hr⟩
        · cases hrr
        · exact h.distinct j k q r hq' hr hqr hrr hslot
    stored := fun j q hq hst => by
      rcases getElem?_set_eq_some hq with ⟨-, rfl⟩ | ⟨-, hq⟩
      · cases hst
      · exact h.stored j q hq hst }

/-- A process ends its update: one more is counted, and its key has the next number. -/
theorem Counts.raise {num : Bytes} (h : Counts s n slot) (hp : s.registers[i]? = some p)
    (hphase : p.phase = .raising) (hnum : itoa p.count = some num) :
    Counts { s with
      store := Function.update s.store userCount (some num)
      registers := s.registers.set i { p with phase := .storing } }
      (n + 1) (Function.update slot i n) := by
  obtain ⟨huser, hcount⟩ := h.raising i p hp hphase
  have hcast : (n : Int) + 1 = ((n + 1 : Nat) : Int) := by omega
  rw [hcount, hcast] at hnum
  obtain ⟨rfl, hsmall⟩ := itoa_eq_some hnum
  have hraised : p.raised = false := by rw [Register.raised, hphase]
  have hother (j : Nat) (q : Register) (hj : j ≠ i) (hq : s.registers[j]? = some q) :
      q.phase ≠ .raising := fun hr => hj (h.alone j i q p hq hp hr hphase)
  exact {
    count := by
      dsimp only
      rw [Function.update_self]
    small := hsmall
    number := by
      rw [countP_set_eq hp, indicator_eq_zero hraised, indicator_eq_one rfl, h.number]
      omega
    raising := fun j q hq hr => by
      rcases getElem?_set_eq_some hq with ⟨-, rfl⟩ | ⟨hj, hq⟩
      · cases hr
      · exact absurd hr (hother j q hj hq)
    alone := fun j k q r hq _ hqr _ => by
      rcases getElem?_set_eq_some hq with ⟨-, rfl⟩ | ⟨hj, hq⟩
      · cases hqr
      · exact absurd hqr (hother j q hj hq)
    key := fun j q hq hr => by
      rcases getElem?_set_eq_some hq with ⟨rfl, rfl⟩ | ⟨hj, hq⟩
      · rw [Function.update_self]
        exact ⟨Nat.lt_succ_self n, huser⟩
      · rw [Function.update_of_ne hj]
        obtain ⟨hlt, hkey⟩ := h.key j q hq hr
        exact ⟨Nat.lt_succ_of_lt hlt, hkey⟩
    distinct := fun j k q r hq hr hqr hrr hslot => by
      rcases getElem?_set_eq_some hq with ⟨rfl, -⟩ | ⟨hj, hq'⟩
      · rcases getElem?_set_eq_some hr with ⟨rfl, -⟩ | ⟨hk, hr⟩
        · rfl
        · rw [Function.update_self, Function.update_of_ne hk] at hslot
          exact absurd hslot (Nat.ne_of_gt (h.key k r hr hrr).1)
      · rcases getElem?_set_eq_some hr with ⟨rfl, -⟩ | ⟨hk, hr⟩
        · rw [Function.update_self, Function.update_of_ne hj] at hslot
          exact absurd hslot (Nat.ne_of_lt (h.key j q hq' hqr).1)
        · rw [Function.update_of_ne hj, Function.update_of_ne hk] at hslot
          exact h.distinct j k q r hq' hr hqr hrr hslot
    stored := fun j q hq hst => by
      rcases getElem?_set_eq_some hq with ⟨-, rfl⟩ | ⟨-, hq⟩
      · cases hst
      · dsimp only
        rw [Function.update_of_ne (h.user_ne hq (raised_of_stored hst))]
        exact h.stored j q hq hst }

/-- A process that has written the count goes on, and the store keeps the count and has the e-mails
that are stored. -/
theorem Counts.later {phase : Phase} {store : Store} (h : Counts s n slot)
    (hp : s.registers[i]? = some p) (hraised : p.raised = true)
    (hraised' : Register.raised { p with phase } = true) (hne : phase ≠ .raising)
    (hcount : store userCount = s.store userCount)
    (hstored : ∀ (j : Nat) (q : Register),
      (s.registers.set i { p with phase })[j]? = some q → q.stored = true →
        store q.user = some q.email) :
    Counts { s with store, registers := s.registers.set i { p with phase } } n slot where
  count := hcount.trans h.count
  small := h.small
  number := by
    rw [countP_set_eq hp, indicator_eq_one hraised, indicator_eq_one hraised', h.number]
    omega
  raising j q hq hr := by
    rcases getElem?_set_eq_some hq with ⟨-, rfl⟩ | ⟨-, hq⟩
    · exact absurd hr hne
    · exact h.raising j q hq hr
  alone j k q r hq hr hqr hrr := by
    rcases getElem?_set_eq_some hq with ⟨-, rfl⟩ | ⟨-, hq⟩
    · exact absurd hqr hne
    · rcases getElem?_set_eq_some hr with ⟨-, rfl⟩ | ⟨-, hr⟩
      · exact absurd hrr hne
      · exact h.alone j k q r hq hr hqr hrr
  key j q hq hr := by
    rcases getElem?_set_eq_some hq with ⟨rfl, rfl⟩ | ⟨-, hq⟩
    · exact h.key j p hp hraised
    · exact h.key j q hq hr
  distinct j k q r hq hr hqr hrr hslot := by
    rcases getElem?_set_eq_some hq with ⟨rfl, rfl⟩ | ⟨-, hq'⟩
    · rcases getElem?_set_eq_some hr with ⟨rfl, -⟩ | ⟨-, hr⟩
      · rfl
      · exact h.distinct j k p r hp hr hraised hrr hslot
    · rcases getElem?_set_eq_some hr with ⟨rfl, rfl⟩ | ⟨-, hr⟩
      · exact h.distinct j k q p hq' hp hqr hraised hslot
      · exact h.distinct j k q r hq' hr hqr hrr hslot
  stored := hstored

/-- A process stores its e-mail under its own key. -/
theorem Counts.storing (h : Counts s n slot) (hp : s.registers[i]? = some p)
    (hphase : p.phase = .storing) :
    Counts { s with
      store := Function.update s.store p.user (some p.email)
      registers := s.registers.set i { p with phase := .showing } } n slot := by
  have hraised : p.raised = true := by rw [Register.raised, hphase]
  refine h.later hp hraised rfl (by rintro ⟨⟩) ?_ fun j q hq hst => ?_
  · exact Function.update_of_ne (h.user_ne hp hraised).symm _ _
  · rcases getElem?_set_eq_some hq with ⟨-, rfl⟩ | ⟨hj, hq⟩
    · exact Function.update_self ..
    · have hqr := raised_of_stored hst
      have hne : q.user ≠ p.user := fun he => by
        rw [(h.key j q hq hqr).2, (h.key i p hp hraised).2, userKey_inj] at he
        exact hj (h.distinct j i q p hq hp hqr hraised he)
      rw [Function.update_of_ne hne]
      exact h.stored j q hq hst

/-- How a process ends changes nothing. -/
theorem Counts.finish {phase : Phase} (h : Counts s n slot) (hp : s.registers[i]? = some p)
    (hphase : p.phase = .showing) (hend : phase = .done ∨ phase = .crashed) :
    Counts { s with registers := s.registers.set i { p with phase } } n slot := by
  have hraised : p.raised = true := by rw [Register.raised, hphase]
  have hraised' : Register.raised { p with phase } = true := by rcases hend with rfl | rfl <;> rfl
  have hstored : p.stored = true := by rw [Register.stored, hphase]
  have hne : phase ≠ .raising := by rcases hend with rfl | rfl <;> rintro ⟨⟩
  refine h.later hp hraised hraised' hne rfl fun j q hq hst => ?_
  rcases getElem?_set_eq_some hq with ⟨rfl, rfl⟩ | ⟨-, hq⟩
  · exact h.stored j p hp hstored
  · exact h.stored j q hq hst

/-- A step in which no process reads the number while another one is about to write it keeps the
count. -/
theorem Counts.step {a : Action} (h : Counts s n slot) (hok : s.Alone a)
    (hs : s.step a = next t) : ∃ n slot, Counts t n slot := by
  cases a with
  | register i =>
    obtain ⟨p, store', p', hp, hmoves, rfl⟩ := moves_of_register hs
    cases hmoves with
    | lacking hphase hout =>
      rw [h.count] at hout
      cases hout
    | fetch hphase hout hnum => exact ⟨n, slot, h.fetch hp hphase hout hnum hok⟩
    | raise hphase hnum => exact ⟨n + 1, _, h.raise hp hphase hnum⟩
    | store hphase => exact ⟨n, slot, h.storing hp hphase⟩
    | finish hphase hend => exact ⟨n, slot, h.finish hp hphase hend⟩
  | mail i =>
    obtain ⟨m, m', -, -, rfl⟩ := mailers_of_mail hs
    exact ⟨n, slot, { h with }⟩

/-- The count is right in every state of a run of such steps. -/
theorem counts_of_reaches {emails : List Bytes} {mailers : Nat}
    (hcount : store userCount = some (ascii "0"))
    (h : Reaches Site.step Site.Alone (.start store emails mailers) s) :
    ∃ n slot, Counts s n slot := by
  induction h with
  | refl => exact ⟨0, id, counts_start hcount⟩
  | tail _ hok hs ih =>
    obtain ⟨n, slot, hc⟩ := ih
    exact hc.step hok hs

/-! ## No lost update -/

/-- A process has come to its end or has died. -/
def Register.Ended (p : Register) : Prop := p.phase = .done ∨ p.phase = .crashed

/-- `UserCount` is the number of the processes, and each of them has its e-mail under a key of its
own below it. -/
def Site.Registered (s : Site) : Prop :=
  s.store userCount = some (digits s.registers.length) ∧
    ∃ slot : Nat → Nat, Set.InjOn slot (Set.Iio s.registers.length) ∧
      ∀ (i : Nat) (p : Register), s.registers[i]? = some p →
        slot i < s.registers.length ∧ s.store (userKey (slot i)) = some p.email

/-- The e-mails of the processes never change. -/
theorem emails_of_reaches {ok : Site → Action → Prop} {emails : List Bytes} {mailers : Nat}
    (h : Reaches Site.step ok (.start store emails mailers) s) :
    s.registers.map Register.email = emails := by
  induction h with
  | refl =>
    rw [Site.start, List.map_map]
    exact List.map_id _
  | @tail s t a _ _ hs ih =>
    rw [← ih]
    cases a with
    | register i =>
      obtain ⟨p, store', p', hp, hmoves, rfl⟩ := moves_of_register hs
      exact map_set_of_eq hp hmoves.email
    | mail i =>
      obtain ⟨m, m', -, -, rfl⟩ := mailers_of_mail hs
      rfl

/-- Once all processes have ended no update is lost, if no two of them were between their read
and their write. -/
theorem registered_of_alone {emails : List Bytes} {mailers : Nat}
    (hcount : store userCount = some (ascii "0"))
    (h : Reaches Site.step Site.Alone (.start store emails mailers) s)
    (hended : ∀ p ∈ s.registers, p.Ended) :
    s.registers.map Register.email = emails ∧ s.Registered := by
  obtain ⟨n, slot, hc⟩ := counts_of_reaches hcount h
  have hraised (p : Register) (hp : p ∈ s.registers) : p.raised = true ∧ p.stored = true := by
    rcases hended p hp with hphase | hphase
    · exact ⟨by rw [Register.raised, hphase], by rw [Register.stored, hphase]⟩
    · exact ⟨by rw [Register.raised, hphase], by rw [Register.stored, hphase]⟩
  have hn : n = s.registers.length := by
    have hall : s.registers.countP Register.raised = s.registers.length :=
      List.countP_eq_length.mpr fun p hp => (hraised p hp).1
    have hnumber := hc.number
    rw [hall] at hnumber
    exact (Int.ofNat_inj.mp hnumber).symm
  subst hn
  refine ⟨emails_of_reaches h, hc.count, slot, fun i hi j hj hslot => ?_, fun i p hp => ?_⟩
  · have hi' := List.getElem?_eq_getElem (Set.mem_Iio.mp hi)
    have hj' := List.getElem?_eq_getElem (Set.mem_Iio.mp hj)
    exact hc.distinct i j _ _ hi' hj' (hraised _ (List.mem_of_getElem? hi')).1
      (hraised _ (List.mem_of_getElem? hj')).1 hslot
  · obtain ⟨hr, hst⟩ := hraised p (List.mem_of_getElem? hp)
    obtain ⟨hlt, hkey⟩ := hc.key i p hp hr
    exact ⟨hlt, hkey ▸ hc.stored i p hp hst⟩

/-- The store with no users. -/
def noUsers : Store := Function.update (fun _ => none) userCount (some (ascii "0"))

/-- Two processes, one behind the other. -/
def inTurn : List Action :=
  [.register 0, .register 0, .register 0, .register 0, .register 1, .register 1, .register 1,
    .register 1]

theorem inTurn_store :
    (runGuarded Site.step Site.Alone (.start noUsers [ascii "a", ascii "b"] 0) inTurn).state?.map
      (fun s => (s.registers.map Register.phase, s.store userCount, s.store (userKey 1))) =
      some ([.done, .done], some (ascii "2"), some (ascii "b")) := by
  decide +kernel

theorem ended_of_phases {s : Site} (h : s.registers.map Register.phase = [.done, .done]) :
    ∀ p ∈ s.registers, p.Ended := fun p hp => by
  have hmem := List.mem_map_of_mem (f := Register.phase) hp
  rw [h] at hmem
  exact .inl (by simpa using hmem)

/-- Two processes register one after the other. -/
theorem registered_of_alone_inTurn : ∃ s,
    Reaches Site.step Site.Alone (.start noUsers [ascii "a", ascii "b"] 0) s ∧
      s.store userCount = some (ascii "2") ∧ s.store (userKey 1) = some (ascii "b") ∧
      s.registers.map Register.email = [ascii "a", ascii "b"] ∧ s.Registered := by
  obtain ⟨s, hs, hfacts⟩ := exists_next_of_map inTurn_store
  obtain ⟨hphase, hstore⟩ := Prod.mk.inj hfacts
  obtain ⟨hcount, hlast⟩ := Prod.mk.inj hstore
  have hreach := Reaches.of_runGuarded _ _ hs
  exact ⟨s, hreach, hcount, hlast,
    registered_of_alone (Function.update_self ..) hreach (ended_of_phases hphase)⟩

/-- Two processes, one command of each in turn. -/
def inStep : List Action :=
  [.register 0, .register 1, .register 0, .register 1, .register 0, .register 1, .register 0,
    .register 1]

theorem inStep_store :
    (runGuarded Site.step (fun _ _ => True)
      (.start noUsers [ascii "a", ascii "b"] 0) inStep).state?.map
      (fun s => (s.registers.map Register.phase, s.store userCount)) =
      some ([.done, .done], some (ascii "1")) := by
  decide +kernel

/-- Both processes read 0: one user is counted, and one e-mail is gone. -/
theorem not_registered_inStep : ∃ s,
    Reaches Site.step (fun _ _ => True) (.start noUsers [ascii "a", ascii "b"] 0) s ∧
      (∀ p ∈ s.registers, p.Ended) ∧ ¬ s.Registered := by
  obtain ⟨s, hs, hfacts⟩ := exists_next_of_map inStep_store
  obtain ⟨hphase, hcount⟩ := Prod.mk.inj hfacts
  refine ⟨s, .of_runGuarded _ _ hs, ended_of_phases hphase, fun h => ?_⟩
  have hlen : s.registers.length = 2 := by
    rw [← List.length_map (f := Register.phase), hphase]
    rfl
  have htwo := h.1
  rw [hcount, hlen] at htwo
  exact absurd htwo (by decide)

end NetworkCode.Weather
