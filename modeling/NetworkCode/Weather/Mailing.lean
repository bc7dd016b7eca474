import NetworkCode.Weather.Counting

/-!
# What the mailer reads

A register process writes the number of users before the e-mail that it counts. The mailer
finds an e-mail for every number below `UserCount` exactly as long as no process writes that
number before there is something under its key.
-/

namespace NetworkCode.Weather

open StepResult Text

variable {s t : Site} {store store' : Store} {emails : List Bytes} {p p' : Register}

/-- An e-mail that was in the store at the beginning or that a process registers. -/
def Known (store : Store) (emails : List Bytes) (email : Bytes) : Prop :=
  (∃ k, store (userKey k) = some email) ∨ email ∈ emails

/-- There is an e-mail under each of the first `n` keys. -/
def Filled (store : Store) (n : Nat) : Prop := ∀ k < n, store (userKey k) ≠ none

/-- Each user that is counted has an e-mail, and the lists of the mailers have known e-mails
only. -/
def Site.Complete (store : Store) (emails : List Bytes) (s : Site) : Prop :=
  (∃ n, s.store userCount = some (digits n) ∧ Filled s.store n) ∧
    ∀ (users : Int) (toList : List Bytes), Mailer.listing users toList ∈ s.mailers →
      ∀ recipient ∈ toList, ∃ email, Known store emails email ∧ recipient = replaceAt email

/-- A process writes `UserCount` only when there is something under its key. -/
def Site.Prepared (s : Site) : Action → Prop
  | .register i =>
    ∀ p ∈ s.registers[i]?, p.phase = .raising → s.store p.user ≠ none
  | .mail _ => True

instance (s : Site) (a : Action) : Decidable (s.Prepared a) :=
  match a with
  | .register i => inferInstanceAs (Decidable (∀ p ∈ s.registers[i]?, _))
  | .mail _ => inferInstanceAs (Decidable True)

/-! ## The invariant -/

/-- What holds while every counted user has an e-mail. -/
structure Keeps (store : Store) (emails : List Bytes) (s : Site) (n : Nat) : Prop where
  count : s.store userCount = some (digits n)
  small : n < 10 ^ 7
  filled : Filled s.store n
  known : ∀ k email, s.store (userKey k) = some email → Known store emails email
  own : ∀ p ∈ s.registers, p.email ∈ emails
  raising : ∀ p ∈ s.registers, p.phase = .raising →
    ∃ c : Nat, p.user = userKey c ∧ p.count = (c : Int) + 1 ∧ Filled s.store c
  storing : ∀ p ∈ s.registers, p.phase = .storing → ∃ c, p.user = userKey c
  listing : ∀ (users : Int) (toList : List Bytes), Mailer.listing users toList ∈ s.mailers →
    (∃ c : Nat, users = c ∧ Filled s.store c) ∧
      ∀ recipient ∈ toList, ∃ email, Known store emails email ∧ recipient = replaceAt email

/-- Behind the invariant each counted user has an e-mail. -/
theorem Keeps.complete {n : Nat} (h : Keeps store emails s n) : s.Complete store emails :=
  ⟨⟨n, h.count, h.filled⟩, fun users toList hm => (h.listing users toList hm).2⟩

/-- At the start no user is counted. -/
theorem keeps_start {mailers : Nat} (hcount : store userCount = some (ascii "0")) :
    Keeps store emails (.start store emails mailers) 0 := by
  have hphase (p : Register) (hp : p ∈ (Site.start store emails mailers).registers) :
      p.phase = .fetching ∧ p.email ∈ emails := by
    obtain ⟨email, hemail, rfl⟩ := List.mem_map.mp hp
    exact ⟨rfl, hemail⟩
  exact {
    count := hcount
    small := by decide
    filled := fun k hk => absurd hk (Nat.not_lt_zero k)
    known := fun k email hk => .inl ⟨k, hk⟩
    own := fun p hp => (hphase p hp).2
    raising := fun p hp hr => by
      rw [(hphase p hp).1] at hr
      cases hr
    storing := fun p hp hst => by
      rw [(hphase p hp).1] at hst
      cases hst
    listing := fun users toList hm => by
      have hwaiting := List.eq_of_mem_replicate hm
      cases hwaiting }

/-- The number of users is under no key. -/
theorem filled_update_userCount {n : Nat} {num : Bytes} :
    Filled (Function.update store userCount (some num)) n ↔ Filled store n := by
  simp only [Filled, Function.update_of_ne (userKey_ne_userCount _)]

/-- An e-mail more leaves the others. -/
theorem Filled.update {n : Nat} {key email : Bytes} (h : Filled store n) :
    Filled (Function.update store key (some email)) n := by
  intro k hk
  by_cases he : userKey k = key
  · rw [he, Function.update_self]
    exact Option.some_ne_none email
  · rw [Function.update_of_ne he]
    exact h k hk

variable {n i : Nat}

/-- One process goes on; the store keeps its e-mails. -/
theorem Keeps.register {n' : Nat} (h : Keeps store emails s n) (hp : s.registers[i]? = some p)
    (hcount : store' userCount = some (digits n')) (hsmall : n' < 10 ^ 7)
    (hfilled : Filled store' n') (hmono : ∀ c, Filled s.store c → Filled store' c)
    (hknown : ∀ k email, store' (userKey k) = some email → Known store emails email)
    (hemail : p'.email = p.email)
    (hraising : p'.phase = .raising →
      ∃ c : Nat, p'.user = userKey c ∧ p'.count = (c : Int) + 1 ∧ Filled store' c)
    (hstoring : p'.phase = .storing → ∃ c, p'.user = userKey c) :
    Keeps store emails { s with store := store', registers := s.registers.set i p' } n' where
  count := hcount
  small := hsmall
  filled := hfilled
  known := hknown
  own q hq := by
    rcases List.mem_or_eq_of_mem_set hq with hq | rfl
    · exact h.own q hq
    · rw [hemail]
      exact h.own p (List.mem_of_getElem? hp)
  raising q hq hr := by
    rcases List.mem_or_eq_of_mem_set hq with hq | rfl
    · obtain ⟨c, huser, hcount, hc⟩ := h.raising q hq hr
      exact ⟨c, huser, hcount, hmono c hc⟩
    · exact hraising hr
  storing q hq hst := by
    rcases List.mem_or_eq_of_mem_set hq with hq | rfl
    · exact h.storing q hq hst
    · exact hstoring hst
  listing users toList hm := by
    obtain ⟨⟨c, hc, hfull⟩, hlist⟩ := h.listing users toList hm
    exact ⟨⟨c, hc, hmono c hfull⟩, hlist⟩

/-- A register process that counts no user before the e-mail is there keeps the invariant. -/
theorem Keeps.moves (h : Keeps store emails s n) (hp : s.registers[i]? = some p)
    (hok : s.Prepared (.register i)) (hmoves : Moves s.store p store' p') :
    ∃ n, Keeps store emails { s with store := store', registers := s.registers.set i p' } n := by
  have hmem := List.mem_of_getElem? hp
  cases hmoves with
  | lacking hphase hout =>
    rw [h.count] at hout
    cases hout
  | fetch hphase hout hnum =>
    obtain rfl := Option.some.inj (h.count.symm.trans hout)
    rw [atoi_digits (Nat.lt_trans h.small (by decide))] at hnum ⊢
    obtain ⟨rfl, -⟩ := itoa_eq_some hnum
    exact ⟨n, h.register hp h.count h.small h.filled (fun _ hc => hc) h.known rfl
      (fun _ => ⟨n, rfl, rfl, h.filled⟩) (by rintro ⟨⟩)⟩
  | raise hphase hnum =>
    obtain ⟨c, huser, hcount, hfull⟩ := h.raising p hmem hphase
    have hcast : (c : Int) + 1 = ((c + 1 : Nat) : Int) := by omega
    rw [hcount, hcast] at hnum
    obtain ⟨rfl, hsmall⟩ := itoa_eq_some hnum
    have hown := hok p hp hphase
    have hfilled : Filled s.store (c + 1) := fun k hk => by
      rcases Nat.lt_succ_iff_lt_or_eq.mp hk with hk | rfl
      · exact hfull k hk
      · rwa [← huser]
    refine ⟨c + 1, h.register hp (Function.update_self ..) hsmall
      (filled_update_userCount.mpr hfilled) (fun _ hc => filled_update_userCount.mpr hc)
      (fun k email hk => ?_) rfl (by rintro ⟨⟩) (fun _ => ⟨c, huser⟩)⟩
    rw [Function.update_of_ne (userKey_ne_userCount k)] at hk
    exact h.known k email hk
  | store hphase =>
    obtain ⟨c, huser⟩ := h.storing p hmem hphase
    refine ⟨n, h.register hp ?_ h.small h.filled.update (fun _ hc => hc.update)
      (fun k email hk => ?_) rfl (by rintro ⟨⟩) (by rintro ⟨⟩)⟩
    · rw [huser, Function.update_of_ne (userKey_ne_userCount c).symm]
      exact h.count
    · by_cases he : userKey k = p.user
      · rw [he, Function.update_self] at hk
        obtain rfl := Option.some.inj hk
        exact .inr (h.own p hmem)
      · rw [Function.update_of_ne he] at hk
        exact h.known k email hk
  | finish hphase hend =>
    refine ⟨n, h.register hp h.count h.small h.filled (fun _ hc => hc) h.known rfl ?_ ?_⟩
    · rcases hend with rfl | rfl <;> rintro ⟨⟩
    · rcases hend with rfl | rfl <;> rintro ⟨⟩

/-- A mailer finds an e-mail under each key that it reads. -/
theorem Keeps.mail {m m' : Mailer} (h : Keeps store emails s n) (hm : s.mailers[i]? = some m)
    (hstep : m.step s.store = next m') :
    Keeps store emails { s with mailers := s.mailers.set i m' } n := by
  refine { h with listing := fun users toList hlist => ?_ }
  rcases List.mem_or_eq_of_mem_set hlist with hlist | rfl
  · exact h.listing users toList hlist
  · cases m with
    | waiting =>
      simp only [Mailer.step, h.count, Option.bind_some, pyInt_digits] at hstep
      cases hstep
      exact ⟨⟨n, rfl, h.filled⟩, by simp⟩
    | listing users' toList' =>
      simp only [Mailer.step] at hstep
      split at hstep
      · rename_i hlt
        cases hstep
        obtain ⟨⟨c, rfl, hfull⟩, hknown⟩ := h.listing _ toList' (List.mem_of_getElem? hm)
        refine ⟨⟨c, rfl, hfull⟩, fun recipient hr => ?_⟩
        rcases List.mem_append.mp hr with hr | hr
        · exact hknown recipient hr
        · have hnext : toList'.length < c := Int.ofNat_lt.mp hlt
          obtain ⟨email, hemail⟩ := Option.ne_none_iff_exists'.mp (hfull _ hnext)
          rw [List.mem_singleton] at hr
          exact ⟨email, h.known _ email hemail, by rw [hr, hemail]; rfl⟩
      · cases hstep
    | raised => cases hstep

/-- A step in which no user is counted before the e-mail is there keeps the invariant. -/
theorem Keeps.step {a : Action} (h : Keeps store emails s n) (hok : s.Prepared a)
    (hs : s.step a = next t) : ∃ n, Keeps store emails t n := by
  cases a with
  | register i =>
    obtain ⟨p, store', p', hp, hmoves, rfl⟩ := moves_of_register hs
    exact h.moves hp hok hmoves
  | mail i =>
    obtain ⟨m, m', hm, hstep, rfl⟩ := mailers_of_mail hs
    exact ⟨n, h.mail hm hstep⟩

/-- The invariant holds in every state of a run of such steps. -/
theorem keeps_of_reaches {mailers : Nat} (hcount : store userCount = some (ascii "0"))
    (h : Reaches Site.step Site.Prepared (.start store emails mailers) s) :
    ∃ n, Keeps store emails s n := by
  induction h with
  | refl => exact ⟨0, keeps_start hcount⟩
  | tail _ hok hs ih =>
    obtain ⟨n, hkeeps⟩ := ih
    exact hkeeps.step hok hs

/-- A process that counts a user without an e-mail. -/
theorem Keeps.not_complete {a : Action} (h : Keeps store emails s n) (hok : ¬ s.Prepared a)
    (hs : s.step a = next t) : ¬ t.Complete store emails := by
  cases a with
  | mail i => exact absurd trivial hok
  | register i =>
    obtain ⟨p, store', p', hp, hmoves, rfl⟩ := moves_of_register hs
    simp only [Site.Prepared, hp, Option.mem_def, Option.some.injEq, forall_eq',
      Classical.not_imp, not_not] at hok
    obtain ⟨hphase, hnone⟩ := hok
    cases hmoves with
    | raise _ hnum =>
      obtain ⟨c, huser, hcount, -⟩ := h.raising p (List.mem_of_getElem? hp) hphase
      have hcast : (c : Int) + 1 = ((c + 1 : Nat) : Int) := by omega
      rw [hcount, hcast] at hnum
      obtain ⟨rfl, -⟩ := itoa_eq_some hnum
      rintro ⟨⟨m, hm, hfilled⟩, -⟩
      dsimp only at hm hfilled
      rw [Function.update_self, Option.some.injEq, digits_inj] at hm
      refine filled_update_userCount.mp hfilled c (by omega) ?_
      rw [← huser]
      exact hnone
    | lacking hphase' => simp [hphase] at hphase'
    | fetch hphase' => simp [hphase] at hphase'
    | store hphase' => simp [hphase] at hphase'
    | finish hphase' => simp [hphase] at hphase'

/-- As long as no process counts a user before its e-mail is there, each user that is counted has
one and the mailers list no others; the first step that does breaks it. -/
theorem complete_of_prepared {mailers : Nat} (hcount : store userCount = some (ascii "0"))
    (h : Reaches Site.step Site.Prepared (.start store emails mailers) s) :
    s.Complete store emails ∧
      ∀ a t, ¬ s.Prepared a → s.step a = next t → ¬ t.Complete store emails := by
  obtain ⟨n, hkeeps⟩ := keeps_of_reaches hcount h
  exact ⟨hkeeps.complete, fun a t hok hs => hkeeps.not_complete hok hs⟩

/-- A store with no users, and what is left under the first key. -/
def leftOver : Store := Function.update noUsers (userKey 0) (some (ascii "a%40b"))

/-- A process registers, then a mailer reads. -/
def registerThenMail : List Action :=
  [.register 0, .register 0, .register 0, .mail 0, .mail 0]

theorem registerThenMail_list :
    (runGuarded Site.step Site.Prepared (.start leftOver [ascii "c"] 1)
      registerThenMail).state?.map Site.mailers = some [.listing 1 [ascii "c"]] := by
  decide +kernel

/-- With an e-mail left over under the first key a process may count first. -/
theorem complete_of_prepared_registerThenMail : ∃ s,
    Reaches Site.step Site.Prepared (.start leftOver [ascii "c"] 1) s ∧
      s.mailers = [.listing 1 [ascii "c"]] ∧ s.Complete leftOver [ascii "c"] ∧
      ∀ a t, ¬ s.Prepared a → s.step a = next t → ¬ t.Complete leftOver [ascii "c"] := by
  obtain ⟨s, hs, hlist⟩ := exists_next_of_map registerThenMail_list
  have hreach := Reaches.of_runGuarded _ _ hs
  exact ⟨s, hreach, hlist, complete_of_prepared (by decide) hreach⟩

/-- A mailer reads between the two writes of the first process. -/
def mailBetween : List Action := [.register 0, .register 0, .mail 0, .mail 0]

theorem mailBetween_list :
    (runGuarded Site.step (fun _ _ => True) (.start noUsers [ascii "c"] 1)
      mailBetween).state?.map (fun s => (s.mailers, s.store userCount, s.store (userKey 0))) =
      some ([.listing 1 [ascii "None"]], some (ascii "1"), none) := by
  decide +kernel

/-- One user is counted, nothing is under its key, and the mailer's list says None. -/
theorem not_complete_mailBetween : ∃ s,
    Reaches Site.step (fun _ _ => True) (.start noUsers [ascii "c"] 1) s ∧
      s.mailers = [.listing 1 [ascii "None"]] ∧ ¬ s.Complete noUsers [ascii "c"] := by
  obtain ⟨s, hs, hfacts⟩ := exists_next_of_map mailBetween_list
  obtain ⟨hlist, hstore⟩ := Prod.mk.inj hfacts
  obtain ⟨hcount, hnone⟩ := Prod.mk.inj hstore
  refine ⟨s, .of_runGuarded _ _ hs, hlist, ?_⟩
  rintro ⟨⟨n, hn, hfilled⟩, -⟩
  have hone : digits 1 = digits n := Option.some.inj (hcount.symm.trans hn)
  rw [digits_inj] at hone
  exact hfilled 0 (by omega) hnone

end NetworkCode.Weather
