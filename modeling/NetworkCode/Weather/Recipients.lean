import NetworkCode.Weather.Mailing
import NetworkCode.Weather.Publishing

/-!
# The mailer inside the script

`Mailer` is what `ShowWeather.py` does with the hash `user`, and `Script` is all of it. A run
with crawls is a run of registrations and mailers with commands between them that `user` does
not notice. So what holds of the lists of the mailers holds of the mail.
-/

namespace NetworkCode.Weather

open StepResult Text

/-- A run of the script and the mailer that it is. The loop over the users is over before the
loop over the days begins. -/
inductive Script.Mails : Script → Mailer → Prop
  | starting : Mails .starting .waiting
  | counted (count : Int) : Mails (.counted count) .waiting
  | listing (count users : Int) (toList : List Bytes) :
      Mails (.listing count users toList) (.listing users toList)
  | gathering {count users : Int} {toList : List Bytes} {i : Nat} {day : Bytes}
      (h : ¬ toList.length < users) : Mails (.gathering count toList i day) (.listing users toList)
  | sending {users : Int} {mail : Mail} (h : ¬ mail.toList.length < users) :
      Mails (.sending mail) (.listing users mail.toList)
  | noDays : Mails (.raised .noDays) .waiting
  | noUsers : Mails (.raised .noUsers) .raised
  | noRecord (users : Int) (toList : List Bytes) :
      Mails (.raised .noRecord) (.listing users toList)

/-- What a state with crawls is to the registrations and the mailers. -/
structure Bureau.Simulates (b : Bureau) (s : Site) : Prop where
  store : s.store = b.user
  registers : s.registers = b.registers
  mailers : ∀ i : Nat, Option.Rel Script.Mails b.scripts[i]? s.mailers[i]?

/-- A process writes `UserCount` only when there is something under its key. -/
def Bureau.Prepared (b : Bureau) : Turn → Prop
  | .register i => ∀ p ∈ b.registers[i]?, p.phase = .raising → b.user p.user ≠ none
  | _ => True

variable {weather user : Store} {emails : List Bytes} {items : List Item} {b c : Bureau}
  {s : Site} {p p' : Script} {m : Mailer}

/-- A command of the script is one of its mailer, or nothing that the mailer notices. -/
theorem Script.Mails.step (h : p.Mails m) (hs : p.step weather user = next p') :
    p'.Mails m ∨ ∃ m', m.step user = next m' ∧ p'.Mails m' := by
  cases h with
  | starting =>
    simp only [Script.step] at hs
    split at hs
    · cases hs
      exact .inl .noDays
    · cases hs
      exact .inl (.counted _)
  | counted count =>
    simp only [Script.step] at hs
    split at hs
    · rename_i hnone
      cases hs
      exact .inr ⟨.raised, by rw [Mailer.step, hnone], .noUsers⟩
    · rename_i users husers
      cases hs
      exact .inr ⟨.listing users [], by rw [Mailer.step, husers], .listing count users []⟩
  | listing count users toList =>
    simp only [Script.step] at hs
    split at hs
    · rename_i hlt
      cases hs
      exact .inr ⟨_, by rw [Mailer.step, if_pos hlt], .listing count users _⟩
    · rename_i hend
      cases hs
      exact .inl (.gathering hend)
  | gathering hend =>
    simp only [Script.step] at hs
    split at hs
    · split at hs
      · cases hs
        exact .inl (.noRecord _ _)
      · cases hs
        exact .inl (.gathering hend)
    · cases hs
      exact .inl (.sending hend)
  | sending => cases hs
  | noDays => cases hs
  | noUsers => cases hs
  | noRecord => cases hs

/-- Nothing has been read at the beginning. -/
theorem simulates_start {scripts : Nat} :
    (Bureau.start weather user emails items scripts).Simulates (.start user emails scripts) where
  store := rfl
  registers := rfl
  mailers i := by
    simp only [Bureau.start, Site.start, List.getElem?_replicate]
    split
    · exact .some .starting
    · exact .none

/-- The mailer of a script. -/
theorem Bureau.Simulates.mailer {i : Nat} (h : b.Simulates s) (hp : b.scripts[i]? = some p) :
    ∃ m, s.mailers[i]? = some m ∧ p.Mails m := by
  have hrel := h.mailers i
  rw [hp] at hrel
  cases hm : s.mailers[i]? with
  | none =>
    rw [hm] at hrel
    cases hrel
  | some m =>
    rw [hm] at hrel
    cases hrel with
    | some hmails => exact ⟨m, rfl, hmails⟩

/-- A script that has gone on beside its mailer. -/
theorem Bureau.Simulates.set {i : Nat} {m' : Mailer} (h : b.Simulates s)
    (hp : b.scripts[i]? = some p) (hm : s.mailers[i]? = some m) (hmails : p'.Mails m') :
    ({ b with scripts := b.scripts.set i p' } : Bureau).Simulates
      { s with mailers := s.mailers.set i m' } where
  store := h.store
  registers := h.registers
  mailers j := by
    by_cases hj : i = j
    · subst hj
      rw [List.getElem?_set_self (List.getElem?_eq_some_iff.mp hp).1,
        List.getElem?_set_self (List.getElem?_eq_some_iff.mp hm).1]
      exact .some hmails
    · rw [List.getElem?_set_ne hj, List.getElem?_set_ne hj]
      exact h.mailers j

/-- A command of the registrations is the same command among the mailers, one of a script is at
most one, and one of a crawl is none. -/
theorem Bureau.Simulates.step {a : Turn} (h : b.Simulates s) (hok : b.Prepared a)
    (hs : b.step a = next c) : ∃ t, Reaches Site.step Site.Prepared s t ∧ c.Simulates t := by
  cases a with
  | register i =>
    simp only [Bureau.step] at hs
    split at hs
    · cases hs
    · rename_i p hp
      obtain ⟨r, hr, hnext⟩ := bind_eq_next.mp hs
      cases hnext
      have hpre : s.Prepared (.register i) := by
        simp only [Site.Prepared, h.store, h.registers]
        exact hok
      refine ⟨{ s with store := r.1, registers := s.registers.set i r.2 }, .tail .refl hpre ?_, ?_⟩
      · simp only [Site.step, h.registers, hp, h.store, hr, bind_next]
      · exact ⟨rfl, by rw [h.registers], h.mailers⟩
  | crawl i =>
    simp only [Bureau.step] at hs
    split at hs
    · cases hs
      exact ⟨s, .refl, h.store, h.registers, h.mailers⟩
    · cases hs
  | script i =>
    simp only [Bureau.step] at hs
    split at hs
    · cases hs
    · rename_i p hp
      obtain ⟨p', hp', hnext⟩ := bind_eq_next.mp hs
      cases hnext
      obtain ⟨m, hm, hmails⟩ := h.mailer hp
      rcases hmails.step hp' with hmails' | ⟨m', hm', hmails'⟩
      · have hset : s.mailers.set i m = s.mailers := by
          obtain ⟨hi, rfl⟩ := List.getElem?_eq_some_iff.mp hm
          exact List.set_getElem_self hi
        have hsim := h.set hp hm hmails'
        rw [hset] at hsim
        exact ⟨s, .refl, hsim⟩
      · have hpre : s.Prepared (.mail i) := trivial
        refine ⟨_, .tail .refl hpre ?_, h.set hp hm hmails'⟩
        simp only [Site.step, hm, h.store, hm', bind_next]

/-- A run with crawls is a run of the registrations and the mailers. -/
theorem exists_site_of_reaches {scripts : Nat}
    (h : Reaches Bureau.step Bureau.Prepared (.start weather user emails items scripts) b) :
    ∃ s, Reaches Site.step Site.Prepared (.start user emails scripts) s ∧ b.Simulates s :=
  h.simulation simulates_start fun _ _ _ _ hsim hok hs => hsim.step hok hs

/-- While each user that is counted has an e-mail, the mail goes to known ones. -/
theorem recipients_known {scripts : Nat} (hcount : user userCount = some (ascii "0"))
    (h : Reaches Bureau.step Bureau.Prepared (.start weather user emails items scripts) b)
    {mail : Mail} (hmail : Script.sending mail ∈ b.scripts) :
    ∀ recipient ∈ mail.toList, ∃ email, Known user emails email ∧ recipient = replaceAt email := by
  obtain ⟨s, hreach, hsim⟩ := exists_site_of_reaches h
  obtain ⟨n, hkeeps⟩ := keeps_of_reaches hcount hreach
  obtain ⟨i, hi⟩ := List.mem_iff_getElem?.mp hmail
  obtain ⟨m, hm, hmails⟩ := hsim.mailer hi
  cases hmails with
  | sending hend => exact (hkeeps.listing _ mail.toList (List.mem_of_getElem? hm)).2

end NetworkCode.Weather
