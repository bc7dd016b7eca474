import NetworkCode.Weather.Counting
import Mathlib.Data.List.Induction

/-!
# One registration after the other

The first command of a registration reads `UserCount`, and the reply to a missing field has no
string. So nobody can register before somebody else has made a `UserCount`. With a count of 0
to begin with, registrations in turn get the keys `user0`, `user1` and so on, until the count
has more digits than the array of `_itoa` takes.
-/

namespace NetworkCode.Weather

open StepResult Text

/-! ## Registrations in turn -/

/-- One command of a register process that is alone. -/
def Register.stepOn (c : Store × Register) (_ : Unit) : StepResult (Store × Register) :=
  c.2.step c.1

/-- A register process that is alone can come there. -/
def Register.Comes (c c' : Store × Register) : Prop :=
  Reaches Register.stepOn (fun _ _ => True) c c'

/-- A registration with this e-mail comes to its end. -/
def Completed (store : Store) (email : Bytes) (store' : Store) : Prop :=
  ∃ p, Register.Comes (store, .start email) (store', p) ∧ p.phase = .done

/-- What completed registrations with these e-mails, one after the other, make of a store. -/
inductive Successive (first : Store) : List Bytes → Store → Prop
  | nil : Successive first [] first
  | snoc {emails : List Bytes} {store store' : Store} {email : Bytes} :
      Successive first emails store → Completed store email store' →
        Successive first (emails ++ [email]) store'

/-- A registration behind `k` others completes, counts one more, stores its e-mail under the next
key and leaves those before it. -/
def Adds (k : Nat) (store : Store) (email : Bytes) : Prop :=
  ∃ store', Completed store email store' ∧ store' userCount = some (digits (k + 1)) ∧
    store' (userKey k) = some email ∧ ∀ i < k, store' (userKey i) = store (userKey i)

/-- A Redis without the hash `user`. -/
def noHash : Store := fun _ => none

variable {store store' : Store} {p : Register} {email : Bytes} {n : Nat} {emails : List Bytes}

/-! ## Without a count -/

/-- On a Redis without the hash a process stays before its first command or dies of it. -/
theorem crashed_of_comes (h : Register.Comes (noHash, .start email) (store, p)) :
    store = noHash ∧ (p = .start email ∨ p = { Register.start email with phase := .crashed }) := by
  have hkept : ∀ c : Store × Register, Register.Comes (noHash, .start email) c →
      c.1 = noHash ∧
        (c.2 = .start email ∨ c.2 = { Register.start email with phase := .crashed }) := by
    intro c hc
    apply hc.invariant
    · exact ⟨rfl, .inl rfl⟩
    · rintro ⟨store, p⟩ a ⟨store', p'⟩ ⟨rfl, rfl | rfl⟩ - hs
      · cases hs
        exact ⟨rfl, .inr rfl⟩
      · cases hs
  exact hkept (store, p) h

/-- Without a number of users no registration completes. -/
theorem not_completed_noHash : ¬ Completed noHash email store := by
  rintro ⟨p, hp, hdone⟩
  obtain ⟨-, rfl | rfl⟩ := crashed_of_comes hp
  · cases hdone
  · cases hdone

/-- So no registration ever completes. -/
theorem eq_nil_of_successive (h : Successive noHash emails store) :
    emails = [] ∧ store = noHash := by
  induction h with
  | nil => exact ⟨rfl, rfl⟩
  | snoc _ hcompleted ih =>
    obtain ⟨-, rfl⟩ := ih
    exact absurd hcompleted not_completed_noHash

/-- Behind any number of completed registrations on a Redis without the hash `user`, the next one
is not added: it dies of the missing reply string and leaves the store. -/
theorem not_adds {emails : List Bytes} {store : Store} (h : Successive noHash emails store)
    (email : Bytes) :
    ¬ Adds emails.length store email ∧
      ∃ p, Register.Comes (store, .start email) (store, p) ∧ p.phase = .crashed := by
  obtain ⟨rfl, rfl⟩ := eq_nil_of_successive h
  refine ⟨?_, { Register.start email with phase := .crashed }, ?_, rfl⟩
  · rintro ⟨store', hcompleted, -⟩
    exact not_completed_noHash hcompleted
  · exact .tail (a := ()) .refl trivial rfl

theorem not_adds_nobody : ¬ Adds 0 noHash (ascii "a@b.c") ∧
    ∃ p, Register.Comes (noHash, .start (ascii "a@b.c")) (noHash, p) ∧ p.phase = .crashed :=
  not_adds .nil (ascii "a@b.c")

/-- The first registration does not complete. -/
theorem first_registration_crashes :
    Successive noHash [] noHash ∧ ¬ Adds 0 noHash (ascii "a@b.c") := by
  refine ⟨.nil, ?_⟩
  rintro ⟨store', hcompleted, -⟩
  exact not_completed_noHash hcompleted

/-! ## With a count -/

/-- A number of at most seven digits fits the array. -/
theorem itoa_of_lt (h : n < 10 ^ 7) : itoa n = some (digits n) := by
  have hlen := (length_digits_le_iff (n := n) (k := 7) (by decide)).mpr h
  rw [itoa, decimal_natCast, if_pos (by omega)]

/-- The store behind a registration that counts from `n`. -/
def Store.add (store : Store) (n : Nat) (email : Bytes) : Store :=
  Function.update (Function.update store userCount (some (digits (n + 1)))) (userKey n)
    (some email)

/-- One more user is counted. -/
theorem add_userCount : store.add n email userCount = some (digits (n + 1)) :=
  (Function.update_of_ne (userKey_ne_userCount n).symm _ _).trans (Function.update_self _ _ _)

/-- The e-mail of the user that was added. -/
theorem add_self : store.add n email (userKey n) = some email := Function.update_self _ _ _

/-- The other users stay. -/
theorem add_of_ne {i : Nat} (h : i ≠ n) : store.add n email (userKey i) = store (userKey i) :=
  (Function.update_of_ne (mt userKey_inj.mp h) _ _).trans
    (Function.update_of_ne (userKey_ne_userCount i) _ _)

/-- Where there is a count of fewer than 8 digits, a registration completes. -/
theorem completed_add (hcount : store userCount = some (digits n)) (hn : n + 1 < 10 ^ 7)
    (hfirst : n = 0 ∨ store (userKey 0) ≠ none) (email : Bytes) :
    Completed store email (store.add n email) := by
  have hatoi : atoi (digits n) = n := atoi_digits (by omega)
  have hnext : itoa ((n : Int) + 1) = some (digits (n + 1)) := itoa_of_lt hn
  have hfetch : Register.stepOn (store, .start email) () =
      next (store, ⟨email, userKey n, n + 1, .raising⟩) := by
    simp only [Register.stepOn, Register.step, Register.start, hcount, hatoi,
      itoa_of_lt (by omega : n < 10 ^ 7), ofAccess_some, bind_next]
    rfl
  have hraise : Register.stepOn (store, ⟨email, userKey n, n + 1, .raising⟩) () =
      next (Function.update store userCount (some (digits (n + 1))),
        ⟨email, userKey n, n + 1, .storing⟩) := by
    simp only [Register.stepOn, Register.step, hnext, ofAccess_some, bind_next]
  have hshow : Register.stepOn (store.add n email, ⟨email, userKey n, n + 1, .showing⟩) () =
      next (store.add n email, ⟨email, userKey n, n + 1, .done⟩) := by
    obtain ⟨out, hout⟩ : ∃ out, store.add n email (userKey 0) = some out := by
      by_cases hzero : 0 = n
      · subst hzero
        exact ⟨email, add_self⟩
      · rw [add_of_ne hzero]
        exact Option.ne_none_iff_exists'.mp (hfirst.resolve_left (Ne.symm hzero))
    simp only [Register.stepOn, Register.step, hout]
  exact ⟨⟨email, userKey n, n + 1, .done⟩,
    (((Reaches.refl.tail trivial hfetch).tail trivial hraise).tail (a := ()) trivial rfl).tail
      trivial hshow, rfl⟩

/-- The store has the count and the e-mails of these registrations. -/
structure Listed (emails : List Bytes) (store : Store) : Prop where
  count : store userCount = some (digits emails.length)
  users : ∀ i < emails.length, store (userKey i) = emails[i]?

/-- One more e-mail behind those that are listed. -/
theorem Listed.add (h : Listed emails store) (email : Bytes) :
    Listed (emails ++ [email]) (store.add emails.length email) where
  count := by
    rw [add_userCount, List.length_append, List.length_singleton]
  users i hi := by
    rw [List.length_append, List.length_singleton] at hi
    by_cases hlast : i = emails.length
    · subst hlast
      rw [add_self, List.getElem?_concat_length]
    · rw [add_of_ne hlast, List.getElem?_append_left (by omega)]
      exact h.users i (by omega)

end NetworkCode.Weather
