import NetworkCode.Core.Numerals
import NetworkCode.Core.Transition
import Mathlib.Logic.Function.Basic

/-!
# Registering for the weather mail

The program `register` and the script `ShowWeather.py`, in steps of one Redis command. The
store is the hash `user`. A register process is one call of `exec_calc` with its second
form value as e-mail. A process that uses the string of a reply without one dies of it. A
number that does not fit the array of `_itoa` is undefined. The mailer is what the script
does with the hash `user`; an exception ends it.
-/

namespace NetworkCode.Weather

open StepResult Text

/-! ## Numbers and keys -/

/-- `_itoa`, whose array has 8 bytes. -/
def itoa (num : Int) : Option Bytes :=
  if (decimal num).length < 8 then some (decimal num) else none

/-- `int(s)` of Python on a byte string. -/
def pyInt (s : Bytes) : Option Int :=
  let stripped := ((s.dropWhile isspace).reverse.dropWhile isspace).reverse
  let unsigned (ds : Bytes) : Option Nat :=
    if ds ≠ [] ∧ ds.all isdigit then some (value ds) else none
  match stripped with
  | 45 :: ds => (unsigned ds).map fun n => -n
  | 43 :: ds => (unsigned ds).map fun n => n
  | ds => (unsigned ds).map fun n => n

/-- The field with the number of users. -/
def userCount : Bytes := ascii "UserCount"

/-- The field of a user. -/
def userKey (i : Nat) : Bytes := ascii "user" ++ digits i

/-- A number that fits the array has at most seven digits. -/
theorem itoa_eq_some {n : Nat} {num : Bytes} (h : itoa n = some num) :
    num = digits n ∧ n < 10 ^ 7 := by
  rw [itoa, decimal_natCast] at h
  split at h
  · rename_i hlen
    exact ⟨(Option.some.inj h).symm,
      (length_digits_le_iff (by decide)).mp (Nat.le_of_lt_succ hlen)⟩
  · cases h

/-- Python reads the digits of a number back. -/
theorem pyInt_digits (n : Nat) : pyInt (digits n) = some (n : Int) := by
  have hall : (digits n).all isdigit = true :=
    List.all_eq_true.mpr fun c hc => isdigit_of_mem_digits hc
  have hstripped : (((digits n).dropWhile isspace).reverse.dropWhile
      isspace).reverse = digits n := by
    rw [dropWhile_isspace_of_mem_digits fun c hc => hc,
      dropWhile_isspace_of_mem_digits fun c hc => List.mem_reverse.mp hc, List.reverse_reverse]
  simp only [pyInt, hstripped]
  split
  · rename_i s hs
    exact absurd hs (digits_ne_sign (by decide))
  · rename_i s hs
    exact absurd hs (digits_ne_sign (by decide))
  · simp [digits_ne_nil, hall, value_digits]

/-- Two users have different fields. -/
theorem userKey_inj {i j : Nat} : userKey i = userKey j ↔ i = j := by
  rw [userKey, userKey, List.append_cancel_left_eq, digits_inj]

/-- The field of a user is not that of their number. -/
theorem userKey_ne_userCount (i : Nat) : userKey i ≠ userCount := by
  intro h
  have hhead := congrArg List.head? h
  exact absurd hhead (by simp [userKey, userCount, ascii])

/-- The fields of the hash `user`. -/
abbrev Store := Bytes → Option Bytes

/-! ## A register process -/

/-- Where a register process stands: before the command that is named. -/
inductive Phase where
  /-- `HGET user UserCount`. -/
  | fetching
  /-- `HSET user UserCount`. -/
  | raising
  /-- `HSET user` of its own key. -/
  | storing
  /-- `HGET user user0`. -/
  | showing
  /-- It has come to its end. -/
  | done
  /-- It has died. -/
  | crashed
  deriving DecidableEq, Repr

/-- A call of `exec_calc`: the value `data[1]` and the local variables. -/
structure Register where
  email : Bytes
  user : Bytes
  count : Int
  phase : Phase
  deriving DecidableEq, Repr

/-- A register process when it starts. -/
def Register.start (email : Bytes) : Register := ⟨email, [], 0, .fetching⟩

/-- The next command of a register process, and what follows it. -/
def Register.step (store : Store) (p : Register) : StepResult (Store × Register) :=
  match p.phase with
  | .fetching =>
    match store userCount with
    | none => next (store, { p with phase := .crashed })
    | some out =>
      (ofAccess (itoa (atoi out))).bind fun num =>
        next (store, { p with
          user := ascii "user" ++ num, count := atoi out + 1, phase := .raising })
  | .raising =>
    (ofAccess (itoa p.count)).bind fun num =>
      next (Function.update store userCount (some num), { p with phase := .storing })
  | .storing => next (Function.update store p.user (some p.email), { p with phase := .showing })
  | .showing =>
    match store (userKey 0) with
    | none => next (store, { p with phase := .crashed })
    | some _ => next (store, { p with phase := .done })
  | .done | .crashed => disabled

/-! ## The mailer -/

/-- Where the script stands. -/
inductive Mailer where
  /-- Before it reads `UserCount`. -/
  | waiting
  /-- In the loop over the users. -/
  | listing (users : Int) (toList : List Bytes)
  /-- It has ended with an exception. -/
  | raised
  deriving DecidableEq, Repr

/-- `str` of what `hget` returns. -/
def pyStr (reply : Option Bytes) : Bytes := reply.getD (ascii "None")

/-- `replace('%40','@')`. -/
def replaceAt : Bytes → Bytes
  | 37 :: 52 :: 48 :: s => 64 :: replaceAt s
  | c :: s => c :: replaceAt s
  | [] => []

/-- The next command of the script. Behind its loop it has its list. -/
def Mailer.step (store : Store) : Mailer → StepResult Mailer
  | .waiting =>
    match (store userCount).bind pyInt with
    | none => next .raised
    | some users => next (.listing users [])
  | .listing users toList =>
    if toList.length < users then
      next (.listing users (toList ++ [replaceAt (pyStr (store (userKey toList.length)))]))
    else disabled
  | .raised => disabled

/-! ## All of them -/

/-- The store, the register processes and the runs of the script. -/
structure Site where
  store : Store
  registers : List Register
  mailers : List Mailer

/-- Register processes with these e-mails and this many runs of the script, before they start. -/
def Site.start (store : Store) (emails : List Bytes) (mailers : Nat) : Site where
  store := store
  registers := emails.map .start
  mailers := List.replicate mailers .waiting

/-- The next command is that of a register process or of a run of the script. -/
inductive Action where
  | register (i : Nat)
  | mail (i : Nat)
  deriving DecidableEq, Repr

/-- One command. -/
def Site.step (s : Site) : Action → StepResult Site
  | .register i =>
    match s.registers[i]? with
    | none => disabled
    | some p =>
      (p.step s.store).bind fun r =>
        next { s with store := r.1, registers := s.registers.set i r.2 }
  | .mail i =>
    match s.mailers[i]? with
    | none => disabled
    | some m => (m.step s.store).bind fun m => next { s with mailers := s.mailers.set i m }

end NetworkCode.Weather
