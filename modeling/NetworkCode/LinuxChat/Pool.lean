import NetworkCode.Core.Transition
import Mathlib.Logic.Function.Basic

/-!
# The message pool of the chat server

`PutData` and `GetData` of `Pool`, in the steps that another thread can come between: the
wait for a semaphore, the access to a slot, the update of an index, the post of the other
semaphore. One thread calls `PutData`, one calls `GetData`. A wait for a semaphore that is
0 is not enabled, and an index outside of the vector is undefined. The counter `_size`,
which nothing reads, is left out.

The history `given`, `stored`, `taken`, `returned` and `unread` is read by no step.
-/

namespace NetworkCode.LinuxChat

open StepResult

variable {α : Type*}

/-- Where the caller of `PutData` stands. -/
inductive Putting (α : Type*) where
  /-- Outside of `PutData`. -/
  | out
  /-- Before `sem_wait(&_blank)`. -/
  | waiting (inmsg : α)
  /-- Before `pool[productStep] = inmsg`. -/
  | writing (inmsg : α)
  /-- Before the update of `productStep`. -/
  | stepping
  /-- Before `sem_post(&_data)`. -/
  | posting
  deriving DecidableEq, Repr

/-- Where the caller of `GetData` stands. -/
inductive Getting (α : Type*) where
  /-- Outside of `GetData`. -/
  | out
  /-- Before `sem_wait(&_data)`. -/
  | waiting
  /-- Before `outmsg = pool[consumStep]`. -/
  | reading
  /-- Before the update of `consumStep`. -/
  | stepping (outmsg : α)
  /-- Before `sem_post(&_blank)`. -/
  | posting (outmsg : α)
  deriving DecidableEq, Repr

/-- `Pool`, its two callers and the history. -/
structure Pool (α : Type*) where
  slots : List α
  cap : Nat
  productStep : Nat
  consumStep : Nat
  blank : Nat
  data : Nat
  putting : Putting α
  getting : Getting α
  /-- The strings `PutData` was called with. -/
  given : List α
  /-- The strings that were written to a slot. -/
  stored : List α
  /-- The strings that were read from a slot. -/
  taken : List α
  /-- The strings `GetData` returned. -/
  returned : List α
  /-- Whether a slot was written and not read since. -/
  unread : Nat → Bool

/-- The value that the constructor of `Pool` gives to `_cap`. -/
def poolCap : Nat := 1024

/-- A pool behind its constructor, with the entries of its vector. -/
def Pool.new (slots : List α) : Pool α where
  slots := slots
  cap := poolCap
  productStep := 0
  consumStep := 0
  blank := poolCap
  data := 0
  putting := .out
  getting := .out
  given := []
  stored := []
  taken := []
  returned := []
  unread _ := false

/-- A call of `PutData`. -/
def Pool.putData (p : Pool α) (inmsg : α) : StepResult (Pool α) :=
  match p.putting with
  | .out => next { p with putting := .waiting inmsg, given := p.given ++ [inmsg] }
  | _ => disabled

/-- The next step of `PutData`. -/
def Pool.put (p : Pool α) : StepResult (Pool α) :=
  match p.putting with
  | .out => disabled
  | .waiting inmsg =>
    if 0 < p.blank then next { p with blank := p.blank - 1, putting := .writing inmsg }
    else disabled
  | .writing inmsg =>
    if p.productStep < p.slots.length then
      next { p with
        slots := p.slots.set p.productStep inmsg
        putting := .stepping
        stored := p.stored ++ [inmsg]
        unread := Function.update p.unread p.productStep true }
    else undefined
  | .stepping =>
    next { p with productStep := (p.productStep + 1) % p.cap, putting := .posting }
  | .posting => next { p with data := p.data + 1, putting := .out }

/-- A call of `GetData`. -/
def Pool.getData (p : Pool α) : StepResult (Pool α) :=
  match p.getting with
  | .out => next { p with getting := .waiting }
  | _ => disabled

/-- The next step of `GetData`. -/
def Pool.get (p : Pool α) : StepResult (Pool α) :=
  match p.getting with
  | .out => disabled
  | .waiting =>
    if 0 < p.data then next { p with data := p.data - 1, getting := .reading } else disabled
  | .reading =>
    (ofAccess p.slots[p.consumStep]?).bind fun outmsg =>
      next { p with
        getting := .stepping outmsg
        taken := p.taken ++ [outmsg]
        unread := Function.update p.unread p.consumStep false }
  | .stepping outmsg =>
    next { p with consumStep := (p.consumStep + 1) % p.cap, getting := .posting outmsg }
  | .posting outmsg =>
    next { p with
      blank := p.blank + 1
      getting := .out
      returned := p.returned ++ [outmsg] }

/-- The steps of the two callers. -/
inductive Pool.Action (α : Type*) where
  | putData (inmsg : α)
  | put
  | getData
  | get
  deriving DecidableEq, Repr

/-- One step of one of the callers. -/
def Pool.step (p : Pool α) : Pool.Action α → StepResult (Pool α)
  | .putData inmsg => p.putData inmsg
  | .put => p.put
  | .getData => p.getData
  | .get => p.get

/-- The caller of `PutData` waits for a free slot. -/
def Pool.PutBlocked (p : Pool α) : Prop := (∃ inmsg, p.putting = .waiting inmsg) ∧ p.blank = 0

/-- The caller of `GetData` waits for a message. -/
def Pool.GetBlocked (p : Pool α) : Prop := p.getting = .waiting ∧ p.data = 0

/-! ## What goes in and what comes out -/

/-- What `GetData` is about to return. -/
def Getting.returning : Getting α → List α
  | .posting outmsg => [outmsg]
  | _ => []

variable {p q : Pool α}

/-- A call of `PutData` gives its string to the pool, and nothing is returned. -/
theorem given_returned_putData {inmsg : α} (h : p.putData inmsg = next q) :
    q.given = p.given ++ [inmsg] ∧ q.returned = p.returned := by
  unfold Pool.putData at h
  split at h
  · cases h
    exact ⟨rfl, rfl⟩
  · cases h

/-- The steps of `PutData` give nothing more and return nothing. -/
theorem given_returned_put (h : p.put = next q) :
    q.given = p.given ∧ q.returned = p.returned := by
  unfold Pool.put at h
  split at h
  · cases h
  · split at h <;> cases h
    exact ⟨rfl, rfl⟩
  · split at h <;> cases h
    exact ⟨rfl, rfl⟩
  · cases h
    exact ⟨rfl, rfl⟩
  · cases h
    exact ⟨rfl, rfl⟩

/-- A call of `GetData` returns nothing yet. -/
theorem given_returned_getData (h : p.getData = next q) :
    q.given = p.given ∧ q.returned = p.returned := by
  unfold Pool.getData at h
  split at h
  · cases h
    exact ⟨rfl, rfl⟩
  · cases h

/-- The last step of `GetData` returns what was taken. -/
theorem given_returned_get (h : p.get = next q) :
    q.given = p.given ∧ q.returned = p.returned ++ p.getting.returning := by
  unfold Pool.get at h
  split at h <;> rename_i hget <;> rw [hget]
  · cases h
  · split at h <;> cases h
    exact ⟨rfl, (List.append_nil _).symm⟩
  · obtain ⟨outmsg, -, hq⟩ := bind_eq_next.mp h
    cases hq
    exact ⟨rfl, (List.append_nil _).symm⟩
  · cases h
    exact ⟨rfl, (List.append_nil _).symm⟩
  · cases h
    exact ⟨rfl, rfl⟩

end NetworkCode.LinuxChat
