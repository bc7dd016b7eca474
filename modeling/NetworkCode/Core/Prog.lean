import Mathlib.Order.Basic
import Mathlib.Data.List.Infix

/-!
# Imperative programs that can block, fail or run for ever

A program turns a state into a result and a new state. It is executed with a
bound on its loop iterations, and a bound that was enough stays enough, so a
program has at most one final result. The state is returned in every case: a
run that blocks or exhausts its bound still shows what it did.

`Returns` is the final result of a terminating run. `Always` and `Eventually`
speak about the states shown by runs that need not terminate.
-/

namespace NetworkCode

/-- How the execution of a program ends. -/
inductive Outcome (α : Type) where
  | done (a : α)
  /-- The program waits for something that never happens. -/
  | blocked
  /-- A signal ends the process. -/
  | killed
  /-- The program has no defined meaning from here on. -/
  | undefined
  /-- The bound on the loop iterations is used up. -/
  | outOfFuel
  deriving DecidableEq, Repr

namespace Outcome

variable {σ α β : Type}

/-- Continue with the value and the state of a finished run. -/
def andThen (r : Outcome α × σ) (f : α → σ → Outcome β × σ) : Outcome β × σ :=
  match r with
  | (done a, s) => f a s
  | (blocked, s) => (blocked, s)
  | (killed, s) => (killed, s)
  | (undefined, s) => (undefined, s)
  | (outOfFuel, s) => (outOfFuel, s)

@[simp] theorem andThen_done (a : α) (s : σ) (f : α → σ → Outcome β × σ) :
    andThen (done a, s) f = f a s := rfl

/-- A sequence ends with a value exactly when both of its parts do. -/
theorem andThen_eq_done {r : Outcome α × σ} {f : α → σ → Outcome β × σ} {b : β} {t : σ} :
    andThen r f = (done b, t) ↔ ∃ a s, r = (done a, s) ∧ f a s = (done b, t) := by
  obtain ⟨o, s⟩ := r
  cases o <;> simp [andThen]

/-- Three parts in a row. -/
theorem andThen_assoc {γ : Type} (r : Outcome α × σ) (f : α → σ → Outcome β × σ)
    (g : β → σ → Outcome γ × σ) :
    andThen (andThen r f) g = andThen r fun a s => andThen (f a s) g := by
  obtain ⟨o, s⟩ := r
  cases o <;> rfl

/-- The state a sequence shows comes from its first part or from its second. -/
theorem andThen_snd {r : Outcome α × σ} {f : α → σ → Outcome β × σ} {P : σ → Prop}
    (hr : P r.2) (hf : ∀ a s, r = (done a, s) → P (f a s).2) : P (andThen r f).2 := by
  obtain ⟨o, s⟩ := r
  cases o with
  | done a => exact hf a s rfl
  | blocked => exact hr
  | killed => exact hr
  | undefined => exact hr
  | outOfFuel => exact hr

/-- A sequence that did not run out of fuel is unchanged when its parts are. -/
theorem andThen_stable {r r' : Outcome α × σ} {f f' : α → σ → Outcome β × σ}
    (h : (andThen r f).1 ≠ outOfFuel) (hr : r.1 ≠ outOfFuel → r' = r)
    (hf : ∀ a s, (f a s).1 ≠ outOfFuel → f' a s = f a s) : andThen r' f' = andThen r f := by
  obtain ⟨o, s⟩ := r
  cases o with
  | done a =>
    rw [hr (by simp)]
    exact hf a s h
  | blocked => rw [hr (by simp)]; rfl
  | killed => rw [hr (by simp)]; rfl
  | undefined => rw [hr (by simp)]; rfl
  | outOfFuel => exact absurd rfl h

end Outcome

open Outcome

/-- A program over the state `σ`. More fuel never changes a run that had enough. -/
@[ext]
structure Prog (σ α : Type) where
  run : Nat → σ → Outcome α × σ
  stable : ∀ n s, (run n s).1 ≠ outOfFuel → run (n + 1) s = run n s

namespace Prog

variable {σ α β : Type}

/-- One step on the state that uses no fuel. -/
def ofStep (f : σ → Outcome α × σ) : Prog σ α where
  run _ s := f s
  stable _ _ _ := rfl

instance : Monad (Prog σ) where
  pure a := ofStep fun s => (done a, s)
  bind p f :=
    { run := fun n s => andThen (p.run n s) fun a t => (f a).run n t
      stable := fun n s h => andThen_stable h (p.stable n s) fun a t => (f a).stable n t }

/-- Change the state. -/
def modify (f : σ → σ) : Prog σ Unit := ofStep fun s => (done (), f s)

/-- Behaviour the language leaves undefined. -/
def undefinedBehaviour : Prog σ α := ofStep fun s => (undefined, s)

/-- The runs of a loop: one unit of fuel for every iteration. -/
def whileRun (cond : β → Prog σ Bool) (body : β → Prog σ β) : Nat → β → σ → Outcome β × σ
  | 0, _, s => (outOfFuel, s)
  | n + 1, x, s =>
    andThen ((cond x).run n s) fun go t =>
      if go then andThen ((body x).run n t) (whileRun cond body n) else (done x, t)

/-- A loop that ends within its bound ends the same within a larger one. -/
theorem whileRun_stable (cond : β → Prog σ Bool) (body : β → Prog σ β) (n : Nat) (x : β) (s : σ)
    (h : (whileRun cond body n x s).1 ≠ outOfFuel) :
    whileRun cond body (n + 1) x s = whileRun cond body n x s := by
  induction n generalizing x s with
  | zero => exact absurd rfl h
  | succ n ih =>
    rw [whileRun] at h
    rw [whileRun, whileRun]
    refine andThen_stable h ((cond x).stable n s) fun go t hgo => ?_
    cases go with
    | false => rfl
    | true => exact andThen_stable hgo ((body x).stable n t) ih

/-- Repeat `body` on the local variables as long as `cond` holds. -/
def whileLoop (cond : β → Prog σ Bool) (body : β → Prog σ β) (x : β) : Prog σ β where
  run n s := whileRun cond body n x s
  stable n s := whileRun_stable cond body n x s

theorem run_pure (n : Nat) (a : α) (s : σ) : (pure a : Prog σ α).run n s = (done a, s) := rfl

theorem run_bind (n : Nat) (p : Prog σ α) (f : α → Prog σ β) (s : σ) :
    (p >>= f).run n s = andThen (p.run n s) fun a t => (f a).run n t := rfl

/-- A turn of the loop. -/
theorem run_whileLoop_succ (n : Nat) (cond : β → Prog σ Bool) (body : β → Prog σ β) (x : β)
    (s : σ) : (whileLoop cond body x).run (n + 1) s =
      andThen ((cond x).run n s) fun go t =>
        if go then andThen ((body x).run n t) fun y u => (whileLoop cond body y).run n u
        else (done x, t) := rfl

/-- Sequences are associative. -/
protected theorem bind_assoc {γ : Type} (p : Prog σ α) (f : α → Prog σ β) (g : β → Prog σ γ) :
    p >>= f >>= g = p >>= fun a => f a >>= g := by
  ext n s : 3
  exact andThen_assoc _ _ _

/-- Any larger bound gives the same run. -/
theorem run_mono (p : Prog σ α) {n m : Nat} {s : σ} (h : (p.run n s).1 ≠ outOfFuel)
    (hle : n ≤ m) : p.run m s = p.run n s := by
  induction m, hle using Nat.le_induction with
  | base => rfl
  | succ m _ ih => rw [p.stable m s (ih ▸ h), ih]

/-! ### Terminating runs -/

/-- The program terminates with this value in this state. -/
def Returns (p : Prog σ α) (s : σ) (a : α) (t : σ) : Prop := ∃ n, p.run n s = (done a, t)

/-- The program terminates. -/
def Halts (p : Prog σ α) (s : σ) : Prop := ∃ a t, p.Returns s a t

variable {p : Prog σ α} {f : α → Prog σ β} {s t u : σ} {a b : α}

/-- A result stays with a larger bound. -/
theorem Returns.run_of_le {n m : Nat} (h : p.run n s = (done a, t)) (hle : n ≤ m) :
    p.run m s = (done a, t) := by
  rw [p.run_mono (by rw [h]; simp) hle, h]

/-- A program has at most one final result. -/
theorem Returns.unique (h : p.Returns s a t) (h' : p.Returns s b u) : a = b ∧ t = u := by
  obtain ⟨n, hn⟩ := h
  obtain ⟨m, hm⟩ := h'
  have hn' := run_of_le hn (Nat.le_max_left n m)
  rw [run_of_le hm (Nat.le_max_right n m)] at hn'
  simpa [eq_comm] using hn'

/-- When a step returns. -/
@[simp] theorem returns_ofStep {f : σ → Outcome α × σ} :
    (ofStep f).Returns s a t ↔ f s = (done a, t) := by
  constructor
  · rintro ⟨_, h⟩
    exact h
  · intro h
    exact ⟨0, h⟩

/-- A program that does nothing returns its value. -/
@[simp] theorem returns_pure : (pure b : Prog σ α).Returns s a t ↔ a = b ∧ t = s := by
  constructor
  · rintro ⟨_, h⟩
    simpa [run_pure, eq_comm] using h
  · rintro ⟨rfl, rfl⟩
    exact ⟨0, rfl⟩

/-- A change of the state returns behind it. -/
@[simp] theorem returns_modify {f : σ → σ} {r : Unit} :
    (modify f).Returns s r t ↔ t = f s := by
  simp [modify, eq_comm]

/-- Undefined behaviour does not return. -/
@[simp] theorem returns_undefinedBehaviour :
    ¬ (undefinedBehaviour : Prog σ α).Returns s a t := by
  simp [undefinedBehaviour]

/-- A sequence terminates exactly when its parts do, one after the other. -/
@[simp] theorem returns_bind {b : β} :
    (p >>= f).Returns s b u ↔ ∃ a t, p.Returns s a t ∧ (f a).Returns t b u := by
  constructor
  · rintro ⟨n, h⟩
    obtain ⟨a, t, hp, hf⟩ := andThen_eq_done.mp h
    exact ⟨a, t, ⟨n, hp⟩, ⟨n, hf⟩⟩
  · rintro ⟨a, t, ⟨n, hp⟩, ⟨m, hf⟩⟩
    refine ⟨max n m, andThen_eq_done.mpr ⟨a, t, ?_, ?_⟩⟩
    · exact Returns.run_of_le hp (Nat.le_max_left n m)
    · exact Returns.run_of_le hf (Nat.le_max_right n m)

/-- Behind a part with a known result only the rest matters. -/
theorem Returns.bind_iff (h : p.Returns s a t) {b : β} :
    (p >>= f).Returns s b u ↔ (f a).Returns t b u := by
  rw [returns_bind]
  constructor
  · rintro ⟨a', t', h', hf⟩
    obtain ⟨rfl, rfl⟩ := h.unique h'
    exact hf
  · intro hf
    exact ⟨a, t, h, hf⟩

section Loop

variable {cond : β → Prog σ Bool} {body : β → Prog σ β} {x y : β}

/-- A loop terminates at once, or after one iteration and the rest of the loop. -/
theorem returns_whileLoop : (whileLoop cond body x).Returns s y u ↔
    ∃ go t, (cond x).Returns s go t ∧
      if go then ∃ z v, (body x).Returns t z v ∧ (whileLoop cond body z).Returns v y u
      else y = x ∧ u = t := by
  constructor
  · rintro ⟨n, h⟩
    cases n with
    | zero => simp [whileLoop, whileRun] at h
    | succ n =>
      obtain ⟨go, t, hc, hb⟩ := andThen_eq_done.mp h
      refine ⟨go, t, ⟨n, hc⟩, ?_⟩
      cases go with
      | false => simpa [eq_comm] using hb
      | true =>
        obtain ⟨z, v, hbody, hrest⟩ := andThen_eq_done.mp hb
        exact ⟨z, v, ⟨n, hbody⟩, ⟨n, hrest⟩⟩
  · rintro ⟨go, t, ⟨n, hc⟩, h⟩
    cases go with
    | false =>
      obtain ⟨rfl, rfl⟩ := h
      refine ⟨n + 1, ?_⟩
      rw [run_whileLoop_succ, hc]
      rfl
    | true =>
      obtain ⟨z, v, ⟨m, hbody⟩, ⟨l, hrest⟩⟩ := h
      refine ⟨max n (max m l) + 1, ?_⟩
      rw [run_whileLoop_succ, Returns.run_of_le hc (by omega), andThen_done,
        if_pos rfl, Returns.run_of_le hbody (by omega), andThen_done,
        Returns.run_of_le hrest (by omega)]

/-- A loop whose test holds makes a turn. -/
theorem returns_whileLoop_of_true (hc : (cond x).Returns s true t) :
    (whileLoop cond body x).Returns s y u ↔
      ∃ z v, (body x).Returns t z v ∧ (whileLoop cond body z).Returns v y u := by
  rw [returns_whileLoop]
  constructor
  · rintro ⟨go, t', hc', h⟩
    obtain ⟨rfl, rfl⟩ := hc.unique hc'
    simpa using h
  · intro h
    exact ⟨true, t, hc, by simpa using h⟩

/-- A loop whose test fails ends. -/
theorem returns_whileLoop_of_false (hc : (cond x).Returns s false t) :
    (whileLoop cond body x).Returns s y u ↔ y = x ∧ u = t := by
  rw [returns_whileLoop]
  constructor
  · rintro ⟨go, t', hc', h⟩
    obtain ⟨rfl, rfl⟩ := hc.unique hc'
    simpa using h
  · intro h
    exact ⟨false, t, hc, by simpa using h⟩

/-- What holds when the test fails, and carries over one iteration backwards,
holds of every terminating run of a loop. -/
theorem Returns.whileLoop_induction {motive : β → σ → Prop}
    (h : (whileLoop cond body x).Returns s y u)
    (exit : ∀ s, (cond y).Returns s false u → motive y s)
    (iterate : ∀ x s t z v, (cond x).Returns s true t → (body x).Returns t z v →
      motive z v → motive x s) : motive x s := by
  obtain ⟨n, h⟩ := h
  induction n generalizing x s with
  | zero => simp [whileLoop, whileRun] at h
  | succ n ih =>
    obtain ⟨go, t, hc, hb⟩ := andThen_eq_done.mp h
    cases go with
    | false =>
      obtain ⟨rfl, rfl⟩ : x = y ∧ t = u := by simpa using hb
      exact exit s ⟨n, hc⟩
    | true =>
      obtain ⟨z, v, hbody, hrest⟩ := andThen_eq_done.mp hb
      exact iterate x s t z v ⟨n, hc⟩ ⟨n, hbody⟩ (ih hrest)

/-- A loop whose iteration changes nothing never terminates. -/
theorem not_returns_whileLoop_of_stuck (hc : (cond x).Returns s true s)
    (hb : (body x).Returns s x s) : ¬ (whileLoop cond body x).Returns s y u := by
  intro h
  refine h.whileLoop_induction (motive := fun x' s' => ¬ (x' = x ∧ s' = s)) ?_ ?_ ⟨rfl, rfl⟩
  · rintro s' hexit ⟨rfl, rfl⟩
    exact absurd (hc.unique hexit).1 (by simp)
  · rintro x' s' t z v hc' hb' hne ⟨rfl, rfl⟩
    obtain ⟨-, rfl⟩ := hc.unique hc'
    obtain ⟨rfl, rfl⟩ := hb.unique hb'
    exact hne ⟨rfl, rfl⟩

end Loop

/-! ### Runs that need not terminate -/

/-- Every state shown by an execution, whatever its bound, has the property. -/
def Always (p : Prog σ α) (s : σ) (P : σ → Prop) : Prop := ∀ n, P (p.run n s).2

/-- Every execution with a large enough bound shows a state with the property. -/
def Eventually (p : Prog σ α) (s : σ) (P : σ → Prop) : Prop := ∃ n, ∀ m ≥ n, P (p.run m s).2

/-- Started in a state with the property, the program shows only states that have it. -/
def Keeps (p : Prog σ α) (P : σ → Prop) : Prop := ∀ s, P s → p.Always s P

variable {P : σ → Prop}

/-- What always holds holds in the end. -/
theorem Always.eventually (h : p.Always s P) : p.Eventually s P := ⟨0, fun m _ => h m⟩

/-- The final state is one of the states shown. -/
theorem Always.of_returns (h : p.Always s P) (hr : p.Returns s a t) : P t := by
  obtain ⟨n, hn⟩ := hr
  have := h n
  rwa [hn] at this

/-- What always holds of both parts holds of the sequence. -/
theorem Always.bind (hp : p.Always s P) (hf : ∀ a t, p.Returns s a t → (f a).Always t P) :
    (p >>= f).Always s P := fun n =>
  andThen_snd (hp n) fun a t h => hf a t ⟨n, h⟩ n

/-- Behind a part that terminates, what the rest shows is shown. -/
theorem Eventually.bind (hp : p.Returns s a t) (hf : (f a).Eventually t P) :
    (p >>= f).Eventually s P := by
  obtain ⟨n, hn⟩ := hp
  obtain ⟨m, hm⟩ := hf
  refine ⟨max n m, fun k hk => ?_⟩
  rw [run_bind, Returns.run_of_le hn (by omega), andThen_done]
  exact hm k (by omega)

theorem keeps_pure : (pure a : Prog σ α).Keeps P := fun _ h _ => h

/-- A step that keeps a property. -/
theorem keeps_ofStep {f : σ → Outcome α × σ} (h : ∀ s, P s → P (f s).2) :
    (ofStep f).Keeps P := fun s hs _ => h s hs

/-- A change that keeps a property. -/
theorem keeps_modify {f : σ → σ} (h : ∀ s, P s → P (f s)) : (modify f).Keeps P :=
  keeps_ofStep h

theorem keeps_undefinedBehaviour : (undefinedBehaviour : Prog σ α).Keeps P :=
  keeps_ofStep fun _ h => h

/-- Only the results that the first part can have matter. -/
theorem Keeps.bind_of_returns (hp : p.Keeps P)
    (hf : ∀ a s t, p.Returns s a t → (f a).Keeps P) : (p >>= f).Keeps P :=
  fun s hs => (hp s hs).bind fun a t h => hf a s t h t ((hp s hs).of_returns h)

/-- A sequence keeps what both parts keep. -/
theorem Keeps.bind (hp : p.Keeps P) (hf : ∀ a, (f a).Keeps P) : (p >>= f).Keeps P :=
  hp.bind_of_returns fun a _ _ _ => hf a

/-- A loop keeps what its test and its body keep. -/
theorem Keeps.whileLoop {cond : β → Prog σ Bool} {body : β → Prog σ β}
    (hc : ∀ x, (cond x).Keeps P) (hb : ∀ x, (body x).Keeps P) (x : β) :
    (whileLoop cond body x).Keeps P := by
  intro s hs n
  induction n generalizing x s with
  | zero => exact hs
  | succ n ih =>
    rw [run_whileLoop_succ]
    refine andThen_snd (hc x s hs n) fun go t ht => ?_
    have hkept : P t := (hc x s hs).of_returns ⟨n, ht⟩
    cases go with
    | false => exact hkept
    | true =>
      refine andThen_snd (hb x t hkept n) fun y u hu => ?_
      exact ih y u ((hb x t hkept).of_returns ⟨n, hu⟩)

/-! ### Programs that run alike -/

/-- With large enough bounds the two executions are the same. -/
def Alike (p : Prog σ α) (s : σ) (q : Prog σ α) (t : σ) : Prop :=
  ∃ n, ∀ m ≥ n, p.run m s = q.run m t

/-- A program runs like itself. -/
theorem Alike.refl (p : Prog σ α) (s : σ) : p.Alike s p s := ⟨0, fun _ _ => rfl⟩

/-- Running alike is symmetric. -/
theorem Alike.symm {q : Prog σ α} (h : p.Alike s q t) : q.Alike t p s := by
  obtain ⟨n, hn⟩ := h
  exact ⟨n, fun m hm => (hn m hm).symm⟩

/-- Running alike is transitive. -/
theorem Alike.trans {q r : Prog σ α} (h : p.Alike s q t) (h' : q.Alike t r u) : p.Alike s r u := by
  obtain ⟨n, hn⟩ := h
  obtain ⟨k, hk⟩ := h'
  refine ⟨max n k, fun m hm => ?_⟩
  rw [hn m (by omega), hk m (by omega)]

/-- Behind a part with a known result a sequence runs like the rest. -/
theorem Returns.alike (h : p.Returns s a t) : (p >>= f).Alike s (f a) t := by
  obtain ⟨n, hn⟩ := h
  refine ⟨n, fun m hm => ?_⟩
  rw [run_bind, Returns.run_of_le hn hm, andThen_done]

/-- Programs that run alike return alike. -/
theorem Alike.returns_iff {q : Prog σ α} (h : p.Alike s q t) :
    p.Returns s a u ↔ q.Returns t a u := by
  have himp {p q : Prog σ α} {s t : σ} (h : p.Alike s q t) (hp : p.Returns s a u) :
      q.Returns t a u := by
    obtain ⟨n, hn⟩ := h
    obtain ⟨k, hk⟩ := hp
    refine ⟨max n k, ?_⟩
    rw [← hn _ (Nat.le_max_left n k), Returns.run_of_le hk (Nat.le_max_right n k)]
  exact ⟨himp h, himp h.symm⟩

/-- Programs that run alike come to the same. -/
theorem Alike.eventually_iff {q : Prog σ α} (h : p.Alike s q t) :
    p.Eventually s P ↔ q.Eventually t P := by
  have himp {p q : Prog σ α} {s t : σ} (h : p.Alike s q t) (hp : p.Eventually s P) :
      q.Eventually t P := by
    obtain ⟨n, hn⟩ := h
    obtain ⟨k, hk⟩ := hp
    refine ⟨max n k, fun m hm => ?_⟩
    rw [← hn m (by omega)]
    exact hk m (by omega)
  exact ⟨himp h, himp h.symm⟩

/-! ### Runs that go no further -/

/-- An execution that ends is a return. -/
theorem returns_of_run {n : Nat} (h : (p.run n s).1 = done a) : p.Returns s a (p.run n s).2 :=
  ⟨n, Prod.ext h rfl⟩

/-- The program goes no further than this state: there it waits for ever, or a signal ends it. -/
def Stalls (p : Prog σ α) (s t : σ) : Prop :=
  ∃ n, p.run n s = (blocked, t) ∨ p.run n s = (killed, t)

/-- What holds of the final state holds of the states shown with a large enough bound. -/
theorem Returns.eventually (h : p.Returns s a t) (ht : P t) : p.Eventually s P := by
  obtain ⟨n, hn⟩ := h
  refine ⟨n, fun m hm => ?_⟩
  rwa [Returns.run_of_le hn hm]

/-- A larger bound does not take a run further that goes no further. -/
theorem Stalls.run_of_le {n m : Nat} (h : p.run n s = (blocked, t) ∨ p.run n s = (killed, t))
    (hle : n ≤ m) : p.run m s = (blocked, t) ∨ p.run m s = (killed, t) := by
  rcases h with h | h
  · exact .inl (by rw [p.run_mono (by rw [h]; simp) hle, h])
  · exact .inr (by rw [p.run_mono (by rw [h]; simp) hle, h])

/-- What holds where a program goes no further holds of it in the end. -/
theorem Stalls.eventually (h : p.Stalls s t) (ht : P t) : p.Eventually s P := by
  obtain ⟨n, hn⟩ := h
  refine ⟨n, fun m hm => ?_⟩
  rcases Stalls.run_of_le hn hm with hrun | hrun <;> rwa [hrun]

/-- A single step that waits, or is ended by a signal. -/
theorem stalls_ofStep {f : σ → Outcome α × σ} (h : f s = (blocked, t) ∨ f s = (killed, t)) :
    (ofStep f).Stalls s t :=
  ⟨0, h⟩

/-- A sequence goes no further where its first part does not. -/
theorem Stalls.bind (h : p.Stalls s t) : (p >>= f).Stalls s t := by
  obtain ⟨n, hn⟩ := h
  refine ⟨n, ?_⟩
  rw [run_bind]
  rcases hn with hn | hn
  · exact .inl (by rw [hn]; rfl)
  · exact .inr (by rw [hn]; rfl)

/-- Behind a part that terminates a sequence goes no further where its rest does not. -/
theorem Returns.bind_stalls (h : p.Returns s a t) (hf : (f a).Stalls t u) :
    (p >>= f).Stalls s u := by
  obtain ⟨n, hn⟩ := h
  obtain ⟨m, hm⟩ := hf
  refine ⟨max n m, ?_⟩
  rw [run_bind, Returns.run_of_le hn (Nat.le_max_left n m), andThen_done]
  exact Stalls.run_of_le hm (Nat.le_max_right n m)

/-- A loop goes no further than its body. -/
theorem stalls_whileLoop_of_body {cond : β → Prog σ Bool} {body : β → Prog σ β} {x : β}
    (hc : (cond x).Returns s true t) (hb : (body x).Stalls t u) :
    (whileLoop cond body x).Stalls s u := by
  obtain ⟨n, hn⟩ := hc
  obtain ⟨m, hm⟩ := hb
  refine ⟨max n m + 1, ?_⟩
  rw [run_whileLoop_succ, Returns.run_of_le hn (Nat.le_max_left n m), andThen_done, if_pos rfl]
  rcases Stalls.run_of_le hm (Nat.le_max_right n m) with hrun | hrun
  · exact .inl (by rw [hrun]; rfl)
  · exact .inr (by rw [hrun]; rfl)

/-- A loop goes no further than the iterations behind its first one. -/
theorem stalls_whileLoop_of_rest {cond : β → Prog σ Bool} {body : β → Prog σ β} {x z : β}
    {v : σ} (hc : (cond x).Returns s true t) (hb : (body x).Returns t z v)
    (hrest : (whileLoop cond body z).Stalls v u) : (whileLoop cond body x).Stalls s u := by
  obtain ⟨n, hn⟩ := hc
  obtain ⟨m, hm⟩ := hb
  obtain ⟨l, hl⟩ := hrest
  refine ⟨max n (max m l) + 1, ?_⟩
  rw [run_whileLoop_succ, Returns.run_of_le hn (by omega), andThen_done, if_pos rfl,
    Returns.run_of_le hm (by omega), andThen_done]
  exact Stalls.run_of_le hl (by omega)

/-- The run comes to its end in a state with the property: the program terminates there, or goes
no further. -/
def Settles (p : Prog σ α) (s : σ) (P : σ → Prop) : Prop :=
  (∃ a t, p.Returns s a t ∧ P t) ∨ ∃ t, p.Stalls s t ∧ P t

/-- A sequence shows what its first part comes to when the rest keeps it. -/
theorem Settles.bind_keeps (h : p.Settles s P) (hf : ∀ a, (f a).Keeps P) :
    (p >>= f).Eventually s P := by
  rcases h with ⟨a, t, hreturns, ht⟩ | ⟨t, hstalls, ht⟩
  · exact Eventually.bind hreturns (hf a t ht).eventually
  · exact hstalls.bind.eventually ht

/-- A loop comes to what the iterations behind its first one come to. -/
theorem settles_whileLoop_of_rest {cond : β → Prog σ Bool} {body : β → Prog σ β} {x z : β}
    {v : σ} (hc : (cond x).Returns s true t) (hb : (body x).Returns t z v)
    (hrest : (whileLoop cond body z).Settles v P) : (whileLoop cond body x).Settles s P := by
  rcases hrest with ⟨y, u, hreturns, hu⟩ | ⟨u, hstalls, hu⟩
  · exact .inl ⟨y, u, (returns_whileLoop_of_true hc).mpr ⟨z, v, hb, hreturns⟩, hu⟩
  · exact .inr ⟨u, stalls_whileLoop_of_rest hc hb hstalls, hu⟩

/-- What is shown in the long run is shown at the same time. -/
theorem Eventually.exists_both {Q : σ → Prop} (h : p.Eventually s P) (h' : p.Eventually s Q) :
    ∃ t, P t ∧ Q t := by
  obtain ⟨n, hn⟩ := h
  obtain ⟨m, hm⟩ := h'
  exact ⟨_, hn _ (Nat.le_max_left n m), hm _ (Nat.le_max_right n m)⟩

/-! ### Runs without undefined behaviour -/

/-- No execution, whatever its bound, runs into undefined behaviour. -/
def Defined (p : Prog σ α) (s : σ) : Prop := ∀ n, (p.run n s).1 ≠ undefined

/-- Every execution waits for ever or uses up its bound. -/
def NeverStops (p : Prog σ α) (s : σ) : Prop :=
  ∀ n, (p.run n s).1 = blocked ∨ (p.run n s).1 = outOfFuel

/-- Wherever the program is started, no signal ends it. -/
def Unkilled (p : Prog σ α) : Prop := ∀ n s, (p.run n s).1 ≠ killed

/-- A program that terminates nowhere, is defined and is not ended by a signal never stops. -/
theorem Defined.neverStops (h : p.Defined s) (hkilled : p.Unkilled) (hhalts : ¬ p.Halts s) :
    p.NeverStops s := by
  intro n
  cases hrun : p.run n s with
  | mk o t =>
    cases o with
    | done a => exact absurd ⟨a, t, n, hrun⟩ hhalts
    | blocked => exact .inl rfl
    | killed => exact absurd (congrArg Prod.fst hrun) (hkilled n s)
    | undefined => exact absurd (congrArg Prod.fst hrun) (h n)
    | outOfFuel => exact .inr rfl

/-- What is behind a part that never stops does not matter. -/
theorem NeverStops.bind (h : p.NeverStops s) : (p >>= f).NeverStops s := by
  intro n
  rw [run_bind]
  cases hrun : p.run n s with
  | mk o t =>
    have ho := h n
    rw [hrun] at ho
    rcases ho with rfl | rfl
    · exact .inl rfl
    · exact .inr rfl

/-- Behind a part that terminates a sequence stops where its rest does. -/
theorem Returns.bind_neverStops (h : p.Returns s a t) (hf : (f a).NeverStops t) :
    (p >>= f).NeverStops s := by
  obtain ⟨n, hn⟩ := h
  intro m
  by_cases hfuel : (p.run m s).1 = outOfFuel
  · rw [run_bind, show p.run m s = (outOfFuel, (p.run m s).2) from Prod.ext hfuel rfl]
    exact .inr rfl
  · have hrun : p.run m s = (done a, t) := by
      rw [← p.run_mono hfuel (Nat.le_max_right n m), Returns.run_of_le hn (Nat.le_max_left n m)]
    rw [run_bind, hrun, andThen_done]
    exact hf m

/-- A step that does not end the process. -/
theorem unkilled_ofStep {f : σ → Outcome α × σ} (h : ∀ s, (f s).1 ≠ killed) :
    (ofStep f).Unkilled :=
  fun _ s => h s

theorem unkilled_pure : (pure a : Prog σ α).Unkilled := unkilled_ofStep fun _ => by simp

theorem unkilled_undefinedBehaviour : (undefinedBehaviour : Prog σ α).Unkilled :=
  unkilled_ofStep fun _ => by simp

/-- A sequence is ended by a signal only if one of its parts is. -/
theorem Unkilled.bind (hp : p.Unkilled) (hf : ∀ a, (f a).Unkilled) : (p >>= f).Unkilled := by
  intro n s hn
  rw [run_bind] at hn
  cases hrun : p.run n s with
  | mk o t =>
    rw [hrun] at hn
    cases o with
    | done a => exact hf a n t hn
    | killed => exact hp n s (congrArg Prod.fst hrun)
    | blocked => cases hn
    | undefined => cases hn
    | outOfFuel => cases hn

/-- A loop is ended by a signal only in its test or in its body. -/
theorem Unkilled.whileLoop {cond : β → Prog σ Bool} {body : β → Prog σ β}
    (hc : ∀ x, (cond x).Unkilled) (hb : ∀ x, (body x).Unkilled) (x : β) :
    (whileLoop cond body x).Unkilled := by
  intro n
  induction n generalizing x with
  | zero =>
    intro s h
    cases h
  | succ n ih =>
    intro s hn
    rw [run_whileLoop_succ] at hn
    cases hrun : (cond x).run n s with
    | mk o t =>
      rw [hrun] at hn
      cases o with
      | done go =>
        cases go with
        | false => cases hn
        | true =>
          rw [andThen_done, if_pos rfl] at hn
          cases hbody : (body x).run n t with
          | mk o u =>
            rw [hbody] at hn
            cases o with
            | done y => exact ih y u hn
            | killed => exact hb x n t (congrArg Prod.fst hbody)
            | blocked => cases hn
            | undefined => cases hn
            | outOfFuel => cases hn
      | killed => exact hc x n s (congrArg Prod.fst hrun)
      | blocked => cases hn
      | undefined => cases hn
      | outOfFuel => cases hn

/-- A program that terminates has run into nothing undefined before. -/
theorem Returns.defined (h : p.Returns s a t) : p.Defined s := by
  obtain ⟨n, hn⟩ := h
  intro m hm
  have hlarge := p.run_mono (by rw [hm]; simp) (Nat.le_max_right n m)
  rw [Returns.run_of_le hn (Nat.le_max_left n m)] at hlarge
  rw [← hlarge] at hm
  cases hm

/-- A step that is defined. -/
theorem defined_ofStep {f : σ → Outcome α × σ} (h : (f s).1 ≠ undefined) : (ofStep f).Defined s :=
  fun _ => h

theorem defined_pure : (pure a : Prog σ α).Defined s := defined_ofStep (by simp)

theorem defined_modify {f : σ → σ} : (modify f).Defined s := defined_ofStep (by simp)

/-- A sequence is defined when its parts are. -/
theorem Defined.bind (hp : p.Defined s) (hf : ∀ a t, p.Returns s a t → (f a).Defined t) :
    (p >>= f).Defined s := by
  intro n hn
  rw [run_bind] at hn
  cases hrun : p.run n s with
  | mk o t =>
    rw [hrun] at hn
    cases o with
    | done a => exact hf a t ⟨n, hrun⟩ n hn
    | undefined => exact hp n (congrArg Prod.fst hrun)
    | blocked => cases hn
    | killed => cases hn
    | outOfFuel => cases hn

/-- The final state of a loop satisfies its invariant. -/
theorem Returns.whileLoop_invariant {cond : β → Prog σ Bool} {body : β → Prog σ β}
    {Inv : β → σ → Prop} {x y : β} (h : (whileLoop cond body x).Returns s y u) (h0 : Inv x s)
    (hcond : ∀ x s go t, Inv x s → (cond x).Returns s go t → Inv x t)
    (hbody : ∀ x s t z v, Inv x s → (cond x).Returns s true t → (body x).Returns t z v → Inv z v) :
    Inv y u := by
  refine h.whileLoop_induction (motive := fun x s => Inv x s → Inv y u) ?_ ?_ h0
  · intro s hexit hs
    exact hcond y s false u hs hexit
  · intro x s t z v hgo hstep ih hs
    exact ih (hbody x s t z v hs hgo hstep)

/-- A loop is defined when its test and its body are wherever its invariant holds. -/
theorem defined_whileLoop {cond : β → Prog σ Bool} {body : β → Prog σ β} (Inv : β → σ → Prop)
    (hcond : ∀ x s, Inv x s → (cond x).Defined s)
    (hbody : ∀ x s t, Inv x s → (cond x).Returns s true t → (body x).Defined t)
    (hkeep : ∀ x s t z v, Inv x s → (cond x).Returns s true t → (body x).Returns t z v → Inv z v)
    {x : β} (h0 : Inv x s) : (whileLoop cond body x).Defined s := by
  intro n
  induction n generalizing x s with
  | zero =>
    intro h
    cases h
  | succ n ih =>
    intro hn
    rw [run_whileLoop_succ] at hn
    cases hc : (cond x).run n s with
    | mk o t =>
      rw [hc] at hn
      cases o with
      | done go =>
        cases go with
        | false => cases hn
        | true =>
          rw [andThen_done, if_pos rfl] at hn
          cases hb : (body x).run n t with
          | mk o v =>
            rw [hb] at hn
            cases o with
            | done z => exact ih (hkeep x s t z v h0 ⟨n, hc⟩ ⟨n, hb⟩) hn
            | undefined => exact hbody x s t h0 ⟨n, hc⟩ n (congrArg Prod.fst hb)
            | blocked => cases hn
            | killed => cases hn
            | outOfFuel => cases hn
      | undefined => exact hcond x s h0 n (congrArg Prod.fst hc)
      | blocked => cases hn
      | killed => cases hn
      | outOfFuel => cases hn

end Prog
end NetworkCode
