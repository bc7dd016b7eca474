import Mathlib.Logic.Relation

/-!
# Executable transition systems with undefined behaviour

A step function takes a state and a labelled action to one of three results:
the action is not enabled, it is enabled but its code has undefined behaviour,
or it leads to a next state. Nondeterminism lives in the labels, so a run is a
list of actions and can be evaluated.

Runs are restricted by a guard on the state before each step and its action.
Properties of every state on every such run follow from one induction.
-/

namespace NetworkCode

/-- The result of attempting one labelled action in a state. -/
inductive StepResult (σ : Type*) where
  /-- The action cannot happen in this state. -/
  | disabled
  /-- The code behind the action has no defined meaning in this state. -/
  | undefined
  /-- The action leads to this state. -/
  | next (s : σ)
  deriving DecidableEq, Repr

namespace StepResult

variable {σ τ : Type*}

/-- Continue with the state that was reached, if there is one. -/
def bind (r : StepResult σ) (f : σ → StepResult τ) : StepResult τ :=
  match r with
  | disabled => disabled
  | undefined => undefined
  | next s => f s

/-- An access that must succeed: `none` is undefined behaviour. -/
def ofAccess (o : Option σ) : StepResult σ :=
  match o with
  | none => undefined
  | some s => next s

@[simp] theorem bind_next (s : σ) (f : σ → StepResult τ) : (next s).bind f = f s := rfl

@[simp] theorem bind_disabled (f : σ → StepResult τ) :
    (disabled : StepResult σ).bind f = disabled := rfl

@[simp] theorem bind_undefined (f : σ → StepResult τ) :
    (undefined : StepResult σ).bind f = undefined := rfl

@[simp] theorem ofAccess_some (s : σ) : ofAccess (some s) = next s := rfl

@[simp] theorem ofAccess_none : ofAccess (none : Option σ) = undefined := rfl

/-- A sequence leads to a state exactly when both of its parts do. -/
theorem bind_eq_next {r : StepResult σ} {f : σ → StepResult τ} {t : τ} :
    r.bind f = next t ↔ ∃ s, r = next s ∧ f s = next t := by
  cases r <;> simp

/-- A sequence is undefined when one of its parts is. -/
theorem bind_eq_undefined {r : StepResult σ} {f : σ → StepResult τ} :
    r.bind f = undefined ↔ r = undefined ∨ ∃ s, r = next s ∧ f s = undefined := by
  cases r <;> simp

/-- An access succeeds when there is something. -/
@[simp] theorem ofAccess_eq_next {o : Option σ} {s : σ} : ofAccess o = next s ↔ o = some s := by
  cases o <;> simp

/-- An access is undefined when there is nothing. -/
@[simp] theorem ofAccess_eq_undefined {o : Option σ} : ofAccess o = undefined ↔ o = none := by
  cases o <;> simp

/-- Whether the action can happen. -/
def isEnabled (r : StepResult σ) : Bool :=
  match r with
  | disabled => false
  | _ => true

/-- An action is enabled unless it cannot happen. -/
theorem isEnabled_iff {r : StepResult σ} : r.isEnabled = true ↔ r ≠ disabled := by
  cases r <;> simp [isEnabled]

/-- The state that was reached, if there is one. -/
def state? (r : StepResult σ) : Option σ :=
  match r with
  | next s => some s
  | _ => none

/-- What is read off a reached state holds of one. -/
theorem exists_next_of_map {r : StepResult σ} {f : σ → τ} {v : τ}
    (h : r.state?.map f = some v) : ∃ s, r = next s ∧ f s = v := by
  cases r with
  | next s => exact ⟨s, rfl, Option.some.inj h⟩
  | disabled => cases h
  | undefined => cases h

end StepResult

open StepResult

variable {σ α : Type*}

/-- The states reached from `s` by steps that all satisfy the guard `ok`, a
condition on the state before the step and its action. -/
inductive Reaches (step : σ → α → StepResult σ) (ok : σ → α → Prop) (s : σ) : σ → Prop
  /-- The empty run. -/
  | refl : Reaches step ok s s
  /-- One more guarded step. -/
  | tail {t u : σ} {a : α} :
      Reaches step ok s t → ok t a → step t a = next u → Reaches step ok s u

namespace Reaches

variable {step : σ → α → StepResult σ} {ok : σ → α → Prop} {s t u : σ}

/-- What holds at the start and is kept by every guarded step holds on every guarded run. -/
theorem invariant {I : σ → Prop} (h : Reaches step ok s t) (h0 : I s)
    (hstep : ∀ t a u, I t → ok t a → step t a = next u → I u) : I t := by
  induction h with
  | refl => exact h0
  | tail _ hok hs ih => exact hstep _ _ _ ih hok hs

/-- An invariant may use another one that already holds on every guarded run. -/
theorem invariant_with {Base I : σ → Prop} (h : Reaches step ok s t)
    (hbase : ∀ t, Reaches step ok s t → Base t) (h0 : I s)
    (hstep : ∀ t a u, Base t → I t → ok t a → step t a = next u → I u) : I t := by
  induction h with
  | refl => exact h0
  | tail hr hok hs ih => exact hstep _ _ _ (hbase _ hr) ih hok hs

/-- Runs compose. -/
theorem trans (h : Reaches step ok s t) (h' : Reaches step ok t u) : Reaches step ok s u := by
  induction h' with
  | refl => exact h
  | tail _ hok hs ih => exact tail ih hok hs

/-- Where each guarded step has a run of another system beside it, so has each run. -/
theorem simulation {σ' α' : Type*} {step' : σ' → α' → StepResult σ'} {ok' : σ' → α' → Prop}
    {R : σ → σ' → Prop} {s' : σ'} (h : Reaches step ok s t) (h0 : R s s')
    (hstep : ∀ t t' a u, R t t' → ok t a → step t a = next u →
      ∃ u', Reaches step' ok' t' u' ∧ R u u') : ∃ t', Reaches step' ok' s' t' ∧ R t t' := by
  induction h with
  | refl => exact ⟨s', refl, h0⟩
  | tail _ hok hs ih =>
    obtain ⟨t', ht', hR⟩ := ih
    obtain ⟨u', hu', hR'⟩ := hstep _ t' _ _ hR hok hs
    exact ⟨u', ht'.trans hu', hR'⟩

/-- A run is empty or begins with a step. -/
theorem cases_first (h : Reaches step ok s t) :
    s = t ∨ ∃ a u, step s a = next u ∧ Reaches step ok u t := by
  induction h with
  | refl => exact .inl rfl
  | tail _ hok hs ih =>
    obtain rfl | ⟨a, u, hfirst, hrest⟩ := ih
    · exact .inr ⟨_, _, hs, refl⟩
    · exact .inr ⟨a, u, hfirst, tail hrest hok hs⟩

/-- Of two runs of a system that has no choice one goes on where the other one has come to. -/
theorem linear {step : σ → Unit → StepResult σ} {ok : σ → Unit → Prop}
    (h : Reaches step ok s t) (h' : Reaches step ok s u) :
    Reaches step ok t u ∨ Reaches step ok u t := by
  induction h with
  | refl => exact .inl h'
  | tail _ hok hs ih =>
    rcases ih with hahead | hbehind
    · obtain rfl | ⟨_, v, hfirst, hrest⟩ := hahead.cases_first
      · exact .inr (tail refl hok hs)
      · cases hs.symm.trans hfirst
        exact .inl hrest
    · exact .inr (tail hbehind hok hs)

/-- Where a system without choices comes to its end there is only one end. -/
theorem eq_of_ended {step : σ → Unit → StepResult σ} {ok : σ → Unit → Prop}
    (h : Reaches step ok s t) (h' : Reaches step ok s u) (ht : ∀ v, step t () ≠ next v)
    (hu : ∀ v, step u () ≠ next v) : t = u := by
  rcases h.linear h' with hrest | hrest
  · obtain he | ⟨_, v, hfirst, -⟩ := hrest.cases_first
    · exact he
    · exact absurd hfirst (ht v)
  · obtain he | ⟨_, v, hfirst, -⟩ := hrest.cases_first
    · exact he.symm
    · exact absurd hfirst (hu v)

end Reaches

/-- The states reached from `s`, each with the actions that lead there. -/
inductive Runs (step : σ → α → StepResult σ) (s : σ) : List α → σ → Prop
  /-- The empty run. -/
  | nil : Runs step s [] s
  /-- One more step. -/
  | snoc {t u : σ} {as : List α} {a : α} :
      Runs step s as t → step t a = next u → Runs step s (as ++ [a]) u

/-- A reached state has a run that leads there. -/
theorem Reaches.exists_runs {step : σ → α → StepResult σ} {ok : σ → α → Prop} {s t : σ}
    (h : Reaches step ok s t) : ∃ as, Runs step s as t := by
  induction h with
  | refl => exact ⟨[], .nil⟩
  | tail _ _ hs ih =>
    obtain ⟨as, has⟩ := ih
    exact ⟨_, .snoc has hs⟩

/-- The guarded runs from `s`, each with what is seen before its steps. -/
inductive Traces {ω : Type*} (step : σ → α → StepResult σ) (ok : σ → α → Prop)
    (see : σ → α → List ω) (s : σ) : List ω → σ → Prop
  /-- The empty run. -/
  | nil : Traces step ok see s [] s
  /-- One more guarded step. -/
  | snoc {t u : σ} {os : List ω} {a : α} : Traces step ok see s os t → ok t a →
      step t a = next u → Traces step ok see s (os ++ see t a) u

namespace Traces

variable {ω : Type*} {step : σ → α → StepResult σ} {ok : σ → α → Prop} {see : σ → α → List ω}
  {s t : σ} {os : List ω}

/-- What relates the empty trace to the start and is kept by every guarded step relates every
trace to the state that was reached. -/
theorem invariant {I : List ω → σ → Prop} (h : Traces step ok see s os t) (h0 : I [] s)
    (hstep : ∀ os t a u, I os t → ok t a → step t a = next u → I (os ++ see t a) u) :
    I os t := by
  induction h with
  | nil => exact h0
  | snoc _ hok hs ih => exact hstep _ _ _ _ ih hok hs

end Traces

/-- Whatever is looked at, a reached state has a run on which something is seen. -/
theorem Reaches.exists_traces {ω : Type*} {step : σ → α → StepResult σ} {ok : σ → α → Prop}
    {s t : σ} (h : Reaches step ok s t) (see : σ → α → List ω) :
    ∃ os, Traces step ok see s os t := by
  induction h with
  | refl => exact ⟨[], .nil⟩
  | tail _ hok hs ih =>
    obtain ⟨os, hos⟩ := ih
    exact ⟨_, hos.snoc hok hs⟩

section

variable (step : σ → α → StepResult σ) (ok : σ → α → Prop) [∀ s a, Decidable (ok s a)]

/-- Execute a list of actions, stopping at the first one that violates the guard
or is not a step. -/
def runGuarded (s : σ) : List α → StepResult σ
  | [] => next s
  | a :: as => if ok s a then (step s a).bind fun t => runGuarded t as else disabled

/-- An executed list of actions is a guarded run. -/
theorem Reaches.of_runGuarded {s t : σ} {as : List α} (h : runGuarded step ok s as = next t) :
    Reaches step ok s t := by
  induction as generalizing s with
  | nil =>
    obtain rfl : s = t := by simpa [runGuarded] using h
    exact refl
  | cons a as ih =>
    rw [runGuarded] at h
    split at h
    · rename_i hok
      obtain ⟨u, hu, hrest⟩ := bind_eq_next.mp h
      exact (tail refl hok hu).trans (ih hrest)
    · cases h

/-- Execute a list of actions and collect what is seen before them behind `os`. -/
def traceGuarded {ω : Type*} (see : σ → α → List ω) (os : List ω) (s : σ) :
    List α → StepResult (List ω × σ)
  | [] => next (os, s)
  | a :: as =>
    if ok s a then (step s a).bind fun t => traceGuarded see (os ++ see s a) t as else disabled

/-- An executed list of actions continues a trace. -/
theorem Traces.of_traceGuarded {ω : Type*} {see : σ → α → List ω} {s t : σ} {os : List ω}
    {as : List α} {r : List ω × σ} (h : Traces step ok see s os t)
    (hrun : traceGuarded step ok see os t as = next r) : Traces step ok see s r.1 r.2 := by
  induction as generalizing os t with
  | nil =>
    cases hrun
    exact h
  | cons a as ih =>
    rw [traceGuarded] at hrun
    split at hrun
    · rename_i hok
      obtain ⟨v, hv, hrest⟩ := bind_eq_next.mp hrun
      exact ih (h.snoc hok hv) hrest
    · cases hrun

end

end NetworkCode
