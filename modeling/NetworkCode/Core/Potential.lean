import NetworkCode.Core.Lists
import NetworkCode.Core.Transition
import Mathlib.Algebra.BigOperators.Group.List.Basic
import Mathlib.Algebra.Order.Group.Nat
import Mathlib.Data.List.Nodup
import Mathlib.Tactic.Ring

/-!
# Potentials of transition systems

A potential pays for work that is done later. When each step does at most the work that
the potential loses and its action brings in, the work of a whole run is at most what the
potential was at the start and what all actions brought in. The potential of a table of
threads is the sum over its entries.
-/

namespace NetworkCode

open StepResult

variable {σ α : Type*} {step : σ → α → StepResult σ}

/-- When each action that is work lowers the potential and only others that give credit raise it,
the work of a run is paid by the potential it uses up and by its credit. -/
theorem Runs.countP_le {work credit : α → Bool} {potential : σ → Int} {s t : σ} {as : List α}
    (h : Runs step s as t) (hstep : ∀ s a t, step s a = next t →
      indicator work a + potential t ≤ potential s + indicator credit a) :
    as.countP work + potential t ≤ potential s + as.countP credit := by
  induction h with
  | nil => simp
  | @snoc u v as a _ hs ih =>
    have hlast := hstep u a v hs
    rw [countP_concat, countP_concat]
    omega

/-- The state at the end of a run is reached. -/
theorem Runs.reaches {s t : σ} {as : List α} (h : Runs step s as t) :
    Reaches step (fun _ _ => True) s t := by
  induction h with
  | nil => exact .refl
  | snoc _ hs ih => exact .tail ih trivial hs

namespace Traces

variable {ok : σ → α → Prop} {s t : σ}

/-- A trace of the actions is a run. -/
theorem runs {as : List α} (h : Traces step ok (fun _ a => [a]) s as t) : Runs step s as t := by
  induction h with
  | nil => exact .nil
  | snoc _ _ hs ih => exact .snoc ih hs

/-- The state at the end of a trace is reached. -/
theorem reaches {ω : Type*} {see : σ → α → List ω} {os : List ω}
    (h : Traces step ok see s os t) : Reaches step ok s t := by
  induction h with
  | nil => exact .refl
  | snoc _ hok hs ih => exact .tail ih hok hs

/-- What the guard says of an action holds of all actions of a trace. -/
theorem forall_mem {as : List α} (h : Traces step ok (fun _ a => [a]) s as t) {P : α → Prop}
    (hok : ∀ s a, ok s a → P a) : ∀ a ∈ as, P a := by
  induction h with
  | nil => exact List.forall_mem_nil _
  | snoc _ ha _ ih =>
    rw [List.forall_mem_append, List.forall_mem_singleton]
    exact ⟨ih, hok _ _ ha⟩

end Traces

/-- Runs under a stronger guard are runs under a weaker one. -/
theorem Reaches.mono {ok ok' : σ → α → Prop} {s t : σ} (h : Reaches step ok s t)
    (hok : ∀ s a, ok s a → ok' s a) : Reaches step ok' s t := by
  induction h with
  | refl => exact .refl
  | tail _ ha hs ih => exact .tail ih (hok _ _ ha) hs

/-- Replacing an entry of a table moves its sum by the difference. -/
theorem sum_map_set {β : Type*} (f : β → Nat) {l : List β} {i : Nat} {a : β} (h : l[i]? = some a)
    (b : β) : ((l.set i b).map f).sum + f a = (l.map f).sum + f b := by
  induction l generalizing i with
  | nil => cases h
  | cons c l ih =>
    cases i with
    | zero =>
      obtain rfl : c = a := by simpa using h
      simp only [List.set_cons_zero, List.map_cons, List.sum_cons]
      ring
    | succ i =>
      have hrest := ih (i := i) (by simpa using h)
      simp only [List.set_cons_succ, List.map_cons, List.sum_cons]
      omega

/-- Different positive numbers are the successors of different numbers. -/
theorem exists_eq_map_succ {is : List Nat} (h : is.Nodup) (hzero : 0 ∉ is) :
    ∃ js : List Nat, js.Nodup ∧ is = js.map Nat.succ := by
  have hsucc : (is.map Nat.pred).map Nat.succ = is := by
    rw [List.map_map]
    refine (List.map_congr_left fun i hi => ?_).trans (List.map_id is)
    exact Nat.succ_pred fun h0 => hzero (h0 ▸ hi)
  refine ⟨is.map Nat.pred, ?_, hsucc.symm⟩
  rw [← hsucc] at h
  exact List.Nodup.of_map Nat.succ h

/-- What some entries of a table are worth at least is at most its sum. -/
theorem sum_map_le_sum_map {β : Type*} {f : β → Nat} {g : Nat → Nat} {l : List β} {is : List Nat}
    (hnodup : is.Nodup) (h : ∀ i ∈ is, ∃ b, l[i]? = some b ∧ g i ≤ f b) :
    (is.map g).sum ≤ (l.map f).sum := by
  induction l generalizing is g with
  | nil =>
    have hnone : is = [] := List.eq_nil_iff_forall_not_mem.mpr fun i hi => by
      obtain ⟨b, hb, -⟩ := h i hi
      cases hb
    rw [hnone]
    exact Nat.le_refl _
  | cons a l ih =>
    have hrest {ks : List Nat} (hks : ks.Nodup) (hzero : 0 ∉ ks) (hsub : ∀ k ∈ ks, k ∈ is) :
        (ks.map g).sum ≤ (l.map f).sum := by
      obtain ⟨js, hjs, rfl⟩ := exists_eq_map_succ hks hzero
      rw [List.map_map]
      exact ih hjs fun j hj => h _ (hsub _ (List.mem_map_of_mem hj))
    rw [List.map_cons, List.sum_cons]
    by_cases hzero : 0 ∈ is
    · obtain ⟨b, hb, hle⟩ := h 0 hzero
      obtain rfl : a = b := Option.some.inj hb
      have hperm := (List.perm_cons_erase hzero).map g
      rw [hperm.sum_eq, List.map_cons, List.sum_cons]
      have hothers := hrest (hnodup.erase 0) hnodup.not_mem_erase fun _ => List.mem_of_mem_erase
      omega
    · have hothers := hrest hnodup hzero fun k hk => hk
      omega

end NetworkCode
