import NetworkCode.Httpd.Server

/-!
# The events that functions record

What a function does is in the trace, also in that of a run that has not ended. Which events a
function can record is found call by call, for any property of events. The functions that read
the request record nothing but the calls of `get_line`.
-/

namespace NetworkCode.Httpd

open Prog Text

variable {α β : Type} {E : Event → Prop} {env : Env} {buf url : Bytes}

/-- A trace that goes on behind `tr`, and from there on has only events with `E`. -/
def Emitted (E : Event → Prop) (tr : List Event) (w : World) : Prop :=
  ∃ es, w.trace = tr ++ es ∧ ∀ e ∈ es, E e

/-- All events that a program records, however far it runs, have the property `E`. -/
def Emits (p : Prog World α) (E : Event → Prop) : Prop := ∀ tr, p.Keeps (Emitted E tr)

/-! ### Rules -/

variable {p : Prog World α} {f : α → Prog World β}

/-- A value records nothing. -/
theorem emits_pure {a : α} : Emits (pure a) E := fun _ => keeps_pure

theorem emits_undefinedBehaviour : Emits (undefinedBehaviour : Prog World α) E :=
  fun _ => keeps_undefinedBehaviour

/-- A sequence records what its parts record. -/
theorem Emits.bind (hp : Emits p E) (hf : ∀ a, Emits (f a) E) : Emits (p >>= f) E :=
  fun tr => (hp tr).bind fun a => hf a tr

/-- The second part need only be looked at behind the first one. -/
theorem Emits.bind_of_returns (hp : Emits p E)
    (hf : ∀ a s t, p.Returns s a t → Emits (f a) E) : Emits (p >>= f) E :=
  fun tr => (hp tr).bind_of_returns fun a s t h => hf a s t h tr

/-- A loop records what its test and its body record. -/
theorem Emits.whileLoop {cond : β → Prog World Bool} {body : β → Prog World β}
    (hc : ∀ x, Emits (cond x) E) (hb : ∀ x, Emits (body x) E) (x : β) :
    Emits (whileLoop cond body x) E :=
  fun tr => Keeps.whileLoop (fun x => hc x tr) (fun x => hb x tr) x

/-- A step that leaves the trace alone records nothing. -/
theorem emits_ofStep {g : World → Outcome α × World} (h : ∀ w, (g w).2.trace = w.trace) :
    Emits (ofStep g) E := by
  intro tr
  apply keeps_ofStep
  rintro w ⟨es, hes, hE⟩
  exact ⟨es, (h w).trans hes, hE⟩

/-- An event of the kind may be recorded. -/
theorem emits_record {e : Event} (h : E e) : Emits (record e) E := by
  intro tr
  apply keeps_modify
  rintro w ⟨es, hes, hE⟩
  refine ⟨es ++ [e], ?_, ?_⟩
  · simp only [hes, List.append_assoc]
  · intro e' he'
    rcases List.mem_append.mp he' with hold | hnew
    · exact hE e' hold
    · rw [List.mem_singleton.mp hnew]
      exact h

/-- A call that needs the others is recorded unless it fails or never returns. -/
theorem emits_attempt {e : Event} (h : E e) : Emits (attempt e) E := by
  intro tr
  apply keeps_ofStep
  rintro w ⟨es, hes, hE⟩
  have hafter : Emitted E tr (w.after e) := by
    refine ⟨es ++ w.conduct.shown e, ?_, ?_⟩
    · rw [World.after, hes, List.append_assoc]
    · intro e' he'
      rcases List.mem_append.mp he' with hold | hnew
      · exact hE e' hold
      · rw [Conduct.shown] at hnew
        split at hnew
        · cases hnew
        · rwa [List.mem_singleton.mp hnew]
  cases w.conduct.fate e with
  | taken | refused => exact hafter
  | waits | broken => exact ⟨es, hes, hE⟩

/-- Only events with `E` are in the trace behind an execution, whatever its bound. -/
theorem Emits.exists_events (h : Emits p E) (n : Nat) (w : World) :
    ∃ es, (p.run n w).2.trace = w.trace ++ es ∧ ∀ e ∈ es, E e := by
  apply h w.trace w
  exact ⟨[], (List.append_nil _).symm, by simp⟩

/-! ### Memory -/

theorem emits_load {i : Nat} : Emits (load buf i) E := by
  unfold load
  split
  · exact emits_pure
  · exact emits_undefinedBehaviour

theorem emits_store {i : Nat} {c : UInt8} : Emits (store buf i c) E := by
  unfold store
  split
  · exact emits_pure
  · exact emits_undefinedBehaviour

theorem emits_cString : Emits (cString buf) E := by
  unfold cString
  split
  · exact emits_pure
  · exact emits_undefinedBehaviour

theorem emits_fit {size : Nat} {s : Bytes} : Emits (fit size s) E := by
  unfold fit
  split
  · exact emits_pure
  · exact emits_undefinedBehaviour

theorem emits_cutQuery : Emits (cutQuery url) E := by
  refine Emits.whileLoop (fun v => ?_) (fun v => emits_load.bind fun c => ?_) _
  · unfold queryTest
    split
    · exact emits_pure
    · exact emits_load.bind fun _ => emits_pure
  · split
    · exact emits_store.bind fun _ => emits_pure
    · exact emits_pure

theorem emits_buildPath : Emits (buildPath url) E := by
  refine emits_cString.bind fun _ => emits_fit.bind fun _ => ?_
  split
  · exact emits_fit
  · exact emits_pure

/-! ### Reading lines -/

/-- `recv` records nothing. -/
theorem emits_recv {peek : Bool} {c : UInt8} : Emits (recv peek c) E := by
  apply emits_ofStep
  rintro ⟨_ | ⟨b, bs⟩, _ | _ | _, tr⟩ <;> cases peek <;> rfl

theorem emits_readEol : Emits readEol E := by
  refine emits_recv.bind fun r => ?_
  dsimp only
  split
  · exact emits_recv.bind fun _ => emits_pure
  · exact emits_pure

theorem emits_readByte {v : LineVars} : Emits (readByte v) E := by
  refine emits_recv.bind fun r => ?_
  dsimp only
  split
  · split
    · exact emits_readEol.bind fun _ => emits_store.bind fun _ => emits_pure
    · exact emits_pure.bind fun _ => emits_store.bind fun _ => emits_pure
  · exact emits_pure

/-- `get_line` records that it has returned. -/
theorem emits_getLine {size : Nat} (hline : ∀ before after, E (.line before after)) :
    Emits (getLine buf size) E := by
  have hunread : Emits unread E := emits_ofStep fun _ => rfl
  refine hunread.bind fun before => ?_
  refine (Emits.whileLoop (fun _ => emits_pure) (fun _ => emits_readByte) _).bind fun v => ?_
  refine emits_store.bind fun _ => hunread.bind fun after => ?_
  exact (emits_record (hline before after)).bind fun _ => emits_pure

/-- `clean_hander` records its calls of `get_line`. -/
theorem emits_cleanHander (hline : ∀ before after, E (.line before after)) :
    Emits cleanHander E :=
  (emits_getLine hline).bind fun _ =>
    (Emits.whileLoop (fun _ => emits_cString.bind fun _ => emits_pure)
      (fun _ => emits_getLine hline) _).bind fun _ => emits_pure

/-- The loop over the headers records its calls of `get_line`. -/
theorem emits_readHeaders (hline : ∀ before after, E (.line before after)) :
    Emits readHeaders E :=
  (emits_getLine hline).bind fun _ =>
    (Emits.whileLoop (fun _ => emits_cString.bind fun _ => emits_pure)
      (fun _ => emits_cString.bind fun _ => (emits_getLine hline).bind fun _ => emits_pure)
      _).bind fun _ => emits_pure

theorem emits_copyWord {j size : Nat} {inside : Nat → Bool} :
    Emits (copyWord buf j size inside) E :=
  (Emits.whileLoop (fun _ => emits_load.bind fun _ => emits_pure)
    (fun _ => emits_load.bind fun _ => emits_store.bind fun _ => emits_pure) _).bind
      fun _ => emits_store.bind fun _ => emits_pure

/-- Reading the request line records the call of `get_line`. -/
theorem emits_readRequest (hline : ∀ before after, E (.line before after)) :
    Emits readRequest E :=
  (emits_getLine hline).bind fun _ => emits_copyWord.bind fun _ =>
    (Emits.whileLoop (fun _ => emits_load.bind fun _ => emits_pure)
      (fun _ => emits_pure) _).bind fun _ => emits_copyWord.bind fun _ => emits_pure

end NetworkCode.Httpd
