import NetworkCode.Core.Prog

/-!
# Triples for programs that need not terminate

A triple says two things of a program that is started where its precondition holds. Whatever
the bound of an execution, the state it shows satisfies the invariant; and where the program
terminates, its result and its final state satisfy the postcondition. The rules follow the
program. A part that the invariant does not concern keeps what is known of the state.
-/

namespace NetworkCode.Prog

variable {σ α β : Type} {Pre Inv : σ → Prop} {Post : α → σ → Prop} {Post' : β → σ → Prop}
  {p : Prog σ α} {f : α → Prog σ β}

/-- Started where `Pre` holds the program shows only states with `Inv`, and it terminates
only where `Post` holds. -/
def Triple (Pre Inv : σ → Prop) (p : Prog σ α) (Post : α → σ → Prop) : Prop :=
  ∀ s, Pre s → p.Always s Inv ∧ ∀ a t, p.Returns s a t → Post a t

namespace Triple

/-- A program without loops is one step. -/
theorem ofStep {g : σ → Outcome α × σ} (hinv : ∀ s, Pre s → Inv (g s).2)
    (hpost : ∀ s a, Pre s → (g s).1 = .done a → Post a (g s).2) :
    Triple Pre Inv (Prog.ofStep g) Post := by
  intro s hs
  refine ⟨fun _ => hinv s hs, fun a t h => ?_⟩
  rw [returns_ofStep] at h
  have hpost := hpost s a hs (congrArg Prod.fst h)
  rwa [h] at hpost

/-- A program that does nothing. -/
theorem pure {a : α} (hinv : ∀ s, Pre s → Inv s) (hpost : ∀ s, Pre s → Post a s) :
    Triple Pre Inv (Pure.pure a) Post := by
  refine ofStep hinv fun s b hs h => ?_
  cases h
  exact hpost s hs

/-- A change of the state. -/
theorem modify {g : σ → σ} {Post : Unit → σ → Prop} (hinv : ∀ s, Pre s → Inv (g s))
    (hpost : ∀ s, Pre s → Post () (g s)) : Triple Pre Inv (Prog.modify g) Post :=
  ofStep hinv fun s _ hs _ => hpost s hs

/-- What the first part establishes is what the second one starts from. -/
theorem bind {Mid : α → σ → Prop} (hp : Triple Pre Inv p Mid)
    (hf : ∀ a, Triple (Mid a) Inv (f a) Post') : Triple Pre Inv (p >>= f) Post' := by
  intro s hs
  obtain ⟨hshown, hresult⟩ := hp s hs
  refine ⟨hshown.bind fun a t h => (hf a t (hresult a t h)).1, fun b u h => ?_⟩
  obtain ⟨a, t, ha, hb⟩ := returns_bind.mp h
  exact (hf a t (hresult a t ha)).2 b u hb

/-- A precondition may be strengthened, a postcondition weakened. -/
theorem consequence {Pre' : σ → Prop} {Weak : α → σ → Prop} (h : Triple Pre Inv p Post)
    (hpre : ∀ s, Pre' s → Pre s) (hpost : ∀ a s, Post a s → Weak a s) :
    Triple Pre' Inv p Weak :=
  fun s hs => ⟨(h s (hpre s hs)).1, fun a t ha => hpost a t ((h s (hpre s hs)).2 a t ha)⟩

/-- What a program keeps holds of all states it shows, and of its final state. -/
theorem of_keeps (h : p.Keeps Pre) (hinv : ∀ s, Pre s → Inv s) :
    Triple Pre Inv p fun _ => Pre :=
  fun s hs => ⟨fun n => hinv _ (h s hs n), fun _ _ ha => (h s hs).of_returns ha⟩

end Triple

end NetworkCode.Prog
