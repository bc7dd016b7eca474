import Mathlib.Data.List.Induction

/-!
# Lexical resolution of relative paths

The components of a path are walked from left to right: a name goes down, and `..`
takes back the last name or climbs above the directory where the path starts. A
path resolves into a directory exactly when it enters the directory from its start
and does not climb out of it afterwards.
-/

namespace NetworkCode.LexicalPath

/-- A component of a path, other than `.` and the empty one. -/
inductive Component (N : Type) where
  | up
  | name (n : N)
  deriving DecidableEq, Repr

/-- Where a path leads: first so many directories up, then down by these names. -/
structure Place (N : Type) where
  above : Nat
  names : List N
  deriving DecidableEq, Repr

variable {N : Type} {root : N} {cs ds : List (Component N)} {k m : Nat}

/-- The directory above. -/
def Place.parent : Place N → Place N
  | ⟨above, []⟩ => ⟨above + 1, []⟩
  | ⟨above, n :: names⟩ => ⟨above, (n :: names).dropLast⟩

/-- One component further. -/
def Place.walk (p : Place N) : Component N → Place N
  | .up => p.parent
  | .name n => { p with names := p.names ++ [n] }

/-- The place a path leads to. -/
def resolve (cs : List (Component N)) : Place N := cs.foldl Place.walk ⟨0, []⟩

/-- A path leads to the directory `root` or to something in it. -/
def ResolvesInto (root : N) (cs : List (Component N)) : Prop :=
  (resolve cs).above = 0 ∧ (resolve cs).names.head? = some root

instance [DecidableEq N] : Decidable (ResolvesInto root cs) :=
  inferInstanceAs (Decidable (_ ∧ _))

/-- The depth a path reaches from depth `k`, if it never climbs above depth 0. -/
def depth : Nat → List (Component N) → Option Nat
  | k, [] => some k
  | 0, .up :: _ => none
  | k + 1, .up :: cs => depth k cs
  | k, .name _ :: cs => depth (k + 1) cs

/-- A path comes back to its start without climbing above it, goes down to `root` and
does not climb out of it. -/
def Enters (root : N) (cs : List (Component N)) : Prop :=
  ∃ before behind, cs = before ++ .name root :: behind ∧ depth 0 before = some 0 ∧
    (depth 0 behind).isSome

/-! ### Depth -/

/-- The depth of a path that goes on. -/
theorem depth_append : depth k (cs ++ ds) = (depth k cs).bind fun m => depth m ds := by
  induction cs generalizing k with
  | nil => rfl
  | cons c cs ih =>
    cases c with
    | up =>
      cases k with
      | zero => rfl
      | succ k => exact ih
    | name n =>
      cases k <;> exact ih

/-- From deeper down a path reaches deeper down. -/
theorem depth_add (h : depth k cs = some m) (j : Nat) : depth (k + j) cs = some (m + j) := by
  induction cs generalizing k with
  | nil =>
    obtain rfl : k = m := Option.some.inj h
    cases k + j <;> rfl
  | cons c cs ih =>
    cases c with
    | up =>
      cases k with
      | zero => cases h
      | succ k =>
        rw [Nat.add_right_comm]
        exact ih h
    | name n =>
      have hrest : depth (k + 1) cs = some m := by
        cases k <;> exact h
      have := ih hrest
      rw [Nat.add_right_comm] at this
      cases hkj : k + j <;> rw [hkj] at this <;> exact this

/-- The parent of a place is without its last name. -/
theorem parent_concat (above : Nat) (names : List N) (n : N) :
    Place.parent ⟨above, names ++ [n]⟩ = ⟨above, names⟩ := by
  cases names with
  | nil => rfl
  | cons n' names =>
    have hdrop : (n' :: names ++ [n]).dropLast = n' :: names := List.dropLast_concat
    exact congrArg (Place.mk above) hdrop

/-- A path that does not climb above where it starts only changes the names behind. -/
theorem foldl_walk (h : depth k cs = some m) (above : Nat) (base names : List N)
    (hlen : names.length = k) : ∃ names', names'.length = m ∧
      cs.foldl Place.walk ⟨above, base ++ names⟩ = ⟨above, base ++ names'⟩ := by
  induction cs generalizing k names with
  | nil => exact ⟨names, hlen.trans (Option.some.inj h), rfl⟩
  | cons c cs ih =>
    cases c with
    | up =>
      cases names using List.reverseRecOn with
      | nil =>
        subst hlen
        cases h
      | append_singleton names n =>
        obtain rfl : names.length + 1 = k := by simpa using hlen
        obtain ⟨names', hlen', hwalk⟩ := ih h names rfl
        refine ⟨names', hlen', ?_⟩
        rw [List.foldl_cons, Place.walk, ← List.append_assoc, parent_concat, hwalk]
    | name n =>
      have hrest : depth (k + 1) cs = some m := by
        cases k <;> exact h
      obtain ⟨names', hlen', hwalk⟩ := ih hrest (names ++ [n]) (by simp [hlen])
      refine ⟨names', hlen', ?_⟩
      rw [List.foldl_cons, Place.walk, List.append_assoc, hwalk]

/-! ### The two views of a path -/

/-- A path is resolved by its components one after the other. -/
theorem resolve_concat (cs : List (Component N)) (c : Component N) :
    resolve (cs ++ [c]) = (resolve cs).walk c := by
  simp [resolve]

/-- How a path came to a place that is not above its start. -/
def Explained (cs : List (Component N)) : List N → Prop
  | [] => depth 0 cs = some 0
  | n :: names => ∃ before behind, cs = before ++ .name n :: behind ∧
      depth 0 before = some 0 ∧ depth 0 behind = some names.length

/-- A name goes down by one. -/
theorem depth_concat_name (n : N) (h : depth k cs = some m) :
    depth k (cs ++ [.name n]) = some (m + 1) := by
  rw [depth_append, h]
  cases m <;> rfl

/-- A step up goes up by one. -/
theorem depth_concat_up (h : depth k cs = some (m + 1)) :
    depth k (cs ++ [.up]) = some m := by
  rw [depth_append, h]
  rfl

/-- One more name. -/
theorem Explained.concat_name {names : List N} (h : Explained cs names) (n : N) :
    Explained (cs ++ [.name n]) (names ++ [n]) := by
  cases names with
  | nil => exact ⟨cs, [], rfl, h, rfl⟩
  | cons n' names =>
    obtain ⟨before, behind, rfl, hbefore, hbehind⟩ := h
    refine ⟨before, behind ++ [.name n], by simp, hbefore, ?_⟩
    have hlen : (names ++ [n]).length = names.length + 1 := List.length_append
    exact (depth_concat_name n hbehind).trans (congrArg some hlen.symm)

/-- One name taken back. -/
theorem Explained.concat_up {names : List N} {n : N} (h : Explained cs (names ++ [n])) :
    Explained (cs ++ [.up]) names := by
  cases names with
  | nil =>
    obtain ⟨before, behind, rfl, hbefore, hbehind⟩ := h
    have hdown : depth 0 (before ++ .name n :: behind) = some 1 := by
      rw [depth_append, hbefore]
      exact depth_add hbehind 1
    exact depth_concat_up hdown
  | cons n' names =>
    obtain ⟨before, behind, rfl, hbefore, hbehind⟩ := h
    have hbehind' : depth 0 behind = some (names.length + 1) :=
      hbehind.trans (congrArg some List.length_append)
    exact ⟨before, behind ++ [.up], by simp, hbefore, depth_concat_up hbehind'⟩

/-- A path that ends below its root is explained by the names it resolves to. -/
theorem explained_resolve (h : (resolve cs).above = 0) : Explained cs (resolve cs).names := by
  induction cs using List.reverseRecOn with
  | nil => rfl
  | append_singleton cs c ih =>
    rw [resolve_concat] at h ⊢
    generalize resolve cs = p at ih h ⊢
    obtain ⟨above, names⟩ := p
    cases c with
    | name n => exact (ih h).concat_name n
    | up =>
      cases names using List.reverseRecOn with
      | nil => exact absurd h (Nat.succ_ne_zero above)
      | append_singleton names n =>
        rw [Place.walk, parent_concat] at h ⊢
        exact (ih h).concat_up

/-- A path resolves into `root` exactly when it enters `root` and stays there. -/
theorem resolvesInto_iff_enters : ResolvesInto root cs ↔ Enters root cs := by
  constructor
  · rintro ⟨habove, hroot⟩
    have hexplained := explained_resolve habove
    cases hnames : (resolve cs).names with
    | nil => simp [hnames] at hroot
    | cons n names =>
      obtain rfl : n = root := by simpa [hnames] using hroot
      rw [hnames] at hexplained
      obtain ⟨before, behind, hcs, hbefore, hbehind⟩ := hexplained
      exact ⟨before, behind, hcs, hbefore, by rw [hbehind]; rfl⟩
  · rintro ⟨before, behind, rfl, hbefore, hbehind⟩
    obtain ⟨m, hm⟩ := Option.isSome_iff_exists.mp hbehind
    obtain ⟨names, hnil, hwalk⟩ := foldl_walk hbefore 0 [] [] rfl
    obtain rfl : names = [] := List.length_eq_zero_iff.mp hnil
    obtain ⟨names, -, hwalk'⟩ := foldl_walk hm 0 [root] [] rfl
    have hresolve : resolve (before ++ .name root :: behind) = ⟨0, root :: names⟩ := by
      rw [resolve, List.foldl_append]
      exact (congrArg (fun p => (Component.name root :: behind).foldl Place.walk p)
        hwalk).trans hwalk'
    rw [ResolvesInto, hresolve]
    exact ⟨rfl, rfl⟩

/-- A further name that is not `root` leads into `root` only from there. -/
theorem resolvesInto_concat_name {n : N} (hn : n ≠ root) :
    ResolvesInto root (cs ++ [.name n]) ↔ ResolvesInto root cs := by
  simp only [ResolvesInto, resolve_concat, Place.walk]
  cases (resolve cs).names with
  | nil => simp [hn]
  | cons n' names => simp

/-! ### Byte strings -/

/-- The component that a text between slashes stands for: none for `.` and nothing. -/
def component (text : List UInt8) : Option (Component (List UInt8)) :=
  if text = [] ∨ text = [46] then none
  else if text = [46, 46] then some .up
  else some (.name text)

/-- The components of a relative path. -/
def components (path : List UInt8) : List (Component (List UInt8)) :=
  (path.splitOn 47).filterMap component

/-- A slash separates components. -/
theorem components_append_slash (p q : List UInt8) :
    components (p ++ 47 :: q) = components p ++ components q := by
  rw [components, List.splitOn_append_cons_self, List.filterMap_append]
  rfl

/-- A slash at the end adds no component. -/
theorem components_concat_slash (p : List UInt8) : components (p ++ [47]) = components p := by
  rw [components_append_slash]
  exact List.append_nil _

end NetworkCode.LexicalPath
