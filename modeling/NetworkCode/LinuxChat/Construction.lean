import NetworkCode.Core.Text
import NetworkCode.LinuxChat.Pool

/-!
# The construction of the pool

`Pool::Pool` gives `_cap` its value and the vector `_cap` entries. C++ runs the initialisers in
the order in which `pool.h` declares the members, and the vector is declared in front of `_cap`.
So the length of the vector is what the memory of `_cap` held before, while the indexes and the
semaphore go by the value that `_cap` has behind. Room for the entries is taken to be there.
-/

namespace NetworkCode.LinuxChat

open Text StepResult

/-! ## The source -/

/-- The memory of a `Pool`. -/
structure Memory where
  pool : List Bytes
  cap : BitVec 32
  size : BitVec 32
  productStep : BitVec 32
  consumStep : BitVec 32
  blank : Nat
  data : Nat
  deriving DecidableEq, Repr

/-- The members of `Pool` that have an initialiser. -/
inductive Member where
  | cap
  | pool
  | size
  | productStep
  | consumStep
  deriving DecidableEq, Repr

/-- An `int` where a `size_t` is expected. -/
def sizeT (n : BitVec 32) : Nat := (n.toInt % 2 ^ 64).toNat

/-- `max_size` of a vector of strings, of 32 bytes each. -/
def maxSize : Nat := 2 ^ 63 / 32

/-- The vector with `n` empty strings; its constructor raises where `n` is too large. -/
def vectorOf (n : Nat) : Option (List Bytes) :=
  if maxSize < n then none else some (List.replicate n [])

/-- The initialiser of a member. -/
def Memory.initialise (m : Memory) : Member → Option Memory
  | .cap => some { m with cap := 1024 }
  | .pool => (vectorOf (sizeT m.cap)).map fun pool => { m with pool }
  | .size => some { m with size := 0 }
  | .productStep => some { m with productStep := 0 }
  | .consumStep => some { m with consumStep := 0 }

/-- The initialisers in the order in which `pool.cpp` lists them. -/
def listed : List Member := [.cap, .pool, .size, .productStep, .consumStep]

/-- The initialisers in the order in which `pool.h` declares the members. -/
def declared : List Member := [.pool, .cap, .size, .productStep, .consumStep]

/-- `Pool::Pool` in memory with this content, its initialisers in this order. -/
def construct (order : List Member) (before : Memory) : Option Memory :=
  (order.foldlM Memory.initialise before).map fun m => { m with blank := m.cap.toNat, data := 0 }

/-- The pool in memory, before its first call. -/
def Memory.asPool (m : Memory) : Pool Bytes :=
  { Pool.new m.pool with
    cap := m.cap.toNat
    productStep := m.productStep.toNat
    consumStep := m.consumStep.toNat
    blank := m.blank
    data := m.data }

/-! ## What it is for -/

variable {α : Type*} {p q : Pool α} {slots : List α}

/-- Whatever is called, the index of the next write and of the next read is inside the vector. -/
def Pool.Inside (p : Pool α) : Prop := ∀ q, Reaches Pool.step (fun _ _ => True) p q →
  q.productStep < q.slots.length ∧ q.consumStep < q.slots.length

/-- The vector has `_cap` entries, as many are free, and the indexes stay inside of it. -/
structure Pool.Sized (p : Pool α) : Prop where
  slots : p.slots.length = p.cap
  blank : p.blank = p.cap
  inside : p.Inside

/-- The constructor leaves such a pool in memory with this content. -/
def Constructs (order : List Member) (before : Memory) : Prop :=
  ∃ m, construct order before = some m ∧ m.asPool.Sized

/-! ## The indexes -/

/-- The indexes are below `_cap`, and the vector has `n` entries. -/
structure Pool.Modular (n : Nat) (p : Pool α) : Prop where
  length : p.slots.length = n
  cap : p.cap = poolCap
  productStep : p.productStep < poolCap
  consumStep : p.consumStep < poolCap

theorem poolCap_pos : 0 < poolCap := by decide

/-- An index that went around is below `_cap`. -/
theorem Pool.Modular.mod_lt {n : Nat} (h : p.Modular n) (i : Nat) : i % p.cap < poolCap := by
  rw [h.cap]
  exact Nat.mod_lt i poolCap_pos

/-- A step of `PutData` keeps the indexes below `_cap`. -/
theorem Pool.Modular.put {n : Nat} (h : p.Modular n) (hs : p.put = next q) : q.Modular n := by
  simp only [Pool.put] at hs
  cases hput : p.putting with
  | out => simp only [hput, reduceCtorEq] at hs
  | waiting inmsg =>
    simp only [hput] at hs
    split at hs
    · cases hs
      exact ⟨h.length, h.cap, h.productStep, h.consumStep⟩
    · cases hs
  | writing inmsg =>
    simp only [hput] at hs
    split at hs
    · cases hs
      exact ⟨List.length_set.trans h.length, h.cap, h.productStep, h.consumStep⟩
    · cases hs
  | stepping =>
    simp only [hput, next.injEq] at hs
    subst hs
    exact ⟨h.length, h.cap, h.mod_lt _, h.consumStep⟩
  | posting =>
    simp only [hput, next.injEq] at hs
    subst hs
    exact ⟨h.length, h.cap, h.productStep, h.consumStep⟩

/-- A step of `GetData` keeps the indexes below `_cap`. -/
theorem Pool.Modular.get {n : Nat} (h : p.Modular n) (hs : p.get = next q) : q.Modular n := by
  simp only [Pool.get] at hs
  cases hget : p.getting with
  | out => simp only [hget, reduceCtorEq] at hs
  | waiting =>
    simp only [hget] at hs
    split at hs
    · cases hs
      exact ⟨h.length, h.cap, h.productStep, h.consumStep⟩
    · cases hs
  | reading =>
    simp only [hget] at hs
    obtain ⟨outmsg, -, hs⟩ := bind_eq_next.mp hs
    cases hs
    exact ⟨h.length, h.cap, h.productStep, h.consumStep⟩
  | stepping outmsg =>
    simp only [hget, next.injEq] at hs
    subst hs
    exact ⟨h.length, h.cap, h.productStep, h.mod_lt _⟩
  | posting outmsg =>
    simp only [hget, next.injEq] at hs
    subst hs
    exact ⟨h.length, h.cap, h.productStep, h.consumStep⟩

/-- Every step keeps the indexes below `_cap`. -/
theorem Pool.Modular.step {n : Nat} (h : p.Modular n) {a : Pool.Action α}
    (hs : p.step a = next q) : q.Modular n := by
  cases a with
  | putData inmsg =>
    simp only [Pool.step, Pool.putData] at hs
    split at hs
    · cases hs
      exact ⟨h.length, h.cap, h.productStep, h.consumStep⟩
    · cases hs
  | put => exact h.put hs
  | getData =>
    simp only [Pool.step, Pool.getData] at hs
    split at hs
    · cases hs
      exact ⟨h.length, h.cap, h.productStep, h.consumStep⟩
    · cases hs
  | get => exact h.get hs

/-- A vector with at least `_cap` entries has one for each index. -/
theorem inside_of_le (h : poolCap ≤ slots.length) : (Pool.new slots).Inside := by
  intro q hq
  have hnew : (Pool.new slots).Modular slots.length := ⟨rfl, rfl, poolCap_pos, poolCap_pos⟩
  have hmod : q.Modular slots.length := hq.invariant hnew fun _ _ _ hinv _ hs => hinv.step hs
  rw [hmod.length]
  exact ⟨hmod.productStep.trans_le h, hmod.consumStep.trans_le h⟩

/-- A whole call of `PutData` moves its index on by one. -/
theorem exists_put (inmsg : α) (hout : p.putting = .out) (hblank : 0 < p.blank)
    (hslot : p.productStep < p.slots.length) :
    ∃ q, Reaches Pool.step (fun _ _ => True) p q ∧ q.putting = .out ∧ q.cap = p.cap ∧
      q.blank = p.blank - 1 ∧ q.slots.length = p.slots.length ∧
      q.productStep = (p.productStep + 1) % p.cap := by
  have hrun : runGuarded Pool.step (fun _ _ => True) p [.putData inmsg, .put, .put, .put, .put] =
      next { p with
        slots := p.slots.set p.productStep inmsg
        productStep := (p.productStep + 1) % p.cap
        blank := p.blank - 1
        data := p.data + 1
        putting := .out
        given := p.given ++ [inmsg]
        stored := p.stored ++ [inmsg]
        unread := Function.update p.unread p.productStep true } := by
    simp [runGuarded, Pool.step, Pool.putData, Pool.put, hout, hblank, hslot]
  exact ⟨_, Reaches.of_runGuarded _ _ hrun, rfl, rfl, rfl, List.length_set, rfl⟩

/-- As long as there are slots, each call of `PutData` moves its index on. -/
theorem exists_index [Inhabited α] (slots : List α) {k : Nat} (hk : k ≤ slots.length)
    (hcap : k < poolCap) :
    ∃ q, Reaches Pool.step (fun _ _ => True) (Pool.new slots) q ∧ q.putting = .out ∧
      q.cap = poolCap ∧ q.blank = poolCap - k ∧ q.slots.length = slots.length ∧
      q.productStep = k := by
  induction k with
  | zero => exact ⟨_, .refl, rfl, rfl, rfl, rfl, rfl⟩
  | succ k ih =>
    obtain ⟨p, hp, hout, hpcap, hblank, hlength, hstep⟩ := ih (by omega) (by omega)
    obtain ⟨q, hq, hout', hcap', hblank', hlength', hstep'⟩ :=
      exists_put default hout (by omega) (by omega)
    refine ⟨q, hp.trans hq, hout', hcap'.trans hpcap, ?_, hlength'.trans hlength, ?_⟩
    · rw [hblank', hblank, Nat.sub_sub]
    · rw [hstep', hstep, hpcap, Nat.mod_eq_of_lt hcap]

/-- Behind the constructor every index is inside the vector exactly when it has at least `_cap`
entries. -/
theorem inside_iff [Inhabited α] : (Pool.new slots).Inside ↔ poolCap ≤ slots.length := by
  refine ⟨fun h => ?_, inside_of_le⟩
  by_contra hlt
  obtain ⟨q, hq, -, -, -, hlength, hstep⟩ :=
    exists_index slots (Nat.le_refl _) (Nat.not_le.mp hlt)
  have hinside := (h q hq).1
  omega

/-- The pool behind the constructor is as it should be exactly when the vector has `_cap`
entries. -/
theorem sized_new : (Pool.new slots).Sized ↔ slots.length = poolCap :=
  ⟨fun h => h.slots, fun h => ⟨h, rfl, inside_of_le h.ge⟩⟩

/-! ## The constructor -/

variable {before : Memory}

/-- An `int` that is not negative keeps its value as a `size_t`. -/
theorem sizeT_of_nonneg {n : BitVec 32} (h : 0 ≤ n.toInt) : sizeT n = n.toInt.toNat := by
  have hlt := BitVec.toInt_lt (x := n)
  rw [sizeT, Int.emod_eq_of_lt h]
  omega

/-- A negative `int` becomes larger than any vector. -/
theorem maxSize_lt_sizeT {n : BitVec 32} (h : n.toInt < 0) : maxSize < sizeT n := by
  have hle := BitVec.le_toInt n
  rw [sizeT, maxSize]
  omega

/-- A vector is made for every `int` that is not negative. -/
theorem vectorOf_sizeT (n : BitVec 32) : vectorOf (sizeT n) =
    if 0 ≤ n.toInt then some (List.replicate n.toInt.toNat []) else none := by
  rw [vectorOf]
  by_cases h : 0 ≤ n.toInt
  · have hlt := BitVec.toInt_lt (x := n)
    have hfits : ¬ maxSize < sizeT n := by
      rw [sizeT_of_nonneg h, maxSize]
      omega
    rw [if_neg hfits, if_pos h, sizeT_of_nonneg h]
  · rw [if_pos (maxSize_lt_sizeT (Int.not_le.mp h)), if_neg h]

/-- In the order of the declarations the vector is made from what `_cap` held before. -/
theorem construct_declared (before : Memory) : construct declared before =
    (vectorOf (sizeT before.cap)).map fun pool => ⟨pool, 1024, 0, 0, 0, poolCap, 0⟩ := by
  rw [construct, declared, List.foldlM_cons, Memory.initialise]
  cases vectorOf (sizeT before.cap) <;> rfl

/-- In the order in which they are listed the initialisers do not depend on the memory. -/
theorem construct_listed (before : Memory) : construct listed before =
    some ⟨List.replicate poolCap [], 1024, 0, 0, 0, poolCap, 0⟩ := by
  have hvector : vectorOf (sizeT 1024) = some (List.replicate poolCap []) :=
    vectorOf_sizeT 1024
  have hcap : before.initialise .cap = some { before with cap := 1024 } := rfl
  have hpool : Memory.initialise { before with cap := 1024 } .pool =
      some { before with cap := 1024, pool := List.replicate poolCap [] } := by
    rw [Memory.initialise, hvector, Option.map_some]
  rw [construct, listed, List.foldlM_cons, hcap, Option.bind_eq_bind, Option.bind_some,
    List.foldlM_cons, hpool]
  rfl

/-- The pool that the constructor leaves, if it does not raise. -/
theorem construct_eq_some {m : Memory} : construct declared before = some m ↔
    0 ≤ before.cap.toInt ∧
      ⟨List.replicate before.cap.toInt.toNat [], 1024, 0, 0, 0, poolCap, 0⟩ = m := by
  rw [construct_declared, vectorOf_sizeT]
  split
  · rename_i h
    rw [Option.map_some, Option.some.injEq, and_iff_right h]
  · rename_i h
    exact iff_of_false (fun he => by cases he) (fun hm => h hm.1)

/-- A pool in memory behind the constructor is a new one. -/
theorem asPool_eq_new (pool : List Bytes) :
    Memory.asPool ⟨pool, 1024, 0, 0, 0, poolCap, 0⟩ = Pool.new pool := rfl

/-- The constructor makes the pool that it should exactly in a memory in which `_cap` has its
value already. -/
theorem constructs_iff (before : Memory) : Constructs declared before ↔ before.cap = 1024 := by
  constructor
  · rintro ⟨m, hm, hsized⟩
    obtain ⟨hcap, rfl⟩ := construct_eq_some.mp hm
    rw [asPool_eq_new, sized_new, List.length_replicate] at hsized
    apply BitVec.eq_of_toInt_eq
    change _ = (1024 : Int)
    rw [poolCap] at hsized
    omega
  · intro hcap
    have hint : before.cap.toInt = 1024 := by
      rw [hcap]
      rfl
    refine ⟨_, construct_eq_some.mpr ⟨by omega, rfl⟩, ?_⟩
    rw [asPool_eq_new, sized_new, List.length_replicate, hint]
    rfl

/-- The indexes stay inside the vector exactly when `_cap` held no less before. -/
theorem construct_inside_iff (before : Memory) :
    (∃ m, construct declared before = some m ∧ m.asPool.Inside) ↔ 1024 ≤ before.cap.toInt := by
  constructor
  · rintro ⟨m, hm, hinside⟩
    obtain ⟨hcap, rfl⟩ := construct_eq_some.mp hm
    rw [asPool_eq_new, inside_iff, List.length_replicate, poolCap] at hinside
    omega
  · intro hcap
    refine ⟨_, construct_eq_some.mpr ⟨by omega, rfl⟩, ?_⟩
    rw [asPool_eq_new, inside_iff, List.length_replicate, poolCap]
    omega

/-- With the initialisers run as they are listed the memory would not matter. -/
theorem constructs_listed (before : Memory) : Constructs listed before := by
  refine ⟨_, construct_listed before, ?_⟩
  rw [asPool_eq_new, sized_new]
  exact List.length_replicate

/-- In cleared memory the vector is empty, and there is no place for the first message. -/
theorem cleared_not_constructs :
    (construct declared ⟨[], 0, 0, 0, 0, 0, 0⟩).map (fun m => (m.pool.length, m.cap, m.blank)) =
        some (0, 1024, 1024) ∧
      ¬ ∀ before, Constructs declared before := by
  refine ⟨by decide +kernel, fun h => ?_⟩
  obtain ⟨m, hm, hsized⟩ := h ⟨[], 0, 0, 0, 0, 0, 0⟩
  obtain ⟨-, rfl⟩ := construct_eq_some.mp hm
  exact absurd hsized.slots (by decide)

end NetworkCode.LinuxChat
