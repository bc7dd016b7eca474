import NetworkCode.NetWorkSniffer.Captured

/-!
# What the counters say after a run

`main` allocates the counters with the size of a pointer and does not clear them. They are
incremented and printed for every frame. A counter is an `int` in the memory from the allocated
block on; one behind the block is taken to keep its value as long as nobody else writes to it.
-/

namespace NetworkCode.NetWorkSniffer

open Text

/-! ## The source -/

/-- `sizeof(t_protocol *)`, the size of the block for `sniffer.prot`. -/
def protBlock : Nat := 8

/-- `sizeof(int)`. -/
def intSize : Nat := 4

/-- Where the counter of a protocol stands in a `t_protocol`. -/
def Kind.offset : Kind → Nat
  | .tcp => 0
  | .udp => 4
  | .icmp => 8
  | .igmp => 12
  | .others => 16

/-- Where `total` stands in a `t_protocol`. -/
def totalOffset : Nat := 20

/-- The counters that `ProcessPacket` accesses: it increments two of them and prints all. -/
def accesses (k : Kind) : List Nat :=
  [totalOffset, k.offset] ++ [Kind.offset .tcp, Kind.offset .udp, Kind.offset .icmp,
    Kind.offset .igmp, Kind.offset .others, totalOffset]

/-- What `main` has, and the accesses to the counters so far. -/
structure Loop where
  buf : Bytes
  sniffer : Sniffer
  accessed : List Nat
  deriving DecidableEq, Repr

/-- The loop of `main` before the first frame, with what `malloc` returned. -/
def Loop.start (buf : Bytes) (prot : Protocol) : Loop := ⟨buf, ⟨prot, []⟩, []⟩

/-- A turn of the loop of `main` in which a frame is received and processed. -/
def Loop.receive (l : Loop) (frame : Bytes) : Option Loop := do
  let buf := frame ++ l.buf.drop frame.length
  let sniffer ← processPacket buf frame.length l.sniffer
  let protocol ← buf[6 + 6 + 3 + 9]?
  return ⟨buf, sniffer, l.accessed ++ accesses (.of protocol)⟩

/-! ## What it is for -/

/-- The sum of the counters of the protocols. -/
def Protocol.sum (p : Protocol) : Int := p.tcp + p.udp + p.icmp + p.igmp + p.others

/-- After these frames the total is their number and the sum of the other counters, and no access
was outside of a block of `block` bytes. -/
def Tallies (block : Nat) (buf : Bytes) (prot : Protocol) (frames : List Bytes) : Prop :=
  ∃ l, frames.foldlM Loop.receive (.start buf prot) = some l ∧
    l.sniffer.prot.total = frames.length ∧ l.sniffer.prot.total = l.sniffer.prot.sum ∧
    ∀ offset ∈ l.accessed, offset + intSize ≤ block

/-! ## What the code does -/

variable {block : Nat} {buf frame : Bytes} {prot : Protocol} {frames : List Bytes}
  {l l' l'' : Loop}

/-- What `n` frames change. -/
structure Counted (n : Nat) (l l' : Loop) : Prop where
  total : l'.sniffer.prot.total = l.sniffer.prot.total + n
  sum : l'.sniffer.prot.sum = l.sniffer.prot.sum + n
  accessed : ∃ kinds : List Kind, kinds.length = n ∧
    l'.accessed = l.accessed ++ kinds.flatMap accesses

/-- Counting a packet raises the total by one. -/
theorem total_count (k : Kind) : (prot.count k).total = prot.total + 1 := by
  cases k <;> rfl

/-- Counting a packet raises the sum of the counters by one. -/
theorem sum_count (k : Kind) : (prot.count k).sum = prot.sum + 1 := by
  cases k <;> simp only [Protocol.sum, Protocol.count] <;> omega

/-- Before the first frame nothing was counted. -/
theorem Counted.refl (l : Loop) : Counted 0 l l :=
  ⟨(Int.add_zero _).symm, (Int.add_zero _).symm, [], rfl, (List.append_nil _).symm⟩

/-- The changes of some frames and of some more. -/
theorem Counted.trans {m n : Nat} (h : Counted m l l') (h' : Counted n l' l'') :
    Counted (m + n) l l'' := by
  obtain ⟨kinds, hkinds, haccessed⟩ := h.accessed
  obtain ⟨kinds', hkinds', haccessed'⟩ := h'.accessed
  refine ⟨?_, ?_, kinds ++ kinds', ?_, ?_⟩
  · rw [h'.total, h.total]
    omega
  · rw [h'.sum, h.sum]
    omega
  · rw [List.length_append, hkinds, hkinds']
  · rw [haccessed', haccessed, List.flatMap_append, List.append_assoc]

/-- Each frame is counted once in the total and once for a protocol. -/
theorem receive_counted (h : l.receive frame = some l') : Counted 1 l l' := by
  simp only [Loop.receive, Option.bind_eq_bind, Option.pure_def, Option.bind_eq_some_iff] at h
  obtain ⟨sniffer, hsniffer, protocol, hprotocol, hl⟩ := h
  obtain ⟨p, hp, hprot, -⟩ := processPacket_eq_some hsniffer
  obtain rfl := Option.some.inj (hprotocol.symm.trans hp)
  cases hl
  refine ⟨?_, ?_, [.of protocol], rfl, ?_⟩
  · exact (congrArg Protocol.total hprot).trans (total_count _)
  · exact (congrArg Protocol.sum hprot).trans (sum_count _)
  · rw [List.flatMap_singleton]

/-- The frames of a run are counted. -/
theorem run_counted (h : frames.foldlM Loop.receive l = some l') : Counted frames.length l l' := by
  induction frames generalizing l with
  | nil =>
    cases h
    exact .refl _
  | cons frame frames ih =>
    rw [List.foldlM_cons] at h
    obtain ⟨next, hnext, hrest⟩ := Option.bind_eq_some_iff.mp h
    rw [List.length_cons, Nat.add_comm]
    exact (receive_counted hnext).trans (ih hrest)

/-- The accesses of a frame are in the block when `total` is. -/
theorem accesses_within_iff (k : Kind) :
    (∀ offset ∈ accesses k, offset + intSize ≤ block) ↔ 24 ≤ block := by
  cases k <;> simp [accesses, Kind.offset, totalOffset, intSize] <;> omega

/-- A run has tallied exactly when the memory was clear, and the block was large enough for a
`t_protocol` or nothing was received. -/
theorem tallies_iff_of_run (h : frames.foldlM Loop.receive (.start buf prot) = some l) :
    Tallies block buf prot frames ↔
      (frames = [] ∨ 24 ≤ block) ∧ prot.total = 0 ∧ prot.sum = 0 := by
  obtain ⟨htotal, hsum, kinds, hlength, haccessed⟩ := run_counted h
  have hwithin : (∀ offset ∈ l.accessed, offset + intSize ≤ block) ↔
      frames = [] ∨ 24 ≤ block := by
    rw [haccessed, Loop.start, List.nil_append, List.forall_mem_flatMap]
    simp only [accesses_within_iff]
    rw [← List.length_eq_zero_iff, ← hlength, List.length_eq_zero_iff]
    constructor
    · intro hall
      cases kinds with
      | nil => exact .inl rfl
      | cons k kinds => exact .inr (hall k List.mem_cons_self)
    · rintro (rfl | hblock) k hk
      · cases hk
      · exact hblock
  have hprot : (Loop.start buf prot).sniffer.prot = prot := rfl
  rw [hprot] at htotal hsum
  simp only [Tallies, h, Option.some.injEq, exists_eq_left', hwithin]
  constructor
  · rintro ⟨hn, he, hblock⟩
    exact ⟨hblock, by omega, by omega⟩
  · rintro ⟨hblock, hn, he⟩
    exact ⟨by omega, by omega, hblock⟩

/-- A frame is received and processed when no counter is at its end. -/
theorem exists_receive (hbuf : 25 ≤ l.buf.length) (htotal : l.sniffer.prot.total < intMax)
    (hcounter : ∀ k, l.sniffer.prot.counter k < intMax) (frame : Bytes) :
    ∃ l' p, l.receive frame = some l' ∧ 25 ≤ l'.buf.length ∧
      l'.sniffer.prot = l.sniffer.prot.count (.of p) := by
  have hlong : 25 ≤ (frame ++ l.buf.drop frame.length).length := by
    rw [List.length_append, List.length_drop]
    omega
  obtain ⟨p, hp⟩ : ∃ p, (frame ++ l.buf.drop frame.length)[linkHeader + 10]? = some p :=
    ⟨_, List.getElem?_eq_getElem hlong⟩
  have hprotocol : (frame ++ l.buf.drop frame.length)[6 + 6 + 3 + 9]? = some p := hp
  obtain ⟨t, ht, hprot⟩ :
      ∃ t, processPacket (frame ++ l.buf.drop frame.length) frame.length l.sniffer = some t ∧
        t.prot = l.sniffer.prot.count (.of p) :=
    ⟨_, (processPacket_eq hp).trans (if_pos ⟨htotal, hcounter _⟩), rfl⟩
  refine ⟨⟨_, t, l.accessed ++ accesses (.of p)⟩, p, ?_, hlong, hprot⟩
  simp only [Loop.receive, ht, hprotocol]
  rfl

/-- A run comes to its end when no counter does. -/
theorem exists_run (hbuf : 25 ≤ l.buf.length)
    (htotal : l.sniffer.prot.total + frames.length ≤ intMax)
    (hcounter : ∀ k, l.sniffer.prot.counter k + frames.length ≤ intMax) :
    ∃ l', frames.foldlM Loop.receive l = some l' := by
  induction frames generalizing l with
  | nil => exact ⟨l, rfl⟩
  | cons frame frames ih =>
    rw [List.length_cons, Nat.cast_add, Nat.cast_one] at htotal
    simp only [List.length_cons, Nat.cast_add, Nat.cast_one] at hcounter
    have hroom (k : Kind) : l.sniffer.prot.counter k < intMax := by
      have hk := hcounter k
      omega
    obtain ⟨next, p, hnext, hlong, hprot⟩ := exists_receive hbuf (by omega) hroom frame
    rw [List.foldlM_cons, hnext]
    refine ih hlong ?_ ?_
    · rw [hprot, total_count]
      omega
    · intro k
      have hk := hcounter k
      rw [hprot, counter_count]
      split <;> omega

/-- A cleared `t_protocol` in a block of its own size tallies. -/
theorem tallies_cleared (hbuf : 25 ≤ buf.length) (hframes : frames.length ≤ intMax) :
    Tallies 24 buf ⟨0, 0, 0, 0, 0, 0⟩ frames := by
  have hstart : (0 : Int) + frames.length ≤ intMax := by omega
  obtain ⟨l, hl⟩ := exists_run (l := .start buf ⟨0, 0, 0, 0, 0, 0⟩) hbuf hstart
    (fun k => by cases k <;> exact hstart)
  exact (tallies_iff_of_run hl).mpr ⟨.inr (Nat.le_refl _), rfl, rfl⟩

/-- The first frame is counted behind the block of `main`. -/
theorem not_tallies_of_ne_nil (h : frames ≠ []) : ¬ Tallies protBlock buf prot frames := by
  intro htallies
  obtain ⟨l, hl, -⟩ := id htallies
  obtain ⟨hframes | hblock, -⟩ := (tallies_iff_of_run hl).mp htallies
  · exact h hframes
  · exact absurd hblock (by decide)

/-- The counters of `main` are right exactly when nothing was received and the memory was clear. -/
theorem tallies_iff :
    Tallies protBlock buf prot frames ↔ frames = [] ∧ prot.total = 0 ∧ prot.sum = 0 := by
  constructor
  · intro h
    obtain ⟨l, hl, -⟩ := id h
    refine ⟨?_, ((tallies_iff_of_run hl).mp h).2⟩
    by_contra hframes
    exact not_tallies_of_ne_nil hframes h
  · rintro ⟨rfl, hclear⟩
    exact (tallies_iff_of_run rfl).mpr ⟨.inl rfl, hclear⟩

/-- One frame is enough, also in a memory that happens to be clear; and where it is not, the total
is wrong before any frame. -/
theorem not_tallies_tcpFrame :
    ¬ Tallies protBlock (List.replicate bufferSize 0) ⟨0, 0, 0, 0, 0, 0⟩ [tcpFrame.bytes] ∧
      ¬ Tallies protBlock (List.replicate bufferSize 0) ⟨0, 0, 0, 0, 0, 7⟩ [] := by
  refine ⟨not_tallies_of_ne_nil (List.cons_ne_nil _ _), fun h => ?_⟩
  exact absurd ((tallies_iff_of_run rfl).mp h).2.1 (by decide)

end NetworkCode.NetWorkSniffer
