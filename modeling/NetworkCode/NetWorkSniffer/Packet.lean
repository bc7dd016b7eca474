import NetworkCode.Core.Text

/-!
# Which protocol the sniffer sees

`ProcessPacket` skips 15 bytes of a frame where the header of the link has 14. It reads the
byte behind the protocol field, the first of the header checksum, and gives the print
functions a pointer into the header. What these print is left out; a pointer is the memory
from there on.
-/

namespace NetworkCode.NetWorkSniffer

open Text

/-! ## The source -/

/-- `t_protocol`. -/
structure Protocol where
  tcp : Int
  udp : Int
  icmp : Int
  igmp : Int
  others : Int
  total : Int
  deriving DecidableEq, Repr

/-- The functions that print a packet. -/
inductive Printer where
  /-- `print_icmp_packet`. -/
  | icmp
  /-- `print_tcp_packet`. -/
  | tcp
  /-- `print_udp_packet`. -/
  | udp
  deriving DecidableEq, Repr

/-- A call of a print function with its arguments. -/
structure Call where
  printer : Printer
  buf : Bytes
  size : Nat
  deriving DecidableEq, Repr

/-- `t_sniffer`, with the calls that wrote its log file. -/
structure Sniffer where
  prot : Protocol
  calls : List Call
  deriving DecidableEq, Repr

/-- `INT_MAX`. -/
def intMax : Int := 2 ^ 31 - 1

/-- `++counter` of an `int`, which must not overflow. -/
def increment (counter : Int) : Option Int :=
  if counter < intMax then some (counter + 1) else none

/-- `ProcessPacket`. A byte outside of the buffer and an overflow are undefined. -/
def processPacket (buf : Bytes) (size : Nat) (sniffer : Sniffer) : Option Sniffer := do
  let buf := buf.drop (6 + 6 + 3)
  let total ← increment sniffer.prot.total
  let prot := { sniffer.prot with total }
  match ← buf[9]? with
  | 1 =>
    let icmp ← increment prot.icmp
    some ⟨{ prot with icmp }, sniffer.calls ++ [⟨.icmp, buf, size⟩]⟩
  | 2 =>
    let igmp ← increment prot.igmp
    some ⟨{ prot with igmp }, sniffer.calls⟩
  | 6 =>
    let tcp ← increment prot.tcp
    some ⟨{ prot with tcp }, sniffer.calls ++ [⟨.tcp, buf, size⟩]⟩
  | 17 =>
    let udp ← increment prot.udp
    some ⟨{ prot with udp }, sniffer.calls ++ [⟨.udp, buf, size⟩]⟩
  | _ =>
    let others ← increment prot.others
    some ⟨{ prot with others }, sniffer.calls⟩

/-! ## What it is for -/

/-- The protocols that are told apart. -/
inductive Kind where
  | icmp
  | igmp
  | tcp
  | udp
  | others
  deriving DecidableEq, Repr

/-- The protocol that a protocol field names. -/
def Kind.of : UInt8 → Kind
  | 1 => .icmp
  | 2 => .igmp
  | 6 => .tcp
  | 17 => .udp
  | _ => .others

/-- The counter of a protocol. -/
def Protocol.counter (p : Protocol) : Kind → Int
  | .icmp => p.icmp
  | .igmp => p.igmp
  | .tcp => p.tcp
  | .udp => p.udp
  | .others => p.others

/-- The print function of a protocol. -/
def Kind.printer : Kind → Option Printer
  | .icmp => some .icmp
  | .tcp => some .tcp
  | .udp => some .udp
  | .igmp | .others => none

/-- An Ethernet II frame with an IPv4 packet: 6 bytes of each address, the type 0x0800, and at
least 20 bytes of the packet. -/
structure Frame where
  bytes : Bytes
  length_le : 14 + 20 ≤ bytes.length
  type : (bytes.drop 12).take 2 = [8, 0]
  version : (bytes.getD 14 0) / 16 = 4

/-- Where the link header ends. -/
def linkHeader : Nat := 14

/-- The protocol field of the packet. -/
def Frame.protocol (f : Frame) : UInt8 := f.bytes.getD (linkHeader + 9) 0

/-- The first byte of the header checksum of the packet. -/
def Frame.checksum (f : Frame) : UInt8 := f.bytes.getD (linkHeader + 10) 0

/-- The frame, in front of what is left in the buffer, is counted for the protocol that its packet
names, and the packet's header is given to the print function of that protocol. -/
def Classifies (f : Frame) (rest : Bytes) (s : Sniffer) : Prop :=
  ∃ t, processPacket (f.bytes ++ rest) f.bytes.length s = some t ∧
    (∀ k, t.prot.counter k = s.prot.counter k + if k = .of f.protocol then 1 else 0) ∧
    ∃ calls, t.calls = s.calls ++ calls ∧
      calls.map (fun c => (c.printer, c.buf)) =
        (Kind.of f.protocol).printer.toList.map fun printer =>
          (printer, (f.bytes ++ rest).drop linkHeader)

/-! ## What the code does -/

variable {f : Frame} {rest : Bytes} {s t : Sniffer}

/-- A byte of the header in the buffer behind the link header. -/
theorem Frame.byte (f : Frame) (rest : Bytes) {i : Nat} (h : i < 20) :
    (f.bytes ++ rest)[linkHeader + i]? = some (f.bytes.getD (linkHeader + i) 0) := by
  have hlt : linkHeader + i < f.bytes.length := by
    have hle := f.length_le
    simp only [linkHeader]
    omega
  rw [List.getElem?_append_left hlt, List.getD_eq_getElem?_getD, List.getElem?_eq_getElem hlt]
  rfl

/-- The counters with one more for a protocol. -/
def Protocol.count (p : Protocol) : Kind → Protocol
  | .icmp => { p with icmp := p.icmp + 1, total := p.total + 1 }
  | .igmp => { p with igmp := p.igmp + 1, total := p.total + 1 }
  | .tcp => { p with tcp := p.tcp + 1, total := p.total + 1 }
  | .udp => { p with udp := p.udp + 1, total := p.total + 1 }
  | .others => { p with others := p.others + 1, total := p.total + 1 }

/-- Counting a packet raises one counter by one. -/
theorem counter_count (p : Protocol) (k l : Kind) :
    (p.count k).counter l = p.counter l + if l = k then 1 else 0 := by
  cases k <;> cases l <;> simp [Protocol.count, Protocol.counter]

/-- One byte decides which counter is incremented and which print function is called. -/
theorem processPacket_eq {buf : Bytes} {size : Nat} {p : UInt8}
    (hbyte : buf[linkHeader + 10]? = some p) :
    processPacket buf size s =
      if s.prot.total < intMax ∧ s.prot.counter (.of p) < intMax then
        some ⟨s.prot.count (.of p), s.calls ++ (Kind.of p).printer.toList.map fun printer =>
          ⟨printer, buf.drop (linkHeader + 1), size⟩⟩
      else none := by
  have hdrop : (buf.drop (6 + 6 + 3))[9]? = some p := by
    rw [List.getElem?_drop]
    exact hbyte
  have hlink : buf.drop (linkHeader + 1) = buf.drop (6 + 6 + 3) := rfl
  rw [hlink]
  simp only [processPacket, hdrop, Option.bind_eq_bind, Option.bind_some]
  by_cases htotal : s.prot.total < intMax
  · simp only [increment, htotal, if_true, true_and, Option.bind_some]
    split
    · by_cases h : s.prot.icmp < intMax <;>
        simp [h, Kind.of, Protocol.counter, Protocol.count, Kind.printer]
    · by_cases h : s.prot.igmp < intMax <;>
        simp [h, Kind.of, Protocol.counter, Protocol.count, Kind.printer]
    · by_cases h : s.prot.tcp < intMax <;>
        simp [h, Kind.of, Protocol.counter, Protocol.count, Kind.printer]
    · by_cases h : s.prot.udp < intMax <;>
        simp [h, Kind.of, Protocol.counter, Protocol.count, Kind.printer]
    · have hkind : Kind.of p = .others := by
        unfold Kind.of
        split <;> simp_all
      by_cases h : s.prot.others < intMax <;>
        simp [h, hkind, Protocol.counter, Protocol.count, Kind.printer]
  · simp [increment, htotal]

/-- A packet of which that byte is missing is not processed. -/
theorem processPacket_eq_none {buf : Bytes} {size : Nat} (hbyte : buf[linkHeader + 10]? = none) :
    processPacket buf size s = none := by
  have hdrop : (buf.drop (6 + 6 + 3))[9]? = none := by
    rw [List.getElem?_drop]
    exact hbyte
  simp [processPacket, hdrop]

/-- What is known of a packet that is processed. -/
theorem processPacket_eq_some {buf : Bytes} {size : Nat} (h : processPacket buf size s = some t) :
    ∃ p, buf[linkHeader + 10]? = some p ∧ t.prot = s.prot.count (.of p) ∧
      t.calls = s.calls ++ (Kind.of p).printer.toList.map fun printer =>
        ⟨printer, buf.drop (linkHeader + 1), size⟩ := by
  cases hbyte : buf[linkHeader + 10]? with
  | none => cases (processPacket_eq_none hbyte).symm.trans h
  | some p =>
    rw [processPacket_eq hbyte] at h
    split at h
    · cases h
      exact ⟨p, rfl, rfl, rfl⟩
    · cases h

/-- The byte behind the protocol field decides. -/
theorem processPacket_frame :
    processPacket (f.bytes ++ rest) f.bytes.length s =
      if s.prot.total < intMax ∧ s.prot.counter (.of f.checksum) < intMax then
        some ⟨s.prot.count (.of f.checksum),
          s.calls ++ (Kind.of f.checksum).printer.toList.map fun printer =>
            ⟨printer, (f.bytes ++ rest).drop (linkHeader + 1), f.bytes.length⟩⟩
      else none :=
  processPacket_eq (f.byte rest (i := 10) (by decide))

/-- A pointer one byte further is another one. -/
theorem drop_linkHeader_ne (f : Frame) (rest : Bytes) :
    (f.bytes ++ rest).drop (linkHeader + 1) ≠ (f.bytes ++ rest).drop linkHeader := by
  intro h
  have hlen := congrArg List.length h
  have hle := f.length_le
  rw [List.length_drop, List.length_drop, List.length_append] at hlen
  simp only [linkHeader] at hlen
  omega

/-- A packet is classified exactly when its protocol is one without a print function, the byte
behind the protocol field names the same, and no counter is at its end. -/
theorem classifies_iff :
    Classifies f rest s ↔
      Kind.of f.checksum = .of f.protocol ∧ (Kind.of f.protocol).printer = none ∧
        s.prot.total < intMax ∧ s.prot.counter (.of f.protocol) < intMax := by
  rw [Classifies, processPacket_frame]
  constructor
  · rintro ⟨t, ht, hcount, calls, hcalls, hmap⟩
    split at ht
    · rename_i hfits
      cases ht
      have hkind : Kind.of f.checksum = .of f.protocol := by
        have hone := hcount (.of f.protocol)
        rw [if_pos rfl, counter_count] at hone
        by_contra hne
        rw [if_neg (Ne.symm hne)] at hone
        omega
      refine ⟨hkind, ?_, hfits.1, hkind ▸ hfits.2⟩
      rw [hkind] at hcalls
      obtain rfl := List.append_cancel_left hcalls
      cases hprinter : (Kind.of f.protocol).printer with
      | none => rfl
      | some printer =>
        rw [hprinter] at hmap
        simp only [Option.toList_some, List.map_cons, List.map_nil, List.cons.injEq, Prod.mk.injEq,
          true_and, and_true] at hmap
        exact absurd hmap (drop_linkHeader_ne f rest)
    · cases ht
  · rintro ⟨hkind, hprinter, htotal, hcounter⟩
    rw [hkind, if_pos ⟨htotal, hcounter⟩]
    refine ⟨_, rfl, counter_count _ _, [], ?_, ?_⟩
    · rw [hprinter]
      rfl
    · rw [hprinter]
      rfl

/-- A frame with a TCP packet, whose header checksum begins with the byte 171. -/
def tcpFrame : Frame where
  bytes := [1, 2, 3, 4, 5, 6, 7, 8, 9, 10, 11, 12, 8, 0, 69, 0, 0, 20, 0, 1, 64, 0, 64, 6, 171, 205,
    10, 0, 0, 1, 10, 0, 0, 2]
  length_le := by decide
  type := by decide
  version := by decide

/-- A sniffer that has seen nothing. -/
def unused : Sniffer := ⟨⟨0, 0, 0, 0, 0, 0⟩, []⟩

theorem processPacket_tcpFrame :
    (processPacket (tcpFrame.bytes ++ []) tcpFrame.bytes.length unused).map
      (fun t => (t.prot.tcp, t.prot.others)) = some (0, 1) := by
  decide

/-- The packet is counted among the others. -/
theorem not_classifies_tcpFrame : tcpFrame.protocol = 6 ∧ ¬ Classifies tcpFrame [] unused := by
  refine ⟨by decide, ?_⟩
  rintro ⟨t, ht, hcount, -⟩
  have hfacts := processPacket_tcpFrame
  rw [ht, Option.map_some, Option.some.injEq, Prod.mk.injEq] at hfacts
  have htcp := hcount .tcp
  rw [if_pos (by decide)] at htcp
  exact absurd (hfacts.1.symm.trans htcp) (by decide)

end NetworkCode.NetWorkSniffer
