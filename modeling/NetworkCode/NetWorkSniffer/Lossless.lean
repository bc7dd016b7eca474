import NetworkCode.NetWorkSniffer.Dump

/-!
# The dump of a packet

The three sections that a print function writes have their lengths from different places: two
headers that give their own length, a constant, and a difference. When the headers fit into the
packet, the sections cut the packet, and the hexadecimal digits that are written for them are
read back as the packet.
-/

namespace NetworkCode.NetWorkSniffer

open Text

/-- The calls of `PrintData` are three and get the bytes of the packet in their order. What they
write is read back as the packet, and has a line break before each 16th byte of a section. -/
structure Lossless (packet : Bytes) (es : List Event) : Prop where
  three : (dumps es).length = 3
  covers : (dumps es).flatMap Dumped.offsets = List.range packet.length
  reads : readHex ((dumps es).flatMap Dumped.text) = some packet
  breaks : ∀ call ∈ dumps es, call.text = dump ((packet.drop call.offset).take call.size.toNat)

variable {packet rest : Bytes} {es : List Event}

/-- A section inside of the packet has the packet's bytes. -/
theorem sectionOf_append {offset n : Nat} (h : offset + n ≤ packet.length) :
    sectionOf (packet ++ rest) offset n = sectionOf packet offset n := by
  have htake : n ≤ (packet.drop offset).length := by
    rw [List.length_drop]
    omega
  simp only [sectionOf, Int.toNat_natCast]
  rw [List.drop_append_of_le_length (by omega), List.take_append_of_le_length htake]

/-- The sections of a packet whose headers fit into it. -/
theorem sections_eq {i h : Nat} (hfit : i * 4 + h ≤ packet.length) :
    sections (packet ++ rest) packet.length i h =
      [sectionOf packet 0 (i * 4 : Nat), sectionOf packet (i * 4) h,
        sectionOf packet (i * 4 + h) (packet.length - (i * 4 + h) : Nat)] := by
  have hpayload : (packet.length : Int) - h - i * 4 = (packet.length - (i * 4 + h) : Nat) := by
    omega
  rw [sections, hpayload, sectionOf_append (by omega), sectionOf_append (by omega),
    sectionOf_append (by omega)]

/-- Two cuts of a packet. -/
theorem take_append_take_append_drop (packet : Bytes) (i h : Nat) :
    packet.take i ++ ((packet.drop i).take h ++ packet.drop (i + h)) = packet := by
  rw [← List.drop_drop, List.take_append_drop, List.take_append_drop]

/-- Two cuts of a range. -/
theorem range'_append_range'_append_range' (i h n : Nat) (hfit : i + h ≤ n) :
    List.range' 0 i ++ (List.range' i h ++ List.range' (i + h) (n - (i + h))) = List.range n := by
  have hsum : i + (h + (n - (i + h))) = n := by omega
  have hall : List.range' 0 i ++ List.range' (0 + i) (h + (n - (i + h))) = List.range' 0 n := by
    rw [List.range'_append_1, hsum]
  rw [Nat.zero_add, ← List.range'_append_1] at hall
  rw [hall, List.range_eq_range']

/-- Two cuts of a packet into sections lose nothing of it. -/
theorem lossless_of_dumps {i h : Nat} (hfit : i + h ≤ packet.length)
    (hdumps : dumps es = [sectionOf packet 0 i, sectionOf packet i h,
      sectionOf packet (i + h) (packet.length - (i + h) : Nat)]) : Lossless packet es := by
  have hpayload : (packet.drop (i + h)).take (packet.length - (i + h)) = packet.drop (i + h) :=
    List.take_of_length_le (by rw [List.length_drop])
  refine ⟨?_, ?_, ?_, ?_⟩
  · rw [hdumps]
    rfl
  · rw [hdumps]
    simp only [List.flatMap_cons, List.flatMap_nil, List.append_nil, Dumped.offsets, sectionOf,
      Int.toNat_natCast]
    exact range'_append_range'_append_range' _ _ _ hfit
  · rw [hdumps]
    simp only [List.flatMap_cons, List.flatMap_nil, sectionOf, readHex_dump, Int.toNat_natCast]
    simp only [hpayload, readHex, Option.map_some, List.append_nil, List.drop_zero,
      take_append_take_append_drop]
  · rw [hdumps]
    simp only [List.forall_mem_cons]
    exact ⟨rfl, rfl, rfl, List.forall_mem_nil _⟩

/-- Each print function dumps the packet, when the headers fit into it, and it can be executed when
the memory is long enough for the header structures it reads. -/
theorem lossless_sections {printer : Printer} {i h : Nat} (hsize : packet.length < 2 ^ 31)
    (hihl : ihl (packet ++ rest) = some i)
    (hheader : printer.headerLength (packet ++ rest) (i * 4) = some h)
    (hfit : i * 4 + h ≤ packet.length) :
    ((Call.mk printer (packet ++ rest) packet.length).entry ≠ none ↔
      20 ≤ (packet ++ rest).length ∧ i * 4 + printer.structLength ≤ (packet ++ rest).length) ∧
    ∀ es, (Call.mk printer (packet ++ rest) packet.length).entry = some es →
      Lossless packet es := by
  have hlength : (packet ++ rest).length = packet.length + rest.length := List.length_append
  constructor
  · rw [entry_ne_none_iff hsize hihl hheader, and_iff_left_iff_imp]
    intro _
    refine ⟨?_, ?_, ?_⟩ <;> simp only [hlength] <;> omega
  · intro es hes
    apply lossless_of_dumps hfit
    exact (dumps_entry hsize hihl hheader hes).trans (sections_eq hfit)

/-- A TCP packet of 42 bytes, two of them data. -/
def tcpPacket : Bytes :=
  [69, 0, 0, 42, 0, 1, 64, 0, 64, 6, 171, 205, 10, 0, 0, 1, 10, 0, 0, 2] ++
    [0, 80, 156, 64, 0, 0, 0, 1, 0, 0, 0, 2, 80, 24, 1, 0, 0, 0, 0, 0] ++ [104, 105]

/-- The print function comes to its end on the packet, and dumps it. -/
theorem lossless_tcpPacket :
    ∃ es, (Call.mk .tcp (tcpPacket ++ []) tcpPacket.length).entry = some es ∧
      Lossless tcpPacket es := by
  obtain ⟨hdefined, hlossless⟩ := @lossless_sections tcpPacket [] .tcp 5 20 (by decide) (by decide)
    (by decide) (by decide)
  obtain ⟨es, hes⟩ := Option.ne_none_iff_exists'.mp (hdefined.mpr ⟨by decide, by decide⟩)
  exact ⟨es, hes, hlossless es hes⟩

end NetworkCode.NetWorkSniffer
