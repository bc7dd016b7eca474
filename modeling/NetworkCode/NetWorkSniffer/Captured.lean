import NetworkCode.NetWorkSniffer.Dump

/-!
# What the log says of a frame

The frames are received into one buffer that is never cleared, so that a frame stands in front of
what older frames have left there. `ProcessPacket` moves the pointer and not the size: the print
functions get the bytes from the fifteenth on and the size of the whole frame.
-/

namespace NetworkCode.NetWorkSniffer

open Text

/-- The size of the buffer, `sizeof(unsigned char *) * 65536`. -/
def bufferSize : Nat := 8 * 65536

/-- The most that `recvfrom` is asked for. -/
def maxFrame : Nat := 65536

/-- These are the calls that are made for the frame, when `rest` stands behind it. -/
def Handles (frame rest : Bytes) (calls : List Call) : Prop :=
  frame.length + rest.length = bufferSize ∧
    ∃ s t, processPacket (frame ++ rest) frame.length s = some t ∧ t.calls = s.calls ++ calls

/-- Each byte that a call reads or gives to `PrintData` is one of the first `length` of the
buffer. -/
def Call.Within (length : Nat) (c : Call) : Prop :=
  ∃ es, c.entry = some es ∧ ∀ e ∈ es, ∀ i ∈ e.offsets, 6 + 6 + 3 + i < length

/-- What a call writes to the log file. -/
def Call.text (c : Call) : Bytes := (c.entry.getD []).flatMap Event.text

/-- Only bytes of the frame are read, and the log entry depends on nothing else. -/
structure OnlyCaptured (frame : Bytes) : Prop where
  within : ∀ rest calls, Handles frame rest calls → ∀ c ∈ calls, c.Within frame.length
  independent : ∀ rest rest' calls calls', Handles frame rest calls → Handles frame rest' calls' →
    calls.flatMap Call.text = calls'.flatMap Call.text

variable {frame rest : Bytes} {calls : List Call} {p : UInt8}

/-- Packets of three protocols are printed. -/
theorem printer_eq_none_iff : (Kind.of p).printer = none ↔ p ≠ 1 ∧ p ≠ 6 ∧ p ≠ 17 := by
  unfold Kind.of
  split <;> simp_all [Kind.printer]

/-- A byte of the frame is the same whatever stands behind the frame. -/
theorem getElem?_frame {i : Nat} (hp : frame[i]? = some p) : (frame ++ rest)[i]? = some p := by
  rw [List.getElem?_append_left (List.getElem?_eq_some_iff.mp hp).1, hp]

/-- The calls for a frame are decided by one byte. -/
theorem Handles.eq (h : Handles frame rest calls) :
    ∃ p, (frame ++ rest)[linkHeader + 10]? = some p ∧
      calls = (Kind.of p).printer.toList.map fun printer =>
        ⟨printer, (frame ++ rest).drop (linkHeader + 1), frame.length⟩ := by
  obtain ⟨-, s, t, ht, hcalls⟩ := h
  obtain ⟨p, hp, -, hprinted⟩ := processPacket_eq_some ht
  exact ⟨p, hp, List.append_cancel_left (hcalls.symm.trans hprinted)⟩

/-- A frame is processed by a sniffer that has not counted too much. -/
theorem handles_of_getElem? (hlength : frame.length + rest.length = bufferSize)
    (hp : (frame ++ rest)[linkHeader + 10]? = some p) :
    Handles frame rest ((Kind.of p).printer.toList.map fun printer =>
      ⟨printer, (frame ++ rest).drop (linkHeader + 1), frame.length⟩) := by
  have hfits : unused.prot.total < intMax ∧ unused.prot.counter (.of p) < intMax := by
    refine ⟨by decide, ?_⟩
    cases Kind.of p <;> decide
  exact ⟨hlength, unused, _, (processPacket_eq hp).trans (if_pos hfits), rfl⟩

/-- A section that is not empty gives its last byte to `PrintData`. -/
theorem mem_offsets_sectionOf {buf : Bytes} {offset : Nat} {size : Int} (hpos : 0 < size) :
    offset + size.toNat - 1 ∈ (sectionOf buf offset size).offsets := by
  simp only [Dumped.offsets, sectionOf, List.mem_range'_1]
  omega

/-- A print function gives the last of the bytes that it takes for the packet, or one behind it,
to `PrintData`. -/
theorem exists_mem_offsets {c : Call} {es : List Event} (hpos : 0 < c.size)
    (hsize : c.size < 2 ^ 31) (hes : c.entry = some es) :
    ∃ e ∈ es, ∃ i ∈ e.offsets, c.size ≤ i + 1 := by
  obtain ⟨i, h, -, -, hdumps⟩ := entry_eq_some hsize hes
  -- the last section that is not empty
  have hsection : ∃ offset size, sectionOf c.buf offset size ∈ sections c.buf c.size i h ∧
      0 < size ∧ c.size ≤ offset + size.toNat := by
    by_cases hpayload : (0 : Int) < c.size - h - i * 4
    · exact ⟨i * 4 + h, c.size - h - i * 4, by simp [sections], hpayload, by omega⟩
    · by_cases hheader : 0 < h
      · exact ⟨i * 4, h, by simp [sections], by omega, by omega⟩
      · exact ⟨0, (i * 4 : Nat), by simp [sections], by omega, by omega⟩
  obtain ⟨offset, size, hmem, hlast, hreach⟩ := hsection
  refine ⟨_, mem_dumps.mp (hdumps ▸ hmem), _, mem_offsets_sectionOf hlast, ?_⟩
  omega

/-- A header has at most 60 bytes. -/
theorem exists_headerLength {printer : Printer} {buf : Bytes} (iphdrlen : Nat)
    (h : iphdrlen + 12 < buf.length) :
    ∃ d, printer.headerLength buf iphdrlen = some d ∧ d ≤ 60 := by
  cases printer with
  | icmp => exact ⟨8, rfl, by decide⟩
  | udp => exact ⟨8, rfl, by decide⟩
  | tcp =>
    refine ⟨buf[iphdrlen + 12].toNat / 16 * 4, ?_, ?_⟩
    · rw [Printer.headerLength, doff, List.getElem?_eq_getElem h]
      rfl
    · have hlt := buf[iphdrlen + 12].toNat_lt
      omega

/-- The print functions come to their end: no byte outside of the buffer is read. -/
theorem Handles.entry_ne_none (h : Handles frame rest calls) (hmax : frame.length ≤ maxFrame)
    {c : Call} (hc : c ∈ calls) : c.entry ≠ none := by
  obtain ⟨p, -, rfl⟩ := h.eq
  obtain ⟨printer, -, rfl⟩ := List.mem_map.mp hc
  have hlength : ((frame ++ rest).drop (linkHeader + 1)).length = bufferSize - 15 := by
    rw [List.length_drop, List.length_append, h.1]
    rfl
  generalize (frame ++ rest).drop (linkHeader + 1) = buf at hlength
  simp only [bufferSize, maxFrame] at hlength hmax
  obtain ⟨i, hihl⟩ : ∃ i, ihl buf = some i :=
    ⟨_, by rw [ihl, List.getElem?_eq_getElem (by omega), Option.map_some]⟩
  have hi := ihl_lt hihl
  obtain ⟨d, hheader, hd⟩ := @exists_headerLength printer buf (i * 4) (by omega)
  have hsize : frame.length < 2 ^ 31 := by omega
  rw [entry_ne_none_iff hsize hihl hheader]
  have hstruct : printer.structLength ≤ 20 := by cases printer <;> decide
  refine ⟨⟨?_, ?_⟩, ?_, ?_, ?_⟩ <;> simp only [hlength] <;> omega

/-- A call with the size of the frame does not stay inside of it. -/
theorem not_within {c : Call} (hpos : 0 < c.size) (hsize : c.size < 2 ^ 31) :
    ¬ c.Within c.size := by
  rintro ⟨es, hes, hwithin⟩
  obtain ⟨e, he, i, hi, hreach⟩ := exists_mem_offsets hpos hsize hes
  have hlt := hwithin e he i hi
  omega

/-- A frame whose bytes may name a protocol with a print function is not all that is read. -/
theorem not_onlyCaptured {printer : Printer} (hpos : 0 < frame.length)
    (hmax : frame.length ≤ maxFrame) (hlength : frame.length + rest.length = bufferSize)
    (hp : (frame ++ rest)[linkHeader + 10]? = some p)
    (hprinter : (Kind.of p).printer = some printer) : ¬ OnlyCaptured frame := by
  intro h
  have hwithin := h.within rest _ (handles_of_getElem? hlength hp)
  rw [hprinter] at hwithin
  have hsize : frame.length < 2 ^ 31 := lt_of_le_of_lt hmax (by decide)
  exact not_within hpos hsize (hwithin _ (List.mem_singleton_self _))

/-- Only the frame is read exactly when the byte behind the protocol field is there and names no
protocol with a print function. -/
theorem onlyCaptured_iff (hpos : 0 < frame.length) (hmax : frame.length ≤ maxFrame) :
    OnlyCaptured frame ↔ ∃ p, frame[24]? = some p ∧ p ≠ 1 ∧ p ≠ 6 ∧ p ≠ 17 := by
  have hlength (b : UInt8) :
      frame.length + (List.replicate (bufferSize - frame.length) b).length = bufferSize := by
    have hle : maxFrame ≤ bufferSize := by decide
    rw [List.length_replicate]
    omega
  simp only [← printer_eq_none_iff]
  constructor
  · intro h
    cases hp : frame[24]? with
    | none =>
      -- the byte is one that an older frame has left
      have hshort : frame.length ≤ 24 := List.getElem?_eq_none_iff.mp hp
      have hold : (frame ++ List.replicate (bufferSize - frame.length) 6)[24]? = some 6 := by
        rw [List.getElem?_append_right hshort, List.getElem?_replicate, if_pos]
        have hle : 24 < bufferSize := by decide
        omega
      exact absurd h (not_onlyCaptured hpos hmax (hlength 6) hold rfl)
    | some p =>
      refine ⟨p, rfl, ?_⟩
      by_contra hne
      obtain ⟨printer, hprinter⟩ := Option.ne_none_iff_exists'.mp hne
      exact not_onlyCaptured hpos hmax (hlength 0) (getElem?_frame hp) hprinter h
  · rintro ⟨p, hp, hnone⟩
    have hcalls {rest : Bytes} {calls : List Call} (h : Handles frame rest calls) : calls = [] := by
      obtain ⟨q, hq, hcalls⟩ := h.eq
      obtain rfl := Option.some.inj ((getElem?_frame hp).symm.trans hq)
      rw [hcalls, hnone]
      rfl
    refine ⟨?_, ?_⟩
    · intro rest calls h
      rw [hcalls h]
      exact nofun
    · intro rest rest' calls calls' h h'
      rw [hcalls h, hcalls h']

/-- On a frame whose checksum begins with 171 no print function is called. -/
theorem onlyCaptured_tcpFrame : OnlyCaptured tcpFrame.bytes :=
  (onlyCaptured_iff (by decide) (by decide)).mpr ⟨171, by decide, by decide, by decide, by decide⟩

/-- A frame with a TCP packet of 40 bytes, whose header checksum begins with the byte 6. -/
def checksumFrame : Bytes :=
  [1, 2, 3, 4, 5, 6, 7, 8, 9, 10, 11, 12, 8, 0] ++
    [69, 0, 0, 40, 31, 207, 64, 0, 64, 6, 6, 255, 10, 0, 0, 1, 10, 0, 0, 2] ++
    [0, 80, 156, 64, 0, 0, 0, 1, 0, 0, 0, 2, 80, 16, 1, 0, 0, 0, 0, 0]

/-- The last 15 bytes that are dumped for it are older ones. -/
theorem not_onlyCaptured_checksumFrame : ¬ OnlyCaptured checksumFrame := by
  have hlength : checksumFrame.length + (List.replicate (bufferSize - 54) (0 : UInt8)).length =
      bufferSize := by
    rw [List.length_replicate]
    rfl
  have hprotocol : checksumFrame[24]? = some 6 := by decide
  exact not_onlyCaptured (by decide) (by decide) hlength (getElem?_frame hprotocol) rfl

end NetworkCode.NetWorkSniffer
