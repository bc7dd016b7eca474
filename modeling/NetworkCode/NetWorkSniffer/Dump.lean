import NetworkCode.Core.Hex
import NetworkCode.Core.Lists
import NetworkCode.NetWorkSniffer.Packet

/-!
# What the sniffer writes about a packet

The print functions write the fields of the headers and then the bytes of the packet in three
sections, each by a call of `PrintData`. They get a pointer to the IP header and the size of
the packet; everything else they know of it they read through the pointer. Offsets are relative
to that pointer. A read outside of the memory is undefined.
-/

namespace NetworkCode.NetWorkSniffer

open Text

/-! ## The log file -/

/-- A call of `PrintData`: where the bytes begin, how many they are, and what it wrote. -/
structure Dumped where
  offset : Nat
  size : Int
  text : Bytes
  deriving DecidableEq, Repr

/-- What a print function does. -/
inductive Event where
  /-- It reads the byte at this offset. -/
  | loaded (offset : Nat)
  /-- It writes this text. -/
  | wrote (text : Bytes)
  /-- It calls `PrintData`. -/
  | dumped (call : Dumped)
  deriving DecidableEq, Repr

/-- One part after the other. -/
def inOrder (parts : List (Option (List Event))) : Option (List Event) :=
  (parts.mapM id).map List.flatten

/-- `fprintf` of a text. -/
def print (text : String) : Option (List Event) := some [.wrote (ascii text)]

/-- `fprintf` of a field of the packet. -/
def field (buf : Bytes) (offset width : Nat) (format : Bytes → Bytes) : Option (List Event) :=
  if offset + width ≤ buf.length then
    some ((List.range' offset width).map .loaded ++
      [.wrote (format ((buf.drop offset).take width))])
  else
    none

/-- `ntohs` and `ntohl`: the first byte counts most. -/
def ntoh (bytes : Bytes) : Nat := bytes.foldl (fun n b => 256 * n + b.toNat) 0

/-- `inet_ntoa`. -/
def inetNtoa (bytes : Bytes) : Bytes := [46].intercalate (bytes.map fun b => digits b.toNat)

/-- A line with a number that is made of a field. -/
def line (label : String) (value : Nat → Nat) (bytes : Bytes) : Bytes :=
  ascii label ++ digits (value (ntoh bytes)) ++ ascii "\n"

/-- A line with the header length in words and in bytes. -/
def lengthLine (label unit : String) (value : Nat → Nat) (bytes : Bytes) : Bytes :=
  ascii label ++ digits (value (ntoh bytes)) ++ ascii " DWORDS or " ++
    digits (value (ntoh bytes) * 4) ++ ascii unit

/-- The loop of `PrintData` from `i` on, for `n` more turns. -/
def printDataLoop (buf : Bytes) (size : Int) : Nat → Nat → Option Bytes
  | _, 0 => some []
  | i, n + 1 => do
    let b ← buf[i]?
    let rest ← printDataLoop buf size (i + 1) n
    return (if i % 16 = 0 then ascii "\n" else []) ++ (ascii " " ++ hexByte b) ++
      (if (i : Int) = size - 1 then ascii "\n" else []) ++ rest

/-- `PrintData(buf + offset, size, sniffer)`. -/
def printData (buf : Bytes) (offset : Nat) (size : Int) : Option (List Event) :=
  (printDataLoop (buf.drop offset) size 0 size.toNat).map fun text => [.dumped ⟨offset, size, text⟩]

/-! ## The print functions -/

/-- `iph->ihl`. -/
def ihl (buf : Bytes) : Option Nat := buf[0]?.map fun b => b.toNat % 16

/-- `tcph->doff`. -/
def doff (buf : Bytes) (iphdrlen : Nat) : Option Nat :=
  buf[iphdrlen + 12]?.map fun b => b.toNat / 16

/-- `print_ip_header`. -/
def printIpHeader (buf : Bytes) : Option (List Event) := inOrder
  [print "\n", print "IP Header\n",
    field buf 0 1 (line "   |-IP Version        : " (· / 16)),
    field buf 0 1 (lengthLine "   |-IP Header Length  : " " Bytes\n" (· % 16)),
    field buf 1 1 (line "   |-Type Of Service   : " id),
    field buf 2 2 fun b => ascii "   |-IP Total Length   : " ++ digits (ntoh b) ++
      ascii "  Bytes(size of Packet)\n",
    field buf 4 2 (line "   |-Identification    : " id),
    field buf 8 1 (line "   |-TTL      : " id),
    field buf 9 1 (line "   |-Protocol : " id),
    field buf 10 2 (line "   |-Checksum : " id),
    field buf 12 4 fun b => ascii "   |-Source IP        : " ++ inetNtoa b ++ ascii "\n",
    field buf 16 4 fun b => ascii "   |-Destination IP   : " ++ inetNtoa b ++ ascii "\n"]

/-- The fields in `print_tcp_packet`; the urgent pointer is not converted. -/
def tcpFields (buf : Bytes) (iphdrlen : Nat) : Option (List Event) := inOrder
  [print "\n", print "TCP Header\n",
    field buf iphdrlen 2 (line "   |-Source Port      : " id),
    field buf (iphdrlen + 2) 2 (line "   |-Destination Port : " id),
    field buf (iphdrlen + 4) 4 (line "   |-Sequence Number    : " id),
    field buf (iphdrlen + 8) 4 (line "   |-Acknowledge Number : " id),
    field buf (iphdrlen + 12) 1 (lengthLine "   |-Header Length      : " " BYTES\n" (· / 16)),
    field buf (iphdrlen + 13) 1 (line "   |-Urgent Flag          : " (· / 32 % 2)),
    field buf (iphdrlen + 13) 1 (line "   |-Acknowledgement Flag : " (· / 16 % 2)),
    field buf (iphdrlen + 13) 1 (line "   |-Push Flag            : " (· / 8 % 2)),
    field buf (iphdrlen + 13) 1 (line "   |-Reset Flag           : " (· / 4 % 2)),
    field buf (iphdrlen + 13) 1 (line "   |-Synchronise Flag     : " (· / 2 % 2)),
    field buf (iphdrlen + 13) 1 (line "   |-Finish Flag          : " (· % 2)),
    field buf (iphdrlen + 14) 2 (line "   |-Window         : " id),
    field buf (iphdrlen + 16) 2 (line "   |-Checksum       : " id),
    field buf (iphdrlen + 18) 2 fun b => line "   |-Urgent Pointer : " id b.reverse,
    print "\n", print "                        DATA Dump                         ", print "\n"]

/-- The fields in `print_udp_packet`. -/
def udpFields (buf : Bytes) (iphdrlen : Nat) : Option (List Event) := inOrder
  [print "\nUDP Header\n",
    field buf iphdrlen 2 (line "   |-Source Port      : " id),
    field buf (iphdrlen + 2) 2 (line "   |-Destination Port : " id),
    field buf (iphdrlen + 4) 2 (line "   |-UDP Length       : " id),
    field buf (iphdrlen + 6) 2 (line "   |-UDP Checksum     : " id),
    print "\n"]

/-- The fields in `print_icmp_packet`. -/
def icmpFields (buf : Bytes) (iphdrlen : Nat) : Option (List Event) := inOrder
  [print "\n", print "ICMP Header\n",
    field buf iphdrlen 1 fun b => ascii "   |-Type : " ++ digits (ntoh b) ++
      (if ntoh b = 11 then ascii "  (TTL Expired)\n"
      else if ntoh b = 0 then ascii "  (ICMP Echo Reply)\n" else []),
    field buf (iphdrlen + 1) 1 (line "   |-Code : " id),
    field buf (iphdrlen + 2) 2 (line "   |-Checksum : " id),
    print "\n"]

/-- The three sections at the end of each print function. -/
def dumpSections (buf : Bytes) (iphdrlen hdrlen : Nat) (title : String) (payload : Int) :
    Option (List Event) := inOrder
  [print "IP Header\n", printData buf 0 iphdrlen,
    print title, printData buf iphdrlen hdrlen,
    print "Data Payload\n", printData buf (iphdrlen + hdrlen) payload,
    print "\n###########################################################"]

/-- `size - sizeof(header) - iph->ihl * 4`, computed in a `size_t` and passed as an `int`. -/
def payloadSize (size ihl : Nat) : Int := (((size : Int) - 8 - ihl * 4) % 2 ^ 64).bmod (2 ^ 32)

/-- `print_tcp_packet`. -/
def printTcpPacket (buf : Bytes) (size : Nat) : Option (List Event) := do
  let ihl ← ihl buf
  let doff ← doff buf (ihl * 4)
  inOrder [some [.loaded 0], printIpHeader buf, tcpFields buf (ihl * 4),
    dumpSections buf (ihl * 4) (doff * 4) "TCP Header\n" ((size : Int) - doff * 4 - ihl * 4)]

/-- `print_udp_packet`. `sizeof` is that of a pointer. -/
def printUdpPacket (buf : Bytes) (size : Nat) : Option (List Event) := do
  let ihl ← ihl buf
  inOrder [some [.loaded 0],
    print "\n\n***********************UDP Packet*************************\n", printIpHeader buf,
    udpFields buf (ihl * 4), dumpSections buf (ihl * 4) 8 "UDP Header\n" (payloadSize size ihl)]

/-- `print_icmp_packet`. `sizeof` is that of a pointer. -/
def printIcmpPacket (buf : Bytes) (size : Nat) : Option (List Event) := do
  let ihl ← ihl buf
  inOrder [some [.loaded 0],
    print "\n\n***********************ICMP Packet*************************\n", printIpHeader buf,
    icmpFields buf (ihl * 4), dumpSections buf (ihl * 4) 8 "UDP Header\n" (payloadSize size ihl)]

/-- What a call of a print function does. -/
def Call.entry (c : Call) : Option (List Event) :=
  match c.printer with
  | .icmp => printIcmpPacket c.buf c.size
  | .tcp => printTcpPacket c.buf c.size
  | .udp => printUdpPacket c.buf c.size

/-! ## What is done in a part -/

/-- The bytes that `PrintData` gets. -/
def Dumped.offsets (call : Dumped) : List Nat := List.range' call.offset call.size.toNat

/-- The bytes that are read. -/
def Event.offsets : Event → List Nat
  | .loaded offset => [offset]
  | .wrote _ => []
  | .dumped call => call.offsets

/-- What is written to the log file. -/
def Event.text : Event → Bytes
  | .loaded _ => []
  | .wrote text => text
  | .dumped call => call.text

/-- The calls of `PrintData`. -/
def dumps (es : List Event) : List Dumped :=
  es.filterMap fun
    | .dumped call => some call
    | _ => none

/-- The calls of `PrintData` in a part. -/
def dumpsOf (part : Option (List Event)) : List Dumped := (part.map dumps).getD []

variable {buf : Bytes} {parts : List (Option (List Event))} {es : List Event}

/-- The dumps are the events that are calls of `PrintData`. -/
theorem mem_dumps {call : Dumped} : call ∈ dumps es ↔ .dumped call ∈ es := by
  rw [dumps, List.mem_filterMap]
  constructor
  · rintro ⟨e, he, hcall⟩
    cases e with
    | dumped call' => exact Option.some.inj hcall ▸ he
    | loaded offset => cases hcall
    | wrote text => cases hcall
  · exact fun h => ⟨_, h, rfl⟩

/-- A sequence can be done when all its parts can. -/
theorem inOrder_ne_none_iff : inOrder parts ≠ none ↔ ∀ part ∈ parts, part ≠ none := by
  rw [inOrder, ne_eq, Option.map_eq_none_iff]
  exact mapM_ne_none_iff

/-- The dumps of a sequence are those of its parts. -/
theorem dumps_inOrder (h : inOrder parts = some es) : dumps es = parts.flatMap dumpsOf := by
  obtain ⟨done, hdone, rfl⟩ := Option.map_eq_some_iff.mp h
  rw [mapM_eq_some_iff, List.map_id] at hdone
  rw [hdone, List.flatMap_map, dumps, List.filterMap_flatten]
  rfl

/-- A sequence of parts without dumps has none. -/
theorem dumpsOf_inOrder (h : ∀ part ∈ parts, dumpsOf part = []) : dumpsOf (inOrder parts) = [] := by
  cases hes : inOrder parts with
  | none => rfl
  | some es => exact (dumps_inOrder hes).trans (List.flatMap_eq_nil_iff.mpr h)

@[simp] theorem print_ne_none (text : String) : print text ≠ none := nofun

@[simp] theorem dumpsOf_print (text : String) : dumpsOf (print text) = [] := rfl

/-- A field can be written when it is in the memory. -/
@[simp] theorem field_ne_none_iff {offset width : Nat} {format : Bytes → Bytes} :
    field buf offset width format ≠ none ↔ offset + width ≤ buf.length := by
  unfold field
  split
  · exact iff_of_true nofun ‹_›
  · exact iff_of_false (not_not.mpr rfl) ‹_›

/-- A field is no dump. -/
@[simp] theorem dumpsOf_field {offset width : Nat} {format : Bytes → Bytes} :
    dumpsOf (field buf offset width format) = [] := by
  unfold field
  split
  · change dumps _ = []
    rw [dumps, List.filterMap_append, List.filterMap_map, List.filterMap_eq_nil_iff.mpr]
    · rfl
    · exact fun _ _ => rfl
  · rfl

/-! ## `PrintData` -/

/-- A turn of the loop writes the cell of a byte, and a line break behind the last one. -/
theorem printDataLoop_succ {size : Int} {i n : Nat} :
    printDataLoop buf size i (n + 1) =
      buf[i]?.bind fun b => (printDataLoop buf size (i + 1) n).map fun rest =>
        cell i b ++ (if (i : Int) = size - 1 then [10] else []) ++ rest := by
  have hbreak : ascii "\n" = [10] := by decide
  have hblank : ascii " " = [32] := by decide
  simp only [printDataLoop, hbreak, hblank]
  cases buf[i]? with
  | none => rfl
  | some b => cases printDataLoop buf size (i + 1) n <;> rfl

/-- The loop of `PrintData` writes the cells, and a line break behind the last one. -/
theorem printDataLoop_eq {size : Int} {i n : Nat} (hsize : n = 0 ∨ (i + n : Int) = size)
    (hi : i ≤ buf.length) :
    printDataLoop buf size i n =
      if i + n ≤ buf.length then
        some ((((buf.drop i).take n).mapIdx fun k b => cell (i + k) b).flatten ++
          if n = 0 then [] else [10])
      else none := by
  induction n generalizing i with
  | zero => simp [printDataLoop, hi]
  | succ n ih =>
    rw [printDataLoop_succ]
    by_cases hlt : i < buf.length
    · have hlast : (i : Int) = size - 1 ↔ n = 0 := by omega
      have hnext := ih (i := i + 1) (by omega) hlt
      have hcomm (k : Nat) : i + 1 + k = i + (k + 1) := by omega
      rw [hnext, List.getElem?_eq_getElem hlt, List.drop_eq_getElem_cons hlt, List.take_succ_cons,
        List.mapIdx_cons]
      simp only [hcomm, hlast, Option.bind_some]
      by_cases hfit : i + (n + 1) ≤ buf.length
      · by_cases hn : n = 0 <;> simp [hfit, hn]
      · simp [hfit]
    · have hfar : ¬ i + (n + 1) ≤ buf.length := by omega
      rw [List.getElem?_eq_none (Nat.le_of_not_lt hlt), if_neg hfar]
      rfl

/-- The call of `PrintData` for a section of the memory. -/
def sectionOf (buf : Bytes) (offset : Nat) (size : Int) : Dumped :=
  ⟨offset, size, dump ((buf.drop offset).take size.toNat)⟩

/-- `PrintData` comes to its end when its bytes are in the memory. -/
theorem printData_eq {offset : Nat} {size : Int} :
    printData buf offset size =
      if size.toNat ≤ buf.length - offset then some [.dumped (sectionOf buf offset size)]
      else none := by
  have hsize : size.toNat = 0 ∨ ((0 : Nat) + size.toNat : Int) = size := by omega
  rw [printData, printDataLoop_eq hsize (Nat.zero_le _), Nat.zero_add, List.length_drop]
  split
  · simp only [List.drop_zero, Nat.zero_add, Option.map_some, sectionOf, dump]
    have hnil : (buf.drop offset).take size.toNat = [] ↔ size.toNat = 0 := by
      rw [← List.length_eq_zero_iff, List.length_take, List.length_drop]
      omega
    rw [if_congr hnil rfl rfl]
  · rfl

/-- A dump is defined when the bytes are there. -/
@[simp] theorem printData_ne_none_iff {offset : Nat} {size : Int} :
    printData buf offset size ≠ none ↔ size.toNat ≤ buf.length - offset := by
  rw [printData_eq]
  split
  · exact iff_of_true nofun ‹_›
  · exact iff_of_false (not_not.mpr rfl) ‹_›

/-- A dump dumps the section that it is given. -/
theorem dumpsOf_printData {offset : Nat} {size : Int} (h : printData buf offset size ≠ none) :
    dumpsOf (printData buf offset size) = [sectionOf buf offset size] := by
  rw [printData_eq, if_pos (printData_ne_none_iff.mp h)]
  rfl

/-! ## The headers -/

/-- The header is printed when all of it is there. -/
theorem printIpHeader_ne_none_iff : printIpHeader buf ≠ none ↔ 20 ≤ buf.length := by
  simp [printIpHeader, inOrder_ne_none_iff]
  omega

/-- The fields of the header are no dump. -/
theorem dumpsOf_printIpHeader : dumpsOf (printIpHeader buf) = [] := by
  apply dumpsOf_inOrder
  simp

/-- The fields that a print function writes after the IP header, and the sections behind them. -/
def Printer.fields (buf : Bytes) (iphdrlen : Nat) : Printer → Option (List Event)
  | .icmp => icmpFields buf iphdrlen
  | .tcp => tcpFields buf iphdrlen
  | .udp => udpFields buf iphdrlen

/-- The size of the structure that a print function reads behind the IP header. -/
def Printer.structLength : Printer → Nat
  | .icmp => 4
  | .tcp => 20
  | .udp => 8

/-- The length of the header that a print function writes as the second section. -/
def Printer.headerLength (buf : Bytes) (iphdrlen : Nat) : Printer → Option Nat
  | .tcp => (doff buf iphdrlen).map (· * 4)
  | .icmp | .udp => some 8

/-- The fields behind the IP header can be written when their structure is in the memory. -/
theorem fields_ne_none_iff {printer : Printer} {iphdrlen : Nat} :
    printer.fields buf iphdrlen ≠ none ↔ iphdrlen + printer.structLength ≤ buf.length := by
  cases printer <;>
    simp [Printer.fields, Printer.structLength, icmpFields, tcpFields, udpFields,
      inOrder_ne_none_iff] <;>
    omega

/-- The fields of a packet are no dump. -/
theorem dumpsOf_fields {printer : Printer} {iphdrlen : Nat} :
    dumpsOf (printer.fields buf iphdrlen) = [] := by
  cases printer <;> apply dumpsOf_inOrder <;> simp

/-! ## The three sections -/

/-- The subtraction of the two sizes wraps twice, and the `int` is the difference. -/
theorem payloadSize_eq {size i : Nat} (hsize : size < 2 ^ 31) (hi : i < 16) :
    payloadSize size i = (size : Int) - 8 - i * 4 := by
  rw [payloadSize, Int.bmod_def]
  omega

/-- The length of the header is a number of four bits. -/
theorem ihl_lt {i : Nat} (h : ihl buf = some i) : i < 16 := by
  obtain ⟨b, -, rfl⟩ := Option.map_eq_some_iff.mp h
  exact Nat.mod_lt _ (by decide)

/-- The sections, when the headers have the lengths `i * 4` and `h`. -/
def sections (buf : Bytes) (size i h : Nat) : List Dumped :=
  [sectionOf buf 0 (i * 4 : Nat), sectionOf buf (i * 4) h,
    sectionOf buf (i * 4 + h) (size - h - i * 4)]

/-- The sections can be written when they are in the memory. -/
theorem dumpSections_ne_none_iff {iphdrlen hdrlen : Nat} {title : String} {payload : Int} :
    dumpSections buf iphdrlen hdrlen title payload ≠ none ↔
      iphdrlen ≤ buf.length ∧ hdrlen ≤ buf.length - iphdrlen ∧
        payload.toNat ≤ buf.length - (iphdrlen + hdrlen) := by
  simp [dumpSections, inOrder_ne_none_iff]

/-- The three sections of a packet are dumped one after the other. -/
theorem dumpsOf_dumpSections {iphdrlen hdrlen : Nat} {title : String} {payload : Int}
    (h : dumpSections buf iphdrlen hdrlen title payload ≠ none) :
    dumpsOf (dumpSections buf iphdrlen hdrlen title payload) =
      [sectionOf buf 0 iphdrlen, sectionOf buf iphdrlen hdrlen,
        sectionOf buf (iphdrlen + hdrlen) payload] := by
  obtain ⟨es, hes⟩ := Option.ne_none_iff_exists'.mp h
  have hparts := inOrder_ne_none_iff.mp h
  simp only [List.forall_mem_cons] at hparts
  obtain ⟨-, hip, -, hheader, -, hpayload, -⟩ := hparts
  have hdumps := dumps_inOrder hes
  simp only [List.flatMap_cons, List.flatMap_nil, dumpsOf_print, dumpsOf_printData hip,
    dumpsOf_printData hheader, dumpsOf_printData hpayload] at hdumps
  rw [hes]
  exact hdumps

/-- The texts by which the print functions differ. -/
def Printer.banner : Printer → List String
  | .icmp => ["\n\n***********************ICMP Packet*************************\n"]
  | .tcp => []
  | .udp => ["\n\n***********************UDP Packet*************************\n"]

def Printer.title : Printer → String
  | .tcp => "TCP Header\n"
  | .icmp | .udp => "UDP Header\n"

/-- What comes before the sections: the banner, the fields of the IP header, and those of the
header behind it. -/
def Printer.preamble (buf : Bytes) (iphdrlen : Nat) (printer : Printer) :
    List (Option (List Event)) :=
  some [.loaded 0] :: printer.banner.map print ++
    [printIpHeader buf, printer.fields buf iphdrlen]

/-- The part before the sections needs the two header structures. -/
theorem preamble_ne_none_iff {printer : Printer} {iphdrlen : Nat} :
    (∀ part ∈ printer.preamble buf iphdrlen, part ≠ none) ↔
      20 ≤ buf.length ∧ iphdrlen + printer.structLength ≤ buf.length := by
  simp only [Printer.preamble, List.forall_mem_append, List.forall_mem_cons, List.forall_mem_map,
    printIpHeader_ne_none_iff, fields_ne_none_iff]
  simp

/-- In front of the sections nothing is dumped. -/
theorem dumpsOf_preamble {printer : Printer} {iphdrlen : Nat} :
    (printer.preamble buf iphdrlen).flatMap dumpsOf = [] := by
  simp only [Printer.preamble, List.flatMap_eq_nil_iff, List.forall_mem_append,
    List.forall_mem_cons, List.forall_mem_map, dumpsOf_printIpHeader, dumpsOf_fields, dumpsOf_print]
  simp [dumpsOf, dumps]

/-- The print functions do the same one after the other. -/
theorem entry_eq {c : Call} (hsize : c.size < 2 ^ 31) :
    c.entry = (ihl c.buf).bind fun i => (c.printer.headerLength c.buf (i * 4)).bind fun h =>
      inOrder (c.printer.preamble c.buf (i * 4) ++
        [dumpSections c.buf (i * 4) h c.printer.title (c.size - h - i * 4)]) := by
  obtain ⟨printer, buf, size⟩ := c
  cases hihl : ihl buf with
  | none =>
    cases printer <;> simp [Call.entry, printIcmpPacket, printTcpPacket, printUdpPacket, hihl]
  | some i =>
    have hpayload := payloadSize_eq hsize (ihl_lt hihl)
    cases printer with
    | icmp =>
      simp only [Call.entry, printIcmpPacket, hihl, Option.bind_eq_bind, Option.bind_some]
      rw [hpayload]
      rfl
    | udp =>
      simp only [Call.entry, printUdpPacket, hihl, Option.bind_eq_bind, Option.bind_some]
      rw [hpayload]
      rfl
    | tcp =>
      simp only [Call.entry, printTcpPacket, hihl, Printer.headerLength, Option.bind_eq_bind,
        Option.bind_some]
      cases doff buf (i * 4) <;> rfl

/-- A print function can be executed when the memory has what the headers say. -/
theorem entry_ne_none_iff {c : Call} {i h : Nat} (hsize : c.size < 2 ^ 31)
    (hihl : ihl c.buf = some i) (hh : c.printer.headerLength c.buf (i * 4) = some h) :
    c.entry ≠ none ↔ (20 ≤ c.buf.length ∧ i * 4 + c.printer.structLength ≤ c.buf.length) ∧
      i * 4 ≤ c.buf.length ∧ h ≤ c.buf.length - i * 4 ∧
        ((c.size : Int) - h - i * 4).toNat ≤ c.buf.length - (i * 4 + h) := by
  rw [entry_eq hsize, hihl, Option.bind_some, hh, Option.bind_some, inOrder_ne_none_iff,
    List.forall_mem_append, preamble_ne_none_iff, List.forall_mem_singleton,
    dumpSections_ne_none_iff]

/-- The dumps of a print function are the three sections. -/
theorem dumps_entry {c : Call} {i h : Nat} (hsize : c.size < 2 ^ 31)
    (hihl : ihl c.buf = some i) (hh : c.printer.headerLength c.buf (i * 4) = some h)
    (hes : c.entry = some es) : dumps es = sections c.buf c.size i h := by
  rw [entry_eq hsize, hihl, Option.bind_some, hh, Option.bind_some] at hes
  have hparts := inOrder_ne_none_iff.mp (Option.ne_none_iff_exists'.mpr ⟨es, hes⟩)
  have hsections := hparts _ (List.mem_append_right _ (List.mem_singleton_self _))
  rw [dumps_inOrder hes, List.flatMap_append, dumpsOf_preamble, List.nil_append,
    List.flatMap_singleton, dumpsOf_dumpSections hsections]
  rfl

/-- What is known of a print function that comes to its end. -/
theorem entry_eq_some {c : Call} (hsize : c.size < 2 ^ 31) (hes : c.entry = some es) :
    ∃ i h, ihl c.buf = some i ∧ c.printer.headerLength c.buf (i * 4) = some h ∧
      dumps es = sections c.buf c.size i h := by
  have hall := hes
  rw [entry_eq hsize] at hall
  obtain ⟨i, hihl, hall⟩ := Option.bind_eq_some_iff.mp hall
  obtain ⟨h, hheader, -⟩ := Option.bind_eq_some_iff.mp hall
  exact ⟨i, h, hihl, hheader, dumps_entry hsize hihl hheader hes⟩

end NetworkCode.NetWorkSniffer
