import NetworkCode.Core.Decoding
import NetworkCode.NetWorkSniffer.Captured
import NetworkCode.NetWorkSniffer.Lossless

/-!
# Reading the log file back

The log file has an entry for each packet that was printed, one behind the other and of
different lengths. An entry tells by its first characters which function has written it, its
header lines end with their line breaks, and its dumps end before the titles that follow them.
So the whole file tells which packets were printed, and all their bytes.
-/

namespace NetworkCode.NetWorkSniffer

open Text

variable {c : Call} {p : Printer} {parts : List (Option (List Event))}

/-! ## The text of an entry -/

/-- What a part writes. -/
def textOf (part : Option (List Event)) : Bytes := (part.getD []).flatMap Event.text

/-- The text of a title. -/
theorem textOf_print (text : String) : textOf (print text) = ascii text := by
  rw [textOf, print, Option.getD_some, List.flatMap_singleton]
  rfl

/-- The text of a field. -/
theorem textOf_field {buf : Bytes} {offset width : Nat} {format : Bytes → Bytes}
    (h : offset + width ≤ buf.length) :
    textOf (field buf offset width format) = format ((buf.drop offset).take width) := by
  have hloads (os : List Nat) : (os.map Event.loaded).flatMap Event.text = [] :=
    List.flatMap_eq_nil_iff.mpr fun e he => by
      obtain ⟨offset, -, rfl⟩ := List.mem_map.mp he
      rfl
  rw [textOf, field, if_pos h, Option.getD_some, List.flatMap_append, hloads, List.nil_append,
    List.flatMap_singleton]
  rfl

/-- A sequence that can be done writes what its parts write. -/
theorem textOf_inOrder (h : inOrder parts ≠ none) :
    textOf (inOrder parts) = parts.flatMap textOf := by
  obtain ⟨es, hes⟩ := Option.ne_none_iff_exists'.mp h
  obtain ⟨done, hdone, rfl⟩ := Option.map_eq_some_iff.mp hes
  rw [mapM_eq_some_iff, List.map_id] at hdone
  rw [hes, hdone, textOf, Option.getD_some, List.flatMap_map, List.flatten_eq_flatMap,
    List.flatMap_assoc]
  rfl

/-- The text of a dump. -/
theorem textOf_printData {buf : Bytes} {offset : Nat} {size : Int}
    (h : printData buf offset size ≠ none) :
    textOf (printData buf offset size) = dump ((buf.drop offset).take size.toNat) := by
  rw [printData_eq, if_pos (printData_ne_none_iff.mp h), textOf, Option.getD_some,
    List.flatMap_singleton]
  rfl

/-- The lengths that the headers of a packet give. -/
def Call.words (c : Call) : Nat := (ihl c.buf).getD 0

def Call.header (c : Call) : Nat := (c.printer.headerLength c.buf (c.words * 4)).getD 0

/-- A call that comes to its end, for a packet whose headers fit into it. -/
structure Call.Complete (c : Call) : Prop where
  small : c.size < 2 ^ 31
  defined : c.entry ≠ none
  fits : c.words * 4 + c.header ≤ c.size

/-- The bytes of the three sections. -/
def Call.ipHeader (c : Call) : Bytes := c.buf.take (c.words * 4)

def Call.protocolHeader (c : Call) : Bytes := (c.buf.drop (c.words * 4)).take c.header

def Call.payload (c : Call) : Bytes :=
  (c.buf.drop (c.words * 4 + c.header)).take (c.size - (c.words * 4 + c.header))

/-- The sections behind the preamble of an entry. -/
def Call.sectionsText (c : Call) : Bytes :=
  ascii "IP Header\n" ++ (dump c.ipHeader ++ (ascii c.printer.title ++ (dump c.protocolHeader ++
    (ascii "Data Payload\n" ++ (dump c.payload ++
      ascii "\n###########################################################")))))

/-- An entry is its banner, its fields and its sections, and all its structures are in the
memory. -/
theorem text_eq (h : c.Complete) :
    c.text = c.printer.banner.flatMap ascii ++ (textOf (printIpHeader c.buf) ++
      (textOf (c.printer.fields c.buf (c.words * 4)) ++ c.sectionsText)) ∧
    20 ≤ c.buf.length ∧ c.words * 4 + c.printer.structLength ≤ c.buf.length := by
  obtain ⟨es, hes⟩ := Option.ne_none_iff_exists'.mp h.defined
  obtain ⟨i, k, hi, hk, -⟩ := entry_eq_some h.small hes
  have hwords : c.words = i := by rw [Call.words, hi, Option.getD_some]
  have hheader : c.header = k := by rw [Call.header, hwords, hk, Option.getD_some]
  have hfits := h.fits
  rw [hwords, hheader] at hfits
  obtain ⟨hmemory, -⟩ := (entry_ne_none_iff h.small hi hk).mp h.defined
  have hentry := entry_eq h.small
  rw [hi, Option.bind_some, hk, Option.bind_some] at hentry
  have hdefined := h.defined
  rw [hentry] at hdefined
  have hparts := inOrder_ne_none_iff.mp hdefined
  have hsections := hparts _ (List.mem_append_right _ (List.mem_singleton_self _))
  have hpayload : ((c.size : Int) - k - i * 4).toNat = c.size - (i * 4 + k) := by omega
  have hdumps : textOf (dumpSections c.buf (i * 4) k c.printer.title (c.size - k - i * 4)) =
      c.sectionsText := by
    have hall := inOrder_ne_none_iff.mp hsections
    simp only [List.forall_mem_cons] at hall
    obtain ⟨-, hip, -, hprotocol, -, hdata, -⟩ := hall
    rw [dumpSections, textOf_inOrder hsections]
    simp only [List.flatMap_cons, List.flatMap_nil, textOf_print, textOf_printData hip,
      textOf_printData hprotocol, textOf_printData hdata, hpayload, List.append_nil]
    simp only [Call.sectionsText, Call.ipHeader, Call.protocolHeader, Call.payload, hwords,
      hheader, List.drop_zero, Int.toNat_natCast]
  have hbanner : (c.printer.banner.map print).flatMap textOf = c.printer.banner.flatMap ascii := by
    rw [List.flatMap_map]
    exact List.flatMap_congr fun text _ => textOf_print text
  refine ⟨?_, by rw [hwords]; exact hmemory⟩
  change textOf c.entry = _
  rw [hentry, textOf_inOrder hdefined, hwords, List.flatMap_append, List.flatMap_singleton, hdumps,
    Printer.preamble, List.flatMap_append, List.flatMap_cons, hbanner]
  simp only [List.flatMap_cons, List.flatMap_nil, List.append_nil, List.append_assoc]
  rfl

/-! ## Fields -/

section

variable {α : Type*} {P : α → Prop} {buf : α → Bytes} {offset : α → Nat} {width : Nat}

/-- No more than where it ends is told of what a sequence of parts writes. -/
def Skips (P : α → Prop) (parts : α → List (Option (List Event))) : Prop :=
  Decodes P (fun a => (parts a).flatMap textOf) fun _ => ()

/-- Nothing is skipped. -/
theorem skips_nil : Skips P fun _ => [] := Decodes.const []

/-- A part without a value in front of parts that are skipped. -/
theorem skips_cons {part : α → Option (List Event)} {parts : α → List (Option (List Event))}
    (h : Decodes P (fun a => textOf (part a)) fun _ => ()) (hs : Skips P parts) :
    Skips P fun a => part a :: parts a :=
  (Decodes.append h hs).map fun _ => ()

/-- A title in front of parts that are skipped. -/
theorem skips_print {parts : α → List (Option (List Event))} (text : String)
    (hs : Skips P parts) : Skips P fun a => print text :: parts a :=
  skips_cons ((Decodes.const (ascii text)).congr fun _ _ => textOf_print text) hs

/-- A field whose text has one line break, at its end. -/
theorem skips_field {parts : α → List (Option (List Event))} {format text : Bytes → Bytes}
    {tail : String} (hs : Skips P parts) (hin : ∀ a, P a → offset a + width ≤ (buf a).length)
    (hformat : ∀ b, format b = text b ++ ascii tail) (htext : ∀ b, 10 ∉ text b)
    (htail : ascii tail = (ascii tail).dropLast ++ [10]) (hbreak : 10 ∉ (ascii tail).dropLast) :
    Skips P fun a => field (buf a) (offset a) width format :: parts a := by
  have hlines := decodes_line (P := P)
    (f := fun a => text (((buf a).drop (offset a)).take width) ++ (ascii tail).dropLast)
    fun a _ hmem => (List.mem_append.mp hmem).elim (htext _) hbreak
  refine skips_cons ((hlines.map fun _ => ()).congr fun a ha => ?_) hs
  rw [textOf_field (hin a ha), hformat, List.append_assoc, ← htail]

/-- Digits end no line. -/
theorem notMem_digits (n : Nat) : 10 ∉ digits n := by
  intro h
  have hlo := (mem_digits h).1
  exact absurd hlo (by decide)

/-- An address ends no line. -/
theorem notMem_inetNtoa (b : Bytes) : 10 ∉ inetNtoa b := by
  rw [inetNtoa]
  induction b with
  | nil => exact List.not_mem_nil
  | cons c b ih =>
    cases b with
    | nil => exact List.intercalate_singleton ▸ notMem_digits c.toNat
    | cons d b =>
      intro h
      rw [List.map_cons, List.map_cons, List.intercalate_cons_cons, List.mem_append,
        List.mem_append] at h
      rcases h with (h | h) | h
      · exact notMem_digits _ h
      · exact absurd h (by decide)
      · exact ih h

/-- A line with a number. -/
theorem skips_line {parts : α → List (Option (List Event))} {label : String} {value : Nat → Nat}
    (hs : Skips P parts) (hin : ∀ a, P a → offset a + width ≤ (buf a).length)
    (hlabel : 10 ∉ ascii label) :
    Skips P fun a => field (buf a) (offset a) width (line label value) :: parts a :=
  skips_field hs hin (fun _ => rfl)
    (fun _ hmem => (List.mem_append.mp hmem).elim hlabel (notMem_digits _)) (by decide) (by decide)

/-- A line with a header length. -/
theorem skips_lengthLine {parts : α → List (Option (List Event))} {label unit : String}
    {value : Nat → Nat} (hs : Skips P parts)
    (hin : ∀ a, P a → offset a + width ≤ (buf a).length) (hlabel : 10 ∉ ascii label)
    (htail : ascii unit = (ascii unit).dropLast ++ [10])
    (hbreak : 10 ∉ (ascii unit).dropLast) :
    Skips P fun a => field (buf a) (offset a) width (lengthLine label unit value) :: parts a := by
  refine skips_field hs hin (fun _ => rfl) (fun b hmem => ?_) htail hbreak
  simp only [List.mem_append] at hmem
  rcases hmem with ((hmem | hmem) | hmem) | hmem
  · exact hlabel hmem
  · exact notMem_digits _ hmem
  · exact absurd hmem (by decide)
  · exact notMem_digits _ hmem

/-- `print_ip_header` writes lines. -/
theorem skips_printIpHeader (hin : ∀ a, P a → 20 ≤ (buf a).length) :
    Decodes P (fun a => textOf (printIpHeader (buf a))) fun _ => () := by
  have hwithin {k : Nat} (hk : k ≤ 20) : ∀ a, P a → k ≤ (buf a).length :=
    fun a ha => Nat.le_trans hk (hin a ha)
  have hlabel {label : String} {text : Bytes → Bytes} (hlabel : 10 ∉ ascii label)
      (htext : ∀ b, 10 ∉ text b) (b : Bytes) : 10 ∉ ascii label ++ text b :=
    fun hmem => (List.mem_append.mp hmem).elim hlabel (htext b)
  refine Decodes.congr ?_ fun a ha =>
    textOf_inOrder (printIpHeader_ne_none_iff.mpr (hin a ha))
  apply skips_print
  apply skips_print
  refine skips_line ?_ (hwithin (by decide)) (by decide)
  refine skips_lengthLine ?_ (hwithin (by decide)) (by decide) (by decide) (by decide)
  refine skips_line ?_ (hwithin (by decide)) (by decide)
  refine skips_field ?_ (hwithin (by decide)) (fun _ => rfl)
    (hlabel (by decide) fun b => notMem_digits (ntoh b)) (by decide) (by decide)
  refine skips_line ?_ (hwithin (by decide)) (by decide)
  refine skips_line ?_ (hwithin (by decide)) (by decide)
  refine skips_line ?_ (hwithin (by decide)) (by decide)
  refine skips_line ?_ (hwithin (by decide)) (by decide)
  refine skips_field ?_ (hwithin (by decide)) (fun _ => rfl)
    (hlabel (by decide) notMem_inetNtoa) (by decide) (by decide)
  exact skips_field skips_nil (hwithin (by decide)) (fun _ => rfl)
    (hlabel (by decide) notMem_inetNtoa) (by decide) (by decide)

/-- So does `print_tcp_packet` behind it. -/
theorem skips_tcpFields (hin : ∀ a, P a → offset a + 20 ≤ (buf a).length) :
    Decodes P (fun a => textOf (tcpFields (buf a) (offset a))) fun _ => () := by
  have hwithin {j k : Nat} (hk : j + k ≤ 20) : ∀ a, P a → offset a + j + k ≤ (buf a).length :=
    fun a ha => by
      have := hin a ha
      omega
  refine Decodes.congr ?_ fun a ha =>
    textOf_inOrder ((@fields_ne_none_iff (buf a) .tcp (offset a)).mpr (hin a ha))
  apply skips_print
  apply skips_print
  refine skips_line ?_ (hwithin (j := 0) (by decide)) (by decide)
  refine skips_line ?_ (hwithin (by decide)) (by decide)
  refine skips_line ?_ (hwithin (by decide)) (by decide)
  refine skips_line ?_ (hwithin (by decide)) (by decide)
  refine skips_lengthLine ?_ (hwithin (by decide)) (by decide) (by decide) (by decide)
  refine skips_line ?_ (hwithin (by decide)) (by decide)
  refine skips_line ?_ (hwithin (by decide)) (by decide)
  refine skips_line ?_ (hwithin (by decide)) (by decide)
  refine skips_line ?_ (hwithin (by decide)) (by decide)
  refine skips_line ?_ (hwithin (by decide)) (by decide)
  refine skips_line ?_ (hwithin (by decide)) (by decide)
  refine skips_line ?_ (hwithin (by decide)) (by decide)
  refine skips_line ?_ (hwithin (by decide)) (by decide)
  refine skips_field ?_ (hwithin (by decide)) (fun _ => rfl) (fun b hmem =>
    (List.mem_append.mp hmem).elim (by decide) (notMem_digits (ntoh b.reverse))) (by decide)
    (by decide)
  apply skips_print
  apply skips_print
  apply skips_print
  exact skips_nil

/-- So does `print_udp_packet`. -/
theorem skips_udpFields (hin : ∀ a, P a → offset a + 8 ≤ (buf a).length) :
    Decodes P (fun a => textOf (udpFields (buf a) (offset a))) fun _ => () := by
  have hwithin {j k : Nat} (hk : j + k ≤ 8) : ∀ a, P a → offset a + j + k ≤ (buf a).length :=
    fun a ha => by
      have := hin a ha
      omega
  refine Decodes.congr ?_ fun a ha =>
    textOf_inOrder ((@fields_ne_none_iff (buf a) .udp (offset a)).mpr (hin a ha))
  apply skips_print
  refine skips_line ?_ (hwithin (j := 0) (by decide)) (by decide)
  refine skips_line ?_ (hwithin (by decide)) (by decide)
  refine skips_line ?_ (hwithin (by decide)) (by decide)
  refine skips_line ?_ (hwithin (by decide)) (by decide)
  apply skips_print
  exact skips_nil

/-- What `print_icmp_packet` writes behind the number of the type. -/
def typeName (n : Nat) : Bytes :=
  if n = 11 then ascii "  (TTL Expired)\n" else if n = 0 then ascii "  (ICMP Echo Reply)\n" else []

/-- A number and its name end where the label of the code does. -/
theorem decodes_type : Decodes (fun _ : Nat => True)
    (fun n => digits n ++ (typeName n ++ ascii "   |-Code : ")) id := by
  apply decodes_digits
  intro n
  unfold typeName
  split
  · exact ⟨32, _, rfl, by decide⟩
  · split
    · exact ⟨32, _, rfl, by decide⟩
    · exact ⟨32, _, rfl, by decide⟩

/-- The line of the type has no end when the type has no name; it ends with the label of the next
field. -/
theorem skips_type {parts : α → List (Option (List Event))} (hs : Skips P parts)
    (hin : ∀ a, P a → offset a + 2 ≤ (buf a).length) :
    Skips P fun a =>
      field (buf a) (offset a) 1
        (fun b => ascii "   |-Type : " ++ digits (ntoh b) ++ typeName (ntoh b)) ::
      field (buf a) (offset a + 1) 1 (line "   |-Code : " id) :: parts a := by
  have htype : Decodes P (fun a => digits (ntoh (((buf a).drop (offset a)).take 1)) ++
      (typeName (ntoh (((buf a).drop (offset a)).take 1)) ++ ascii "   |-Code : ")) _ :=
    decodes_type.comp fun _ _ => trivial
  have hcode : Decodes P
      (fun a => digits (ntoh (((buf a).drop (offset a + 1)).take 1)) ++ [10]) _ :=
    decodes_line fun _ _ => notMem_digits _
  have hboth := (Decodes.const (ascii "   |-Type : ")).append (htype.append (hcode.append hs))
  refine (hboth.map fun _ => ()).congr fun a ha => ?_
  have hfirst : offset a + 1 ≤ (buf a).length := Nat.le_of_succ_le (hin a ha)
  have hsecond : offset a + 1 + 1 ≤ (buf a).length := hin a ha
  rw [List.flatMap_cons, List.flatMap_cons, textOf_field hfirst,
    textOf_field hsecond, line]
  have hbreak : ascii "\n" = [10] := by decide
  simp only [hbreak, id, List.append_assoc]

/-- So does `print_icmp_packet`, but for the line of the type. -/
theorem skips_icmpFields (hin : ∀ a, P a → offset a + 4 ≤ (buf a).length) :
    Decodes P (fun a => textOf (icmpFields (buf a) (offset a))) fun _ => () := by
  have hwithin {j k : Nat} (hk : j + k ≤ 4) : ∀ a, P a → offset a + j + k ≤ (buf a).length :=
    fun a ha => by
      have := hin a ha
      omega
  refine Decodes.congr ?_ fun a ha =>
    textOf_inOrder ((@fields_ne_none_iff (buf a) .icmp (offset a)).mpr (hin a ha))
  apply skips_print
  apply skips_print
  refine skips_type ?_ (hwithin (j := 0) (by decide))
  refine skips_line ?_ (hwithin (by decide)) (by decide)
  apply skips_print
  exact skips_nil

/-- The fields behind the IP header end where their function tells. -/
theorem decodes_fields (printer : Printer)
    (hin : ∀ a, P a → offset a + printer.structLength ≤ (buf a).length) :
    Decodes P (fun a => textOf (printer.fields (buf a) (offset a))) fun _ => () := by
  cases printer with
  | icmp => exact skips_icmpFields hin
  | tcp => exact skips_tcpFields hin
  | udp => exact skips_udpFields hin

end

/-! ## Entries -/

/-- The bytes of the packet are those of the three sections. -/
theorem sections_append (h : c.Complete) :
    c.ipHeader ++ (c.protocolHeader ++ c.payload) = c.buf.take c.size := by
  have hcut := take_append_take_append_drop (c.buf.take c.size) (c.words * 4) c.header
  have hfits := h.fits
  rw [List.take_take, List.drop_take, List.take_take, List.drop_take,
    Nat.min_eq_left (by omega), Nat.min_eq_left (by omega)] at hcut
  exact hcut

/-- The sections give back their bytes. -/
theorem decodes_sections {P : Call → Prop} (hP : ∀ c, P c → c.printer = p) :
    Decodes P Call.sectionsText fun c => c.ipHeader ++ (c.protocolHeader ++ c.payload) := by
  have hdump (s : Bytes) (hs : Stops s) (part : Call → Bytes) :
      Decodes P (fun c => dump (part c) ++ s) part := (decodes_dump hs).comp fun _ _ => trivial
  have htitle : Stops (ascii p.title) := by cases p <;> decide
  have hip := hdump _ htitle Call.ipHeader
  have hprotocol := hdump (ascii "Data Payload\n") (by decide) Call.protocolHeader
  have hpayload := hdump
    (ascii "\n###########################################################") (by decide) Call.payload
  have hall := (Decodes.const (ascii "IP Header\n")).append
    (hip.append (hprotocol.append hpayload))
  refine (hall.map fun v => v.2.1 ++ (v.2.2.1 ++ v.2.2.2)).congr fun c hc => ?_
  simp only [Call.sectionsText, hP c hc, List.append_assoc]

/-- An entry gives back the bytes of its packet, when the function is known that wrote it. -/
theorem decodes_entry (p : Printer) : Decodes (fun c => c.Complete ∧ c.printer = p) Call.text
    fun c => c.buf.take c.size := by
  have hip := @skips_printIpHeader Call (fun c => c.Complete ∧ c.printer = p) Call.buf
    fun c hc => (text_eq hc.1).2.1
  have hfields := @decodes_fields Call (fun c => c.Complete ∧ c.printer = p) Call.buf
    (fun c => c.words * 4) p fun c hc => hc.2 ▸ (text_eq hc.1).2.2
  have hsections := @decodes_sections p (fun c => c.Complete ∧ c.printer = p) fun c hc => hc.2
  have hall := (Decodes.const (p.banner.flatMap ascii)).append
    (hip.append (hfields.append hsections))
  have hbytes : Decodes _ Call.text _ := (hall.map fun v => v.2.2.2).congr fun c hc => by
    rw [(text_eq hc.1).1, hc.2]
  exact hbytes.value fun c hc => (sections_append hc.1).symm

/-- The first characters of an entry. -/
def Printer.opening (p : Printer) : Bytes := p.banner.flatMap ascii ++ ascii "\nIP Header\n"

/-- The openings differ before one of them ends. -/
theorem opening_inj {p q : Printer} (h : p.opening <+: q.opening) : p = q := by
  cases p <;> cases q <;> first | rfl | exact absurd h (by decide)

/-- The text of a call begins with the opening of its printer. -/
theorem opening_isPrefix (h : c.Complete) : c.printer.opening <+: c.text := by
  obtain ⟨htext, hlength, -⟩ := text_eq h
  rw [htext, Printer.opening, List.prefix_append_right_inj]
  have hip := textOf_inOrder (printIpHeader_ne_none_iff.mpr hlength)
  have hopening : ascii "\nIP Header\n" = ascii "\n" ++ ascii "IP Header\n" := by decide
  rw [printIpHeader, hip, List.flatMap_cons, List.flatMap_cons, textOf_print, textOf_print,
    hopening, ← List.append_assoc (ascii "\n"),
    List.append_assoc (ascii "\n" ++ ascii "IP Header\n")]
  exact List.prefix_append _ _

/-- The first characters tell which function wrote the entry. -/
theorem decodes_text : Decodes Call.Complete Call.text fun c => (c.printer, c.buf.take c.size) := by
  intro c d x y hc hd h
  have hboth : c.printer = d.printer := by
    have hprefix := (opening_isPrefix hc).trans (List.prefix_append c.text x)
    have hprefix' := (opening_isPrefix hd).trans (List.prefix_append d.text y)
    rw [← h] at hprefix'
    rcases List.prefix_or_prefix_of_prefix hprefix hprefix' with hle | hle
    · exact opening_inj hle
    · exact (opening_inj hle).symm
  obtain ⟨hbytes, hrest⟩ := decodes_entry c.printer c d x y ⟨hc, rfl⟩ ⟨hd, hboth.symm⟩ h
  exact ⟨Prod.ext hboth hbytes, hrest⟩

/-- The log file tells which packets were printed, by which functions, and all their bytes. -/
theorem log_file_read_back {cs ds : List Call} (hcs : ∀ c ∈ cs, c.Complete)
    (hds : ∀ d ∈ ds, d.Complete) (h : cs.flatMap Call.text = ds.flatMap Call.text) :
    cs.map (fun c => (c.printer, c.buf.take c.size)) =
      ds.map (fun d => (d.printer, d.buf.take d.size)) := by
  refine decodes_text.flatMap_inj (fun c hc hnil => ?_) hcs hds h
  have hopening := opening_isPrefix hc
  rw [hnil, List.prefix_nil] at hopening
  revert hopening
  cases c.printer <;> decide

/-- A packet of 42 bytes and one behind it. -/
theorem complete_tcpPacket (b : UInt8) : (Call.mk .tcp (tcpPacket ++ [b]) 43).Complete := by
  have hsmall : 43 < 2 ^ 31 := by decide
  have hlength : (tcpPacket ++ [b]).length = 43 := rfl
  have hdefined := (@entry_ne_none_iff ⟨.tcp, tcpPacket ++ [b], 43⟩ 5 20 hsmall rfl rfl).mpr
  simp only [hlength] at hdefined
  have hfits : 5 * 4 + 20 ≤ 43 := by decide
  exact ⟨hsmall, hdefined (by decide), hfits⟩

/-- The logs of two packets that differ in their last byte differ. -/
theorem log_file_read_back_lastByte :
    [Call.mk .tcp (tcpPacket ++ [1]) 43].flatMap Call.text ≠
      [Call.mk .tcp (tcpPacket ++ [2]) 43].flatMap Call.text := by
  intro h
  have hread := log_file_read_back
    (List.forall_mem_singleton.mpr (complete_tcpPacket 1))
    (List.forall_mem_singleton.mpr (complete_tcpPacket 2)) h
  exact absurd hread (by decide)

end NetworkCode.NetWorkSniffer
