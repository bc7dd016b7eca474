import NetworkCode.LinuxChat.Client

/-!
# A line from one client to another

The server reads a datagram into an array that has no room for a NUL behind 1024 bytes. A
line arrives as it was typed exactly when the text of its message leaves that room, whatever
quoting does to its length.
-/

namespace NetworkCode.LinuxChat

open Text

variable {parse : Bytes → Json} {write : Json → Bytes} {users : UserList} {remote : Endpoint}
  {nickName school typed out : Bytes}

/-- What a receiving client shows for a line, by way of the server. -/
def relayed (parse : Bytes → Json) (write : Json → Bytes) (users : UserList) (remote : Endpoint)
    (nickName school out : Bytes) : Option Bytes :=
  match recvData parse users remote (write (message nickName school out)) with
  | .received outmsg _ => runOutput parse (clientRecvData outmsg)
  | _ => none

/-- What is typed is a line, and a receiving client shows it behind the name. -/
def Displays (parse : Bytes → Json) (write : Json → Bytes) (users : UserList) (remote : Endpoint)
    (nickName school typed : Bytes) : Prop :=
  ∃ out, getInputmsg typed = some out ∧
    relayed parse write users remote nickName school out = some (nickName ++ ascii ":" ++ out)

/-- A line is taken whole, up to a NUL, when it fits the array of the window. -/
theorem getInputmsg_eq_some :
    getInputmsg typed = some out ↔ typed.length < inputSize ∧ out = cstr typed := by
  simp only [getInputmsg, List.length_take]
  split
  · rename_i hfull
    simp only [reduceCtorEq, false_iff]
    omega
  · rename_i hfits
    have hlt : typed.length < inputSize := by omega
    rw [List.take_of_length_le hlt.le, Option.some.injEq]
    exact ⟨fun h => ⟨hlt, h.symm⟩, fun h => h.2.symm⟩

/-- The fields of a message are what the client puts into them. -/
theorem field_message (name : Bytes) :
    (message nickName school out).field name =
      if name = ascii "cmd" then some (ascii "None")
      else if name = ascii "msg" then some (cstr out)
      else if name = ascii "name" then some nickName
      else if name = ascii "school" then some school else some [] := by
  simp only [message, Json.field, Json.member, List.lookup_cons, List.lookup_nil, Option.bind_some]
  repeat' split
  all_goals simp_all [Json.asString]

/-- JSON text: not empty, and without a NUL. -/
def IsText (text : Bytes) : Prop := text ≠ [] ∧ 0 ∉ text

/-- A message with room for the NUL arrives, and so does what is in it. -/
theorem relayed_of_lt
    (hround : parse (write (message nickName school out)) = message nickName school out)
    (htext : IsText (write (message nickName school out)))
    (hlen : (write (message nickName school out)).length < recvSize) :
    relayed parse write users remote nickName school out =
      some (nickName ++ ascii ":" ++ cstr out) := by
  obtain ⟨hnil, hnul⟩ := htext
  have hcmd : (message nickName school out).field (ascii "cmd") = some (ascii "None") := by
    rw [field_message, if_pos rfl]
  have hname : (message nickName school out).field (ascii "name") = some nickName := by
    rw [field_message]
    rfl
  have hmsg : (message nickName school out).field (ascii "msg") = some (cstr out) := by
    rw [field_message]
    rfl
  have hcut : clientRecvData (write (message nickName school out)) =
      write (message nickName school out) := by
    have hfits : (write (message nickName school out)).length ≤ clientRecvSize :=
      Nat.le_of_lt_succ hlen
    rw [clientRecvData, List.take_of_length_le hfits, cstr_of_notMem hnul]
  rw [relayed, recvData_of_lt hnil hlen, cstr_of_notMem hnul, hround, hcmd]
  simp only [hcut, runOutput, hround, hname, hmsg, Option.bind_some, Option.map_some]

/-- A line that is typed is shown everywhere exactly when it fits the window's array and the text
of its message leaves room in the server's. -/
theorem displays_iff
    (hround : parse (write (message nickName school (cstr typed))) =
      message nickName school (cstr typed))
    (htext : IsText (write (message nickName school (cstr typed)))) :
    Displays parse write users remote nickName school typed ↔
      typed.length < inputSize ∧
        (write (message nickName school (cstr typed))).length < recvSize := by
  constructor
  · rintro ⟨out, hout, hshown⟩
    obtain ⟨hfits, rfl⟩ := getInputmsg_eq_some.mp hout
    refine ⟨hfits, ?_⟩
    by_contra hlen
    rw [relayed, recvData_of_recvSize_le (Nat.not_lt.mp hlen)] at hshown
    cases hshown
  · rintro ⟨hfits, hlen⟩
    refine ⟨cstr typed, getInputmsg_eq_some.mpr ⟨hfits, rfl⟩, ?_⟩
    rw [relayed_of_lt hround htext hlen, cstr_of_notMem (notMem_cstr typed)]

/-! ## A writer -/

/-- The two digits of a byte in `\u00xx`. -/
def hexDigits (c : UInt8) : Bytes :=
  [c / 16, c % 16].map fun d => if d < 10 then 48 + d else 55 + d

/-- `valueToQuotedString` on one character. -/
def escape (c : UInt8) : Bytes :=
  if c = 34 then ascii "\\\""
  else if c = 92 then ascii "\\\\"
  else if c = 8 then ascii "\\b"
  else if c = 12 then ascii "\\f"
  else if c = 10 then ascii "\\n"
  else if c = 13 then ascii "\\r"
  else if c = 9 then ascii "\\t"
  else if c < 32 then ascii "\\u00" ++ hexDigits c
  else [c]

/-- `valueToQuotedString`. -/
def quoted (s : Bytes) : Bytes := ascii "\"" ++ s.flatMap escape ++ ascii "\""

/-- A member of an object of strings, as `FastWriter` writes it. -/
def writeMember (m : Bytes × Json) : Bytes :=
  match m.2 with
  | .string s => quoted m.1 ++ ascii ":" ++ quoted s
  | _ => []

/-- `FastWriter::write` on an object of strings. -/
def fastWrite : Json → Bytes
  | .object members =>
    ascii "\x7b" ++ (ascii ",").intercalate (members.map writeMember) ++ ascii "\x7d\n"
  | _ => []

/-- The message of the client's own user with this line. -/
def flyPig (line : Bytes) : Json := message (ascii "fly_pig") (ascii "SUST") line

/-- `Reader::parse` on the text of one value and on texts that are no JSON. -/
def parseOnly (v : Json) (text : Bytes) : Json := if text = fastWrite v then v else .null

theorem parseOnly_fastWrite (v : Json) : parseOnly v (fastWrite v) = v := if_pos rfl

theorem displays_iff_hi :
    Displays (parseOnly (flyPig (ascii "hi"))) fastWrite .empty ⟨1, 5000⟩ (ascii "fly_pig")
        (ascii "SUST") (ascii "hi") ↔
      (ascii "hi").length < inputSize ∧ (fastWrite (flyPig (ascii "hi"))).length < recvSize :=
  displays_iff (parseOnly_fastWrite _) ⟨by decide +kernel, by decide +kernel⟩

/-- A line of 1000 characters, which the window's array holds. -/
def longLine : Bytes := List.replicate 1000 97

theorem longLine_overflows :
    getInputmsg longLine = some longLine ∧
      recvSize ≤ (fastWrite (flyPig longLine)).length := by
  decide +kernel

/-- A line that can be typed and that the server writes over the end of its array. -/
theorem not_displays_longLine :
    getInputmsg longLine = some longLine ∧
      parseOnly (flyPig longLine) (fastWrite (flyPig longLine)) = flyPig longLine ∧
      ¬ Displays (parseOnly (flyPig longLine)) fastWrite .empty ⟨1, 5000⟩ (ascii "fly_pig")
        (ascii "SUST") longLine := by
  refine ⟨longLine_overflows.1, parseOnly_fastWrite _, ?_⟩
  rintro ⟨out, hout, hshown⟩
  obtain rfl : longLine = out := Option.some.inj (longLine_overflows.1.symm.trans hout)
  have hover : recvData (parseOnly (flyPig longLine)) .empty ⟨1, 5000⟩
      (fastWrite (message (ascii "fly_pig") (ascii "SUST") longLine)) = .overflow :=
    recvData_of_recvSize_le longLine_overflows.2
  rw [relayed, hover] at hshown
  cases hshown

end NetworkCode.LinuxChat
