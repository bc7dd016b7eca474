import NetworkCode.Core.OrderedMap
import NetworkCode.Core.Text
import Mathlib.Logic.Function.Basic
import Mathlib.Order.Fin.Basic

/-!
# The chat server: receiving, users and history

`RecvData` of `UdpServer` and the part of `productRun` behind it, as functions. What
`Reader::parse` of jsoncpp leaves in its root value is a parameter, of which nothing is
assumed; `operator[]` and `asString` raise as its documentation says. Redis is a store that
gives back for a key what was last set. Output to the terminal is left out.
-/

namespace NetworkCode.LinuxChat

open Text

/-! ## JSON values -/

/-- `Json::Value`. A number comes as its text. -/
inductive Json where
  | null
  | bool (b : Bool)
  | number (text : Bytes)
  | string (s : Bytes)
  | array (elements : List Json)
  | object (members : List (Bytes × Json))

/-- `val[key]`: raises on values that are neither null nor an object. -/
def Json.member (key : Bytes) : Json → Option Json
  | .null => some .null
  | .object members => some ((members.lookup key).getD .null)
  | _ => none

/-- `asString`: raises on arrays and objects. -/
def Json.asString : Json → Option Bytes
  | .null => some []
  | .bool true => some (ascii "true")
  | .bool false => some (ascii "false")
  | .number text => some text
  | .string s => some s
  | _ => none

/-- `val[key].asString()`. -/
def Json.field (val : Json) (key : Bytes) : Option Bytes := (val.member key).bind Json.asString

/-! ## Receiving -/

/-- `in_addr_t`. -/
abbrev Addr := Fin (2 ^ 32)

instance neZero_addr : NeZero (2 ^ 32) := ⟨by decide⟩

instance neZero_port : NeZero (2 ^ 16) := ⟨by decide⟩

/-- `struct sockaddr_in`: IP address and port. -/
structure Endpoint where
  addr : Addr
  port : Fin (2 ^ 16)
  deriving DecidableEq, Repr

/-- `userlist`. -/
abbrev UserList := OrderedMap Addr Endpoint

/-- `sizeof(buf)` in `RecvData`. -/
def recvSize : Nat := 1024

/-- What a call of `RecvData` does before it puts the message in the pool. -/
inductive Receipt where
  /-- It returns false. -/
  | failed
  /-- It writes behind the end of `buf`. -/
  | overflow
  /-- An exception of jsoncpp leaves it. -/
  | raised
  /-- The message is to be put in the pool; these users are then registered. -/
  | received (outmsg : Bytes) (users : UserList)

/-- `userlist` behind a message with this `cmd`. -/
def register (users : UserList) (remote : Endpoint) (cmd : Bytes) : UserList :=
  if cmd = ascii "QUIT" then users.erase remote.addr else users.insert remote.addr remote

/-- `RecvData` on a datagram: `recvfrom` cuts it to the size of `buf`. -/
def recvData (parse : Bytes → Json) (users : UserList) (remote : Endpoint) (datagram : Bytes) :
    Receipt :=
  let buf := datagram.take recvSize
  if buf = [] then .failed
  else if buf.length = recvSize then .overflow
  else
    match (parse (cstr buf)).field (ascii "cmd") with
    | none => .raised
    | some cmd => .received (cstr buf) (register users remote cmd)

section

variable {parse : Bytes → Json} {users : UserList} {remote : Endpoint} {datagram : Bytes}

/-- Nothing received is a failure. -/
theorem recvData_nil : recvData parse users remote [] = .failed := rfl

/-- A datagram that leaves no room for the NUL is written over the end of `buf`. -/
theorem recvData_of_recvSize_le (h : recvSize ≤ datagram.length) :
    recvData parse users remote datagram = .overflow := by
  have hfull : (datagram.take recvSize).length = recvSize := List.length_take_of_le h
  have hne : datagram.take recvSize ≠ [] := fun he => by
    rw [he] at hfull
    cases hfull
  simp only [recvData, if_neg hne, if_pos hfull]

/-- Any other datagram is read as a string, and its command decides. -/
theorem recvData_of_lt (hnil : datagram ≠ []) (h : datagram.length < recvSize) :
    recvData parse users remote datagram =
      match (parse (cstr datagram)).field (ascii "cmd") with
      | none => .raised
      | some cmd => .received (cstr datagram) (register users remote cmd) := by
  simp only [recvData, List.take_of_length_le h.le, if_neg hnil, if_neg h.ne]

end

/-! ## The history -/

/-- `KEY_MAX`. -/
def keyMax : Nat := 512

/-- `_itoa`, whose array has 8 bytes. -/
def itoa (num : Nat) : Option Bytes := if (digits num).length < 8 then some (digits num) else none

/-- `session`, `SessionCount` and the store of Redis. -/
structure History where
  session : List Bytes
  sessionCount : Nat
  redis : Bytes → Option Bytes

/-- The history when the server starts. -/
def History.fresh (redis : Bytes → Option Bytes) : History := ⟨[], 0, redis⟩

/-- The `else` branch of `productRun`: store a message under the next key. -/
def History.remember (h : History) (msg : Bytes) : Option History :=
  (itoa h.sessionCount).map fun num => {
    session := h.session ++ [ascii "key" ++ num]
    sessionCount := (h.sessionCount + 1) % keyMax
    redis := Function.update h.redis (ascii "key" ++ num) (some (cstr msg)) }

/-- The strings that the LOAD branch of `productRun` puts in the pool: what Redis has for the
keys of `session`. The reply to a missing key has no string. -/
def History.replay (h : History) : Option (List Bytes) := h.session.mapM h.redis

/-- What `productRun` tests for LOAD. -/
def msgField (parse : Bytes → Json) (msg : Bytes) : Option Bytes :=
  (parse msg).field (ascii "msg")

/-- An iteration of `productRun` behind `RecvData`: the history and what it put in the pool. -/
def History.handle (parse : Bytes → Json) (h : History) (msg : Bytes) :
    Option (History × List Bytes) :=
  (msgField parse msg).bind fun text =>
    if text = ascii "LOAD" then h.replay.map fun out => (h, out)
    else (h.remember msg).map fun h => (h, [])

end NetworkCode.LinuxChat
