import NetworkCode.LinuxChat.Server

/-!
# The chat client

What the client sends for a line that is typed, and what it shows for a datagram that it
receives. The text that `FastWriter` of jsoncpp makes of a value is a parameter. The window
itself and the list of friends are left out.
-/

namespace NetworkCode.LinuxChat

open Text

/-- `SIZE`. -/
def inputSize : Nat := 1024

/-- `getInputmsg`: `wgetnstr` stores at most `SIZE` bytes of what is typed, and a NUL behind
them. -/
def getInputmsg (typed : Bytes) : Option Bytes :=
  let buf := typed.take inputSize
  if buf.length = inputSize then none else some (cstr buf)

/-- The value that `main` makes of a line, its members in the order of their keys. -/
def message (nickName school out : Bytes) : Json :=
  .object [(ascii "cmd", .string (ascii "None")), (ascii "msg", .string (cstr out)),
    (ascii "name", .string nickName), (ascii "school", .string school)]

/-- The size that `RecvData` of the client gives to `recvfrom`. -/
def clientRecvSize : Nat := 1023

/-- `RecvData` of the client on a datagram. -/
def clientRecvData (datagram : Bytes) : Bytes := cstr (datagram.take clientRecvSize)

/-- What `runOutput` shows for a message. -/
def runOutput (parse : Bytes → Json) (msg : Bytes) : Option Bytes :=
  ((parse msg).field (ascii "name")).bind fun name =>
    ((parse msg).field (ascii "msg")).map fun text => name ++ ascii ":" ++ text

end NetworkCode.LinuxChat
