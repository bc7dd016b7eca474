import NetworkCode.Core.Prog
import NetworkCode.Core.LineStream
import NetworkCode.Core.Numerals

/-!
# The web server: the connection, the system and the C library

One connection is served by one thread, which runs `HandleSock`. The bytes the
client will ever send are the inbox; what `recv` says behind them is the ending.
The file system, `pipe`, `fork` and what a CGI program writes are an environment
that does not change while the connection is served. Whether the client takes
what it is sent, and whether the CGI program takes its input and comes to an
end, is their conduct: a call can fail, wait for ever or end the server with
SIGPIPE. A write that succeeds is never short.

The trace records what the thread did, in order. No function reads it.
-/

namespace NetworkCode.Httpd

open Prog LineStream Text

/-- What `recv` returns on a connection that is gone: 0 or -1. -/
inductive Gone where
  | closed
  | failed
  deriving DecidableEq, Repr

/-- What follows the last byte of a client: nothing, so that `recv` waits, or
the end of the connection. -/
inductive Ending where
  | silent
  | gone (why : Gone)
  deriving DecidableEq, Repr

/-- Whether a reader is told that there are no more bytes. -/
def Ending.seen : Ending → Bool
  | silent => false
  | gone _ => true

/-- The two pipes of `excu_cgi`. -/
inductive Pipe where
  | cgiIn
  | cgiOut
  deriving DecidableEq, Repr

/-- The descriptors of the thread. -/
inductive Descriptor where
  | sock
  /-- The file that is being sent. -/
  | file
  | readEnd (p : Pipe)
  | writeEnd (p : Pipe)
  deriving DecidableEq, Repr

/-- What the thread did. -/
inductive Event where
  /-- `get_line` returned: the bytes the client still had to be read before and after it. -/
  | line (before after : Nat)
  | stat (path : Bytes)
  | openPath (path : Bytes)
  | execl (path : Bytes)
  | opened (d : Descriptor)
  | closed (d : Descriptor)
  /-- One call of `write` or `send` on the socket. -/
  | sent (bytes : Bytes)
  /-- One call of `sendfile` on the socket, with the bytes it sent. -/
  | sentFile (bytes : Bytes)
  /-- A byte written to the standard input of the CGI program. -/
  | passed (byte : UInt8)
  /-- `read` came to the end of what the CGI program writes. -/
  | outputEnded
  /-- `waitpid` returned. -/
  | waited
  deriving DecidableEq, Repr

/-! ### What the others do -/

/-- What becomes of a call that needs the client or the CGI program. -/
inductive Fate where
  | taken
  /-- The call fails, and the thread goes on. -/
  | refused
  /-- The call never returns. -/
  | waits
  /-- The call raises SIGPIPE, which nobody handles: it ends the server. -/
  | broken
  deriving DecidableEq, Repr

/-- What becomes of a byte that is written to the pipe of a CGI program. -/
inductive Feeding where
  | taken
  /-- The pipe is full, and nobody reads it. -/
  | waits
  /-- The program is gone. -/
  | broken
  deriving DecidableEq, Repr

/-- A byte that is written to a pipe is not refused. -/
def Feeding.fate : Feeding → Fate
  | taken => .taken
  | waits => .waits
  | broken => .broken

/-- What the client and the CGI program of a connection do from now on. -/
structure Conduct where
  /-- What becomes of the next calls on the socket; those behind them are taken. -/
  sends : List Fate
  /-- What becomes of the next bytes for the CGI program; those behind them are taken. -/
  feeds : List Feeding
  /-- The program closes its output although it has not seen the end of its input. -/
  closes : Bool
  /-- The program ends when both of its pipes are closed. -/
  ends : Bool
  deriving DecidableEq, Repr

/-- The client takes everything, and so does the program, which then ends by itself. -/
def Conduct.willing : Conduct := ⟨[], [], true, true⟩

/-- What becomes of a call. -/
def Conduct.fate (c : Conduct) : Event → Fate
  | .sent _ | .sentFile _ => c.sends.head?.getD .taken
  | .passed _ => (c.feeds.head?.map Feeding.fate).getD .taken
  | .outputEnded => if c.closes then .taken else .waits
  | .waited => if c.ends then .taken else .waits
  | .line .. | .stat _ | .openPath _ | .execl _ | .opened _ | .closed _ => .taken

/-- The conduct behind a call. -/
def Conduct.after (c : Conduct) : Event → Conduct
  | .sent _ | .sentFile _ => { c with sends := c.sends.tail }
  | .passed _ => { c with feeds := c.feeds.tail }
  | _ => c

/-- The thread goes on behind a call. -/
def Conduct.lets (c : Conduct) (e : Event) : Bool := c.fate e == .taken || c.fate e == .refused

/-- What a call leaves in the trace: a call that fails does nothing. -/
def Conduct.shown (c : Conduct) (e : Event) : List Event := if c.fate e = .refused then [] else [e]

/-- The connection and the trace of the thread that serves it. -/
structure World where
  inbox : Bytes
  ending : Ending
  conduct : Conduct
  trace : List Event
  deriving DecidableEq, Repr

/-- A new connection. -/
def connected (inbox : Bytes) (ending : Ending) (conduct : Conduct := .willing) : World :=
  ⟨inbox, ending, conduct, []⟩

/-- The connection behind a call. -/
def World.after (w : World) (e : Event) : World :=
  { w with conduct := w.conduct.after e, trace := w.trace ++ w.conduct.shown e }

/-- The fields of `struct stat` that the server looks at. -/
structure Stat where
  isDir : Bool
  xusr : Bool
  xgrp : Bool
  xoth : Bool
  size : Nat
  deriving DecidableEq, Repr

/-- How the child process starts a CGI program. -/
structure CgiCall where
  path : Bytes
  environment : List Bytes
  deriving DecidableEq, Repr

/-- The system around one connection. -/
structure Env where
  stat : Bytes → Option Stat
  /-- What `sendfile` finds in a file that `open` opens: nothing in a directory. -/
  content : Bytes → Option Bytes
  /-- A path that can be opened can be looked up. -/
  stat_of_content : ∀ path, (content path).isSome → (stat path).isSome
  /-- Whether `pipe` succeeds. -/
  pipe : Pipe → Bool
  /-- Whether `fork` succeeds. -/
  fork : Bool
  /-- What a CGI program writes when it has these bytes and has not seen their end. -/
  cgi : CgiCall → Bytes → Bytes

/-- A system without any file. -/
def emptyDisk : Env where
  stat _ := none
  content _ := none
  stat_of_content := by simp
  pipe _ := true
  fork := true
  cgi _ _ := []

/-! ### System calls -/

/-- Append to the trace. -/
def record (e : Event) : Prog World Unit := modify fun w => { w with trace := w.trace ++ [e] }

/-- The number of bytes the client still has to be read. -/
def unread : Prog World Nat := ofStep fun w => (.done w.inbox.length, w)

/-- `recv(sock, &c, 1, flags)`: its result and the byte in `c` behind it. With
`MSG_PEEK` the byte stays in the inbox. -/
def recv (peek : Bool) (c : UInt8) : Prog World (Int × UInt8) := ofStep fun w =>
  match w.inbox, w.ending with
  | b :: bs, _ => (.done (1, b), if peek then w else { w with inbox := bs })
  | [], .silent => (.blocked, w)
  | [], .gone .closed => (.done (0, c), w)
  | [], .gone .failed => (.done (-1, c), w)

/-- `stat(path, &st)`. -/
def stat (env : Env) (path : Bytes) : Prog World (Option Stat) := do
  record (.stat path)
  return env.stat path

/-- `open(path, O_RDONLY)`. -/
def openFile (env : Env) (path : Bytes) : Prog World (Option Bytes) := do
  record (.openPath path)
  match env.content path with
  | none => return none
  | some content =>
    record (.opened .file)
    return some content

/-- A call that needs the client or the CGI program. -/
def attempt (e : Event) : Prog World Unit := ofStep fun w =>
  match w.conduct.fate e with
  | .taken | .refused => (.done (), w.after e)
  | .waits => (.blocked, w)
  | .broken => (.killed, w)

/-- `write(sock, buf, n)` and `send(sock, buf, n, 0)`. -/
def send (bytes : Bytes) : Prog World Unit := attempt (.sent bytes)

/-- `sendfile(sock, fd, NULL, size)`. -/
def sendfile (content : Bytes) (size : Nat) : Prog World Unit :=
  attempt (.sentFile (content.take size))

/-- `write(cgi_in[1], &ch, 1)`. -/
def feed (ch : UInt8) : Prog World Unit := attempt (.passed ch)

/-- The call of `read(cgi_out[0], &ch, 1)` that finds nothing more. -/
def readEnded : Prog World Unit := attempt .outputEnded

/-- `waitpid(pid, NULL, 0)`. -/
def waitpid : Prog World Unit := attempt .waited

/-- `close(d)`. -/
def close (d : Descriptor) : Prog World Unit := record (.closed d)

/-- `pipe(p)`: whether it succeeds. -/
def pipe (env : Env) (p : Pipe) : Prog World Bool := do
  if env.pipe p then
    record (.opened (.readEnd p))
    record (.opened (.writeEnd p))
    return true
  else
    return false

/-! ### Memory and C strings -/

/-- An array of `n` zero bytes. -/
def zeros (n : Nat) : Bytes := List.replicate n 0

/-- `buf[i]`. -/
def load (buf : Bytes) (i : Nat) : Prog World UInt8 :=
  match buf[i]? with
  | some c => pure c
  | none => undefinedBehaviour

/-- `buf[i] = c`. -/
def store (buf : Bytes) (i : Nat) (c : UInt8) : Prog World Bytes :=
  if i < buf.length then pure (buf.set i c) else undefinedBehaviour

/-- Reading the string in an array, which must be terminated. -/
def cString (buf : Bytes) : Prog World Bytes :=
  if 0 ∈ buf then pure (cstr buf) else undefinedBehaviour

/-- A string written to an array of `size` bytes, with its NUL. -/
def fit (size : Nat) (s : Bytes) : Prog World Bytes :=
  if s.length < size then pure s else undefinedBehaviour

/-- `tolower` in the C locale. -/
def tolower (c : UInt8) : UInt8 := if 65 ≤ c && c ≤ 90 then c + 32 else c

/-- `strcasecmp(a, b) == 0`. -/
def sameIgnoringCase (a b : Bytes) : Bool := a.map tolower == b.map tolower

/-- `strncasecmp(a, b, n) == 0`. -/
def samePrefixIgnoringCase (n : Nat) (a b : Bytes) : Bool :=
  sameIgnoringCase (a.take n) (b.take n)

end NetworkCode.Httpd
