import NetworkCode.Httpd.State

/-!
# The web server: reading lines and serving a request

`get_line`, `clean_hander`, `echo_code`, `echo_html`, `excu_cgi` and
`HandleSock`, statement by statement. A loop keeps its local variables in a
record. Output to the terminal is left out, and so are the results that no
caller reads. An index outside its array and a string without a NUL are
undefined behaviour.
-/

namespace NetworkCode.Httpd

open Prog LineStream Text

/-- The local variables of `get_line`. -/
structure LineVars where
  i : Nat
  c : UInt8
  buf : Bytes
  deriving DecidableEq, Repr

/-- Behind a CR the next byte is looked at, and taken if it is an LF. -/
def readEol : Prog World UInt8 := do
  let (s, c) ← recv true CR
  if s > 0 && c == LF then
    let (_, c) ← recv false c
    return c
  else
    return LF

/-- The body of the loop of `get_line`. When `recv` returns 0 or -1 nothing happens. -/
def readByte (v : LineVars) : Prog World LineVars := do
  let (s, c) ← recv false v.c
  if s > 0 then
    let c ← if c == CR then readEol else pure c
    let buf ← store v.buf v.i c
    return { i := v.i + 1, c, buf }
  else
    return { v with c }

/-- The test of the loop of `get_line`. -/
def lineTest (size : Nat) (v : LineVars) : Prog World Bool :=
  pure (v.i < size - 1 && v.c != LF)

/-- `get_line(sock, buf, size)`: the number of bytes and the new content of `buf`. -/
def getLine (buf : Bytes) (size : Nat) : Prog World (Nat × Bytes) := do
  let before ← unread
  let v ← whileLoop (lineTest size) readByte ⟨0, 0, buf⟩
  let buf ← store v.buf v.i 0
  let after ← unread
  record (.line before after)
  return (v.i, buf)

/-- The test of the loop of `clean_hander` on `ret` and `buf`. -/
def cleanTest (line : Nat × Bytes) : Prog World Bool := do
  let s ← cString line.2
  return line.1 != 1 && s != ascii "\n"

/-- `clean_hander(sock)`: read lines until one looks empty. -/
def cleanHander : Prog World Unit := do
  let line ← getLine (zeros 1024) (1024 - 1)
  let _ ← whileLoop cleanTest (fun line => getLine line.2 (1024 - 1)) line
  return ()

/-- The page that is sent when there is nothing else to send. -/
def page404 : Bytes := ascii "./wwwroot/404.html"

/-- The only status line of the server. -/
def statusLine : Bytes := ascii "HTTP/1.0 200 OK\r\n\r\n"

/-- `echo_code(sock)`. -/
def echoCode (env : Env) : Prog World Int := do
  let st ← stat env page404
  cleanHander
  match ← openFile env page404 with
  | none => return -2
  | some content =>
    send statusLine
    match st with
    | some st => sendfile content st.size
    -- `st` was never filled in
    | none => undefinedBehaviour
    close .file
    return 0

/-- `echo_html(sock, path, size)`: no caller reads its result. -/
def echoHtml (env : Env) (path : Bytes) (size : Nat) : Prog World Unit := do
  cleanHander
  match ← openFile env path with
  | none => return ()
  | some content =>
    send statusLine
    sendfile content size
    close .file

/-- The local variables of the header loop of `excu_cgi`. -/
structure HeaderVars where
  readnum : Nat
  buf : Bytes
  clength : Int
  deriving DecidableEq, Repr

/-- What one header line does to `clength`. -/
def contentLength (line : Bytes) (clength : Int) : Int :=
  if samePrefixIgnoringCase 16 line (ascii "Content-Length: ") then atoi (line.drop 16)
  else clength

/-- The test of the header loop of `excu_cgi`. -/
def headerTest (v : HeaderVars) : Prog World Bool := do
  let s ← cString v.buf
  return v.readnum > 0 && s != ascii "\n"

/-- The body of the header loop of `excu_cgi`. -/
def readHeader (v : HeaderVars) : Prog World HeaderVars := do
  let line ← cString v.buf
  let (readnum, buf) ← getLine v.buf (1024 - 1)
  return { readnum, buf, clength := contentLength line v.clength }

/-- The header loop of `excu_cgi` for POST. -/
def readHeaders : Prog World Int := do
  let (readnum, buf) ← getLine (zeros 1024) (1024 - 1)
  let v ← whileLoop headerTest readHeader ⟨readnum, buf, 0⟩
  return v.clength

/-- The environment variables set in the child process. -/
def cgiEnvironment (method query : Bytes) (clength : Int) : List Bytes :=
  [ascii "REQUEST_METHOD=" ++ method,
    if sameIgnoringCase (ascii "GET") method then ascii "QUERY_STRING=" ++ query
    else ascii "CONTENT_LENGTH=" ++ ascii (toString clength)]

/-- The local variables of the body loop of `excu_cgi`, and the bytes it handed over. -/
structure BodyVars where
  i : Int
  ch : UInt8
  handed : Bytes
  deriving DecidableEq, Repr

/-- The test of the body loop of `excu_cgi`. -/
def bodyTest (clength : Int) (v : BodyVars) : Prog World Bool := pure (v.i < clength)

/-- The body of the body loop of `excu_cgi`. A `recv` that returns 0 or -1 leaves
the last byte in `ch`. -/
def forwardByte (v : BodyVars) : Prog World BodyVars := do
  let (_, ch) ← recv false v.ch
  feed ch
  return ⟨v.i + 1, ch, v.handed ++ [ch]⟩

/-- The loop that hands the body of a POST to the CGI program. -/
def forwardBody (clength : Int) : Prog World Bytes := do
  let v ← whileLoop (bodyTest clength) forwardByte ⟨0, 0, []⟩
  return v.handed

/-- The loop that sends what the CGI program writes, byte by byte. It is left when the program
has closed its output. -/
def forwardOutput : Bytes → Prog World Unit
  | [] => readEnded
  | ch :: output => do
    send [ch]
    forwardOutput output

/-- The standard input of the CGI program: the body of a POST. -/
def cgiInput (method : Bytes) (clength : Int) : Prog World Bytes :=
  if sameIgnoringCase (ascii "POST") method then forwardBody clength else pure []

/-- The part of `excu_cgi` behind a successful `fork`: the child executes the program
and the father serves it. The input of the program stays open until its output has ended. -/
def fatherProc (env : Env) (path method query : Bytes) (clength : Int) : Prog World Int := do
  record (.execl path)
  close (.readEnd .cgiIn)
  close (.writeEnd .cgiOut)
  let input ← cgiInput method clength
  forwardOutput (env.cgi ⟨path, cgiEnvironment method query clength⟩ input)
  close (.writeEnd .cgiIn)
  close (.readEnd .cgiOut)
  waitpid
  return 0

/-- The part of `excu_cgi` behind the request: answer, start the program, serve it. -/
def runCgi (env : Env) (path method query : Bytes) (clength : Int) : Prog World Int := do
  send statusLine
  if !(← pipe env .cgiIn) then
    return -1
  else if !(← pipe env .cgiOut) then
    return -1
  else if !env.fork then
    return -1
  else
    fatherProc env path method query clength

/-- `excu_cgi(sock, path, method, query)`. -/
def excuCgi (env : Env) (path method query : Bytes) : Prog World Int := do
  if sameIgnoringCase method (ascii "GET") then
    cleanHander
    runCgi env path method query 0
  else
    let clength ← readHeaders
    if clength == 0 then
      let _ ← echoCode env
      return -1
    else
      runCgi env path method query clength

/-- The local variables of the loops that copy a word of the request line. -/
structure WordVars where
  i : Nat
  j : Nat
  word : Bytes
  deriving DecidableEq, Repr

/-- The test of a loop that copies a word to an array of `size` bytes. -/
def wordTest (buf : Bytes) (size : Nat) (inside : Nat → Bool) (v : WordVars) :
    Prog World Bool := do
  let c ← load buf v.j
  return !isspace c && v.i < size - 1 && inside v.j

/-- The body of a loop that copies a word. -/
def copyByte (buf : Bytes) (v : WordVars) : Prog World WordVars := do
  let c ← load buf v.j
  let word ← store v.word v.i c
  return ⟨v.i + 1, v.j + 1, word⟩

/-- Copy `buf` from index `j` on to an array of `size` bytes, up to white space,
and terminate the copy: the index behind the word and the array. -/
def copyWord (buf : Bytes) (j size : Nat) (inside : Nat → Bool) : Prog World (Nat × Bytes) := do
  let v ← whileLoop (wordTest buf size inside) (copyByte buf) ⟨0, j, zeros size⟩
  let word ← store v.word v.i 0
  return (v.j, word)

/-- The method: the loop does not bound `j`. -/
def readMethod (buf : Bytes) : Prog World (Nat × Bytes) := copyWord buf 0 255 fun _ => true

/-- The test of the loop that skips white space. -/
def spaceTest (buf : Bytes) (j : Nat) : Prog World Bool := do
  let c ← load buf j
  return isspace c && j < 1025 - 1

/-- The white space behind the method. -/
def skipSpace (buf : Bytes) (j : Nat) : Prog World Nat :=
  whileLoop (spaceTest buf) (fun j => pure (j + 1)) j

/-- The URL. -/
def readUrl (buf : Bytes) (j : Nat) : Prog World (Nat × Bytes) :=
  copyWord buf j 255 fun j => j < 1025 - 1

/-- The request line: the arrays `method` and `url`. -/
def readRequest : Prog World (Bytes × Bytes) := do
  let (_, buf) ← getLine (zeros 1025) 1025
  let (j, method) ← readMethod buf
  let j ← skipSpace buf j
  let (_, url) ← readUrl buf j
  return (method, url)

/-- The local variables of the loop that looks for a query. -/
structure QueryVars where
  query : Nat
  url : Bytes
  cgi : Bool
  /-- The loop was left by its `break`. -/
  found : Bool
  deriving DecidableEq, Repr

/-- The test of the loop that looks for a query. -/
def queryTest (v : QueryVars) : Prog World Bool := do
  if v.found then
    return false
  else
    let c ← load v.url v.query
    return c != 0

/-- The body of the loop that looks for a query. -/
def queryByte (v : QueryVars) : Prog World QueryVars := do
  let c ← load v.url v.query
  if c == 63 then
    let url ← store v.url v.query 0
    return ⟨v.query + 1, url, true, true⟩
  else
    return { v with query := v.query + 1 }

/-- For GET: cut the URL at its first `?`; `query` points behind it. -/
def cutQuery (url : Bytes) : Prog World QueryVars :=
  whileLoop queryTest queryByte ⟨0, url, false, false⟩

/-- The path of the file, in an array of 1024 bytes. -/
def buildPath (url : Bytes) : Prog World Bytes := do
  let url ← cString url
  let path ← fit 1024 (ascii "wwwroot" ++ url)
  if path.getLast? == some 47 then fit 1024 (path ++ ascii "index.html") else return path

/-- For a directory the path is extended by the name of its index page. -/
def indexPath (st : Stat) (path : Bytes) : Prog World Bytes :=
  if st.isDir then fit 1024 (path ++ ascii "/index.html") else pure path

/-- The two branches of `HandleSock` on the result of `stat`. -/
def answerFile (env : Env) (method url : Bytes) (query : Nat) (cgi : Bool) (path : Bytes) :
    Option Stat → Prog World Unit
  | none => do
    let _ ← echoCode env
    cleanHander
  | some st => do
    let path ← indexPath st path
    let cgi := cgi || (!st.isDir && (st.xusr || st.xgrp || st.xoth))
    if cgi then
      let query ← cString (url.drop query)
      let _ ← excuCgi env path method query
    else
      echoHtml env path st.size

/-- `HandleSock` behind its test of the method. -/
def serveFile (env : Env) (method url : Bytes) (query : Nat) (cgi : Bool) : Prog World Int := do
  let path ← buildPath url
  let st ← stat env path
  answerFile env method url query cgi path st
  close .sock
  return 0

/-- `HandleSock` behind the request line. -/
def serve (env : Env) (method url : Bytes) : Prog World Int := do
  let method ← cString method
  if !sameIgnoringCase method (ascii "GET") && !sameIgnoringCase method (ascii "POST") then
    let _ ← echoCode env
    return -1
  else
    let cgi := sameIgnoringCase method (ascii "POST")
    if sameIgnoringCase method (ascii "GET") then
      let v ← cutQuery url
      serveFile env method v.url v.query (cgi || v.cgi)
    else
      serveFile env method url 0 cgi

/-- `HandleSock(sock)`. Its `return` on a negative count of `get_line` is never taken. -/
def handleSock (env : Env) : Prog World Int := do
  let (method, url) ← readRequest
  serve env method url

end NetworkCode.Httpd
