import NetworkCode.Chat.State
import Mathlib.Data.List.TakeWhile

/-!
# The chat client

`main` of the client waits in `poll` for its standard input and its socket. It then looks at
the socket and behind it at the input; both go through one buffer. A move is a return of
`poll`, the part of the loop for one of the two, or something typed. The client is modelled
together with its connection: the bytes that are on their way, how many of them have come in,
and whether the server has closed it. The end of a connection comes in behind all bytes, or as
a reset in front of them when the server has left something unread.
-/

namespace NetworkCode.Chat

open StepResult Text

/-- `sizeof(ReadBuf)`. -/
def readBufSize : Nat := 1024

/-- Where `main` of the client is. -/
inductive Phase where
  /-- In `poll`. -/
  | polling
  /-- Before its look at the socket, with the results for the input and for the socket. -/
  | socket (input socket : Events)
  /-- Before its look at the input. -/
  | input (input : Events)
  /-- Behind the loop, with the socket closed. -/
  | left
  /-- Ended by `SIGPIPE` in a write to a connection that the server has closed. -/
  | killed
  deriving DecidableEq, Repr

/-- A client and its connection. The history `typed`, `sent` and `read` is read by no move. -/
structure Link where
  phase : Phase
  /-- The input that was not read yet. -/
  input : Bytes
  /-- The input is at its end. -/
  ended : Bool
  /-- What was written by the client and not read by the server. -/
  up : Bytes
  /-- What was written by the server and not read by the client. -/
  down : Bytes
  /-- How many bytes of `down` have come in. -/
  here : Nat
  /-- The server has closed the connection. -/
  closed : Bool
  /-- The end of the connection has come in. -/
  hungUp : Bool
  /-- The strings that were printed behind `Read from server #`. -/
  screen : List Bytes
  /-- The whole input. -/
  typed : Bytes
  /-- What was written by the client. -/
  sent : Bytes
  /-- What was read by the client. -/
  read : Bytes
  deriving DecidableEq, Repr

/-- A client that is connected. -/
def Link.start : Link := ⟨.polling, [], false, [], [], 0, false, false, [], [], [], []⟩

/-- What happens to a client, with what the system calls return. -/
inductive Move where
  | type (bs : Bytes)
  | endInput
  /-- So many bytes come in. -/
  | deliver (k : Nat)
  /-- The end of the connection comes in. -/
  | hangUp
  /-- `poll` returns with results for the input and for the socket. -/
  | poll (input socket : Events)
  | pollFailed
  /-- The part of the loop for the socket; `read` fails or returns this many bytes. -/
  | socket (read : Option Nat)
  /-- The part of the loop for the input; `read` fails or returns this many bytes, of which `write`
  takes so many, unless it ends the client. -/
  | input (read : Option Nat) (taken : Option Nat)
  deriving DecidableEq, Repr

/-- What has come in and was not read. -/
def Link.buffered (l : Link) : Bytes := l.down.take l.here

/-- `poll` reports that there is something to read, or the end, and that the end has come in. -/
def Link.reports (l : Link) (input socket : Events) : Prop :=
  (has input pollIn → l.input ≠ [] ∨ l.ended) ∧
    (has socket pollIn → l.buffered ≠ [] ∨ l.hungUp) ∧ (has socket pollRdhup = l.hungUp)

instance Link.decidableReports (l : Link) (input socket : Events) :
    Decidable (l.reports input socket) :=
  inferInstanceAs (Decidable (_ ∧ _ ∧ _))

/-- A `read` of at most `sizeof(ReadBuf) - 1` bytes; none come only at the end. -/
def readable (bs : Bytes) (ended : Bool) (n : Nat) : Prop :=
  n ≤ readBufSize - 1 ∧ n ≤ bs.length ∧ (n = 0 → bs = [] ∧ ended)

instance decidableReadable (bs : Bytes) (ended : Bool) (n : Nat) :
    Decidable (readable bs ended n) :=
  inferInstanceAs (Decidable (_ ∧ _ ∧ _))

/-- The bytes from the server are printed as a string, up to the first NUL. -/
def Link.show (l : Link) (input : Events) (n : Nat) : Link :=
  { l with
    phase := .input input
    down := l.down.drop n
    here := l.here - n
    screen := l.screen ++ [cstr (l.down.take n)]
    read := l.read ++ l.down.take n }

/-- The part of the loop for the socket. -/
def Link.handleSocket (l : Link) (input socket : Events) (read : Option Nat) : StepResult Link :=
  if has socket pollRdhup then next { l with phase := .left }
  else if has socket pollIn then
    match read with
    | none => next { l with phase := .left }
    | some n =>
      if readable l.buffered l.hungUp n then
        if n = 0 then next { l with phase := .left } else next (l.show input n)
      else disabled
  else next { l with phase := .input input }

/-- The part of the loop for the input; what `write` returns is not looked at. -/
def Link.handleInput (l : Link) (input : Events) (read taken : Option Nat) : StepResult Link :=
  if has input pollIn then
    match read with
    | none => next { l with phase := .left }
    | some n =>
      if readable l.input l.ended n then
        match taken with
        | none =>
          if l.closed then next { l with phase := .killed, input := l.input.drop n } else disabled
        | some k =>
          if k ≤ n then
            next { l with
              phase := .polling
              input := l.input.drop n
              up := l.up ++ l.input.take k
              sent := l.sent ++ l.input.take k }
          else disabled
      else disabled
  else next { l with phase := .polling }

/-- What one move does; it is disabled when `main` is elsewhere. -/
def Link.move (l : Link) : Move → StepResult Link
  | .type bs =>
    if l.ended then disabled else next { l with input := l.input ++ bs, typed := l.typed ++ bs }
  | .endInput => next { l with ended := true }
  | .deliver k =>
    if l.hungUp = false ∧ l.here + k ≤ l.down.length then next { l with here := l.here + k }
    else disabled
  | .hangUp =>
    if l.closed ∧ (l.here = l.down.length ∨ l.up ≠ []) then next { l with hungUp := true }
    else disabled
  | .poll input socket =>
    if l.phase = .polling ∧ l.reports input socket then
      next { l with phase := .socket input socket }
    else disabled
  | .pollFailed => if l.phase = .polling then next { l with phase := .left } else disabled
  | .socket read =>
    match l.phase with
    | .socket input socket => l.handleSocket input socket read
    | _ => disabled
  | .input read taken =>
    match l.phase with
    | .input input => l.handleInput input read taken
    | _ => disabled

/-! ## What a move does -/

/-- A move changes the phase and what has come in only, or it takes up input, prints what came or
sends what was typed, or it loses that. -/
inductive Moved (l : Link) : Move → Link → Prop
  | typed (bs : Bytes) :
      Moved l (.type bs) { l with input := l.input ++ bs, typed := l.typed ++ bs }
  | quiet {m : Move} (phase : Phase) (ended : Bool) (here : Nat) (hungUp : Bool)
      (h : l.phase = .killed → phase = .killed) : Moved l m { l with phase, ended, here, hungUp }
  | shown {read : Option Nat} (input : Events) (n : Nat) (hopen : l.phase ≠ .killed) :
      Moved l (.socket read) (l.show input n)
  | sent {n k : Nat} (hopen : l.phase ≠ .killed) (hle : k ≤ n) :
      Moved l (.input (some n) (some k)) { l with
        phase := .polling
        input := l.input.drop n
        up := l.up ++ l.input.take k
        sent := l.sent ++ l.input.take k }
  | killed (n : Nat) (h : l.closed) :
      Moved l (.input (some n) none) { l with phase := .killed, input := l.input.drop n }

variable {l l' : Link} {m : Move}

/-- What the client does with its socket is one of the moves. -/
theorem Moved.of_handleSocket {input socket : Events} {read : Option Nat}
    (hphase : l.phase = .socket input socket) (h : l.handleSocket input socket read = next l') :
    Moved l (.socket read) l' := by
  have hopen : l.phase ≠ .killed := by
    rw [hphase]
    rintro ⟨⟩
  have hquiet (phase : Phase) : Moved l (.socket read) { l with phase } :=
    .quiet phase l.ended l.here l.hungUp fun hk => absurd hk hopen
  simp only [Link.handleSocket] at h
  split at h
  · cases h
    exact hquiet _
  · split at h
    · split at h
      · cases h
        exact hquiet _
      · split at h
        · split at h
          · cases h
            exact hquiet _
          · cases h
            exact .shown input _ hopen
        · cases h
    · cases h
      exact hquiet _

/-- What the client does with its input is one of the moves. -/
theorem Moved.of_handleInput {input : Events} {read taken : Option Nat}
    (hphase : l.phase = .input input) (h : l.handleInput input read taken = next l') :
    Moved l (.input read taken) l' := by
  have hopen : l.phase ≠ .killed := by
    rw [hphase]
    rintro ⟨⟩
  have hquiet (phase : Phase) : Moved l (.input read taken) { l with phase } :=
    .quiet phase l.ended l.here l.hungUp fun hk => absurd hk hopen
  simp only [Link.handleInput] at h
  split at h
  · split at h
    · cases h
      exact hquiet _
    · split at h
      · split at h
        · split at h
          · rename_i hclosed
            cases h
            exact .killed _ hclosed
          · cases h
        · split at h
          · rename_i hle
            cases h
            exact .sent hopen hle
          · cases h
      · cases h
  · cases h
    exact hquiet _

/-- Each step of a client is one of the moves, with all that it changes. -/
theorem Moved.of_move (h : l.move m = next l') : Moved l m l' := by
  cases m with
  | type bs =>
    simp only [Link.move] at h
    split at h
    · cases h
    · cases h
      exact .typed bs
  | endInput =>
    cases h
    exact .quiet l.phase true l.here l.hungUp id
  | deliver k =>
    simp only [Link.move] at h
    split at h
    · cases h
      exact .quiet l.phase l.ended _ l.hungUp id
    · cases h
  | hangUp =>
    simp only [Link.move] at h
    split at h
    · cases h
      exact .quiet l.phase l.ended l.here true id
    · cases h
  | poll input socket =>
    simp only [Link.move] at h
    split at h
    · rename_i hready
      cases h
      refine .quiet _ l.ended l.here l.hungUp fun hk => ?_
      rw [hready.1] at hk
      cases hk
    · cases h
  | pollFailed =>
    simp only [Link.move] at h
    split at h
    · rename_i hphase
      cases h
      refine .quiet _ l.ended l.here l.hungUp fun hk => ?_
      rw [hphase] at hk
      cases hk
    · cases h
  | socket read =>
    simp only [Link.move] at h
    split at h
    · rename_i hphase
      exact .of_handleSocket hphase h
    · cases h
  | input read taken =>
    simp only [Link.move] at h
    split at h
    · rename_i hphase
      exact .of_handleInput hphase h
    · cases h

/-! ## What a client has seen and sent -/

/-- A write takes all that was read from the input. -/
def Whole : Move → Prop
  | .input (some n) (some k) => k = n
  | _ => True

instance decidableWhole (m : Move) : Decidable (Whole m) :=
  match m with
  | .input (some n) (some k) => inferInstanceAs (Decidable (k = n))
  | .input (some _) none | .input none _ | .type _ | .endInput | .deliver _ | .hangUp | .poll _ _
  | .pollFailed | .socket _ => .isTrue trivial

/-- The screen shows what came, nothing of it is lost in front of a NUL, and what was typed is sent
or still to be read. -/
structure Link.Faithful (l : Link) : Prop where
  strings : 0 ∉ l.down
  screen : l.screen.flatten = l.read
  typed : l.phase ≠ .killed → l.sent ++ l.input = l.typed

/-- A new client has neither read nor sent anything. -/
theorem faithful_start : Link.start.Faithful where
  strings := List.not_mem_nil
  screen := rfl
  typed _ := rfl

/-- A move that writes what was read as a whole keeps the client faithful. -/
theorem Link.Faithful.move (h : l.Faithful) (hwhole : Whole m) (hm : l.move m = next l') :
    l'.Faithful := by
  cases Moved.of_move hm with
  | typed bs =>
    refine ⟨h.strings, h.screen, fun hk => ?_⟩
    rw [← h.typed hk, List.append_assoc]
  | quiet phase ended here hungUp hkilled =>
    exact ⟨h.strings, h.screen, fun hk => h.typed fun hold => hk (hkilled hold)⟩
  | shown input n hopen =>
    refine ⟨fun hmem => h.strings (List.mem_of_mem_drop hmem), ?_, fun _ => h.typed hopen⟩
    have hstring : 0 ∉ l.down.take n := fun hmem => h.strings (List.mem_of_mem_take hmem)
    rw [Link.show, List.flatten_concat, h.screen, cstr_of_notMem hstring]
  | @sent n k hopen hle =>
    obtain rfl : k = n := hwhole
    refine ⟨h.strings, h.screen, fun _ => ?_⟩
    rw [List.append_assoc, List.take_append_drop, h.typed hopen]
  | killed n hclosed => exact ⟨h.strings, h.screen, fun hk => absurd rfl hk⟩

/-- What arrives is no string end. -/
theorem Link.Faithful.arrive (h : l.Faithful) {bs : Bytes} (hbs : 0 ∉ bs) :
    { l with down := l.down ++ bs }.Faithful where
  strings hmem := (List.mem_append.mp hmem).elim h.strings hbs
  screen := h.screen
  typed := h.typed

end NetworkCode.Chat
