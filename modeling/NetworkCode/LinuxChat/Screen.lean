import NetworkCode.LinuxChat.Friends
import Mathlib.Data.Finset.Card

/-!
# The rows of the client's windows

`runOutput` counts the rows of the two windows it writes to. It takes a counter modulo the last
row before it compares the counter with the last row, so that the branch that clears the window
is never taken: behind the lowest row comes the upper border of the box. A line is what one call
of `putstrTowin` writes, and its row the one it starts in. A message of which a value cannot be
read ends the client, so that a run is given by the messages that were read.
-/

namespace NetworkCode.LinuxChat

open Text

/-! ## The source -/

/-- What `runOutput` reads in a message. -/
structure Message where
  text : Bytes
  info : Bytes
  cmd : Bytes
  deriving DecidableEq, Repr

/-- The values of a message, unless one of them raises. -/
def readMessage (parse : Bytes → Json) (msg : Bytes) : Option Message :=
  (runOutput parse msg).bind fun text =>
    (info parse msg).bind fun info => (command parse msg).map fun cmd => ⟨text, info, cmd⟩

/-- A call that draws in a window. -/
inductive Draw where
  /-- `putstrTowin`. -/
  | line (row : Nat) (text : Bytes)
  /-- `clrWinLine`. -/
  | clear (begin lines : Nat)
  /-- The window is made again. -/
  | create
  deriving DecidableEq, Repr

/-- The variables of `runOutput`, and what it drew in the two windows since it made them. -/
structure Screen where
  step : Nat
  stepF : Nat
  users : Finset Bytes
  output : List Draw
  friendList : List Draw
  deriving DecidableEq

/-- Before the loop of `runOutput`. -/
def Screen.start : Screen := ⟨1, 1, ∅, [], []⟩

/-- The block for the output window, whose height is `y`. -/
def Screen.putOutput (y : Nat) (s : Screen) (text : Bytes) : Screen :=
  let s := { s with
    output := s.output ++ [.line s.step text]
    step := (s.step + 1) % (y - 1) }
  if s.step = y - 1 then
    { s with output := s.output ++ [.clear 1 (y - 1), .create], step := 1 }
  else s

/-- The block that inserts who is not there. -/
def Screen.putFriend (s : Screen) (info : Bytes) : Screen :=
  if info ∉ s.users then
    { s with
      users := insert info s.users
      friendList := s.friendList ++ [.line s.stepF info]
      stepF := s.stepF + 1 }
  else s

/-- The block behind it, for a list of friends whose height is `fY`. Its loop goes through the
users, but what it writes is `info`. -/
def Screen.repaint (fY : Nat) (s : Screen) (info : Bytes) : Screen :=
  let s := { s with stepF := s.stepF % (fY - 1) }
  if s.stepF = fY - 1 then
    { s with
      friendList := s.friendList ++ [.clear 1 (fY - 1)] ++
        (List.range s.users.card).map fun i => .line (1 + i) info
      output := s.output ++ [.create]
      stepF := 1 + s.users.card }
  else s

/-- An iteration of the loop of `runOutput`. -/
def Screen.show (y fY : Nat) (s : Screen) (m : Message) : Screen :=
  let s := { s with users := eraseQuit s.users m.info m.cmd }
  ((s.putOutput y m.text).putFriend m.info).repaint fY m.info

/-- The windows behind these messages. -/
def screen (y fY : Nat) (msgs : List Message) : Screen := msgs.foldl (Screen.show y fY) .start

/-! ## What it is for -/

/-- From this row on each line is drawn in the next row, above the lower border, and the window
is cleared as soon as the rows are used up. -/
def Fits (height : Nat) : Nat → List Draw → Prop
  | row, [] => row ≤ height - 2
  | row, .line r _ :: ds => r = row ∧ row ≤ height - 2 ∧ Fits height (row + 1) ds
  | row, .clear first lines :: ds =>
    row = height - 1 ∧ first ≤ 1 ∧ height - 1 ≤ first + lines ∧ Fits height 1 ds
  | row, .create :: ds => Fits height row ds

/-- The lines among what was drawn. -/
def texts (ds : List Draw) : List Bytes :=
  ds.filterMap fun
    | .line _ text => some text
    | _ => none

/-- A message that makes the list of friends be cleared has each user that is known then drawn
once. -/
def Repaints (y fY : Nat) (msgs : List Message) : Prop :=
  ∀ before m after, msgs = before ++ m :: after → ∀ drawn first lines again,
    (screen y fY (before ++ [m])).friendList =
      (screen y fY before).friendList ++ drawn ++ .clear first lines :: again →
    (texts again).Nodup ∧ ∀ id, id ∈ texts again ↔ id ∈ (screen y fY (before ++ [m])).users

/-- The two windows behind these messages are as they should be. -/
structure Tidy (y fY : Nat) (msgs : List Message) : Prop where
  output : Fits y 1 (screen y fY msgs).output
  friendList : Fits fY 1 (screen y fY msgs).friendList
  repaints : Repaints y fY msgs

/-- What the messages bring to the list of friends: an identity for each message that is a QUIT
or whose identity has not been seen. -/
def newcomers : List Bytes → List Message → List Bytes
  | _, [] => []
  | seen, m :: msgs =>
    (if m.cmd = ascii "QUIT" ∨ m.info ∉ seen then [m.info] else []) ++
      newcomers (m.info :: seen) msgs

/-! ## Lines in turn -/

variable {parse : Bytes → Json} {y fY row : Nat} {s : Screen} {m : Message}
  {msgs : List Message} {seen : List Bytes} {id info text : Bytes}

/-- The lines with these texts, the first one in this row modulo the last one. -/
def linesFrom (height : Nat) : Nat → List Bytes → List Draw
  | _, [] => []
  | row, text :: rest => .line (row % (height - 1)) text :: linesFrom height (row + 1) rest

/-- Lines in turn fit exactly when the rows are not used up behind the last one. -/
theorem fits_linesFrom {height : Nat} {ts : List Bytes} (hh : 2 ≤ height)
    (h : row ≤ height - 1) :
    Fits height row (linesFrom height row ts) ↔ row + ts.length ≤ height - 2 := by
  induction ts generalizing row with
  | nil => rfl
  | cons text rest ih =>
    rw [linesFrom, Fits, List.length_cons]
    by_cases hrow : row ≤ height - 2
    · have hmod : row % (height - 1) = row := Nat.mod_eq_of_lt (by omega)
      rw [and_iff_right hmod, and_iff_right hrow, ih (by omega)]
      omega
    · constructor
      · exact fun hfits => absurd hfits.2.1 hrow
      · intro hlen
        omega

/-- Lines alone never clear. -/
theorem clear_notMem_linesFrom {height first lines : Nat} {ts : List Bytes} :
    .clear first lines ∉ linesFrom height row ts := by
  induction ts generalizing row with
  | nil => exact List.not_mem_nil
  | cons text rest ih =>
    rw [linesFrom, List.mem_cons]
    rintro (h | h)
    · cases h
    · exact ih h

/-! ## The blocks -/

/-- The window is never cleared: a remainder is below what it is compared with. -/
theorem putOutput_eq (hy : 2 ≤ y) : s.putOutput y text =
    { s with
      output := s.output ++ [.line s.step text]
      step := (s.step + 1) % (y - 1) } := by
  have hlt : (s.step + 1) % (y - 1) < y - 1 := Nat.mod_lt _ (by omega)
  exact if_neg hlt.ne

/-- The list of friends is never cleared either. -/
theorem repaint_eq (hf : 2 ≤ fY) : s.repaint fY info = { s with stepF := s.stepF % (fY - 1) } := by
  have hlt : s.stepF % (fY - 1) < fY - 1 := Nat.mod_lt _ (by omega)
  exact if_neg hlt.ne

/-- Behind the erasing block an identity is missing if it was before, or quits. -/
theorem notMem_eraseQuit {users : Finset Bytes} {cmd : Bytes} :
    info ∉ eraseQuit users info cmd ↔ cmd = ascii "QUIT" ∨ info ∉ users := by
  rw [eraseQuit]
  by_cases hquit : cmd = ascii "QUIT"
  · rw [if_pos hquit]
    refine iff_of_true ?_ (.inl hquit)
    split
    · exact Finset.notMem_erase _ _
    · assumption
  · rw [if_neg hquit, or_iff_right hquit]

/-- What an iteration does where the identity is not in the list. -/
theorem show_of_new (hy : 2 ≤ y) (hf : 2 ≤ fY) (h : m.cmd = ascii "QUIT" ∨ m.info ∉ s.users) :
    s.show y fY m =
      { users := insertNew (eraseQuit s.users m.info m.cmd) m.info
        output := s.output ++ [.line s.step m.text]
        step := (s.step + 1) % (y - 1)
        friendList := s.friendList ++ [.line s.stepF m.info]
        stepF := (s.stepF + 1) % (fY - 1) } := by
  have hnew : m.info ∉ eraseQuit s.users m.info m.cmd := notMem_eraseQuit.mpr h
  rw [Screen.show, putOutput_eq hy, Screen.putFriend, if_pos hnew, repaint_eq hf, insertNew,
    if_pos hnew]

/-- What an iteration does where the identity is in the list. -/
theorem show_of_known (hy : 2 ≤ y) (hf : 2 ≤ fY)
    (h : ¬ (m.cmd = ascii "QUIT" ∨ m.info ∉ s.users)) :
    s.show y fY m =
      { users := insertNew (eraseQuit s.users m.info m.cmd) m.info
        output := s.output ++ [.line s.step m.text]
        step := (s.step + 1) % (y - 1)
        friendList := s.friendList
        stepF := s.stepF % (fY - 1) } := by
  have hknown : ¬ m.info ∉ eraseQuit s.users m.info m.cmd := fun hn => h (notMem_eraseQuit.mp hn)
  rw [Screen.show, putOutput_eq hy, Screen.putFriend, if_neg hknown, repaint_eq hf, insertNew,
    if_neg hknown]

/-- What a message does to the list of users. -/
theorem show_users (hy : 2 ≤ y) (hf : 2 ≤ fY) :
    (s.show y fY m).users = insertNew (eraseQuit s.users m.info m.cmd) m.info := by
  by_cases h : m.cmd = ascii "QUIT" ∨ m.info ∉ s.users
  · rw [show_of_new hy hf h]
  · rw [show_of_known hy hf h]

/-- A message is shown in the next row, and the rows begin again behind the last one. -/
theorem show_output (hy : 2 ≤ y) (hf : 2 ≤ fY) :
    (s.show y fY m).output = s.output ++ [.line s.step m.text] ∧
      (s.show y fY m).step = (s.step + 1) % (y - 1) := by
  by_cases h : m.cmd = ascii "QUIT" ∨ m.info ∉ s.users
  · rw [show_of_new hy hf h]
    exact ⟨rfl, rfl⟩
  · rw [show_of_known hy hf h]
    exact ⟨rfl, rfl⟩

/-- An iteration does to `users` what `friends` says. -/
theorem friends_eq_show (hy : 2 ≤ y) (hf : 2 ≤ fY) (s : Screen) (msg : Bytes) :
    friends parse s.users msg = (readMessage parse msg).map fun m => (s.show y fY m).users := by
  have husers : (fun m => (s.show y fY m).users) = fun m =>
      insertNew (eraseQuit s.users m.info m.cmd) m.info := funext fun m => show_users hy hf
  rw [husers, friends, readMessage]
  cases runOutput parse msg with
  | none => rfl
  | some text =>
    cases info parse msg with
    | none => rfl
    | some info => cases command parse msg <;> rfl

/-! ## Runs -/

/-- The output window gets the lines of the messages in turn, modulo its last row. -/
theorem foldl_output (hy : 2 ≤ y) (hf : 2 ≤ fY) (hstep : s.step = row % (y - 1)) :
    (msgs.foldl (Screen.show y fY) s).output =
      s.output ++ linesFrom y row (msgs.map Message.text) := by
  induction msgs generalizing s row with
  | nil => exact (List.append_nil _).symm
  | cons m msgs ih =>
    obtain ⟨hout, hnext⟩ := show_output (s := s) (m := m) hy hf
    rw [hstep, Nat.mod_add_mod] at hnext
    rw [List.foldl_cons, ih hnext, hout, List.map_cons, linesFrom, hstep, List.append_assoc,
      List.singleton_append]

/-- The list of friends gets the identities of the newcomers in turn, modulo its last row. -/
theorem foldl_friendList (hy : 2 ≤ y) (hf : 2 ≤ fY) (hstep : s.stepF = row % (fY - 1))
    (hseen : ∀ id, id ∈ s.users ↔ id ∈ seen) :
    (msgs.foldl (Screen.show y fY) s).friendList =
      s.friendList ++ linesFrom fY row (newcomers seen msgs) := by
  induction msgs generalizing s row seen with
  | nil => exact (List.append_nil _).symm
  | cons m msgs ih =>
    have husers (id : Bytes) : id ∈ (s.show y fY m).users ↔ id ∈ m.info :: seen := by
      rw [show_users hy hf, mem_insertNew_eraseQuit, hseen, List.mem_cons]
    have hsame : (m.cmd = ascii "QUIT" ∨ m.info ∉ seen) ↔
        (m.cmd = ascii "QUIT" ∨ m.info ∉ s.users) := by rw [hseen]
    rw [List.foldl_cons, newcomers]
    by_cases h : m.cmd = ascii "QUIT" ∨ m.info ∉ s.users
    · have hnext : (s.show y fY m).stepF = (row + 1) % (fY - 1) := by
        rw [show_of_new hy hf h, hstep, Nat.mod_add_mod]
      rw [ih hnext husers, show_of_new hy hf h, if_pos (hsame.mpr h), List.singleton_append,
        linesFrom, hstep, List.append_assoc, List.singleton_append]
    · have hnext : (s.show y fY m).stepF = row % (fY - 1) := by
        rw [show_of_known hy hf h, hstep, Nat.mod_mod]
      rw [ih hnext husers, show_of_known hy hf h, if_neg (hsame.not.mpr h), List.nil_append]

/-- What is drawn in the output window. -/
theorem screen_output (hy : 4 ≤ y) (hf : 4 ≤ fY) :
    (screen y fY msgs).output = linesFrom y 1 (msgs.map Message.text) := by
  have hlow : 1 < y - 1 := by omega
  have hone : Screen.start.step = 1 % (y - 1) := (Nat.mod_eq_of_lt hlow).symm
  rw [screen, foldl_output (by omega) (by omega) hone]
  rfl

/-- What is drawn in the list of friends. -/
theorem screen_friendList (hy : 4 ≤ y) (hf : 4 ≤ fY) :
    (screen y fY msgs).friendList = linesFrom fY 1 (newcomers [] msgs) := by
  have hlow : 1 < fY - 1 := by omega
  have hone : Screen.start.stepF = 1 % (fY - 1) := (Nat.mod_eq_of_lt hlow).symm
  have hnone : ∀ id, id ∈ Screen.start.users ↔ id ∈ ([] : List Bytes) := fun id =>
    iff_of_false (Finset.notMem_empty id) List.not_mem_nil
  rw [screen, foldl_friendList (by omega) (by omega) hone hnone]
  rfl

/-- Nothing is ever painted again. -/
theorem repaints_of_le (hy : 4 ≤ y) (hf : 4 ≤ fY) : Repaints y fY msgs := by
  intro before m after hmsgs drawn first lines again hlist
  have hmem : .clear first lines ∈ (screen y fY (before ++ [m])).friendList := by
    rw [hlist]
    exact List.mem_append_right _ List.mem_cons_self
  rw [screen_friendList hy hf] at hmem
  exact absurd hmem clear_notMem_linesFrom

/-- The windows are as they should be exactly as long as their rows are not used up. -/
theorem tidy_iff (hy : 4 ≤ y) (hf : 4 ≤ fY) (msgs : List Message) : Tidy y fY msgs ↔
    msgs.length < y - 2 ∧ (newcomers [] msgs).length < fY - 2 := by
  have hout : Fits y 1 (screen y fY msgs).output ↔ msgs.length < y - 2 := by
    rw [screen_output hy hf, fits_linesFrom (by omega) (by omega), List.length_map]
    omega
  have hlist : Fits fY 1 (screen y fY msgs).friendList ↔
      (newcomers [] msgs).length < fY - 2 := by
    rw [screen_friendList hy hf, fits_linesFrom (by omega) (by omega)]
    omega
  constructor
  · exact fun h => ⟨hout.mp h.output, hlist.mp h.friendList⟩
  · exact fun h => ⟨hout.mpr h.1, hlist.mpr h.2, repaints_of_le hy hf⟩

/-- A message of somebody who is there. -/
def greeting : Message := ⟨ascii "a:hi", ascii "a-b", ascii "None"⟩

/-- One line fits in windows of four rows. -/
theorem tidy_iff_greeting : Tidy 4 4 [greeting] :=
  (tidy_iff (by decide) (by decide) [greeting]).mpr ⟨by decide, by decide +kernel⟩

theorem screen_greetings : (screen 4 4 [greeting, greeting, greeting]).output =
    [.line 1 greeting.text, .line 2 greeting.text, .line 0 greeting.text] := by
  decide +kernel

/-- In a window of four rows the third line is written over the upper border. -/
theorem greetings_not_tidy :
    (screen 4 4 [greeting, greeting, greeting]).output =
        [.line 1 greeting.text, .line 2 greeting.text, .line 0 greeting.text] ∧
      ¬ ∀ (y fY : Nat) (msgs : List Message), 4 ≤ y → 4 ≤ fY → Tidy y fY msgs := by
  refine ⟨screen_greetings, fun h => ?_⟩
  have hout := (h 4 4 [greeting, greeting, greeting] (by decide) (by decide)).output
  rw [screen_greetings] at hout
  obtain ⟨-, -, -, -, hrow, -⟩ := hout
  cases hrow

end NetworkCode.LinuxChat
