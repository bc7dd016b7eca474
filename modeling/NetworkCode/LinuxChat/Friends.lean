import NetworkCode.Core.Lists
import NetworkCode.LinuxChat.Client
import Mathlib.Data.Finset.Basic
import Mathlib.Data.List.Induction

/-!
# The list of friends

`runOutput` erases the identity of a QUIT from `users`, and then adds the identity of every
message that is not there. So the second block takes back what the first one did, and nobody
ever leaves the list.
-/

namespace NetworkCode.LinuxChat

open Text

/-! ## An iteration of `runOutput` -/

/-- The string that stands for the sender of a message: its name and its school. -/
def info (parse : Bytes → Json) (msg : Bytes) : Option Bytes :=
  ((parse msg).field (ascii "name")).bind fun name =>
    ((parse msg).field (ascii "school")).map fun school => name ++ ascii "-" ++ school

/-- The command of a message. -/
def command (parse : Bytes → Json) (msg : Bytes) : Option Bytes :=
  (parse msg).field (ascii "cmd")

/-- The block that erases who quits. -/
def eraseQuit (users : Finset Bytes) (info cmd : Bytes) : Finset Bytes :=
  if cmd = ascii "QUIT" then if info ∈ users then users.erase info else users else users

/-- The block that inserts who is not there. -/
def insertNew (users : Finset Bytes) (info : Bytes) : Finset Bytes :=
  if info ∉ users then insert info users else users

/-- `users` behind a message, unless a value of it raises. -/
def friends (parse : Bytes → Json) (users : Finset Bytes) (msg : Bytes) :
    Option (Finset Bytes) :=
  (runOutput parse msg).bind fun _ =>
    (info parse msg).bind fun info =>
      (command parse msg).map fun cmd => insertNew (eraseQuit users info cmd) info

/-- `users` behind these messages. -/
def friendsAll (parse : Bytes → Json) (msgs : List Bytes) : Option (Finset Bytes) :=
  msgs.foldlM (friends parse) ∅

/-! ## What the list should be -/

/-- The latest message of this identity. -/
def latestOf (parse : Bytes → Json) (msgs : List Bytes) (id : Bytes) : Option Bytes :=
  msgs.reverse.find? fun msg => info parse msg = some id

/-- The latest message of this identity is not a QUIT. -/
def Here (parse : Bytes → Json) (msgs : List Bytes) (id : Bytes) : Prop :=
  ∃ msg, latestOf parse msgs id = some msg ∧ command parse msg ≠ some (ascii "QUIT")

/-- Behind each message `users` has the identities whose latest message is not a QUIT. -/
def Tracks (parse : Bytes → Json) (msgs : List Bytes) : Prop :=
  ∀ before after, msgs = before ++ after →
    ∃ users, friendsAll parse before = some users ∧ ∀ id, id ∈ users ↔ Here parse before id

/-- Name, text, school and command of the message can be read. -/
structure Shown (parse : Bytes → Json) (msg : Bytes) : Prop where
  output : runOutput parse msg ≠ none
  info : info parse msg ≠ none
  command : command parse msg ≠ none

/-- The value that `SigInt_Fun` sends. -/
def sigIntFun (nickName school : Bytes) : Json :=
  .object [(ascii "cmd", .string (ascii "QUIT")), (ascii "msg", .string []),
    (ascii "name", .string nickName), (ascii "school", .string school)]

variable {parse : Bytes → Json} {users users' : Finset Bytes} {msg id : Bytes}
  {msgs : List Bytes}

/-! ## One message -/

/-- One more message behind the others. -/
theorem friendsAll_concat :
    friendsAll parse (msgs ++ [msg]) =
      (friendsAll parse msgs).bind fun users => friends parse users msg :=
  foldlM_concat _ _ _ _

/-- Whatever the command is, the identity is there behind the two blocks. -/
theorem mem_insertNew_eraseQuit {cmd : Bytes} :
    id ∈ insertNew (eraseQuit users msg cmd) msg ↔ id = msg ∨ id ∈ users := by
  have herase (h : id ≠ msg) : id ∈ eraseQuit users msg cmd ↔ id ∈ users := by
    rw [eraseQuit]
    split
    · split
      · rw [Finset.mem_erase, and_iff_right h]
      · rfl
    · rfl
  have hinsert : id ∈ insertNew (eraseQuit users msg cmd) msg ↔
      id = msg ∨ id ∈ eraseQuit users msg cmd := by
    rw [insertNew]
    split
    · exact Finset.mem_insert
    · rename_i hmem
      rw [not_not] at hmem
      constructor
      · exact .inr
      · rintro (rfl | h)
        · exact hmem
        · exact h
  rw [hinsert]
  by_cases h : id = msg
  · exact iff_of_true (.inl h) (.inl h)
  · rw [herase h]

/-- A message that can be shown adds its identity, and nothing else happens. -/
theorem friends_eq_some (h : friends parse users msg = some users') :
    Shown parse msg ∧ ∃ own, info parse msg = some own ∧
      ∀ id, id ∈ users' ↔ id = own ∨ id ∈ users := by
  obtain ⟨text, htext, hrest⟩ := Option.bind_eq_some_iff.mp h
  obtain ⟨own, hown, hrest⟩ := Option.bind_eq_some_iff.mp hrest
  obtain ⟨cmd, hcmd, rfl⟩ := Option.map_eq_some_iff.mp hrest
  refine ⟨⟨?_, ?_, ?_⟩, own, hown, fun id => mem_insertNew_eraseQuit⟩
  · rw [htext]
    exact Option.some_ne_none text
  · rw [hown]
    exact Option.some_ne_none own
  · rw [hcmd]
    exact Option.some_ne_none cmd

/-- A message that is shown leaves a list of friends. -/
theorem Shown.exists_friends (h : Shown parse msg) (users : Finset Bytes) :
    ∃ users', friends parse users msg = some users' := by
  obtain ⟨text, htext⟩ := Option.ne_none_iff_exists'.mp h.output
  obtain ⟨own, hown⟩ := Option.ne_none_iff_exists'.mp h.info
  obtain ⟨cmd, hcmd⟩ := Option.ne_none_iff_exists'.mp h.command
  refine ⟨insertNew (eraseQuit users own cmd) own, ?_⟩
  rw [friends, htext, Option.bind_some, hown, Option.bind_some, hcmd, Option.map_some]

/-- Who is here behind one more message. -/
theorem here_concat : Here parse (msgs ++ [msg]) id ↔
    if info parse msg = some id then command parse msg ≠ some (ascii "QUIT")
    else Here parse msgs id := by
  rw [Here, latestOf, List.reverse_concat, List.find?_cons]
  by_cases h : info parse msg = some id
  · simp [h]
  · simp [h, Here, latestOf]

/-! ## When the list is right -/

/-- As long as nobody quits, the list is right. -/
theorem exists_friendsAll (h : ∀ msg ∈ msgs, Shown parse msg ∧
    command parse msg ≠ some (ascii "QUIT")) :
    ∃ users, friendsAll parse msgs = some users ∧ ∀ id, id ∈ users ↔ Here parse msgs id := by
  induction msgs using List.reverseRecOn with
  | nil => exact ⟨∅, rfl, by simp [Here, latestOf]⟩
  | append_singleton msgs msg ih =>
    obtain ⟨users, husers, hhere⟩ := ih fun m hm => h m (List.mem_append_left _ hm)
    obtain ⟨hshown, hstays⟩ := h msg (by simp)
    obtain ⟨users', husers'⟩ := hshown.exists_friends users
    obtain ⟨-, own, hown, hmem⟩ := friends_eq_some husers'
    refine ⟨users', by rw [friendsAll_concat, husers, Option.bind_some, husers'], fun id => ?_⟩
    rw [hmem, here_concat, hown, ← hhere]
    by_cases hid : own = id
    · rw [if_pos (congrArg some hid)]
      exact iff_of_true (.inl hid.symm) hstays
    · rw [if_neg fun he => hid (Option.some.inj he)]
      exact or_iff_right (Ne.symm hid)

/-- Behind each message the list is right exactly when all messages can be shown and none of them
is a QUIT. -/
theorem tracks_iff {parse : Bytes → Json} {msgs : List Bytes} : Tracks parse msgs ↔
    ∀ msg ∈ msgs, Shown parse msg ∧ command parse msg ≠ some (ascii "QUIT") := by
  constructor
  · intro h msg hmsg
    obtain ⟨before, after, rfl⟩ := List.append_of_mem hmsg
    obtain ⟨users', husers', hhere⟩ := h (before ++ [msg]) after (by simp)
    rw [friendsAll_concat] at husers'
    obtain ⟨users, -, hstep⟩ := Option.bind_eq_some_iff.mp husers'
    obtain ⟨hshown, own, hown, hmem⟩ := friends_eq_some hstep
    have hself := (hhere own).mp ((hmem own).mpr (.inl rfl))
    rw [here_concat, if_pos hown] at hself
    exact ⟨hshown, hself⟩
  · rintro h before after rfl
    exact exists_friendsAll fun msg hmsg => h msg (List.mem_append_left _ hmsg)

/-- `Reader::parse` on the text `q`, for which it finds what `SigInt_Fun` sends, and on texts that
are no JSON. -/
def parseSigInt (text : Bytes) : Json :=
  if text = ascii "q" then sigIntFun (ascii "a") (ascii "b") else .null

theorem friendsAll_sigInt :
    friendsAll parseSigInt [ascii "q"] = some {ascii "a-b"} := by decide +kernel

/-- Behind its QUIT an identity is in the list. -/
theorem quit_enters : command parseSigInt (ascii "q") = some (ascii "QUIT") ∧
    info parseSigInt (ascii "q") = some (ascii "a-b") ∧
      friendsAll parseSigInt [ascii "q"] = some {ascii "a-b"} ∧
        ¬ Tracks parseSigInt [ascii "q"] := by
  have hquit : command parseSigInt (ascii "q") = some (ascii "QUIT") := by decide +kernel
  have hinfo : info parseSigInt (ascii "q") = some (ascii "a-b") := by decide +kernel
  refine ⟨hquit, hinfo, friendsAll_sigInt, fun h => ?_⟩
  obtain ⟨users, husers, hhere⟩ := h [ascii "q"] [] rfl
  obtain rfl := Option.some.inj (friendsAll_sigInt.symm.trans husers)
  have hself := (hhere (ascii "a-b")).mp (Finset.mem_singleton_self _)
  rw [← List.nil_append [ascii "q"], here_concat, if_pos hinfo] at hself
  exact hself hquit

end NetworkCode.LinuxChat
