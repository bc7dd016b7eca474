import NetworkCode.Core.Lists
import NetworkCode.LinuxChat.Server
import Mathlib.Data.List.Induction

/-!
# What the history replays

Every message appends a key to `session`, and the keys come round after `KEY_MAX` messages.
From then on `session` names keys more than once, and what it replays is longer than what
the store has.
-/

namespace NetworkCode.LinuxChat

open Text

variable {parse : Bytes → Json} {h h' : History} {redis : Bytes → Option Bytes}

/-! ## A sequence of messages -/

/-- Iterations of `productRun` with these messages: the history and what they put in the pool. -/
def History.handleAll (parse : Bytes → Json) (h : History) :
    List Bytes → Option (History × List Bytes)
  | [] => some (h, [])
  | msg :: msgs =>
    (h.handle parse msg).bind fun r =>
      (History.handleAll parse r.1 msgs).map fun r' => (r'.1, r.2 ++ r'.2)

/-- A message with a text that is not LOAD. -/
def Plain (parse : Bytes → Json) (msg : Bytes) : Prop :=
  ∃ text, msgField parse msg = some text ∧ text ≠ ascii "LOAD"

/-- A LOAD behind messages puts the last of them in the pool, as many as there are keys. -/
def Replays (parse : Bytes → Json) (redis : Bytes → Option Bytes) (msgs : List Bytes)
    (load : Bytes) : Prop :=
  ∃ h, History.handleAll parse (.fresh redis) (msgs ++ [load]) =
    some (h, msgs.drop (msgs.length - keyMax))

/-- Two lists of messages are handled one behind the other. -/
theorem handleAll_append {msgs msgs' : List Bytes} :
    h.handleAll parse (msgs ++ msgs') =
      (h.handleAll parse msgs).bind fun r =>
        (r.1.handleAll parse msgs').map fun r' => (r'.1, r.2 ++ r'.2) := by
  induction msgs generalizing h with
  | nil => simp [History.handleAll]
  | cons msg msgs ih =>
    simp only [List.cons_append, History.handleAll]
    cases h.handle parse msg with
    | none => rfl
    | some r =>
      simp only [Option.bind_some, ih]
      cases r.1.handleAll parse msgs with
      | none => rfl
      | some r' => simp [Option.map_map, Function.comp_def]

/-! ## The keys and what they have -/

/-- The key of a message. -/
def keyOf (i : Nat) : Bytes := ascii "key" ++ digits (i % keyMax)

/-- The keys of two messages are the same when they are rounds apart. -/
theorem keyOf_inj {i j : Nat} : keyOf i = keyOf j ↔ i % keyMax = j % keyMax := by
  rw [keyOf, keyOf, List.append_cancel_left_eq, digits_inj]

/-- The history behind these messages, none of which is a LOAD. -/
structure History.Records (h : History) (msgs : List Bytes) : Prop where
  session : h.session = (List.range msgs.length).map keyOf
  sessionCount : h.sessionCount = msgs.length % keyMax
  stored : ∀ i, i < msgs.length → msgs.length ≤ i + keyMax → h.redis (keyOf i) = msgs[i]?

/-- The history begins empty. -/
theorem records_fresh : (History.fresh redis).Records [] where
  session := rfl
  sessionCount := rfl
  stored i hi := by cases hi

/-- The number of a key fits the array of `_itoa`. -/
theorem itoa_mod (n : Nat) : itoa (n % keyMax) = some (digits (n % keyMax)) := by
  have hlt : n % keyMax < keyMax := Nat.mod_lt _ (by decide)
  have hle := (length_digits_le_iff (n := n % keyMax) (k := 7) (by decide)).mpr
    (Nat.lt_trans hlt (by decide))
  rw [itoa, if_pos (by omega)]

/-- A message goes to the key of its number. -/
theorem History.Records.remember {msgs : List Bytes} {msg : Bytes} (hrec : h.Records msgs)
    (hmsg : 0 ∉ msg) : ∃ h', h.remember msg = some h' ∧ h'.Records (msgs ++ [msg]) := by
  rw [History.remember, hrec.sessionCount, itoa_mod, Option.map_some]
  refine ⟨_, rfl, ?_, ?_, fun i hi hrecent => ?_⟩
  · rw [hrec.session, List.length_append, List.length_singleton, List.range_succ, List.map_append]
    rfl
  · rw [List.length_append, List.length_singleton, Nat.mod_add_mod]
  · rw [List.length_append, List.length_singleton] at hi hrecent
    change Function.update h.redis (keyOf msgs.length) (some (cstr msg)) (keyOf i) = _
    by_cases hlast : i = msgs.length
    · rw [hlast, Function.update_self, cstr_of_notMem hmsg]
      simp
    · have hlt : i < msgs.length := by omega
      have hne : keyOf i ≠ keyOf msgs.length := fun he => by
        have hmod := keyOf_inj.mp he
        simp only [keyMax] at hmod hrecent
        omega
      rw [Function.update_of_ne hne, List.getElem?_append_left hlt]
      exact hrec.stored i hlt (by omega)

/-- Messages that are no LOAD put nothing in the pool. -/
theorem handleAll_plain (redis : Bytes → Option Bytes) {msgs : List Bytes}
    (hplain : ∀ msg ∈ msgs, Plain parse msg)
    (hmsgs : ∀ msg ∈ msgs, 0 ∉ msg) :
    ∃ h, (History.fresh redis).handleAll parse msgs = some (h, []) ∧ h.Records msgs := by
  induction msgs using List.reverseRecOn with
  | nil => exact ⟨_, rfl, records_fresh⟩
  | append_singleton msgs msg ih =>
    obtain ⟨h, hrun, hrec⟩ := ih (fun m hm => hplain m (List.mem_append_left _ hm))
      fun m hm => hmsgs m (List.mem_append_left _ hm)
    obtain ⟨text, htext, hload⟩ := hplain msg (by simp)
    obtain ⟨h', hremember, hrec'⟩ := hrec.remember (hmsgs msg (by simp))
    refine ⟨h', ?_, hrec'⟩
    rw [handleAll_append, hrun]
    simp [History.handleAll, History.handle, htext, hload, hremember]

/-- A LOAD puts in the pool what the store has for the keys of `session`. -/
theorem handleAll_load (redis : Bytes → Option Bytes) {msgs : List Bytes} {load : Bytes}
    (hplain : ∀ msg ∈ msgs, Plain parse msg) (hmsgs : ∀ msg ∈ msgs, 0 ∉ msg)
    (hload : msgField parse load = some (ascii "LOAD")) :
    ∃ h : History, h.Records msgs ∧
      (History.fresh redis).handleAll parse (msgs ++ [load]) =
        h.replay.map fun out => (h, out) := by
  obtain ⟨h, hrun, hrec⟩ := handleAll_plain redis hplain hmsgs
  refine ⟨h, hrec, ?_⟩
  rw [handleAll_append, hrun]
  simp [History.handleAll, History.handle, hload, Option.map_map, Function.comp_def]

/-- As long as no key was used twice, the history replays all messages. -/
theorem History.Records.replay {msgs : List Bytes} (hrec : h.Records msgs)
    (hfew : msgs.length ≤ keyMax) : h.replay = some msgs := by
  rw [History.replay, hrec.session, mapM_eq_some_iff]
  refine List.ext_getElem? fun i => ?_
  by_cases hi : i < msgs.length
  · simp [hi, hrec.stored i hi (by omega)]
  · rw [List.getElem?_eq_none (by simpa using hi), List.getElem?_eq_none (by simpa using hi)]

/-- What the history replays has a string for each message. -/
theorem History.Records.length_replay {msgs out : List Bytes} (hrec : h.Records msgs)
    (hout : h.replay = some out) : out.length = msgs.length := by
  have hmap := mapM_eq_some_iff.mp hout
  have hlen := congrArg List.length hmap
  simpa [hrec.session] using hlen.symm

/-- What is replayed as a whole has a key for each message. -/
theorem length_le_of_replays {msgs : List Bytes} {load : Bytes}
    (hplain : ∀ msg ∈ msgs, Plain parse msg) (hmsgs : ∀ msg ∈ msgs, 0 ∉ msg)
    (hload : msgField parse load = some (ascii "LOAD")) (hreplays : Replays parse redis msgs load) :
    msgs.length ≤ keyMax := by
  obtain ⟨h, hrec, hrun⟩ := handleAll_load redis hplain hmsgs hload
  obtain ⟨h', hreplay⟩ := hreplays
  rw [hrun] at hreplay
  obtain ⟨out, hout, he⟩ := Option.map_eq_some_iff.mp hreplay
  have hlen := hrec.length_replay hout
  rw [(Prod.mk.inj he).2, List.length_drop] at hlen
  simp only [keyMax] at hlen ⊢
  omega

/-- As long as there is a key for each message all are replayed. -/
theorem replays_of_length_le {msgs : List Bytes} {load : Bytes}
    (hplain : ∀ msg ∈ msgs, Plain parse msg) (hmsgs : ∀ msg ∈ msgs, 0 ∉ msg)
    (hload : msgField parse load = some (ascii "LOAD")) (hfew : msgs.length ≤ keyMax) :
    Replays parse redis msgs load := by
  obtain ⟨h, hrec, hrun⟩ := handleAll_load redis hplain hmsgs hload
  refine ⟨h, ?_⟩
  rw [hrun, hrec.replay hfew, Option.map_some, Nat.sub_eq_zero_of_le hfew, List.drop_zero]

/-- Plain messages are so as the strings in the buffer, which have no NUL. -/
theorem plain_map_cstr {bufs : List Bytes} (hplain : ∀ buf ∈ bufs, Plain parse (cstr buf)) :
    ∀ msg ∈ bufs.map cstr, Plain parse msg ∧ 0 ∉ msg := fun msg hmsg => by
  obtain ⟨buf, hbuf, rfl⟩ := List.mem_map.mp hmsg
  exact ⟨hplain buf hbuf, notMem_cstr buf⟩

/-- A LOAD replays the last messages exactly when there are no more than there are keys. -/
theorem replays_iff {bufs : List Bytes} {load : Bytes}
    (hplain : ∀ buf ∈ bufs, Plain parse (cstr buf))
    (hload : msgField parse (cstr load) = some (ascii "LOAD")) :
    Replays parse redis (bufs.map cstr) (cstr load) ↔ bufs.length ≤ keyMax := by
  have hmsgs := plain_map_cstr hplain
  rw [← List.length_map (f := cstr)]
  exact ⟨length_le_of_replays (fun m hm => (hmsgs m hm).1) (fun m hm => (hmsgs m hm).2) hload,
    replays_of_length_le (fun m hm => (hmsgs m hm).1) (fun m hm => (hmsgs m hm).2) hload⟩

/-- The text of a request for the history. -/
def loadText : Bytes := ascii "\x7b\"msg\":\"LOAD\"\x7d"

/-- `Reader::parse` on the text of a LOAD and on texts that are no JSON. -/
def parseLoad (text : Bytes) : Json :=
  if text = loadText then .object [(ascii "msg", .string (ascii "LOAD"))] else .null

theorem plain_a : Plain parseLoad (cstr (ascii "a")) := ⟨[], by decide, by decide⟩

theorem msgField_loadText : msgField parseLoad (cstr loadText) = some (ascii "LOAD") := by decide

theorem replays_iff_twoMessages :
    Replays parseLoad (fun _ => none) ([ascii "a", ascii "a"].map cstr) (cstr loadText) ↔
      2 ≤ keyMax :=
  replays_iff (by simpa using plain_a) msgField_loadText

/-- One message more than there are keys: the history replays 513 strings. -/
theorem not_replays_keyMax :
    (∀ buf ∈ List.replicate (keyMax + 1) (ascii "a"), Plain parseLoad (cstr buf)) ∧
      msgField parseLoad (cstr loadText) = some (ascii "LOAD") ∧
      ¬ Replays parseLoad (fun _ => none) ((List.replicate (keyMax + 1) (ascii "a")).map cstr)
        (cstr loadText) := by
  have hplain : ∀ buf ∈ List.replicate (keyMax + 1) (ascii "a"), Plain parseLoad (cstr buf) :=
    fun buf hbuf => (List.mem_replicate.mp hbuf).2 ▸ plain_a
  refine ⟨hplain, msgField_loadText, fun h => ?_⟩
  have hmsgs := plain_map_cstr hplain
  have hfew := length_le_of_replays (fun m hm => (hmsgs m hm).1) (fun m hm => (hmsgs m hm).2)
    msgField_loadText h
  rw [List.length_map, List.length_replicate] at hfew
  exact absurd hfew (Nat.not_succ_le_self _)

end NetworkCode.LinuxChat
