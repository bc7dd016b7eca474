import NetworkCode.LinuxChat.Producer

/-!
# The keys of the history

The counter comes round, `session` only grows, and the store keeps what was last set for a
key. So each key of `session` has the latest message that was stored under it, and a LOAD
finds all of them.
-/

namespace NetworkCode.LinuxChat

open StepResult Text

variable {parse : Bytes → Json} {redis : Bytes → Option Bytes} {h h' : History}
  {msgs out : List Bytes} {msg : Bytes} {n i : Nat}

/-- The messages that are stored are those that are no LOAD. -/
def kept (parse : Bytes → Json) (msgs : List Bytes) : List Bytes :=
  msgs.filter fun msg => msgField parse msg ≠ some (ascii "LOAD")

/-- Of `n` messages the one with the number `j` is the latest with the key of the number `i`. -/
structure Latest (n i j : Nat) : Prop where
  lt : j < n
  key : keyOf j = keyOf i
  last : ∀ k, j < k → k < n → keyOf k ≠ keyOf i

/-- The counter, the keys and the store behind these messages, all of which were stored. -/
structure History.Keyed (h : History) (msgs : List Bytes) : Prop where
  sessionCount : h.sessionCount = msgs.length % keyMax ∧ h.sessionCount < keyMax
  session : h.session.length = msgs.length ∧
    ∀ i < msgs.length, h.session[i]? = some (ascii "key" ++ digits (i % keyMax))
  stored : ∀ i < msgs.length, ∃ j msg, Latest msgs.length i j ∧ msgs[j]? = some msg ∧
    h.redis (ascii "key" ++ digits (i % keyMax)) = some msg
  /-- The next number fits in the array of `_itoa`. -/
  itoa : itoa h.sessionCount ≠ none
  /-- No key is missing. -/
  replay : h.replay ≠ none

/-! ## What is recorded -/

/-- The latest message with a key is one of the last `KEY_MAX`. -/
theorem exists_latest (hi : i < n) : ∃ j, Latest n i j ∧ n ≤ j + keyMax := by
  refine ⟨i + keyMax * ((n - 1 - i) / keyMax), ⟨?_, ?_, fun k hk hn he => ?_⟩, ?_⟩
  · simp only [keyMax]
    omega
  · rw [keyOf_inj, Nat.add_mul_mod_self_left]
  · rw [keyOf_inj] at he
    simp only [keyMax] at hk he
    omega
  · simp only [keyMax]
    omega

/-- Under each key is the latest message that was stored there. -/
theorem History.Records.stored_latest (hrec : h.Records msgs) (hi : i < msgs.length) :
    ∃ j msg, Latest msgs.length i j ∧ msgs[j]? = some msg ∧ h.redis (keyOf i) = some msg := by
  obtain ⟨j, hlatest, hrecent⟩ := exists_latest hi
  obtain ⟨msg, hget⟩ : ∃ msg, msgs[j]? = some msg := ⟨_, List.getElem?_eq_getElem hlatest.lt⟩
  refine ⟨j, msg, hlatest, hget, ?_⟩
  rw [← hlatest.key, hrec.stored j hlatest.lt hrecent, hget]

/-- Each key of the session is in the store. -/
theorem History.Records.replay_ne_none (hrec : h.Records msgs) : h.replay ≠ none := by
  rw [History.replay, mapM_ne_none_iff, hrec.session]
  intro key hkey
  obtain ⟨i, hi, rfl⟩ := List.mem_map.mp hkey
  obtain ⟨j, msg, -, -, hredis⟩ := hrec.stored_latest (List.mem_range.mp hi)
  rw [hredis]
  exact Option.some_ne_none msg

/-- What the history records is under its keys. -/
theorem History.Records.keyed (hrec : h.Records msgs) : h.Keyed msgs where
  sessionCount := by
    rw [hrec.sessionCount]
    exact ⟨rfl, Nat.mod_lt _ (by decide)⟩
  session := by
    rw [hrec.session]
    refine ⟨by simp, fun i hi => ?_⟩
    rw [List.getElem?_map, List.getElem?_range hi]
    rfl
  stored i hi := hrec.stored_latest hi
  itoa := by
    rw [hrec.sessionCount, itoa_mod]
    exact Option.some_ne_none _
  replay := hrec.replay_ne_none

/-! ## One message -/

/-- The messages of two lists that are stored. -/
theorem kept_append (msgs msgs' : List Bytes) :
    kept parse (msgs ++ msgs') = kept parse msgs ++ kept parse msgs' :=
  List.filter_append _ _

/-- A LOAD is not stored. -/
theorem kept_load (hload : msgField parse msg = some (ascii "LOAD")) : kept parse [msg] = [] :=
  List.filter_cons_of_neg (by simpa using hload)

/-- Any other message is stored. -/
theorem kept_plain (hload : msgField parse msg ≠ some (ascii "LOAD")) :
    kept parse [msg] = [msg] :=
  List.filter_cons_of_pos (by simpa using hload)

/-- A message that can be read is handled, and recorded if it is no LOAD. -/
theorem History.Records.handle (hrec : h.Records msgs) (hmsg : 0 ∉ msg)
    (hread : msgField parse msg ≠ none) :
    ∃ h' out, h.handle parse msg = some (h', out) ∧ h'.Records (msgs ++ kept parse [msg]) := by
  obtain ⟨text, htext⟩ := Option.ne_none_iff_exists'.mp hread
  by_cases hload : text = ascii "LOAD"
  · subst hload
    obtain ⟨out, hout⟩ := Option.ne_none_iff_exists'.mp hrec.replay_ne_none
    refine ⟨h, out, ?_, ?_⟩
    · rw [History.handle, htext, Option.bind_some, if_pos rfl, hout, Option.map_some]
    · rw [kept_load htext, List.append_nil]
      exact hrec
  · obtain ⟨h', hremember, hrec'⟩ := hrec.remember hmsg
    refine ⟨h', [], ?_, ?_⟩
    · rw [History.handle, htext, Option.bind_some, if_neg hload, hremember, Option.map_some]
    · rw [kept_plain (by rwa [htext, ne_eq, Option.some.injEq])]
      exact hrec'

/-- One that cannot be read raises. -/
theorem handle_eq_none (hread : msgField parse msg = none) : h.handle parse msg = none := by
  rw [History.handle, hread, Option.bind_none]

/-- A message is handled unless its command cannot be read. -/
theorem History.Records.handle_eq_none_iff (hrec : h.Records msgs) (hmsg : 0 ∉ msg) :
    h.handle parse msg = none ↔ msgField parse msg = none := by
  refine ⟨fun hnone => ?_, handle_eq_none⟩
  by_contra hread
  obtain ⟨h', out, hhandle, -⟩ := hrec.handle hmsg hread
  rw [hhandle] at hnone
  cases hnone

/-- Handling a message stores it unless it is a LOAD. -/
theorem History.Records.of_handle (hrec : h.Records msgs) (hmsg : 0 ∉ msg)
    (hhandle : h.handle parse msg = some (h', out)) : h'.Records (msgs ++ kept parse [msg]) := by
  have hread : msgField parse msg ≠ none := by
    intro hnone
    rw [handle_eq_none hnone] at hhandle
    cases hhandle
  obtain ⟨h'', out', hhandle', hrec'⟩ := hrec.handle hmsg hread
  rw [hhandle] at hhandle'
  cases hhandle'
  exact hrec'

/-! ## A sequence of messages -/

/-- One more message behind the others. -/
theorem handleAll_concat : h.handleAll parse (msgs ++ [msg]) =
    (h.handleAll parse msgs).bind fun r =>
      (r.1.handle parse msg).map fun r' => (r'.1, r.2 ++ r'.2) := by
  rw [handleAll_append]
  congr 1
  funext r
  simp only [History.handleAll]
  cases r.1.handle parse msg with
  | none => rfl
  | some r' => simp

/-- Messages handled from the start are recorded, but for the LOADs. -/
theorem records_of_handleAll (hmsgs : ∀ msg ∈ msgs, 0 ∉ msg)
    (hrun : (History.fresh redis).handleAll parse msgs = some (h, out)) :
    h.Records (kept parse msgs) := by
  induction msgs using List.reverseRecOn generalizing h out with
  | nil =>
    cases hrun
    exact records_fresh
  | append_singleton msgs msg ih =>
    rw [handleAll_concat] at hrun
    obtain ⟨⟨h₁, out₁⟩, hbefore, hlast⟩ := Option.bind_eq_some_iff.mp hrun
    obtain ⟨⟨h₂, out₂⟩, hhandle, he⟩ := Option.map_eq_some_iff.mp hlast
    cases he
    have hrec := ih (fun m hm => hmsgs m (List.mem_append_left _ hm)) hbefore
    rw [kept_append]
    exact hrec.of_handle (hmsgs msg (by simp)) hhandle

/-- A sequence is handled unless a message of it cannot be read. -/
theorem handleAll_eq_none_iff (hmsgs : ∀ msg ∈ msgs, 0 ∉ msg) :
    (History.fresh redis).handleAll parse msgs = none ↔
      ∃ msg ∈ msgs, msgField parse msg = none := by
  induction msgs using List.reverseRecOn with
  | nil => simp [History.handleAll]
  | append_singleton msgs msg ih =>
    have ih := ih fun m hm => hmsgs m (List.mem_append_left _ hm)
    rw [handleAll_concat]
    cases hbefore : (History.fresh redis).handleAll parse msgs with
    | none =>
      obtain ⟨m, hm, hnone⟩ := ih.mp hbefore
      exact iff_of_true rfl ⟨m, List.mem_append_left _ hm, hnone⟩
    | some r =>
      have hread : ∀ m ∈ msgs, ¬ msgField parse m = none := fun m hm hnone => by
        rw [ih.mpr ⟨m, hm, hnone⟩] at hbefore
        cases hbefore
      have hrec := records_of_handleAll (fun m hm => hmsgs m (List.mem_append_left _ hm)) hbefore
      rw [Option.bind_some, Option.map_eq_none_iff, hrec.handle_eq_none_iff (hmsgs msg (by simp))]
      constructor
      · exact fun hnone => ⟨msg, by simp, hnone⟩
      · rintro ⟨m, hm, hnone⟩
        obtain hm | hm := List.mem_append.mp hm
        · exact absurd hnone (hread m hm)
        · rwa [← List.mem_singleton.mp hm]

/-- The strings in buffers have no NUL. -/
theorem notMem_map_cstr {bufs : List Bytes} : ∀ msg ∈ bufs.map cstr, 0 ∉ msg := by
  intro msg hmsg
  obtain ⟨buf, -, rfl⟩ := List.mem_map.mp hmsg
  exact notMem_cstr buf

/-- In every interleaving in which every call of `RecvData` receives a message, the history is as
it should be whenever the producer receives again. -/
theorem keyed_of_runs {slots bufs : List Bytes} {s : Server} {as : List Action}
    (h : Runs (Server.step parse) (.start slots redis) as s) (hlive : s.aborted = false)
    (hprod : s.producer = .receiving) (hreceipts : receipts as = (bufs.map cstr).map some) :
    s.history.Keyed (kept parse (bufs.map cstr)) := by
  have hhistory := history_of_runs h hlive hprod hreceipts
  obtain ⟨⟨h', out⟩, hrun, he⟩ := Option.map_eq_some_iff.mp hhistory
  rw [← he]
  exact (records_of_handleAll notMem_map_cstr hrun).keyed

/-- Every sequence of messages that can be read is handled, and leaves the counter, the keys and
the store as they should be. A message that cannot be read is the only thing that ends it. -/
theorem keyed_of_handleAll (parse : Bytes → Json) (redis : Bytes → Option Bytes)
    (bufs : List Bytes) :
    (∃ buf ∈ bufs, msgField parse (cstr buf) = none) ∧
        (History.fresh redis).handleAll parse (bufs.map cstr) = none ∨
      (∀ buf ∈ bufs, msgField parse (cstr buf) ≠ none) ∧
        ∃ h out, (History.fresh redis).handleAll parse (bufs.map cstr) = some (h, out) ∧
          h.Keyed (kept parse (bufs.map cstr)) := by
  have hiff : (History.fresh redis).handleAll parse (bufs.map cstr) = none ↔
      ∃ buf ∈ bufs, msgField parse (cstr buf) = none :=
    (handleAll_eq_none_iff notMem_map_cstr).trans (by simp)
  cases hrun : (History.fresh redis).handleAll parse (bufs.map cstr) with
  | none => exact .inl ⟨hiff.mp hrun, rfl⟩
  | some r =>
    refine .inr ⟨fun buf hbuf hnone => ?_, r.1, r.2, rfl,
      (records_of_handleAll notMem_map_cstr hrun).keyed⟩
    rw [hiff.mpr ⟨buf, hbuf, hnone⟩] at hrun
    cases hrun

end NetworkCode.LinuxChat
