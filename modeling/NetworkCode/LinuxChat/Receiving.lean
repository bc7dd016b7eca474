import NetworkCode.LinuxChat.Keys

/-!
# Receiving in the producer

`productRun` does not look at the result of `RecvData`. When nothing was received, the message
of the iteration before is handled once more: it is stored again, or its LOAD is replayed
again. The value of a message is read without asking whether it was parsed, and what it is.
-/

namespace NetworkCode.LinuxChat

open StepResult Text

/-! ## The iterations of `productRun` -/

/-- What `recvfrom` returns: an error, or a datagram with its sender. -/
abbrev Result := Option (Endpoint × Bytes)

/-- What an iteration of `productRun` starts from. -/
structure Product where
  users : UserList
  work : Work

/-- The call of `RecvData`, unless it does not come back: the users behind it, and the message if
one was received. -/
def Product.receive (parse : Bytes → Json) (p : Product) :
    Result → Option (UserList × Option Bytes)
  | none => some (p.users, none)
  | some (remote, datagram) =>
    match recvData parse p.users remote datagram with
    | .failed => some (p.users, none)
    | .overflow => none
    | .raised => none
    | .received outmsg users => some (users, some outmsg)

/-- An iteration of `productRun`, unless it does not come to its end. -/
def Product.iterate (parse : Bytes → Json) (p : Product) (r : Result) : Option Product :=
  (p.receive parse r).bind fun received =>
    (p.work.iterate parse received.2).map fun work => ⟨received.1, work⟩

/-- Iterations of `productRun` from its start. -/
def productAll (parse : Bytes → Json) (redis : Bytes → Option Bytes) (results : List Result) :
    Option Product :=
  results.foldlM (Product.iterate parse) ⟨.empty, ⟨.fresh redis, [], []⟩⟩

/-- The message that `RecvData` receives; it fails on an error and on an empty datagram. -/
def received (r : Result) : Option Bytes :=
  r.bind fun a => if a.2 = [] then none else some (cstr a.2)

/-- The messages that were received, in order. -/
def messages (results : List Result) : List Bytes := results.filterMap received

variable {parse : Bytes → Json} {redis : Bytes → Option Bytes} {p p' : Product}
  {r : Result} {results before after : List Result} {remote : Endpoint} {datagram : Bytes}

/-- One more result of `recvfrom`. -/
theorem productAll_concat : productAll parse redis (results ++ [r]) =
    (productAll parse redis results).bind fun p => p.iterate parse r :=
  foldlM_concat _ _ _ _

/-- One more result, and its message if it has one. -/
theorem messages_concat : messages (results ++ [r]) = messages results ++ (received r).toList := by
  rw [messages, List.filterMap_append]
  cases h : received r <;> simp [messages, h]

/-- `RecvData` comes back exactly when it can read the datagram. -/
theorem receive_cases (parse : Bytes → Json) (p : Product) (r : Result) :
    (∀ a ∈ r, Readable parse a.2) ∧ (∃ users, p.receive parse r = some (users, received r)) ∨
      (¬ ∀ a ∈ r, Readable parse a.2) ∧ p.receive parse r = none := by
  cases r with
  | none => exact .inl ⟨by simp, p.users, rfl⟩
  | some a =>
    obtain ⟨remote, datagram⟩ := a
    simp only [Option.mem_def, Option.some.injEq, forall_eq', received, Option.bind_some]
    by_cases hnil : datagram = []
    · subst hnil
      exact .inl ⟨⟨by decide, fun h => absurd rfl h⟩, p.users, rfl⟩
    · simp only [Product.receive, if_neg hnil]
      by_cases hlen : datagram.length < recvSize
      · rw [recvData_of_lt hnil hlen]
        cases hfield : (parse (cstr datagram)).field (ascii "cmd") with
        | none =>
          refine .inr ⟨fun hread => ?_, rfl⟩
          obtain ⟨cmd, hcmd⟩ := hread.2 hnil
          rw [hfield] at hcmd
          cases hcmd
        | some cmd => exact .inl ⟨⟨hlen, fun _ => ⟨cmd, hfield⟩⟩, _, rfl⟩
      · rw [recvData_of_recvSize_le (Nat.not_lt.mp hlen)]
        exact .inr ⟨fun hread => hlen hread.1, rfl⟩

/-- An iteration that comes to its end has read its datagram and handled its message. -/
theorem iterate_eq_some (h : p.iterate parse r = some p') :
    (∀ a ∈ r, Readable parse a.2) ∧ p.work.iterate parse (received r) = some p'.work := by
  obtain ⟨x, hx, hrest⟩ := Option.bind_eq_some_iff.mp h
  obtain ⟨hread, users, husers⟩ | ⟨-, hnone⟩ := receive_cases parse p r
  · obtain rfl := Option.some.inj (husers.symm.trans hx)
    obtain ⟨work, hwork, rfl⟩ := Option.map_eq_some_iff.mp hrest
    exact ⟨hread, hwork⟩
  · rw [hnone] at hx
    cases hx

/-- An iteration needs a datagram that can be read and a message that can be handled. -/
theorem exists_iterate {work : Work} (hread : ∀ a ∈ r, Readable parse a.2)
    (hwork : p.work.iterate parse (received r) = some work) :
    ∃ p', p.iterate parse r = some p' ∧ p'.work = work := by
  obtain ⟨-, users, husers⟩ | ⟨hnot, -⟩ := receive_cases parse p r
  · refine ⟨⟨users, work⟩, ?_, rfl⟩
    rw [Product.iterate, husers, Option.bind_some, hwork, Option.map_some]
  · exact absurd hread hnot

/-- A part of a run that comes to its end. -/
theorem exists_iterate_of_productAll (h : productAll parse redis (before ++ r :: after) = some p) :
    ∃ p₁ p₂, productAll parse redis before = some p₁ ∧ p₁.iterate parse r = some p₂ := by
  rw [productAll, List.foldlM_append] at h
  obtain ⟨p₁, hp₁, hrest⟩ := Option.bind_eq_some_iff.mp h
  rw [List.foldlM_cons] at hrest
  obtain ⟨p₂, hp₂, -⟩ := Option.bind_eq_some_iff.mp hrest
  exact ⟨p₁, p₂, hp₁, hp₂⟩

/-! ## What a run leaves -/

/-- A message is the string at the beginning of a datagram that is not empty. -/
theorem received_eq_some {msg : Bytes} (h : received r = some msg) :
    ∃ a, r = some a ∧ a.2 ≠ [] ∧ msg = cstr a.2 := by
  obtain ⟨a, ha, hmsg⟩ := Option.bind_eq_some_iff.mp h
  split at hmsg
  · cases hmsg
  · rename_i hne
    exact ⟨a, ha, hne, (Option.some.inj hmsg).symm⟩

/-- A message has no NUL. -/
theorem notMem_received {msg : Bytes} (h : received r = some msg) : 0 ∉ msg := by
  obtain ⟨a, -, -, rfl⟩ := received_eq_some h
  exact notMem_cstr a.2

/-- Whether or not something was received, the message that is handled is a C string. -/
theorem notMem_getD_received {msg : Bytes} (h : 0 ∉ msg) : 0 ∉ (received r).getD msg := by
  cases hr : received r with
  | none => exact h
  | some msg => exact notMem_received hr

/-- What an iteration does: it handles the message that is in `msg`, and gives it to the pool if it
is new. -/
theorem Work.iterate_eq_some {w w' : Work} {msg : Option Bytes}
    (h : w.iterate parse msg = some w') :
    ∃ out, w.history.handle parse (msg.getD w.msg) = some (w'.history, out) ∧
      w'.msg = msg.getD w.msg ∧ w'.given = w.given ++ msg.toList ++ out := by
  obtain ⟨⟨h', out⟩, hhandle, rfl⟩ := Option.map_eq_some_iff.mp h
  exact ⟨out, hhandle, rfl, rfl⟩

/-- The variable `msg` behind these results. -/
def latestMessage (results : List Result) : Bytes := (messages results).getLast?.getD []

/-- The message in `msg` behind one more result. -/
theorem latestMessage_concat :
    latestMessage (results ++ [r]) = (received r).getD (latestMessage results) := by
  rw [latestMessage, messages_concat]
  cases received r with
  | none => simp [latestMessage]
  | some msg => simp

/-- What the producer works on behind these results: at least the messages that are no LOAD are
recorded. -/
structure Produced (parse : Bytes → Json) (results : List Result) (w : Work) : Prop where
  msg : w.msg = latestMessage results
  text : 0 ∉ w.msg
  records : ∃ stored, w.history.Records stored ∧
    (kept parse (messages results)).length ≤ stored.length

/-- One more iteration keeps what the iterations have produced. -/
theorem Produced.concat {w w' : Work} (h : Produced parse results w)
    (hstep : w.iterate parse (received r) = some w') : Produced parse (results ++ [r]) w' := by
  obtain ⟨out, hhandle, hmsg, -⟩ := Work.iterate_eq_some hstep
  obtain ⟨stored, hrec, hlen⟩ := h.records
  have htext : 0 ∉ (received r).getD w.msg := notMem_getD_received h.text
  refine ⟨?_, hmsg ▸ htext, _, hrec.of_handle htext hhandle, ?_⟩
  · rw [hmsg, latestMessage_concat, h.msg]
  · rw [messages_concat, kept_append, List.length_append, List.length_append]
    cases received r with
    | none =>
      exact Nat.le_add_right_of_le hlen
    | some msg => exact Nat.add_le_add_right hlen _

/-- What the iterations have produced is what was received, and what was replayed. -/
theorem produced_of_productAll (h : productAll parse redis results = some p) :
    Produced parse results p.work := by
  induction results using List.reverseRecOn generalizing p with
  | nil =>
    cases h
    exact ⟨rfl, by simp, [], records_fresh, Nat.le_refl _⟩
  | append_singleton results r ih =>
    rw [productAll_concat] at h
    obtain ⟨p₁, hp₁, hstep⟩ := Option.bind_eq_some_iff.mp h
    exact (ih hp₁).concat (iterate_eq_some hstep).2

/-- An iteration comes to its end exactly when the datagram can be read, and the message that is
handled. -/
theorem iterate_ne_none_iff (h : productAll parse redis results = some p) :
    p.iterate parse r ≠ none ↔ (∀ a ∈ r, Readable parse a.2) ∧
      msgField parse (latestMessage (results ++ [r])) ≠ none := by
  have hproduced := produced_of_productAll h
  obtain ⟨stored, hrec, -⟩ := hproduced.records
  have htext : 0 ∉ (received r).getD p.work.msg := notMem_getD_received hproduced.text
  have hwork : p.work.iterate parse (received r) ≠ none ↔
      msgField parse (latestMessage (results ++ [r])) ≠ none := by
    rw [latestMessage_concat, ← hproduced.msg, Work.iterate, ne_eq, Option.map_eq_none_iff,
      hrec.handle_eq_none_iff htext]
  rw [← hwork]
  constructor
  · intro hne
    obtain ⟨p', hp'⟩ := Option.ne_none_iff_exists'.mp hne
    obtain ⟨hread, hstep⟩ := iterate_eq_some hp'
    rw [hstep]
    exact ⟨hread, Option.some_ne_none _⟩
  · rintro ⟨hread, hne⟩
    obtain ⟨work, hstep⟩ := Option.ne_none_iff_exists'.mp hne
    obtain ⟨p', hp', -⟩ := exists_iterate hread hstep
    rw [hp']
    exact Option.some_ne_none _

/-! ## Which datagrams are survived -/

/-- A value that `asString` converts. -/
def Json.Scalar : Json → Prop
  | .array _ => False
  | .object _ => False
  | _ => True

/-- Null, or an object whose `cmd` and `msg` are missing or can be converted. -/
def Json.Answers (val : Json) : Prop :=
  val = .null ∨ ∃ members, val = .object members ∧
    ∀ key ∈ [ascii "cmd", ascii "msg"], ∀ v, members.lookup key = some v → v.Scalar

/-- A datagram with room for a NUL behind it that is empty or whose value answers for `cmd` and
`msg`. -/
def Harmless (parse : Bytes → Json) (datagram : Bytes) : Prop :=
  datagram.length < recvSize ∧ (datagram ≠ [] → (parse (cstr datagram)).Answers)

/-- `asString` throws on arrays and objects only. -/
theorem asString_ne_none_iff {v : Json} : v.asString ≠ none ↔ v.Scalar := by
  cases v with
  | bool b => cases b <;> simp [Json.asString, Json.Scalar]
  | _ => simp [Json.asString, Json.Scalar]

/-- A field can be read from null, and from an object in which it is a scalar. -/
theorem field_ne_none_iff {val : Json} {key : Bytes} : val.field key ≠ none ↔
    val = .null ∨ ∃ members, val = .object members ∧
      ∀ v, members.lookup key = some v → v.Scalar := by
  cases val with
  | null => simp [Json.field, Json.member, Json.asString]
  | object members =>
    simp only [Json.field, Json.member, Option.bind_some, asString_ne_none_iff]
    cases hlookup : members.lookup key with
    | none => simp [Json.Scalar, hlookup]
    | some v => simp [hlookup]
  | _ => simp [Json.field, Json.member]

/-- The server can read both of its fields. -/
theorem answers_iff {val : Json} :
    val.Answers ↔ val.field (ascii "cmd") ≠ none ∧ val.field (ascii "msg") ≠ none := by
  rw [field_ne_none_iff, field_ne_none_iff]
  constructor
  · rintro (hnull | ⟨members, hval, hscalar⟩)
    · exact ⟨.inl hnull, .inl hnull⟩
    · exact ⟨.inr ⟨members, hval, hscalar _ (by simp)⟩, .inr ⟨members, hval, hscalar _ (by simp)⟩⟩
  · rintro ⟨hnull | ⟨members, rfl, hcmd⟩, hmsg⟩
    · exact .inl hnull
    · obtain hnull | ⟨members', hval, hmsg⟩ := hmsg
      · exact .inl hnull
      · obtain rfl := Json.object.inj hval
        refine .inr ⟨members, rfl, fun key hkey => ?_⟩
        simp only [List.mem_cons, List.not_mem_nil, or_false] at hkey
        obtain rfl | rfl := hkey
        · exact hcmd
        · exact hmsg

/-- The message that is handled last could be read. -/
theorem msgField_latestMessage (hempty : parse [] = .null)
    (h : productAll parse redis results = some p) :
    msgField parse (latestMessage results) ≠ none := by
  induction results using List.reverseRecOn generalizing p with
  | nil =>
    change msgField parse [] ≠ none
    rw [msgField, hempty, field_ne_none_iff]
    exact .inl rfl
  | append_singleton results r _ =>
    rw [productAll_concat] at h
    obtain ⟨p₁, hp₁, hstep⟩ := Option.bind_eq_some_iff.mp h
    have hne : p₁.iterate parse r ≠ none := by
      rw [hstep]
      exact Option.some_ne_none p
    exact ((iterate_ne_none_iff hp₁).mp hne).2

/-- Whatever was received before, an iteration with a datagram comes to its end exactly when the
datagram has room for a NUL and is empty, or its value is null or an object whose `cmd` and `msg`
are no arrays or objects. A text without a value is parsed as null. -/
theorem survives_iff_harmless {parse : Bytes → Json} {redis : Bytes → Option Bytes}
    {results : List Result} {p : Product} (hempty : parse [] = .null)
    (h : productAll parse redis results = some p) (remote : Endpoint) (datagram : Bytes) :
    p.iterate parse (some (remote, datagram)) ≠ none ↔ Harmless parse datagram := by
  rw [iterate_ne_none_iff h, latestMessage_concat]
  simp only [Option.mem_def, Option.some.injEq, forall_eq', received, Option.bind_some]
  by_cases hnil : datagram = []
  · subst hnil
    have hlatest := msgField_latestMessage hempty h
    exact iff_of_true ⟨⟨by decide, fun hne => absurd rfl hne⟩, hlatest⟩
      ⟨by decide, fun hne => absurd rfl hne⟩
  · simp only [if_neg hnil, Option.getD_some, Harmless, Readable, answers_iff, msgField,
      Option.ne_none_iff_exists', forall_prop_of_true hnil, and_assoc]

/-- `Reader::parse` on an empty array and on texts that are no JSON. -/
def parseArray (text : Bytes) : Json := if text = ascii "[]" then .array [] else .null

theorem survives_plainText : ∃ p, productAll parseArray (fun _ => none) [] = some p ∧
    p.iterate parseArray (some (⟨1, 5000⟩, ascii "a")) ≠ none := by
  obtain ⟨p, hp⟩ : ∃ p, productAll parseArray (fun _ => none) [] = some p := ⟨_, rfl⟩
  refine ⟨p, hp, (survives_iff_harmless (if_neg (by decide)) hp _ _).mpr ⟨by decide, fun _ => ?_⟩⟩
  exact .inl (if_neg (by decide))

/-- A datagram that is an empty array ends the process. -/
theorem array_raises : ∃ p, productAll parseArray (fun _ => none) [] = some p ∧
    (ascii "[]").length < recvSize ∧
      p.iterate parseArray (some (⟨1, 5000⟩, ascii "[]")) = none := by
  obtain ⟨p, hp⟩ : ∃ p, productAll parseArray (fun _ => none) [] = some p := ⟨_, rfl⟩
  refine ⟨p, hp, by decide, ?_⟩
  by_contra hne
  have hread := ((iterate_ne_none_iff hp).mp hne).1 _ rfl
  obtain ⟨cmd, hcmd⟩ := hread.2 (by decide)
  have hvalue : parseArray (cstr (ascii "[]")) = .array [] := if_pos (by decide)
  rw [hvalue] at hcmd
  cases hcmd

/-! ## What a failed call leaves -/

/-- Each message that is no LOAD is stored once, under its key, and an iteration in which nothing
was received leaves the history and the pool as they are. -/
structure KeepsHistory (parse : Bytes → Json) (redis : Bytes → Option Bytes)
    (results : List Result) : Prop where
  stored : ∃ p, productAll parse redis results = some p ∧
    p.work.history.Records (kept parse (messages results))
  failed : ∀ before r after, results = before ++ r :: after → received r = none →
    ∀ p p', productAll parse redis before = some p → p.iterate parse r = some p' →
      p'.work.history = p.work.history ∧ p'.work.given = p.work.given

/-- All datagrams can be handled, and whenever nothing is received, the variable `msg` has a LOAD
and only LOADs were received before. -/
structure Steady (parse : Bytes → Json) (results : List Result) : Prop where
  harmless : ∀ r ∈ results, ∀ a ∈ r, Harmless parse a.2
  failed : ∀ before r after, results = before ++ r :: after → received r = none →
    msgField parse (latestMessage before) = some (ascii "LOAD") ∧
      ∀ msg ∈ messages before, msgField parse msg = some (ascii "LOAD")

/-- Nothing is stored exactly when all messages are LOADs. -/
theorem kept_eq_nil_iff {msgs : List Bytes} :
    kept parse msgs = [] ↔ ∀ msg ∈ msgs, msgField parse msg = some (ascii "LOAD") := by
  simp [kept, List.filter_eq_nil_iff]

/-- Handling a message changes nothing exactly when it is a LOAD and nothing was stored. -/
theorem History.Records.handle_same_iff {h : History} {stored : List Bytes} {msg : Bytes}
    (hrec : h.Records stored) (hmsg : 0 ∉ msg) :
    h.handle parse msg = some (h, []) ↔
      msgField parse msg = some (ascii "LOAD") ∧ stored = [] := by
  constructor
  · intro hhandle
    have hsession := (hrec.of_handle hmsg hhandle).session
    have hlen := congrArg List.length (hsession.symm.trans hrec.session)
    have hnone : kept parse [msg] = [] := by
      simp only [List.length_map, List.length_range, List.length_append] at hlen
      exact List.eq_nil_of_length_eq_zero (by omega)
    have hload := kept_eq_nil_iff.mp hnone msg List.mem_cons_self
    rw [History.handle, hload, Option.bind_some, if_pos rfl] at hhandle
    obtain ⟨out, hout, he⟩ := Option.map_eq_some_iff.mp hhandle
    have hempty := hrec.length_replay hout
    rw [(Prod.mk.inj he).2] at hempty
    exact ⟨hload, List.eq_nil_of_length_eq_zero hempty.symm⟩
  · rintro ⟨hload, rfl⟩
    have hsession : h.session = [] := hrec.session
    rw [History.handle, hload, Option.bind_some, if_pos rfl, History.replay, hsession]
    rfl

/-- The beginning of steady results is steady. -/
theorem Steady.of_append (h : Steady parse (results ++ after)) : Steady parse results where
  harmless r hr := h.harmless r (List.mem_append_left _ hr)
  failed before r after' he hr :=
    h.failed before r (after' ++ after) (by rw [he, List.append_assoc, List.cons_append]) hr

/-- A harmless datagram can be read, and its message too. -/
theorem Harmless.readable (h : Harmless parse datagram) :
    Readable parse datagram ∧
      (datagram ≠ [] → msgField parse (cstr datagram) ≠ none) := by
  refine ⟨⟨h.1, fun hne => ?_⟩, fun hne => (answers_iff.mp (h.2 hne)).2⟩
  exact Option.ne_none_iff_exists'.mp (answers_iff.mp (h.2 hne)).1

/-- A datagram that can be read, and whose message can, does no harm. -/
theorem harmless_of_readable (hread : Readable parse datagram)
    (hmsg : datagram ≠ [] → msgField parse (cstr datagram) ≠ none) : Harmless parse datagram := by
  refine ⟨hread.1, fun hne => answers_iff.mpr ⟨?_, hmsg hne⟩⟩
  exact Option.ne_none_iff_exists'.mpr (hread.2 hne)

/-- A steady run comes to its end and has stored the messages that are no LOAD. -/
theorem Steady.exists_product (redis : Bytes → Option Bytes) (h : Steady parse results) :
    ∃ p, productAll parse redis results = some p ∧
      p.work.history.Records (kept parse (messages results)) := by
  induction results using List.reverseRecOn with
  | nil => exact ⟨_, rfl, records_fresh⟩
  | append_singleton results r ih =>
    obtain ⟨p, hp, hrec⟩ := ih h.of_append
    have hproduced := produced_of_productAll hp
    have hload (hr : received r = none) := (h.failed results r [] rfl hr).1
    have hread : ∀ a ∈ r, Readable parse a.2 :=
      fun a ha => (h.harmless r (by simp) a ha).readable.1
    have hmsg : msgField parse (latestMessage (results ++ [r])) ≠ none := by
      rw [latestMessage_concat]
      cases hr : received r with
      | none =>
        rw [Option.getD_none, hload hr]
        exact Option.some_ne_none _
      | some msg =>
        obtain ⟨a, rfl, hne, rfl⟩ := received_eq_some hr
        exact (h.harmless _ (by simp) a rfl).readable.2 hne
    obtain ⟨p', hp'⟩ := Option.ne_none_iff_exists'.mp ((iterate_ne_none_iff hp).mpr ⟨hread, hmsg⟩)
    obtain ⟨out, hhandle, -⟩ := Work.iterate_eq_some (iterate_eq_some hp').2
    refine ⟨p', by rw [productAll_concat, hp, Option.bind_some, hp'], ?_⟩
    rw [messages_concat, kept_append]
    cases hr : received r with
    | none =>
      rw [hr, Option.getD_none] at hhandle
      have hrec' := hrec.of_handle hproduced.text hhandle
      rw [kept_load (hproduced.msg ▸ hload hr)] at hrec'
      exact hrec'
    | some msg =>
      rw [hr, Option.getD_some] at hhandle
      exact hrec.of_handle (notMem_received hr) hhandle

/-- The history is kept exactly on steady runs. -/
theorem keepsHistory_iff_steady {parse : Bytes → Json} {redis : Bytes → Option Bytes}
    {results : List Result} : KeepsHistory parse redis results ↔ Steady parse results := by
  constructor
  · rintro ⟨⟨p, hp, -⟩, hfailed⟩
    refine ⟨fun r hr a ha => ?_, fun before r after he hr => ?_⟩
    · obtain ⟨before, after, rfl⟩ := List.append_of_mem hr
      obtain ⟨p₁, p₂, hp₁, hp₂⟩ := exists_iterate_of_productAll hp
      have hne : p₁.iterate parse r ≠ none := hp₂ ▸ Option.some_ne_none p₂
      obtain ⟨hread, hmsg⟩ := (iterate_ne_none_iff hp₁).mp hne
      refine harmless_of_readable (hread a ha) fun hnil => ?_
      obtain rfl : r = some a := ha
      rw [latestMessage_concat, received, Option.bind_some, if_neg hnil] at hmsg
      exact hmsg
    · subst he
      obtain ⟨p₁, p₂, hp₁, hp₂⟩ := exists_iterate_of_productAll hp
      obtain ⟨hhistory, hgiven⟩ := hfailed before r after rfl hr p₁ p₂ hp₁ hp₂
      have hproduced := produced_of_productAll hp₁
      obtain ⟨stored, hrec, hlen⟩ := hproduced.records
      obtain ⟨out, hhandle, -, hout⟩ := Work.iterate_eq_some (iterate_eq_some hp₂).2
      have hnothing : out = [] := by
        rw [hgiven, hr, Option.toList_none, List.append_nil] at hout
        exact List.self_eq_append_right.mp hout
      rw [hr, Option.getD_none, hhistory, hnothing] at hhandle
      obtain ⟨hload, rfl⟩ := (hrec.handle_same_iff hproduced.text).mp hhandle
      refine ⟨hproduced.msg ▸ hload, kept_eq_nil_iff.mp ?_⟩
      exact List.eq_nil_of_length_eq_zero (Nat.le_zero.mp hlen)
  · intro h
    refine ⟨h.exists_product redis, ?_⟩
    rintro before r after rfl hr p p' hp hp'
    obtain ⟨hload, hloads⟩ := h.failed before r after rfl hr
    have hproduced := produced_of_productAll hp
    obtain ⟨p₀, hp₀, hrec⟩ := h.of_append.exists_product redis
    obtain rfl := Option.some.inj (hp.symm.trans hp₀)
    rw [kept_eq_nil_iff.mpr hloads] at hrec
    obtain ⟨out, hhandle, -, hgiven⟩ := Work.iterate_eq_some (iterate_eq_some hp').2
    have hsame := (hrec.handle_same_iff hproduced.text).mpr ⟨hproduced.msg ▸ hload, rfl⟩
    rw [hr, Option.getD_none, hsame] at hhandle
    obtain ⟨hhistory, rfl⟩ := Prod.mk.inj (Option.some.inj hhandle)
    refine ⟨hhistory.symm, ?_⟩
    rw [hgiven, hr, Option.toList_none, List.append_nil, List.append_nil]

/-- A message, and then a call of `RecvData` that fails. -/
def messageThenError : List Result := [some (⟨1, 5000⟩, ascii "a"), none]

theorem messageThenError_session :
    (productAll parseLoad (fun _ => none) messageThenError).map
      (fun p => (p.work.history.session, p.work.history.redis (ascii "key1"))) =
    some ([ascii "key0", ascii "key1"], some (ascii "a")) := by decide +kernel

/-- The message is stored a second time. -/
theorem failed_receive_stores_again :
    (messages messageThenError).length = 1 ∧
      ∃ p, productAll parseLoad (fun _ => none) messageThenError = some p ∧
        p.work.history.session = [ascii "key0", ascii "key1"] ∧
        p.work.history.redis (ascii "key1") = some (ascii "a") ∧
        ¬ KeepsHistory parseLoad (fun _ => none) messageThenError := by
  obtain ⟨p, hp, hsaw⟩ := Option.map_eq_some_iff.mp messageThenError_session
  obtain ⟨hsession, hredis⟩ := Prod.mk.inj hsaw
  refine ⟨by decide, p, hp, hsession, hredis, fun hkeeps => ?_⟩
  obtain ⟨p', hp', hrec⟩ := hkeeps.stored
  obtain rfl := Option.some.inj (hp.symm.trans hp')
  have hlen := congrArg List.length (hsession.symm.trans hrec.session)
  have hkept : (kept parseLoad (messages messageThenError)).length ≤ 1 := List.length_filter_le _ _
  simp only [List.length_map, List.length_range, List.length_cons, List.length_nil] at hlen
  omega

/-! ## The producer of the server -/

/-- What `recvfrom` returned on a run. -/
def resultsOf (as : List Action) : List Result :=
  as.filterMap fun
    | .recvFailed => some none
    | .recv remote datagram => some (some (remote, datagram))
    | _ => none

/-- The users that `RecvData` leaves, and the message that it hands over. -/
theorem receive_of_users {a : Endpoint × Bytes} {users : UserList}
    (h : (recvData parse p.users a.1 a.2).users p.users = some users) :
    p.receive parse (some a) = some (users, received (some a)) := by
  obtain ⟨-, users', husers'⟩ | ⟨hnot, -⟩ := receive_cases parse p (some a)
  · rw [husers', Option.some.injEq, Prod.mk.injEq]
    refine ⟨?_, rfl⟩
    simp only [Product.receive] at husers'
    cases hrecv : recvData parse p.users a.1 a.2 with
    | failed =>
      rw [hrecv] at h husers'
      exact (congrArg Prod.fst (Option.some.inj husers')).symm.trans (Option.some.inj h)
    | overflow =>
      rw [hrecv] at h
      cases h
    | raised =>
      rw [hrecv] at h
      cases h
    | received outmsg users =>
      rw [hrecv] at h husers'
      exact (congrArg Prod.fst (Option.some.inj husers')).symm.trans (Option.some.inj h)
  · refine absurd (fun b hb => ?_) hnot
    obtain rfl : a = b := Option.some.inj hb
    exact (users_recvData.mp h).1

/-- The users and the work of the producer are two views of its iterations. -/
theorem productAll_of_parts {rs : List Result} {users : UserList} {work : Work}
    (husers : receiveAll parse (rs.filterMap id) = some users)
    (hwork : iterateAll parse redis (rs.map received) = some work) :
    productAll parse redis rs = some ⟨users, work⟩ := by
  induction rs using List.reverseRecOn generalizing users work with
  | nil =>
    cases husers
    cases hwork
    rfl
  | append_singleton rs r ih =>
    rw [List.map_append, List.map_singleton, iterateAll_concat] at hwork
    obtain ⟨work₀, hwork₀, hstep⟩ := Option.bind_eq_some_iff.mp hwork
    rw [List.filterMap_append] at husers
    rw [productAll_concat]
    cases r with
    | none =>
      rw [ih ((List.append_nil _).symm ▸ husers) hwork₀, Option.bind_some, Product.iterate]
      simp only [Product.receive, Option.bind_some]
      rw [show work₀.iterate parse none = some work from hstep]
      rfl
    | some a =>
      rw [show [some a].filterMap id = [a] from rfl, receiveAll_concat] at husers
      obtain ⟨users₀, husers₀, hrecv⟩ := Option.bind_eq_some_iff.mp husers
      rw [ih husers₀ hwork₀, Option.bind_some, Product.iterate, receive_of_users hrecv,
        Option.bind_some, hstep, Option.map_some]

/-- The datagrams among the results. -/
theorem filterMap_resultsOf (as : List Action) : (resultsOf as).filterMap id = arrivals as := by
  rw [resultsOf, arrivals, List.filterMap_filterMap]
  congr 1
  funext a
  cases a <;> rfl

/-- The messages of the results. -/
theorem map_resultsOf (as : List Action) : (resultsOf as).map received = receipts as := by
  rw [resultsOf, receipts, List.map_filterMap]
  congr 1
  funext a
  cases a <;> rfl

/-- However the threads interleave, the producer has made of the results of `recvfrom` what its
iterations make of them, whenever it receives again. -/
theorem productAll_of_runs {slots : List Bytes} {s : Server} {as : List Action}
    (h : Runs (Server.step parse) (.start slots redis) as s) (hlive : s.aborted = false)
    (hprod : s.producer = .receiving) :
    productAll parse redis (resultsOf as) = some ⟨s.users, s.work⟩ := by
  apply productAll_of_parts
  · rw [filterMap_resultsOf]
    exact receiveAll_of_runs h hlive
  · rw [map_resultsOf]
    exact iterateAll_of_runs h hlive hprod

/-- On every run with steady results the messages that are no LOAD are stored once. -/
theorem records_of_runs {slots : List Bytes} {s : Server} {as : List Action}
    (h : Runs (Server.step parse) (.start slots redis) as s) (hlive : s.aborted = false)
    (hprod : s.producer = .receiving) (hsteady : Steady parse (resultsOf as)) :
    s.history.Records (kept parse (messages (resultsOf as))) := by
  obtain ⟨p, hp, hrec⟩ := hsteady.exists_product redis
  rw [productAll_of_runs h hlive hprod] at hp
  obtain rfl := Option.some.inj hp
  exact hrec

end NetworkCode.LinuxChat
