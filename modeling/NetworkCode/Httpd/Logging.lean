import NetworkCode.Httpd.Disconnect
import NetworkCode.Httpd.RequestLine

/-!
# The log and the start of the server

`PrintLog` opens the log for every record, without appending and without cutting it, and never
closes it. So each record is written over the beginning of the file and costs a descriptor, and
the server exits when it has none left.

`StartUp` answers a failed `bind` or `listen` with `echo_code` on the socket that it could not
use. There is no client, and `recv` fails on it for ever.
-/

namespace NetworkCode.Httpd

open Prog Text

/-! ### Records -/

/-- The texts of the levels `NORMAL`, `FATAL` and `WARNING`. -/
def levelList : List Bytes := [ascii ",NORMAL\n", ascii ",FATAL\n", ascii ",WARNING\n"]

/-- The log file, which may be missing, and how many descriptors the server can still open. -/
structure Log where
  file : Option Bytes
  free : Nat
  deriving DecidableEq, Repr

/-- What a call of `PrintLog` comes to. -/
inductive Logged where
  /-- The record was written. -/
  | written (log : Log)
  | exit (code : Int)
  | undefined
  deriving DecidableEq, Repr

/-- `PrintLog(msg, Level)`; `writes` is whether `write` succeeds. `open` fails when the file is
missing or no descriptor is left. The record is built in an array of 128 bytes. -/
def printLog (log : Log) (writes : Bool) (msg : Bytes) (level : Nat) : Logged :=
  match log, levelList[level]? with
  | ⟨none, _⟩, _ | ⟨_, 0⟩, _ => .exit 1
  | ⟨some _, _ + 1⟩, none => .undefined
  | ⟨some content, free + 1⟩, some suffix =>
    if msg.length + suffix.length < 128 then
      if writes then .written ⟨some (overwrite content 0 (msg ++ suffix)), free⟩ else .exit 2
    else .undefined

/-- A call of `PrintLog`. -/
structure LogCall where
  writes : Bool
  msg : Bytes
  level : Nat
  deriving DecidableEq, Repr

namespace LogCall

/-- The record of a call. -/
def record (c : LogCall) : Bytes := c.msg ++ (levelList[c.level]?).getD []

/-- The level exists and the record fits into the array. -/
def fits (c : LogCall) : Bool := c.level < 3 && c.record.length < 128

end LogCall

/-- Calls of `PrintLog` one after the other. -/
def printLogs (log : Log) : List LogCall → Logged
  | [] => .written log
  | c :: calls =>
    match printLog log c.writes c.msg c.level with
    | .written log => printLogs log calls
    | .exit code => .exit code
    | .undefined => .undefined

variable {file content : Bytes} {free left : Nat} {c : LogCall} {calls : List LogCall}

/-- A byte comes from the record as far as it reaches. -/
theorem getElem?_overwrite (file record : Bytes) (i : Nat) :
    (overwrite file 0 record)[i]? = if i < record.length then record[i]? else file[i]? := by
  rw [overwrite, List.take_zero, List.nil_append, Nat.zero_add]
  split
  · exact List.getElem?_append_left (by assumption)
  · rw [List.getElem?_append_right (by omega), List.getElem?_drop]
    congr 1
    omega

/-- The latest of some records that reaches an index, or else the file. -/
def latest (file : Bytes) (records : List Bytes) (i : Nat) : Bytes :=
  (records.reverse.find? fun r => i < r.length).getD file

/-- Behind some records each byte is that of the latest record that reaches it. -/
theorem getElem?_foldl_overwrite (file : Bytes) (records : List Bytes) (i : Nat) :
    (records.foldl (overwrite · 0 ·) file)[i]? = (latest file records i)[i]? := by
  induction records using List.reverseRecOn with
  | nil => rfl
  | append_singleton records r ih =>
    rw [List.foldl_append, List.foldl_cons, List.foldl_nil, getElem?_overwrite, ih, latest, latest,
      List.reverse_append, List.reverse_singleton, List.singleton_append, List.find?_cons]
    by_cases hlt : i < r.length
    · simp [hlt]
    · simp [hlt]

/-- With a descriptor left a record that fits is written when `write` succeeds. -/
theorem printLog_succ : printLog ⟨some file, free + 1⟩ c.writes c.msg c.level =
    if c.fits then if c.writes then .written ⟨some (overwrite file 0 c.record), free⟩ else .exit 2
    else .undefined := by
  have hlevel : (levelList[c.level]?).isSome ↔ c.level < 3 := by
    rw [isSome_getElem?]
    rfl
  unfold printLog LogCall.fits LogCall.record
  cases hsuffix : levelList[c.level]? with
  | none =>
    rw [hsuffix] at hlevel
    have hnot : ¬ c.level < 3 := fun hlt => by simpa using hlevel.mpr hlt
    simp [hnot]
  | some suffix =>
    rw [hsuffix] at hlevel
    have hlt : c.level < 3 := hlevel.mp rfl
    simp [hlt]

/-- Without a descriptor the server exits. -/
theorem printLog_zero : printLog ⟨some file, 0⟩ c.writes c.msg c.level = .exit 1 := rfl

/-- What one call needs, and what it does to the log: it keeps its descriptor. -/
theorem printLog_eq_written {log : Log} :
    printLog ⟨some file, free⟩ c.writes c.msg c.level = .written log ↔
      (c.fits = true ∧ c.writes = true) ∧ log.free + 1 = free ∧
        log.file = some (overwrite file 0 c.record) := by
  obtain ⟨file', free'⟩ := log
  cases free with
  | zero => simp [printLog_zero]
  | succ free =>
    rw [printLog_succ]
    cases c.fits with
    | false => simp
    | true =>
      cases c.writes with
      | false => simp
      | true =>
        simp only [if_true, Logged.written.injEq, Log.mk.injEq, and_self, true_and,
          Nat.add_right_cancel_iff]
        constructor
        · rintro ⟨rfl, rfl⟩
          exact ⟨rfl, rfl⟩
        · rintro ⟨rfl, rfl⟩
          exact ⟨rfl, rfl⟩

/-- What a list of calls needs, and what it does to the log. -/
theorem printLogs_eq_written : printLogs ⟨some file, free⟩ calls = .written ⟨some content, left⟩ ↔
    (∀ c ∈ calls, c.fits = true ∧ c.writes = true) ∧ calls.length + left = free ∧
      content = (calls.map LogCall.record).foldl (overwrite · 0 ·) file := by
  induction calls generalizing file free with
  | nil =>
    simp only [printLogs, Logged.written.injEq, Log.mk.injEq, Option.some.injEq, List.length_nil,
      Nat.zero_add, List.map_nil, List.foldl_nil]
    constructor
    · rintro ⟨rfl, rfl⟩
      exact ⟨List.forall_mem_nil _, rfl, rfl⟩
    · rintro ⟨-, rfl, rfl⟩
      exact ⟨rfl, rfl⟩
  | cons c calls ih =>
    rw [List.forall_mem_cons, List.map_cons, List.foldl_cons, List.length_cons, printLogs]
    have hstuck (hlog : ∀ log, printLog ⟨some file, free⟩ c.writes c.msg c.level ≠ .written log) :
        ¬ (((c.fits = true ∧ c.writes = true) ∧
            ∀ c ∈ calls, c.fits = true ∧ c.writes = true) ∧ calls.length + 1 + left = free ∧
          content = (calls.map LogCall.record).foldl (overwrite · 0 ·)
            (overwrite file 0 c.record)) := by
      rintro ⟨⟨hc, -⟩, hfree, -⟩
      have hleft : calls.length + left + 1 = free := by omega
      exact hlog ⟨_, calls.length + left⟩ (printLog_eq_written.mpr ⟨hc, hleft, rfl⟩)
    cases hlog : printLog ⟨some file, free⟩ c.writes c.msg c.level with
    | written log =>
      obtain ⟨hc, hfree, hfile⟩ := printLog_eq_written.mp hlog
      obtain ⟨_, free'⟩ := log
      obtain rfl := hfile
      have hcount : calls.length + left = free' ↔ calls.length + 1 + left = free := by
        dsimp only at hfree
        omega
      simp only [ih, hc, and_self, true_and, hcount]
    | exit code =>
      refine iff_of_false nofun (hstuck fun log h => ?_)
      rw [hlog] at h
      cases h
    | undefined =>
      refine iff_of_false nofun (hstuck fun log h => ?_)
      rw [hlog] at h
      cases h

/-- All calls of `PrintLog` succeed exactly when every record fits and is written, and there is a
descriptor for each of them. Then the log has at each index the byte of the latest record that
reaches it, and no more. -/
theorem printLogs_written_iff :
    printLogs ⟨some file, free⟩ calls = .written ⟨some content, left⟩ ↔
      (∀ c ∈ calls, c.fits = true ∧ c.writes = true) ∧ calls.length + left = free ∧
        ∀ i, content[i]? = (latest file (calls.map LogCall.record) i)[i]? := by
  rw [printLogs_eq_written, List.ext_getElem?_iff]
  simp only [getElem?_foldl_overwrite]

/-! ### The start -/

/-- What the system answers to `StartUp`, and the log that it finds. -/
structure Startup where
  socket : Bool
  bind : Bool
  listen : Bool
  log : Log
  writes : Bool
  deriving DecidableEq, Repr

/-- How `StartUp` ends. -/
inductive Started where
  /-- It returns the listening socket. -/
  | listening (log : Log)
  | exit (code : Int)
  deriving DecidableEq, Repr

/-- The log that is written when the server listens. -/
def listenRecord : Bytes := ascii "Sock listend Success,NORMAL\n"

/-- `PrintLog` in `StartUp`, and then the result. -/
def reportStart (sys : Startup) (msg : Bytes) (level : Nat) (result : Log → Started) :
    Prog World Started :=
  match printLog sys.log sys.writes msg level with
  | .written log => pure (result log)
  | .exit code => pure (.exit code)
  | .undefined => undefinedBehaviour

/-- `StartUp(ip, port)`. -/
def startUp (env : Env) (sys : Startup) : Prog World Started := do
  if !sys.socket then
    reportStart sys (ascii "create sock error") 1 fun _ => .exit 1
  else if !sys.bind then
    let _ ← echoCode env
    return .exit 2
  else if !sys.listen then
    let _ ← echoCode env
    return .exit 3
  else
    reportStart sys (ascii "Sock listend Success") 0 .listening

/-- A socket without a client: `recv` fails. -/
def unconnected : World := connected [] (.gone .failed)

variable {env : Env} {sys : Startup} {w : World} {r : Started}

/-- No empty line is found on a socket without a client. -/
theorem not_reads_unconnected : ¬ ∃ cs w', Reads (unconnected.log [.stat page404]) cs w' := by
  rintro ⟨cs, w', hcs⟩
  have hread := (exists_reads_iff_of_gone (w := unconnected.log [.stat page404]) rfl).mp
    ⟨w', cs, hcs⟩
  have hnone : emptyLooking [] = 0 := by
    rw [emptyLooking, LineStream.lines_of_none LineStream.takeLine_nil, List.countP_nil]
  exact absurd hnone (Nat.ne_of_gt hread)

/-- So `echo_code` does not return there: it reads for ever. -/
theorem neverStops_echoCode :
    ¬ (echoCode env).Halts unconnected ∧ (echoCode env).NeverStops unconnected := by
  have hstat : (stat env page404).Returns unconnected (env.stat page404)
      (unconnected.log [.stat page404]) := returns_stat.mpr ⟨rfl, rfl⟩
  constructor
  · rintro ⟨n, w, hn⟩
    obtain ⟨_, _, hst, hrest⟩ := returns_bind.mp hn
    obtain ⟨-, rfl⟩ := hst.unique hstat
    obtain ⟨_, w₁, hclean, -⟩ := returns_bind.mp hrest
    obtain ⟨cs, hcs⟩ := returns_cleanHander.mp hclean
    exact not_reads_unconnected ⟨cs, w₁, hcs⟩
  · exact hstat.bind_neverStops (neverStops_cleanHander not_reads_unconnected).bind

/-- What `PrintLog` comes to in `StartUp`. -/
def reported (sys : Startup) (msg : Bytes) (level : Nat) (result : Log → Started) : Started :=
  match sys.log with
  | ⟨none, _⟩ | ⟨_, 0⟩ => .exit 1
  | ⟨some file, free + 1⟩ =>
    if sys.writes then result ⟨some (overwrite file 0 (LogCall.record ⟨true, msg, level⟩)), free⟩
    else .exit 2

/-- How `StartUp` ends when it has no socket, or one that it can bind and listen on. -/
def startResult (sys : Startup) : Started :=
  if sys.socket then reported sys (ascii "Sock listend Success") 0 .listening
  else reported sys (ascii "create sock error") 1 fun _ => .exit 1

/-- Both records of `StartUp` fit into the array. -/
theorem reportStart_eq {msg : Bytes} {level : Nat} {result : Log → Started}
    (h : LogCall.fits ⟨true, msg, level⟩ = true) :
    reportStart sys msg level result = pure (reported sys msg level result) := by
  unfold reportStart reported
  obtain ⟨file, free⟩ := sys.log
  cases file with
  | none => rfl
  | some file =>
    cases free with
    | zero => rfl
    | succ free =>
      have hlog := @printLog_succ file free ⟨sys.writes, msg, level⟩
      have hfits : LogCall.fits ⟨sys.writes, msg, level⟩ = true := h
      rw [hfits, if_pos rfl] at hlog
      dsimp only at hlog ⊢
      rw [hlog]
      cases sys.writes <;> rfl

/-- When the socket is made and ready the result is returned at once. -/
theorem startUp_of_ready (h : sys.socket = true → sys.bind = true ∧ sys.listen = true) :
    startUp env sys = pure (startResult sys) := by
  unfold startUp startResult
  cases hsocket : sys.socket with
  | false => exact reportStart_eq rfl
  | true =>
    rw [(h hsocket).1, (h hsocket).2]
    exact reportStart_eq rfl

/-- Without `bind` or `listen` the server reads from its socket for ever. -/
theorem neverStops_startUp (hsocket : sys.socket = true)
    (h : ¬ (sys.bind = true ∧ sys.listen = true)) :
    ¬ (startUp env sys).Halts unconnected ∧ (startUp env sys).NeverStops unconnected := by
  have hecho (code : Int) :
      ¬ (echoCode env >>= fun _ => (pure (.exit code) : Prog World Started)).Halts unconnected ∧
        (echoCode env >>= fun _ =>
          (pure (.exit code) : Prog World Started)).NeverStops unconnected := by
    obtain ⟨hnot, hnever⟩ := @neverStops_echoCode env
    refine ⟨?_, hnever.bind⟩
    rintro ⟨r, w, hr⟩
    obtain ⟨n, w', hn, -⟩ := returns_bind.mp hr
    exact hnot ⟨n, w', hn⟩
  unfold startUp
  rw [hsocket]
  cases hbind : sys.bind with
  | false => exact hecho 2
  | true =>
    have hlisten : sys.listen = false := by
      rw [Bool.eq_false_iff]
      exact fun hlisten => h ⟨hbind, hlisten⟩
    rw [hlisten]
    exact hecho 3

/-- `StartUp` ends exactly when there is no socket, or it can be bound and listens; then it does
not exit with 2 or 3 for `bind` or `listen`. Otherwise it runs for ever. -/
theorem startUp_ends (env : Env) (sys : Startup) :
    ((startUp env sys).Halts unconnected ↔
      (sys.socket = true → sys.bind = true ∧ sys.listen = true)) ∧
    (¬ (startUp env sys).Halts unconnected → (startUp env sys).NeverStops unconnected) ∧
    ∀ r w, (startUp env sys).Returns unconnected r w → r = startResult sys ∧ w = unconnected := by
  by_cases h : sys.socket = true → sys.bind = true ∧ sys.listen = true
  · rw [startUp_of_ready h]
    have hhalts : (pure (startResult sys) : Prog World Started).Halts unconnected :=
      ⟨_, _, returns_pure.mpr ⟨rfl, rfl⟩⟩
    exact ⟨iff_of_true hhalts h, fun hnot => absurd hhalts hnot, fun r w hr => returns_pure.mp hr⟩
  · obtain ⟨hsocket, hready⟩ := Classical.not_imp.mp h
    obtain ⟨hnot, hnever⟩ := @neverStops_startUp env sys hsocket hready
    exact ⟨iff_of_false hnot h, fun _ => hnever, fun r w hr => absurd ⟨r, w, hr⟩ hnot⟩

end NetworkCode.Httpd
