import NetworkCode.LinuxChat.Threads

/-!
# The buffer of `RecvData`

`recvData` says what `RecvData` comes to; here it is followed through the bytes of `buf`.
`recvfrom` may fill the whole buffer, and the NUL is stored behind what it filled. An assignment
behind the end of the buffer has no meaning.
-/

namespace NetworkCode.LinuxChat

open Text StepResult

/-! ## The source -/

/-- `buf`. -/
structure Buffer where
  bytes : Bytes
  size : bytes.length = recvSize

/-- `buf[i] = b`. -/
def Buffer.assign (buf : Buffer) (i : Nat) (b : UInt8) : Option Buffer :=
  if i < buf.bytes.length then some ⟨buf.bytes.set i b, List.length_set.trans buf.size⟩ else none

/-- These bytes are stored from index `i` on. -/
def Buffer.assignAll (buf : Buffer) (i : Nat) : Bytes → Option Buffer
  | [] => some buf
  | b :: bs => (buf.assign i b).bind fun buf => buf.assignAll (i + 1) bs

/-- `recvfrom`: the part of the datagram for which there is room is stored, and the return value
is its length. -/
def Buffer.recvfrom (buf : Buffer) (len : Nat) (datagram : Bytes) : Option (Buffer × Nat) :=
  (buf.assignAll 0 (datagram.take len)).map fun buf => (buf, (datagram.take len).length)

/-- What a call of `RecvData` hands over. -/
inductive Delivery where
  /-- It returns false. -/
  | failed
  /-- An exception of jsoncpp leaves it. -/
  | raised
  /-- The argument of `PutData`, what `productRun` gets, and the users behind it. -/
  | delivered (inmsg outmsg : Bytes) (users : UserList)

variable (parse : Bytes → Json) (users : UserList) (remote : Endpoint)

/-- `RecvData` on a datagram, with what was in `buf` before. -/
def recvDataInto (buf : Buffer) (datagram : Bytes) : Option Delivery :=
  (buf.assign 0 0).bind fun buf =>
    (buf.recvfrom recvSize datagram).bind fun (buf, s) =>
      if s = 0 then some .failed
      else
        (buf.assign s 0).map fun buf =>
          match (parse (cstr buf.bytes)).field (ascii "cmd") with
          | none => .raised
          | some cmd =>
            .delivered (cstr (cstr buf.bytes)) (cstr buf.bytes) (register users remote cmd)

/-! ## What it is for -/

/-- Every byte is stored inside of `buf`. A datagram whose `cmd` can be converted is handed to the
pool and to `productRun`, each time as the part before the first NUL of what fits in front of the
terminating one, and no other string is. -/
structure Terminated (buf : Buffer) (datagram : Bytes) : Prop where
  inside : recvDataInto parse users remote buf datagram ≠ none
  delivered : datagram ≠ [] →
    ∀ cmd, (parse (cstr (datagram.take (recvSize - 1)))).field (ascii "cmd") = some cmd →
      recvDataInto parse users remote buf datagram =
        some (.delivered (cstr (datagram.take (recvSize - 1))) (cstr (datagram.take (recvSize - 1)))
          (register users remote cmd))
  handed : ∀ inmsg outmsg users',
    recvDataInto parse users remote buf datagram = some (.delivered inmsg outmsg users') →
      inmsg = cstr (datagram.take (recvSize - 1)) ∧ outmsg = cstr (datagram.take (recvSize - 1))

/-! ## The bytes -/

variable {parse users remote} {buf buf' : Buffer} {bs datagram : Bytes} {i : Nat} {b : UInt8}

/-- An assignment inside of the buffer replaces one byte. -/
theorem assign_of_lt (buf : Buffer) (b : UInt8) (h : i < recvSize) :
    ∃ buf', buf.assign i b = some buf' ∧ buf'.bytes = buf.bytes.set i b := by
  rw [← buf.size] at h
  exact ⟨_, if_pos h, rfl⟩

/-- There is no assignment outside of the buffer. -/
theorem assign_of_le (h : recvSize ≤ i) : buf.assign i b = none := by
  rw [← buf.size] at h
  exact if_neg (Nat.not_lt.mpr h)

/-- Bytes for which there is room replace those that were there. -/
theorem assignAll_of_le (buf : Buffer) (h : i + bs.length ≤ recvSize) :
    ∃ buf', buf.assignAll i bs = some buf' ∧
      buf'.bytes = buf.bytes.take i ++ bs ++ buf.bytes.drop (i + bs.length) := by
  induction bs generalizing i buf with
  | nil =>
    refine ⟨buf, rfl, ?_⟩
    rw [List.append_nil, List.length_nil, Nat.add_zero, List.take_append_drop]
  | cons b bs ih =>
    rw [List.length_cons] at h ⊢
    obtain ⟨buf₁, hassign, hset⟩ := assign_of_lt buf b (show i < recvSize by omega)
    obtain ⟨buf', hall, hbytes⟩ := ih buf₁ (show i + 1 + bs.length ≤ recvSize by omega)
    have hi : i < buf.bytes.length := by
      rw [buf.size]
      omega
    have htake : (buf.bytes.set i b).take (i + 1) = buf.bytes.take i ++ [b] := by
      rw [List.take_add_one, List.take_set_of_le (Nat.le_refl i), List.getElem?_set_self hi]
      rfl
    have hdrop : (buf.bytes.set i b).drop (i + 1 + bs.length) =
        buf.bytes.drop (i + (bs.length + 1)) := by
      rw [List.drop_set_of_lt (by omega), Nat.add_assoc, Nat.add_comm 1]
    refine ⟨buf', ?_, ?_⟩
    · rw [Buffer.assignAll, hassign, Option.bind_some, hall]
    · rw [hbytes, hset, htake, hdrop, List.append_assoc (buf.bytes.take i), List.singleton_append]

/-- Where there is room for it, the NUL is stored behind the bytes that were received. -/
theorem recvfrom_of_lt (buf : Buffer) (h : datagram.length < recvSize) :
    ∃ buf₁ buf₂, buf.recvfrom recvSize datagram = some (buf₁, datagram.length) ∧
      buf₁.assign datagram.length 0 = some buf₂ ∧ cstr buf₂.bytes = cstr datagram := by
  obtain ⟨buf₁, hall, hbytes⟩ :=
    assignAll_of_le buf (show 0 + datagram.length ≤ recvSize by omega)
  obtain ⟨buf₂, hassign, hset⟩ := assign_of_lt buf₁ 0 h
  refine ⟨buf₁, buf₂, ?_, hassign, ?_⟩
  · rw [Buffer.recvfrom, List.take_of_length_le h.le, hall, Option.map_some]
  · have hrest : 0 < (buf.bytes.drop datagram.length).length := by
      rw [List.length_drop, buf.size]
      omega
    obtain ⟨c, rest, hcons⟩ := List.exists_cons_of_length_pos hrest
    rw [hset, hbytes, List.take_zero, List.nil_append, Nat.zero_add, hcons,
      List.set_append_right _ _ (Nat.le_refl _), Nat.sub_self, List.set_cons_zero,
      cstr_append_zero]

/-- A datagram that fills the buffer leaves no room for the NUL. -/
theorem recvfrom_of_le (buf : Buffer) (h : recvSize ≤ datagram.length) :
    ∃ buf', buf.recvfrom recvSize datagram = some (buf', recvSize) ∧
      buf'.assign recvSize 0 = none := by
  have hfull : (datagram.take recvSize).length = recvSize := List.length_take_of_le h
  obtain ⟨buf', hall, -⟩ :=
    assignAll_of_le buf (show 0 + (datagram.take recvSize).length ≤ recvSize by omega)
  refine ⟨buf', ?_, assign_of_le (Nat.le_refl _)⟩
  rw [Buffer.recvfrom, hall, hfull, Option.map_some]

/-! ## What `RecvData` comes to -/

/-- What `recvData` says of the call, in terms of what is handed over. -/
def Receipt.delivery : Receipt → Option Delivery
  | .failed => some .failed
  | .overflow => none
  | .raised => some .raised
  | .received outmsg users => some (.delivered outmsg outmsg users)

/-- Over the bytes of any buffer `RecvData` does what `recvData` says. -/
theorem recvDataInto_eq (parse : Bytes → Json) (users : UserList) (remote : Endpoint)
    (buf : Buffer) (datagram : Bytes) : recvDataInto parse users remote buf datagram =
      (recvData parse users remote datagram).delivery := by
  obtain ⟨buf₀, hzero, -⟩ := assign_of_lt buf 0 (show 0 < recvSize by decide)
  rw [recvDataInto, hzero, Option.bind_some]
  by_cases hlen : datagram.length < recvSize
  · obtain ⟨buf₁, buf₂, hrecv, hassign, hcstr⟩ := recvfrom_of_lt buf₀ hlen
    rw [hrecv, Option.bind_some]
    by_cases hnil : datagram = []
    · subst hnil
      rfl
    · have hpos : datagram.length ≠ 0 := fun h => hnil (List.length_eq_zero_iff.mp h)
      dsimp only
      rw [recvData_of_lt hnil hlen, if_neg hpos, hassign, Option.map_some, hcstr,
        cstr_of_notMem (notMem_cstr datagram)]
      cases (parse (cstr datagram)).field (ascii "cmd") <;> rfl
  · have hle : recvSize ≤ datagram.length := Nat.not_lt.mp hlen
    obtain ⟨buf', hrecv, hassign⟩ := recvfrom_of_le buf₀ hle
    have hpos : recvSize ≠ 0 := by decide
    rw [recvData_of_recvSize_le hle, hrecv, Option.bind_some]
    dsimp only
    rw [if_neg hpos, hassign]
    rfl

/-- The step of the producer is `RecvData` over the bytes of its buffer. -/
theorem recv_eq (s : Server) (buf : Buffer) : s.recv parse remote datagram =
    match recvDataInto parse s.users remote buf datagram with
    | none => undefined
    | some .failed => next { s with producer := .handling }
    | some .raised => next { s with aborted := true }
    | some (.delivered inmsg outmsg users) =>
      (s.pool.putData inmsg).bind fun pool =>
        next { s with pool, users, msg := outmsg, producer := .putting } := by
  rw [recvDataInto_eq, Server.recv]
  cases recvData parse s.users remote datagram <;> rfl

/-- `RecvData` stays inside of its buffer exactly when the datagram leaves a byte of it free, and
then hands over the whole string. -/
theorem terminated_iff (parse : Bytes → Json) (users : UserList) (remote : Endpoint)
    (buf : Buffer) (datagram : Bytes) :
    Terminated parse users remote buf datagram ↔ datagram.length ≤ 1023 := by
  constructor
  · intro h
    by_contra hlen
    apply h.inside
    rw [recvDataInto_eq, recvData_of_recvSize_le (Nat.not_le.mp hlen)]
    rfl
  · intro hlen
    have hlt : datagram.length < recvSize := Nat.lt_succ_of_le hlen
    have htake : datagram.take (recvSize - 1) = datagram := List.take_of_length_le hlen
    have hreceipt := recvDataInto_eq parse users remote buf datagram
    by_cases hnil : datagram = []
    · subst hnil
      refine ⟨?_, fun hne => absurd rfl hne, fun inmsg outmsg users' h => ?_⟩
      · rw [hreceipt]
        exact Option.some_ne_none _
      · rw [hreceipt] at h
        cases h
    · rw [recvData_of_lt hnil hlt] at hreceipt
      refine ⟨?_, fun _ cmd hcmd => ?_, fun inmsg outmsg users' h => ?_⟩
      · rw [hreceipt]
        cases (parse (cstr datagram)).field (ascii "cmd") <;> exact Option.some_ne_none _
      · rw [htake] at hcmd ⊢
        rw [hreceipt, hcmd]
        rfl
      · rw [hreceipt] at h
        rw [htake]
        cases hcmd : (parse (cstr datagram)).field (ascii "cmd") with
        | none =>
          rw [hcmd] at h
          cases h
        | some cmd =>
          rw [hcmd] at h
          cases h
          exact ⟨rfl, rfl⟩

/-- A buffer of zeros. -/
def Buffer.zeros : Buffer := ⟨List.replicate recvSize 0, List.length_replicate⟩

/-- For a datagram of 1024 bytes the NUL is stored behind the buffer. -/
theorem longest_not_terminated :
    recvDataInto (fun _ => .null) .empty ⟨0, 0⟩ .zeros (List.replicate 1024 (97 : UInt8)) = none ∧
      ¬ ∀ (parse : Bytes → Json) (users : UserList) (remote : Endpoint) (buf : Buffer)
        (datagram : Bytes), 1 ≤ datagram.length → Terminated parse users remote buf datagram := by
  have hfull : recvSize ≤ (List.replicate 1024 (97 : UInt8)).length := List.length_replicate.ge
  have hnone : recvDataInto (fun _ => .null) .empty ⟨0, 0⟩ .zeros
      (List.replicate 1024 (97 : UInt8)) = none := by
    rw [recvDataInto_eq, recvData_of_recvSize_le hfull]
    rfl
  refine ⟨hnone, fun h => ?_⟩
  exact (h _ _ _ _ _ (by rw [List.length_replicate]; decide)).inside hnone

end NetworkCode.LinuxChat
