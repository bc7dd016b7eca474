import NetworkCode.Chat.Relay

/-!
# Composing a message

A message is written to `tmpbuf` behind `User<fd>:`, and no NUL behind it. What follows is
what an earlier message left there, and a message of more than 1018 bytes before its line
end does not fit. So the string that is queued is the right one exactly when the byte behind
the message was a NUL before.
-/

namespace NetworkCode.Chat

open StepResult Text

variable {s t : State} {a : Action} {i : Int} {fd connfd listenSock : Fd} {data b b' txt : Bytes}

/-- Each time the loop over the slots has queued the message for a client, `write_buf` of the
client is a string in `tmpbuf`: `User<fd>:` with the bytes before the line end behind it. -/
def State.Composes (s : State) (i : Int) (data : Bytes) : Prop :=
  ∀ n < s.userCount.toNat, (s.fds (n + 1)).fd ≠ (s.fds i).fd →
    ∃ t, (s.keep i data).queueAll (s.fds i).fd data (n + 1) = next t ∧
      (t.users (s.fds (n + 1)).fd).writeBuf = .tmpbuf ∧ 0 ∈ t.tmpbuf ∧
        cstr t.tmpbuf = userPrefix (s.fds (n + 1)).fd ++ data.dropLast

/-! ## What is left in the buffer -/

/-- A string ends in the first NUL. -/
theorem getElem?_length_text (h : 0 ∈ b) : b[(cstr b).length]? = some 0 := by
  induction b with
  | nil => cases h
  | cons x xs ih =>
    by_cases hx : x = 0
    · subst hx
      rfl
    · have htext : cstr (x :: xs) = x :: cstr xs := List.takeWhile_cons_of_pos (by simpa using hx)
      rw [htext, List.length_cons, List.getElem?_cons_succ]
      exact ih ((List.mem_cons.mp h).resolve_left (Ne.symm hx))

/-! ## When the string is the right one -/

/-- The byte behind the message is the NUL, and neither the message nor the digit is one. -/
theorem State.Composes.fits (h : s.Composes i data) (hline : data.getLast? = some 10)
    (hfd : fd ∈ s.recipients (s.fds i).fd s.userCount.toNat) :
    Fits s.tmpbuf data ∧ digit fd ≠ 0 := by
  obtain ⟨j, hj, hle, rfl, hne⟩ := mem_recipients.mp hfd
  obtain ⟨n, rfl⟩ : ∃ n : Nat, j = n + 1 := ⟨(j - 1).toNat, by omega⟩
  obtain ⟨t, ht, -, hnul, htext⟩ := h n (by omega) hne
  have hbuf := (queued_of_queueAll ht).tmpbuf
  rw [recipients_keep, message_keep] at hbuf
  have hzero : 0 ∉ cstr t.tmpbuf := Text.notMem_cstr t.tmpbuf
  rw [htext, List.mem_append, not_or] at hzero
  obtain ⟨line, rfl⟩ := List.getLast?_eq_some_iff.mp hline
  rw [List.dropLast_concat] at hbuf htext hzero
  refine ⟨⟨hline, ?_, ?_⟩, fun hdigit => hzero.1 (by simp [userPrefix, hdigit])⟩
  · simpa using hzero.2
  · rw [List.length_append, List.length_singleton]
    by_cases hempty : line = []
    · exact .inl (by rw [hempty]; rfl)
    · have hend := getElem?_length_text hnul
      rw [htext, List.length_append, length_userPrefix,
        (foldlM_compose_frame hbuf).2 hempty] at hend
      refine .inr (Eq.trans ?_ hend)
      congr 1
      omega

/-- A text that fits for each recipient is composed as it should be. -/
theorem State.Composes.of_fits (htable : Tabled s) (hlen : s.tmpbuf.length = bufSize)
    (h : ∀ fd ∈ s.recipients (s.fds i).fd s.userCount.toNat,
      Fits s.tmpbuf data ∧ digit fd ≠ 0) : s.Composes i data := by
  intro n hn hne
  have hlast : s.recipients (s.fds i).fd (n + 1) =
      s.recipients (s.fds i).fd n ++ [(s.fds (n + 1)).fd] := by
    rw [State.recipients, if_neg hne]
  have hmem : (s.fds (n + 1)).fd ∈ s.recipients (s.fds i).fd (n + 1) := by
    rw [hlast]
    exact List.mem_append_right _ List.mem_cons_self
  obtain ⟨hfits, hdigit⟩ := h (s.fds (n + 1)).fd
    (mem_recipients.mpr ⟨n + 1, by omega, by omega, rfl, hne⟩)
  have hends : Ends s.tmpbuf data.dropLast := hfits.ends hlen
  obtain ⟨t, ht, -⟩ := exists_queueAll (fun b => Ends b data.dropLast) (s.fds i).fd data
    (n := n + 1) (s := s.keep i data)
    (fun j hj hle => htable.hasUser hj (by omega)) hends fun b fd hb _ => by
      rw [message_keep]
      exact hb.compose fd
  have hq := queued_of_queueAll ht
  have hbuf := hq.tmpbuf
  rw [recipients_keep, message_keep] at hbuf
  have hzero : 0 ∉ data.dropLast := fun hin => hfits.text (List.dropLast_subset _ hin)
  obtain ⟨htext, hnul, -⟩ := hends.written hzero (by rw [hlast, List.getLast?_concat]) hdigit hbuf
  refine ⟨t, ht, ?_, hnul, htext⟩
  rw [hq.users, if_pos (by rw [recipients_keep]; exact hmem)]

/-- In every state of every run the strings that are queued for a message of one line are the
right ones exactly when it has no recipient, or no NUL is in it and the byte behind its place in
`tmpbuf` is a NUL already or it is only a line end, and no recipient has a NUL as its digit. -/
theorem composes_iff_fits {ok : State → Action → Prop} {entries : Int} {tmpbuf : Bytes}
    {s : State} {i : Int} {data : Bytes} (hbuf : tmpbuf.length = bufSize)
    (h : Reaches Chat.step ok (start listenSock entries tmpbuf) s) (hat : s.At i .read)
    (hline : data.getLast? = some 10) :
    s.Composes i data ↔ ∀ fd ∈ s.others, Fits s.tmpbuf data ∧ digit fd ≠ 0 := by
  have hlen : s.tmpbuf.length = bufSize := (length_tmpbuf_of_reaches h).trans hbuf
  rw [others_eq hat]
  exact ⟨fun hcomposes fd hfd => hcomposes.fits hline hfd,
    State.Composes.of_fits (tabled_of_reaches h) hlen⟩

/-- The client 3 sends a message to the client 4, and then it is read from again. -/
def nextMessage (first : Bytes) (taken : Nat) : List Action :=
  [.poll [pollIn], .accept (some 3), .skip, .endRound,
    .poll [pollIn, 0], .accept (some 4), .skip, .skip, .endRound,
    .poll [0, pollIn, 0], .skip, .read (some first), .skip, .endRound,
    .poll [0, 0, pollOut], .skip, .skip, .write taken, .endRound,
    .poll [0, pollIn, 0], .skip]

/-- Where the server is, its clients, and the buffer behind a message of two bytes. -/
def State.beforeRead (s : State) : Loop × Int × Branch × List Fd × Option UInt8 :=
  (s.loop, s.userCount, s.branch (s.fds 1), s.others, s.tmpbuf[8]?)

theorem nextMessage_longer :
    (runGuarded step (fun _ _ => True) (start 0 userLimit (List.replicate bufSize 0))
      (nextMessage [104, 10] 7)).state?.map State.beforeRead =
    some (.handling 1, 2, .read, [4], some 0) := by decide +kernel

/-- A message longer than the one before is composed as it should be. -/
theorem composes_longer_message : ∃ s,
    Reaches step (fun _ _ => True) (start 0 userLimit (List.replicate bufSize 0)) s ∧
      s.others = [4] ∧ s.Composes 1 [104, 105, 10] := by
  obtain ⟨s, hrun, hsaw⟩ := exists_next_of_map nextMessage_longer
  simp only [State.beforeRead, Prod.mk.injEq] at hsaw
  obtain ⟨hloop, hcount, hbranch, hothers, hnul⟩ := hsaw
  have hreach := Reaches.of_runGuarded _ _ hrun
  refine ⟨s, hreach, hothers,
    (composes_iff_fits List.length_replicate hreach ⟨hloop, by omega, hbranch⟩ rfl).mpr ?_⟩
  intro fd hfd
  rw [hothers, List.mem_singleton] at hfd
  subst hfd
  exact ⟨⟨rfl, by decide, .inr hnul⟩, by decide⟩

theorem nextMessage_shorter :
    (runGuarded step (fun _ _ => True) (start 0 userLimit (List.replicate bufSize 0))
      (nextMessage [104, 101, 108, 108, 111, 10] 11)).state?.map State.beforeRead =
    some (.handling 1, 2, .read, [4], some 108) := by decide +kernel

/-- The end of the longer message before it stands behind a shorter one. -/
theorem nextMessage_shorter_text :
    ((runGuarded step (fun _ _ => True) (start 0 userLimit (List.replicate bufSize 0))
      (nextMessage [104, 101, 108, 108, 111, 10] 11)).bind fun s =>
        (s.keep 1 [104, 105, 10]).queueAll 3 [104, 105, 10] 2).state?.map (fun t => cstr t.tmpbuf) =
    some (userPrefix 4 ++ [104, 105, 108, 108, 111]) := by decide +kernel

/-- Behind `hello` the message `hi` is queued as `hillo`. -/
theorem shorter_message_keeps_tail : ∃ s,
    Reaches step (fun _ _ => True) (start 0 userLimit (List.replicate bufSize 0)) s ∧
      s.At 1 .read ∧ (∃ t, (s.keep 1 [104, 105, 10]).queueAll 3 [104, 105, 10] 2 = next t ∧
        cstr t.tmpbuf = userPrefix 4 ++ [104, 105, 108, 108, 111]) ∧
      ¬ s.Composes 1 [104, 105, 10] := by
  obtain ⟨s, hrun, hsaw⟩ := exists_next_of_map nextMessage_shorter
  simp only [State.beforeRead, Prod.mk.injEq] at hsaw
  obtain ⟨hloop, hcount, hbranch, hothers, hbehind⟩ := hsaw
  have htext := nextMessage_shorter_text
  rw [hrun, bind_next] at htext
  have hat : s.At 1 .read := ⟨hloop, by omega, hbranch⟩
  refine ⟨s, Reaches.of_runGuarded _ _ hrun, hat, exists_next_of_map htext, fun hcomposes => ?_⟩
  have hmem : 4 ∈ s.recipients (s.fds 1).fd s.userCount.toNat := by
    rw [← others_eq hat, hothers]
    exact List.mem_cons_self
  have hnul := (hcomposes.fits rfl hmem).1.nul
  rw [List.length_cons, List.length_cons, List.length_singleton] at hnul
  have hzero := hbehind.symm.trans (hnul.resolve_left (by decide))
  revert hzero
  decide

end NetworkCode.Chat
