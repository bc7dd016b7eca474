import NetworkCode.Chat.Table

/-!
# When a step is defined

Nothing in `main` checks that a message fits behind `User<fd>:` in `tmpbuf`, that `read` returned
a byte, or that a string ends in `tmpbuf`. A step that can happen is defined exactly when these
hold and an accepted descriptor has an entry in `users`. All other steps stay inside the arrays
in every reached state, and no `write_buf` is used that was never set.
-/

namespace NetworkCode.Chat

open StepResult Text

variable {s t u : State} {a : Action} {i j : Int} {fd connfd listenSock : Fd}
  {data b b' txt : Bytes} {n : Nat}

/-! ## Writing a message to the buffer -/

/-- What is stored inside the array replaces the bytes that were there. -/
theorem store_eq {buf bs : Bytes} {i : Nat} (h : i + bs.length ≤ buf.length) :
    store buf i bs = some (buf.take i ++ bs ++ buf.drop (i + bs.length)) := by
  induction bs generalizing buf i with
  | nil => simp [store]
  | cons x xs ih =>
    rw [List.length_cons] at h
    rw [store, if_pos (by omega), ih (by rw [List.length_set]; omega)]
    have htake : (buf.set i x).take (i + 1) = buf.take i ++ [x] := by
      rw [List.take_succ_eq_append_getElem (by rw [List.length_set]; omega),
        List.take_set_of_le (Nat.le_refl i), List.getElem_set_self]
    have hdrop : (buf.set i x).drop (i + 1 + xs.length) = buf.drop (i + (xs.length + 1)) := by
      rw [List.drop_set_of_lt (by omega)]
      congr 1
      omega
    rw [htake, hdrop, List.length_cons]
    simp

/-- What can be stored lies inside the array. -/
theorem le_of_store {bs : Bytes} {i : Nat} (h : store b i bs = some b') (hne : bs ≠ []) :
    i + bs.length ≤ b.length := by
  induction bs generalizing b i with
  | nil => exact absurd rfl hne
  | cons x xs ih =>
    rw [store] at h
    split at h
    · rename_i hlt
      by_cases hxs : xs = []
      · rw [hxs]
        exact hlt
      · have hle := ih h hxs
        rw [List.length_set] at hle
        rw [List.length_cons]
        omega
    · cases h

/-- Storing changes only the bytes that are stored to. -/
theorem store_frame {bs : Bytes} {i : Nat} (h : store b i bs = some b') :
    b'.length = b.length ∧ ∀ k, i + bs.length ≤ k → b'[k]? = b[k]? := by
  induction bs generalizing b i with
  | nil =>
    cases h
    exact ⟨rfl, fun _ _ => rfl⟩
  | cons x xs ih =>
    rw [store] at h
    split at h
    · obtain ⟨hlen, hrest⟩ := ih h
      refine ⟨hlen.trans List.length_set, fun k hk => ?_⟩
      rw [List.length_cons] at hk
      rw [hrest k (by omega), List.getElem?_set_ne (by omega)]
    · cases h

/-- The prefix of a message has six bytes. -/
theorem length_userPrefix (fd : Fd) : (userPrefix fd).length = 6 := rfl

/-- A message is written inside the buffer exactly when it fits behind its prefix. -/
theorem exists_compose_iff (hlen : b.length = bufSize) (fd : Fd) :
    (∃ b', compose b fd txt = some b') ↔ 6 + txt.length ≤ bufSize := by
  have hhead : store b 0 (userPrefix fd ++ [0]) =
      some (b.take 0 ++ (userPrefix fd ++ [0]) ++ b.drop (0 + (userPrefix fd ++ [0]).length)) := by
    apply store_eq
    rw [hlen, List.length_append, length_userPrefix]
    decide
  have hsize := (store_frame hhead).1.trans hlen
  constructor
  · rintro ⟨b', hb'⟩
    rw [compose, hhead, Option.bind_some] at hb'
    by_cases htxt : txt = []
    · rw [htxt]
      decide
    · have hle := le_of_store hb' htxt
      rwa [hsize] at hle
  · intro hle
    rw [compose, hhead, Option.bind_some]
    exact ⟨_, store_eq (by rwa [hsize])⟩

/-- A message changes nothing behind it. -/
theorem compose_frame (h : compose b fd txt = some b') :
    b'.length = b.length ∧ (txt ≠ [] → b'[6 + txt.length]? = b[6 + txt.length]?) := by
  obtain ⟨b₁, hb₁, hb'⟩ := Option.bind_eq_some_iff.mp h
  obtain ⟨hlen₁, hrest₁⟩ := store_frame hb₁
  obtain ⟨hlen, hrest⟩ := store_frame hb'
  refine ⟨hlen.trans hlen₁, fun hne => ?_⟩
  have hpos := List.length_pos_of_ne_nil hne
  have hbehind : 0 + (userPrefix fd ++ [0]).length ≤ 6 + txt.length := by
    rw [List.length_append, length_userPrefix, List.length_singleton]
    omega
  rw [hrest _ (Nat.le_refl _), hrest₁ _ hbehind]

/-- Texts composed one after the other leave the size of the array, and the byte behind them. -/
theorem foldlM_compose_frame {fds : List Fd}
    (h : fds.foldlM (fun b fd => compose b fd txt) b = some b') :
    b'.length = b.length ∧ (txt ≠ [] → b'[6 + txt.length]? = b[6 + txt.length]?) := by
  induction fds generalizing b with
  | nil =>
    cases h
    exact ⟨rfl, fun _ => rfl⟩
  | cons fd fds ih =>
    rw [List.foldlM_cons] at h
    obtain ⟨b₁, hb₁, hb'⟩ := Option.bind_eq_some_iff.mp h
    obtain ⟨hlen₁, hrest₁⟩ := compose_frame hb₁
    obtain ⟨hlen, hrest⟩ := ih hb'
    exact ⟨hlen.trans hlen₁, fun hne => (hrest hne).trans (hrest₁ hne)⟩

/-- The buffer keeps its size. -/
theorem length_tmpbuf_of_reaches {ok : State → Action → Prop} {entries : Int} {tmpbuf : Bytes}
    (h : Reaches Chat.step ok (start listenSock entries tmpbuf) s) :
    s.tmpbuf.length = tmpbuf.length := by
  apply h.invariant
  · rfl
  · intro t a u ht _ hs
    cases Effect.of_step hs with
    | received _ _ _ _ hu =>
      exact (foldlM_compose_frame (queued_of_queueAll hu).tmpbuf).1.trans ht
    | _ => exact ht

/-! ## Queueing a message -/

/-- The array of the sender holds what was read. -/
theorem keep_users_self (s : State) (i : Int) (data : Bytes) :
    (s.keep i data).users (s.fds i).fd = { s.users (s.fds i).fd with buf := received data } :=
  Function.update_self _ _ _

/-- The message is what was read without its last byte. -/
theorem message_keep (s : State) (i : Int) (data : Bytes) :
    (s.keep i data).message (s.fds i).fd data = data.dropLast := by
  rw [State.message, keep_users_self, received, List.take_append_of_le_length (by simp),
    List.take_of_length_le (by simp)]

/-- Reading changes no slot. -/
theorem recipients_keep (s : State) (i : Int) (data : Bytes) (connfd : Fd) (n : Nat) :
    (s.keep i data).recipients connfd n = s.recipients connfd n := by
  induction n with
  | zero => rfl
  | succ n ih =>
    rw [State.recipients, State.recipients, ih]
    rfl

/-- Reading sets no `write_buf`. -/
theorem keep_writeBuf (s : State) (i : Int) (data : Bytes) (fd : Fd) :
    ((s.keep i data).users fd).writeBuf = (s.users fd).writeBuf := by
  by_cases he : fd = (s.fds i).fd
  · rw [he, keep_users_self]
  · exact congrArg ClientData.writeBuf (Function.update_of_ne he _ _)

/-- The clients to which a message of the client at the loop index is to be sent. -/
def State.others (s : State) : List Fd :=
  match s.loop with
  | .handling i => s.recipients (s.fds i).fd s.userCount.toNat
  | _ => []

/-- The others are those in the slots but for the client that is read. -/
theorem others_eq (hat : s.At i .read) :
    s.others = s.recipients (s.fds i).fd s.userCount.toNat := by
  rw [State.others, hat.loop]

/-- The message is queued for all slots when every text can be written to the buffer. -/
theorem exists_queueAll (P : Bytes → Prop) (connfd : Fd) (data : Bytes)
    (huser : ∀ j : Int, 1 ≤ j → j ≤ n → s.hasUser (s.fds j).fd) (hP : P s.tmpbuf)
    (hcompose : ∀ b fd, P b → fd ∈ s.recipients connfd n →
      ∃ b', compose b fd (s.message connfd data) = some b' ∧ P b') :
    ∃ t, s.queueAll connfd data n = next t ∧ P t.tmpbuf := by
  induction n with
  | zero => exact ⟨s, rfl, hP⟩
  | succ n ih =>
    obtain ⟨t, ht, hPt⟩ := ih (fun j hj hle => huser j hj (by omega)) fun b fd hb hfd =>
      hcompose b fd hb (List.mem_append_left _ hfd)
    have hq := queued_of_queueAll ht
    rw [State.queueAll, ht, bind_next]
    have hslot : (t.fds (n + 1)).fd = (s.fds (n + 1)).fd := hq.fds_fd _
    have hmessage : (t.users connfd).buf.take (data.length - 1) = s.message connfd data := by
      rw [hq.users, if_neg (notMem_recipients s connfd n)]
      rfl
    simp only [State.queueFor, hslot, hmessage]
    by_cases he : (s.fds (n + 1)).fd = connfd
    · rw [if_pos he]
      exact ⟨t, rfl, hPt⟩
    · have hmem : (s.fds (n + 1)).fd ∈ s.recipients connfd (n + 1) := by
        rw [State.recipients, if_neg he]
        exact List.mem_append_right _ List.mem_cons_self
      obtain ⟨b', hb', hPb'⟩ := hcompose t.tmpbuf _ hPt hmem
      have hin : t.hasUser (s.fds (n + 1)).fd := by
        obtain ⟨hpos, hlt⟩ := huser (n + 1) (by omega) (by omega)
        exact ⟨hpos, hq.entries ▸ hlt⟩
      rw [if_neg he, hb', ofAccess_some, bind_next, if_pos hin]
      exact ⟨_, rfl, hPb'⟩

/-- Queueing goes on or is undefined. -/
theorem queueAll_ne_disabled : s.queueAll connfd data n ≠ disabled := by
  induction n with
  | zero => rintro ⟨⟩
  | succ n ih =>
    rw [State.queueAll]
    cases hq : s.queueAll connfd data n with
    | disabled => exact absurd hq ih
    | undefined => rintro ⟨⟩
    | next t =>
      simp only [bind_next, State.queueFor]
      split
      · rintro ⟨⟩
      · cases compose t.tmpbuf _ _ with
        | none => rintro ⟨⟩
        | some b =>
          rw [ofAccess_some, bind_next]
          split <;> rintro ⟨⟩

/-! ## The tables -/

/-- A client that is found writable was asked about. -/
theorem Tabled.events_of_write (h : Tabled s) (hat : s.At i .write) :
    has (s.fds i).events pollOut := by
  obtain ⟨hi, hi'⟩ := h.client_slot hat (.inr (.inr rfl))
  have hrev : has (s.fds i).revents pollOut = true := by
    have hbranch := hat.branch
    simp only [State.branch] at hbranch
    split at hbranch
    · cases hbranch
    · split at hbranch
      · cases hbranch
      · split at hbranch
        · cases hbranch
        · split at hbranch
          · cases hbranch
          · split at hbranch
            · rename_i hout
              exact hout
            · cases hbranch
  rw [pollOut, has_twoPow (by decide)] at hrev ⊢
  exact (h.asked i (by omega) hi').getLsbD (by decide) (by decide) hrev

/-- The clients have entries in `users`. -/
theorem Tabled.hasUser (h : Tabled s) (hj : 1 ≤ j) (hle : j ≤ s.userCount) :
    s.hasUser (s.fds j).fd :=
  ⟨(h.client j hj hle).nonneg, (h.client j hj hle).lt_entries⟩

/-- So a client can be removed. -/
theorem Tabled.dropUser_eq (h : Tabled s) (hi : 1 ≤ i) (hi' : i ≤ s.userCount) :
    s.dropUser i = next (s.without i) :=
  if_pos ⟨h.hasUser hi hi', h.hasUser (by omega) (Int.le_refl _)⟩

/-- A write leaves no `write_buf`. -/
theorem written_users_self (s : State) (i : Int) (taken : Nat) :
    (s.written i taken).users (s.fds i).fd = { s.users (s.fds i).fd with writeBuf := .null } :=
  Function.update_self _ _ _

/-- When `poll` is asked whether a client can be written to, its `write_buf` was set. -/
def State.BufsSet (s : State) : Prop :=
  ∀ j, 1 ≤ j → j ≤ s.userCount → has (s.fds j).events pollOut →
    (s.users (s.fds j).fd).writeBuf ≠ .unset

/-- Queueing sets the `write_buf` of those it asks `poll` about. -/
theorem Queued.bufsSet (h : Queued s connfd data n t) (hs : s.BufsSet) : t.BufsSet := by
  intro j hj hle hout
  rw [h.userCount] at hle
  rw [h.fds_fd, h.users]
  split
  · rintro ⟨⟩
  · rename_i hmem
    rw [h.fds, if_neg] at hout
    · exact hs j hj hle hout
    · rintro ⟨-, hn, hne⟩
      exact hmem (mem_recipients.mpr ⟨j, hj, hn, rfl, hne⟩)

/-- The clients that remain keep what is set for them. -/
theorem State.BufsSet.without (h : s.BufsSet) (htable : Tabled s) (hi : 1 ≤ i)
    (hi' : i ≤ s.userCount) : (s.without i).BufsSet := by
  intro j hj hle hout
  obtain ⟨k, hk, hk', hki, hfk, -⟩ := without_fds hi hi' hj hle
  have hne : (s.fds k).fd ≠ (s.fds i).fd := fun he => hki (htable.slot_inj hk hk' hi hi' he)
  have huser : (s.without i).users (s.fds k).fd = s.users (s.fds k).fd :=
    Function.update_of_ne hne _ _
  rw [hfk] at hout ⊢
  rw [huser]
  exact h k hk hk' hout

/-- Every step keeps this. -/
theorem State.BufsSet.step (h : s.BufsSet) (htable : Tabled s) (hs : step s a = next t) :
    t.BufsSet := by
  cases Effect.of_step hs with
  | polled _ _ =>
    intro j hj hle hout
    rw [polled_fds_fd.2] at hout
    rw [polled_fds_fd.1]
    exact h j hj hle hout
  | stopped _ => exact h
  | passed _ => exact h
  | added _ _ _ _ _ _ =>
    intro j hj hle hout
    change j ≤ s.userCount + 1 at hle
    by_cases hlast : j = s.userCount + 1
    · subst hlast
      have hquiet : ¬ has (pollIn ||| pollRdhup ||| pollErr) pollOut := by decide
      rw [withUser_fds_last] at hout
      exact absurd hout hquiet
    · rw [withUser_fds (by omega)] at hout ⊢
      exact h j hj (by omega) hout
  | left hat _ _ =>
    obtain ⟨hi, hi'⟩ := htable.client_slot hat (.inl rfl)
    exact h.without htable hi hi'
  | dropped hat _ _ =>
    obtain ⟨hi, hi'⟩ := htable.client_slot hat (.inr (.inl rfl))
    exact h.without htable hi hi'
  | @received i data u _ _ _ _ hu =>
    have hkeep : (s.keep i data).BufsSet := fun j hj hle hout => by
      rw [keep_writeBuf]
      exact h j hj hle hout
    exact (queued_of_queueAll hu).bufsSet hkeep
  | @wrote i taken hat _ _ _ _ =>
    obtain ⟨hi, hi'⟩ := htable.client_slot hat (.inr (.inr rfl))
    intro j hj hle hout
    by_cases he : j = i
    · subst he
      rw [written_fds_self, written_users_self]
      rintro ⟨⟩
    · have hne : (s.fds j).fd ≠ (s.fds i).fd := fun hfd => he (htable.slot_inj hj hle hi hi' hfd)
      have huser : (s.written i taken).users (s.fds j).fd = s.users (s.fds j).fd :=
        Function.update_of_ne hne _ _
      rw [written_fds_of_ne he] at hout ⊢
      rw [huser]
      exact h j hj hle hout
  | round _ _ => exact h

/-- In every reached state the `write_buf` is set of each client that `poll` is asked about. -/
theorem bufsSet_of_reaches {ok : State → Action → Prop} {entries : Int} {tmpbuf : Bytes}
    (h : Reaches Chat.step ok (start listenSock entries tmpbuf) s) : s.BufsSet := by
  apply h.invariant_with fun t ht => tabled_of_reaches ht
  · intro j hj hle
    change j ≤ 0 at hle
    omega
  · intro t a u htable ht _ hs
    exact ht.step htable hs

/-- A client that is found writable has its `write_buf` set. -/
theorem State.BufsSet.of_write (h : s.BufsSet) (htable : Tabled s) (hat : s.At i .write) :
    (s.users (s.fds i).fd).writeBuf ≠ .unset := by
  obtain ⟨hi, hi'⟩ := htable.client_slot hat (.inr (.inr rfl))
  exact h i hi hi' (htable.events_of_write hat)

/-! ## Steps -/

/-- The accesses of a step lie inside the arrays: a descriptor that is accepted has an entry in
`users`; `read` returns a byte, and what it returns fits behind `User<fd>:` in `tmpbuf` if it is
for somebody; what is written is a string that ends in `tmpbuf`. -/
def InBounds (s : State) : Action → Prop
  | .accept (some fd) => s.userCount < userLimit → s.hasUser fd
  | .read (some data) => data ≠ [] ∧ (s.others ≠ [] → data.length ≤ bufSize - 5)
  | .write _ => 0 ∈ s.tmpbuf
  | _ => True

instance instDecidableInBounds (s : State) (a : Action) : Decidable (InBounds s a) :=
  match a with
  | .accept (some fd) => inferInstanceAs (Decidable (s.userCount < userLimit → s.hasUser fd))
  | .read (some data) =>
    inferInstanceAs (Decidable (data ≠ [] ∧ (s.others ≠ [] → data.length ≤ bufSize - 5)))
  | .write _ => inferInstanceAs (Decidable (0 ∈ s.tmpbuf))
  | .poll _ | .pollFailed | .accept none | .error | .hangUp | .read none | .skip | .endRound =>
    .isTrue trivial

/-- A message is queued for all others exactly when it fits behind the prefix. -/
theorem exists_queueAll_iff (htable : Tabled s) (hlen : s.tmpbuf.length = bufSize)
    (hat : s.At i .read) (hne : data ≠ []) :
    (∃ t, (s.keep i data).queueAll (s.fds i).fd data s.userCount.toNat = next t) ↔
      (s.others ≠ [] → data.length ≤ bufSize - 5) := by
  have hpos := List.length_pos_of_ne_nil hne
  have hsize : 6 + data.dropLast.length ≤ bufSize ↔ data.length ≤ bufSize - 5 := by
    rw [List.length_dropLast]
    change _ ≤ 1024 ↔ _ ≤ 1024 - 5
    omega
  rw [others_eq hat, ← hsize]
  constructor
  · rintro ⟨t, ht⟩ hothers
    have hbuf := (queued_of_queueAll ht).tmpbuf
    rw [recipients_keep, message_keep] at hbuf
    obtain ⟨fd, fds, hfds⟩ := List.exists_cons_of_ne_nil hothers
    rw [hfds, List.foldlM_cons] at hbuf
    obtain ⟨b, hb, -⟩ := Option.bind_eq_some_iff.mp hbuf
    exact (exists_compose_iff hlen fd).mp ⟨b, hb⟩
  · intro hfits
    obtain ⟨t, ht, -⟩ := exists_queueAll (fun b => b.length = bufSize) (s.fds i).fd data
      (n := s.userCount.toNat) (s := s.keep i data)
      (fun j hj hle => htable.hasUser hj (by omega)) hlen fun b fd hb hmem => by
        rw [recipients_keep] at hmem
        rw [message_keep]
        obtain ⟨b', hb'⟩ := (exists_compose_iff hb fd).mpr (hfits (List.ne_nil_of_mem hmem))
        exact ⟨b', hb', (compose_frame hb').1.trans hb⟩
    exact ⟨t, ht⟩

/-- Reading a client is defined exactly when the bytes lie inside the arrays. -/
theorem readFrom_ne_undefined_iff (htable : Tabled s) (hlen : s.tmpbuf.length = bufSize)
    (hat : s.At i .read) : s.readFrom i data ≠ undefined ↔ InBounds s (.read (some data)) := by
  obtain ⟨hi, hi'⟩ := htable.client_slot hat (.inr (.inl rfl))
  unfold State.readFrom
  by_cases hne : data ≠ []
  · rw [if_pos ⟨htable.hasUser hi hi', hne⟩]
    refine Iff.trans ?_ ((exists_queueAll_iff htable hlen hat hne).trans
      ⟨fun hfits => ⟨hne, hfits⟩, And.right⟩)
    cases hq : (s.keep i data).queueAll (s.fds i).fd data s.userCount.toNat with
    | disabled => exact absurd hq queueAll_ne_disabled
    | undefined => simp
    | next t => simp
  · rw [if_neg fun hboth => hne hboth.2]
    exact ⟨fun hdefined => absurd rfl hdefined, fun hin => absurd hin.1 hne⟩

/-- A client is written to only when its `write_buf` is set. -/
theorem at_of_write {taken : Nat} (htable : Tabled s)
    (hen : Chat.step s (.write taken) ≠ disabled) :
    ∃ i, s.At i .write ∧ (s.users (s.fds i).fd).writeBuf ≠ .null := by
  revert hen
  unfold Chat.step
  cases hloop : s.loop with
  | stopped => exact fun hen => absurd rfl hen
  | polling => exact fun hen => absurd rfl hen
  | handling i =>
    dsimp only
    split
    · rename_i hbound
      cases hbranch : s.branch (s.fds i) with
      | write =>
        intro hen
        have hat : s.At i .write := ⟨hloop, hbound, hbranch⟩
        obtain ⟨hi, hi'⟩ := htable.client_slot hat (.inr (.inr rfl))
        refine ⟨i, hat, fun hnull => hen ?_⟩
        rw [State.handle, State.writeTo, if_pos (htable.hasUser hi hi'), hnull]
      | _ => exact fun hen => absurd rfl hen
    · exact fun hen => absurd (if_neg (by rintro ⟨⟩)) hen

/-- A write is defined exactly when the string ends in the buffer. -/
theorem writeTo_ne_undefined_iff {taken : Nat} (htable : Tabled s) (hset : s.BufsSet)
    (hat : s.At i .write) (hen : s.writeTo i taken ≠ disabled) :
    s.writeTo i taken ≠ undefined ↔ 0 ∈ s.tmpbuf := by
  obtain ⟨hi, hi'⟩ := htable.client_slot hat (.inr (.inr rfl))
  revert hen
  rw [State.writeTo, if_pos (htable.hasUser hi hi')]
  cases hbuf : (s.users (s.fds i).fd).writeBuf with
  | null => exact fun hen => absurd rfl hen
  | unset => exact absurd hbuf (hset.of_write htable hat)
  | tmpbuf =>
    by_cases hnul : 0 ∈ s.tmpbuf
    · simp only [if_pos hnul]
      split
      · exact fun _ => ⟨fun _ => hnul, fun _ => by rintro ⟨⟩⟩
      · exact fun hen => absurd rfl hen
    · simp only [if_neg hnul]
      exact fun _ => ⟨fun hdefined => absurd rfl hdefined, fun hin => absurd hin hnul⟩

/-- The handling of a slot is defined exactly when it stays inside the arrays. -/
theorem handle_ne_undefined_iff (htable : Tabled s) (hset : s.BufsSet)
    (hlen : s.tmpbuf.length = bufSize) {b : Branch} (hat : s.At i b)
    (hen : s.handle i b a ≠ disabled) : s.handle i b a ≠ undefined ↔ InBounds s a := by
  have hpassed {t : State} : next t ≠ (undefined : StepResult State) := by rintro ⟨⟩
  cases b with
  | accept =>
    cases a with
    | accept fd =>
      cases fd with
      | none => exact iff_of_true hpassed trivial
      | some fd =>
        simp only [State.handle] at hen ⊢
        split at hen
        · exact absurd rfl hen
        · rename_i hfree
          rw [if_neg hfree]
          by_cases hlimit : s.userCount ≥ userLimit
          · rw [if_pos hlimit]
            exact iff_of_true hpassed fun hlt => absurd hlimit (Int.not_le.mpr hlt)
          · rw [if_neg hlimit]
            by_cases huser : s.hasUser fd
            · rw [if_pos huser]
              exact iff_of_true hpassed fun _ => huser
            · rw [if_neg huser]
              exact iff_of_false (fun hdefined => hdefined rfl)
                fun hin => huser (hin (Int.not_le.mp hlimit))
    | _ => exact absurd rfl hen
  | error =>
    cases a with
    | error => exact iff_of_true hpassed trivial
    | _ => exact absurd rfl hen
  | hangUp =>
    obtain ⟨hi, hi'⟩ := htable.client_slot hat (.inl rfl)
    cases a with
    | hangUp =>
      rw [State.handle, htable.dropUser_eq hi hi', bind_next]
      exact iff_of_true hpassed trivial
    | _ => exact absurd rfl hen
  | read =>
    obtain ⟨hi, hi'⟩ := htable.client_slot hat (.inr (.inl rfl))
    cases a with
    | read data =>
      cases data with
      | none =>
        rw [State.handle, htable.dropUser_eq hi hi']
        exact iff_of_true hpassed trivial
      | some data =>
        simp only [State.handle] at hen ⊢
        split at hen
        · rename_i hroom
          rw [if_pos hroom]
          exact readFrom_ne_undefined_iff htable hlen hat
        · exact absurd rfl hen
    | _ => exact absurd rfl hen
  | write =>
    obtain ⟨hi, hi'⟩ := htable.client_slot hat (.inr (.inr rfl))
    cases a with
    | write taken => exact writeTo_ne_undefined_iff htable hset hat hen
    | skip =>
      simp only [State.handle, if_pos (htable.hasUser hi hi')] at hen ⊢
      split at hen
      · rename_i hnull
        rw [if_pos hnull]
        exact iff_of_true hpassed trivial
      · exact absurd rfl hen
    | _ => exact absurd rfl hen
  | none =>
    cases a with
    | skip => exact iff_of_true hpassed trivial
    | _ => exact absurd rfl hen

/-- A step that can happen is defined exactly when it stays inside the arrays. -/
theorem step_ne_undefined_iff (htable : Tabled s) (hset : s.BufsSet)
    (hlen : s.tmpbuf.length = bufSize) (hen : Chat.step s a ≠ disabled) :
    Chat.step s a ≠ undefined ↔ InBounds s a := by
  revert hen
  unfold Chat.step
  cases hloop : s.loop with
  | stopped => exact fun hen => absurd rfl hen
  | polling =>
    cases a with
    | poll revents =>
      dsimp only
      split
      · exact fun _ => iff_of_true (by rintro ⟨⟩) trivial
      · exact fun hen => absurd rfl hen
    | pollFailed => exact fun _ => iff_of_true (by rintro ⟨⟩) trivial
    | _ => exact fun hen => absurd rfl hen
  | handling i =>
    dsimp only
    split
    · rename_i hbound
      exact handle_ne_undefined_iff htable hset hlen ⟨hloop, hbound, rfl⟩
    · split
      · rename_i ha
        subst ha
        exact fun _ => iff_of_true (by rintro ⟨⟩) trivial
      · exact fun hen => absurd rfl hen

end NetworkCode.Chat
