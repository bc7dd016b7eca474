import NetworkCode.Core.LineEnds
import NetworkCode.Httpd.Reader

/-!
# What `get_line` returns, call after call

Calls of `get_line` that return give the stream they have used, with one LF for every line
end, in chunks that fit into the array. The two loops over the header section look at these
chunks in different ways and stop at the same one.
-/

namespace NetworkCode.Httpd

open Prog LineStream Text

/-! ### Chunks -/

/-- A call of `get_line` that returned: the array before it, the number it returned and the
array behind it. -/
structure LineCall where
  before : Bytes
  count : Nat
  after : Bytes

/-- The bytes that the call has put into the array. -/
def LineCall.chunk (c : LineCall) : Bytes := c.after.take c.count

/-- Calls one after the other that return. Each may have an array of its own, with room for
`size` bytes. -/
inductive Calls (size : Nat) : World → List LineCall → World → Prop
  | nil (w : World) : Calls size w [] w
  | cons {w w₁ w' : World} {c : LineCall} {cs : List LineCall} (hroom : size ≤ c.before.length) :
      (getLine c.before size).Returns w (c.count, c.after) w₁ → Calls size w₁ cs w' →
        Calls size w (c :: cs) w'

/-- What all calls have put into their arrays. -/
def concat (cs : List LineCall) : Bytes := cs.flatMap LineCall.chunk

/-- The chunk of a call is a line or a part of one: an LF is only at its end, and without one
it is as long as it may be. Its length is returned, a NUL inside of the array follows it, and
what is behind the NUL is as before. -/
structure LineCall.Faithful (size : Nat) (c : LineCall) : Prop where
  line : LF ∉ c.chunk.dropLast
  complete : c.chunk.getLast? = some LF ∨ c.chunk.length = size - 1
  count_eq : c.count = c.chunk.length
  inside : c.count < size
  nul : c.after[c.count]? = some 0
  behind : c.after.drop (c.count + 1) = c.before.drop (c.count + 1)

variable {w w' : World} {size : Nat} {c : LineCall} {cs : List LineCall}

/-- One call that returns. -/
theorem LineCall.faithful (hsize : 2 ≤ size) (hroom : size ≤ c.before.length)
    (h : (getLine c.before size).Returns w (c.count, c.after) w') : c.Faithful size ∧
      takeChunk w.ending.seen (size - 1) w.inbox = some (c.chunk, w'.inbox) ∧
        w'.ending = w.ending := by
  obtain ⟨s, rest, htake, hresult, rfl⟩ := (returns_getLine (by omega) hroom).mp h
  obtain ⟨hcount, hafter⟩ := Prod.mk.inj hresult
  have hle := takeChunk_length_le htake
  have hchunk : c.chunk = s := by
    rw [LineCall.chunk, hafter, hcount, terminated]
    exact List.take_left
  obtain ⟨hline, hcomplete⟩ := takeChunk_shape htake
  refine ⟨⟨?_, ?_, ?_, by omega, ?_, ?_⟩, ?_, rfl⟩
  · rw [hchunk]
    exact hline
  · rw [hchunk]
    exact hcomplete
  · rw [hchunk, hcount]
  · rw [hafter, hcount, terminated, List.getElem?_append_right (Nat.le_refl _), Nat.sub_self]
    rfl
  · rw [hafter, hcount, terminated, List.drop_append, List.drop_eq_nil_of_le (Nat.le_succ _)]
    simp
  · rw [hchunk]
    exact htake

/-- The chunks of calls one after the other. -/
theorem Calls.takesChunks (hsize : 2 ≤ size) (h : Calls size w cs w') :
    (∀ c ∈ cs, c.Faithful size) ∧
      TakesChunks w.ending.seen (size - 1) w.inbox (cs.map LineCall.chunk) w'.inbox := by
  induction h with
  | nil w => exact ⟨by simp, .nil w.inbox⟩
  | cons hroom hcall _ ih =>
    obtain ⟨hfaithful, htake, hending⟩ := LineCall.faithful hsize hroom hcall
    obtain ⟨hrest, hchunks⟩ := ih
    rw [hending] at hchunks
    exact ⟨List.forall_mem_cons.mpr ⟨hfaithful, hrest⟩, .cons htake hchunks⟩

/-- What the calls put together is what they have used of the stream, with one LF for every
line end. -/
theorem Calls.exists_used (hsize : 2 ≤ size) (h : Calls size w cs w') :
    ∃ used, w.inbox = used ++ w'.inbox ∧ normalise used = concat cs ∧
      normalise w.inbox = concat cs ++ normalise w'.inbox := by
  obtain ⟨used, hinbox, huncut, hconcat⟩ := (h.takesChunks hsize).2.exists_used
  have heq : normalise used = concat cs := hconcat.trans List.flatMap_def.symm
  exact ⟨used, hinbox, heq, by rw [hinbox, normalise_append huncut, heq]⟩

/-- Calls of `get_line` that return give chunks of the stream with one LF for every line end:
each of the form described above, together what belongs to the part of the stream that they
have used, with any size the beginning of the same bytes, and the same bytes when as much of
the stream was used. -/
theorem getLine_faithful (hsize : 2 ≤ size) (h : Calls size w cs w') :
    (∀ c ∈ cs, c.Faithful size) ∧
    (∃ used, w.inbox = used ++ w'.inbox ∧ normalise used = concat cs ∧
      normalise w.inbox = concat cs ++ normalise w'.inbox) ∧
    ∀ size₁ cs₁ w₁, 2 ≤ size₁ → Calls size₁ w cs₁ w₁ →
      (concat cs <+: concat cs₁ ∨ concat cs₁ <+: concat cs) ∧
        (w₁.inbox = w'.inbox → concat cs₁ = concat cs) := by
  refine ⟨(h.takesChunks hsize).1, h.exists_used hsize, fun size₁ cs₁ w₁ hsize₁ h₁ => ?_⟩
  obtain ⟨used, hinbox, hused, hwhole⟩ := h.exists_used hsize
  obtain ⟨used₁, hinbox₁, hused₁, hwhole₁⟩ := h₁.exists_used hsize₁
  constructor
  · exact List.prefix_or_prefix_of_prefix ⟨_, hwhole.symm⟩ ⟨_, hwhole₁.symm⟩
  · intro heq
    rw [heq] at hinbox₁
    have hsame : used₁ = used := List.append_cancel_right (hinbox₁.symm.trans hinbox)
    rw [← hused, ← hused₁, hsame]

/-- With room for two bytes a line of two bytes and its end are two chunks. -/
theorem calls_crlf : ∃ c c' w', Calls 3 (connected (ascii "ab\r\n") .silent) [c, c'] w' ∧
    concat [c, c'] = ascii "ab\n" := by
  have hlen := length_zeros 3
  let c : LineCall := ⟨zeros 3, 2, terminated (ascii "ab") (zeros 3)⟩
  let c' : LineCall := ⟨zeros 3, 1, terminated [LF] (zeros 3)⟩
  have hfirst : (getLine (zeros 3) 3).Returns (connected (ascii "ab\r\n") .silent)
      (c.count, c.after) (World.afterLine (connected (ascii "ab\r\n") .silent) [CR, LF]) :=
    (returns_getLine (by omega) (by omega)).mpr ⟨ascii "ab", [CR, LF], rfl, rfl, rfl⟩
  let w := World.afterLine (connected (ascii "ab\r\n") .silent) [CR, LF]
  have hsecond : (getLine (zeros 3) 3).Returns w (c'.count, c'.after) (w.afterLine []) :=
    (returns_getLine (by omega) (by omega)).mpr ⟨[LF], [], rfl, rfl, rfl⟩
  have hcalls : Calls 3 (connected (ascii "ab\r\n") .silent) [c, c'] (w.afterLine []) :=
    .cons (Nat.le_of_eq hlen.symm) hfirst (.cons (Nat.le_of_eq hlen.symm) hsecond (.nil _))
  exact ⟨c, c', _, hcalls, rfl⟩

theorem getLine_faithful_crlf : ∃ cs w',
    concat cs = ascii "ab\n" ∧ (∀ c ∈ cs, c.Faithful 3) ∧
    (∃ used, ascii "ab\r\n" = used ++ World.inbox w' ∧ normalise used = concat cs ∧
      normalise (ascii "ab\r\n") = concat cs ++ normalise w'.inbox) ∧
    ∀ size₁ cs₁ w₁, 2 ≤ size₁ → Calls size₁ (connected (ascii "ab\r\n") .silent) cs₁ w₁ →
      (concat cs <+: concat cs₁ ∨ concat cs₁ <+: concat cs) ∧
        (w₁.inbox = w'.inbox → concat cs₁ = concat cs) := by
  obtain ⟨c, c', w', hcalls, hconcat⟩ := calls_crlf
  exact ⟨[c, c'], w', hconcat, getLine_faithful (by decide) hcalls⟩

/-! ### The loops over the header section -/

/-- `recv` is defined. -/
theorem defined_recv {peek : Bool} {c : UInt8} : (recv peek c).Defined w := by
  refine defined_ofStep ?_
  obtain ⟨inbox, e, k, tr⟩ := w
  cases inbox with
  | nil => rcases e with _ | _ | _ <;> simp
  | cons b bs => simp

/-- Looking behind a carriage return is defined. -/
theorem defined_readEol : readEol.Defined w := by
  refine Defined.bind defined_recv fun r t _ => ?_
  dsimp only
  split
  · exact Defined.bind defined_recv fun _ _ _ => defined_pure
  · exact defined_pure

/-- A store inside of the array is defined. -/
theorem defined_store {buf : Bytes} {i : Nat} {b : UInt8} (hi : i < buf.length) :
    (store buf i b).Defined w := by
  rw [store, if_pos hi]
  exact defined_pure

/-- The rest of the body of the loop of `get_line` behind the byte it stores. -/
theorem defined_storeByte {v : LineVars} {byte : Prog World UInt8} (hbyte : byte.Defined w)
    (hi : v.i < v.buf.length) :
    (byte >>= fun c => store v.buf v.i c >>= fun buf =>
      pure ({ i := v.i + 1, c, buf } : LineVars)).Defined w :=
  hbyte.bind fun _ _ _ => Defined.bind (defined_store hi) fun _ _ _ => defined_pure

/-- A byte is stored, and the index moves on by one. -/
theorem storeByte_keeps {v v' : LineVars} {byte : Prog World UInt8}
    (h : (byte >>= fun c => store v.buf v.i c >>= fun buf =>
      pure ({ i := v.i + 1, c, buf } : LineVars)).Returns w v' w') :
    v'.i ≤ v.i + 1 ∧ v'.buf.length = v.buf.length := by
  obtain ⟨c, t, -, h⟩ := returns_bind.mp h
  obtain ⟨buf, t, hstore, h⟩ := returns_bind.mp h
  obtain ⟨-, rfl, -⟩ := returns_store.mp hstore
  obtain ⟨rfl, -⟩ := returns_pure.mp h
  exact ⟨le_rfl, by simp⟩

/-- The body of the loop of `get_line` stores inside the array. -/
theorem defined_readByte {v : LineVars} (hi : v.i < v.buf.length) : (readByte v).Defined w := by
  refine Defined.bind defined_recv fun r t _ => ?_
  dsimp only
  split
  · split
    · exact defined_storeByte defined_readEol hi
    · exact defined_storeByte defined_pure hi
  · exact defined_pure

/-- It stores at most one byte. -/
theorem readByte_keeps {v v' : LineVars} (h : (readByte v).Returns w v' w') :
    v'.i ≤ v.i + 1 ∧ v'.buf.length = v.buf.length := by
  obtain ⟨r, t, -, h⟩ := returns_bind.mp h
  dsimp only at h
  split at h
  · split at h
    · exact storeByte_keeps h
    · exact storeByte_keeps h
  · obtain ⟨rfl, -⟩ := returns_pure.mp h
    exact ⟨Nat.le_succ _, rfl⟩

/-- `get_line` stays inside an array with room for `size` bytes. -/
theorem defined_getLine {buf : Bytes} (hpos : 0 < buf.length) (hbuf : size ≤ buf.length) :
    (getLine buf size).Defined w := by
  let Inv (v : LineVars) (_ : World) : Prop := v.i ≤ size - 1 ∧ v.buf.length = buf.length
  have htest {v : LineVars} {s t : World} (h : (lineTest size v).Returns s true t) :
      v.i < size - 1 := by
    obtain ⟨hgo, -⟩ := returns_pure.mp h
    simpa using (Bool.and_eq_true_iff.mp hgo.symm).1
  have hkeep (v : LineVars) (s t : World) (z : LineVars) (u : World) (hv : Inv v s)
      (hgo : (lineTest size v).Returns s true t) (hbody : (readByte v).Returns t z u) :
      Inv z u := by
    have hlt := htest hgo
    obtain ⟨hi, hlen⟩ := readByte_keeps hbody
    exact ⟨by omega, hlen.trans hv.2⟩
  have h0 : Inv ⟨0, 0, buf⟩ w := ⟨Nat.zero_le _, rfl⟩
  refine Defined.bind (defined_ofStep (by simp)) fun before t hbefore => ?_
  refine Defined.bind (defined_whileLoop Inv ?_ ?_ hkeep h0) fun v t hv => ?_
  · intro v s _
    exact defined_pure
  · intro v s t hv hgo
    have hlt := htest hgo
    exact defined_readByte (by rw [hv.2]; omega)
  · have hinv : Inv v t := hv.whileLoop_invariant h0 (fun _ _ _ _ h _ => h) hkeep
    have hi : v.i < v.buf.length := by
      rw [hinv.2]
      have := hinv.1
      omega
    refine Defined.bind (defined_store hi) fun buf t _ => ?_
    refine Defined.bind (defined_ofStep (by simp)) fun after t _ => ?_
    exact Defined.bind defined_modify fun _ _ _ => defined_pure

/-- The array in which a loop over the header section looks for an empty line. -/
def Lined (buf : Bytes) : Prop := buf.length = 1024 ∧ 0 ∈ buf

/-- Behind `get_line` the array has a line. -/
theorem lined_of_getLine {buf : Bytes} {r : Nat × Bytes} (hlen : buf.length = 1024)
    (h : (getLine buf (1024 - 1)).Returns w r w') : Lined r.2 := by
  obtain ⟨s, rest, htake, rfl, -⟩ := (returns_getLine (by omega) (by omega)).mp h
  have hshows := shows_terminated hlen htake
  exact ⟨hshows.length, hshows.terminated⟩

/-- Reading the string of such an array is defined. -/
theorem defined_cString {buf : Bytes} (h : Lined buf) : (cString buf).Defined w := by
  rw [cString, if_pos h.2]
  exact defined_pure

/-- Reading a header line is defined. -/
theorem defined_headerLine {buf : Bytes} (hlen : buf.length = 1024) :
    (getLine buf (1024 - 1)).Defined w :=
  defined_getLine (by omega) (by omega)

/-- `clean_hander` is defined. -/
theorem defined_cleanHander : cleanHander.Defined w := by
  refine Defined.bind (defined_headerLine (length_zeros 1024)) fun line t hline => ?_
  have h0 : Lined line.2 := lined_of_getLine (length_zeros 1024) hline
  refine Defined.bind ?_ fun _ _ _ => defined_pure
  refine defined_whileLoop (fun line _ => Lined line.2) ?_ ?_ ?_ h0
  · intro line s hline
    exact Defined.bind (defined_cString hline) fun _ _ _ => defined_pure
  · intro line s t hline _
    exact defined_headerLine hline.1
  · intro line s t z u hline _ hbody
    exact lined_of_getLine hline.1 hbody

/-- The loop over the headers is defined. -/
theorem defined_readHeaders : readHeaders.Defined w := by
  refine Defined.bind (defined_headerLine (length_zeros 1024)) fun line t hline => ?_
  have h0 : Lined line.2 := lined_of_getLine (length_zeros 1024) hline
  refine Defined.bind ?_ fun _ _ _ => defined_pure
  refine defined_whileLoop (fun v _ => Lined (HeaderVars.buf v)) ?_ ?_ ?_ h0
  · intro v s hv
    exact Defined.bind (defined_cString hv) fun _ _ _ => defined_pure
  · intro v s t hv _
    refine Defined.bind (defined_cString hv) fun _ _ _ => ?_
    exact Defined.bind (defined_headerLine hv.1) fun _ _ _ => defined_pure
  · intro v s t z u hv _ hbody
    obtain ⟨_, _, -, hbody⟩ := returns_bind.mp hbody
    obtain ⟨r, _, hline, hbody⟩ := returns_bind.mp hbody
    obtain ⟨rfl, -⟩ := returns_pure.mp hbody
    exact lined_of_getLine hv.1 hline

/-! ### Reading raises no signal -/

theorem unkilled_recv {peek : Bool} {c : UInt8} : (recv peek c).Unkilled := by
  apply unkilled_ofStep
  rintro ⟨_ | ⟨b, bs⟩, _ | _ | _, k, tr⟩ <;> simp

theorem unkilled_store {buf : Bytes} {i : Nat} {b : UInt8} : (store buf i b).Unkilled := by
  unfold store
  split
  · exact unkilled_pure
  · exact unkilled_undefinedBehaviour

theorem unkilled_cString {buf : Bytes} : (cString buf).Unkilled := by
  unfold cString
  split
  · exact unkilled_pure
  · exact unkilled_undefinedBehaviour

theorem unkilled_readEol : readEol.Unkilled := by
  refine unkilled_recv.bind fun r => ?_
  dsimp only
  split
  · exact unkilled_recv.bind fun _ => unkilled_pure
  · exact unkilled_pure

theorem unkilled_readByte {v : LineVars} : (readByte v).Unkilled := by
  refine unkilled_recv.bind fun r => ?_
  dsimp only
  split
  · split
    · exact unkilled_readEol.bind fun _ => unkilled_store.bind fun _ => unkilled_pure
    · exact unkilled_pure.bind fun _ => unkilled_store.bind fun _ => unkilled_pure
  · exact unkilled_pure

/-- No signal ends a call of `get_line`. -/
theorem unkilled_getLine {buf : Bytes} : (getLine buf size).Unkilled := by
  have hunread : unread.Unkilled := unkilled_ofStep fun _ => by simp
  have hrecord (e : Event) : (record e).Unkilled := unkilled_ofStep fun _ => by simp
  refine hunread.bind fun before => ?_
  refine (Unkilled.whileLoop (fun _ => unkilled_pure) (fun _ => unkilled_readByte) _).bind
    fun v => ?_
  refine unkilled_store.bind fun _ => hunread.bind fun after => ?_
  exact (hrecord (.line before after)).bind fun _ => unkilled_pure

/-- Nothing ends the server while `clean_hander` reads. -/
theorem unkilled_cleanHander : cleanHander.Unkilled :=
  unkilled_getLine.bind fun _ =>
    (Unkilled.whileLoop (fun _ => unkilled_cString.bind fun _ => unkilled_pure)
      (fun _ => unkilled_getLine) _).bind fun _ => unkilled_pure

/-- Nothing ends the server while the headers are read. -/
theorem unkilled_readHeaders : readHeaders.Unkilled :=
  unkilled_getLine.bind fun _ =>
    (Unkilled.whileLoop (fun _ => unkilled_cString.bind fun _ => unkilled_pure)
      (fun _ => unkilled_cString.bind fun _ => unkilled_getLine.bind fun _ => unkilled_pure)
      _).bind fun _ => unkilled_pure

/-- `clean_hander` never stops when it does not end. -/
theorem neverStops_cleanHander (h : ¬ ∃ cs w', Reads w cs w') : cleanHander.NeverStops w := by
  apply defined_cleanHander.neverStops unkilled_cleanHander
  rintro ⟨_, w', hend⟩
  obtain ⟨cs, hcs⟩ := returns_cleanHander.mp hend
  exact h ⟨cs, w', hcs⟩

/-- What is read of the header section is the beginning of the stream. -/
theorem Reads.exists_used {cs : List Bytes} (h : Reads w cs w') :
    ∃ used, w.inbox = used ++ w'.inbox := by
  induction h with
  | stop htake =>
    obtain ⟨used, hused, -⟩ := takeChunk_used htake
    exact ⟨used, hused⟩
  | more htake _ _ ih =>
    obtain ⟨used, hused, -⟩ := takeChunk_used htake
    obtain ⟨used', hused'⟩ := ih
    refine ⟨used ++ used', ?_⟩
    rw [List.append_assoc, ← hused']
    exact hused

/-- `clean_hander` and the header loop of `excu_cgi` use the same beginning of every stream and
stop there, or neither of them ever stops. They call a line of one byte empty, and this byte
is the LF. -/
theorem header_loops_agree (w : World) :
    ((∃ used n w', w.inbox = used ++ w'.inbox ∧ cleanHander.Returns w () w' ∧
        readHeaders.Returns w n w') ∨
      cleanHander.NeverStops w ∧ readHeaders.NeverStops w) ∧
    ∀ (buf : Bytes) r w', buf.length = 1024 → (getLine buf (1024 - 1)).Returns w r w' →
      r.1 = 1 → cstr r.2 = [LF] ∧ r.2.take 1 = [LF] := by
  constructor
  · by_cases hreads : ∃ cs w', Reads w cs w'
    · obtain ⟨cs, w', hcs⟩ := hreads
      obtain ⟨used, hused⟩ := hcs.exists_used
      exact .inl ⟨used, seenLength cs, w', hused, returns_cleanHander.mpr ⟨cs, hcs⟩,
        returns_readHeaders.mpr ⟨cs, hcs, rfl⟩⟩
    · refine .inr ⟨neverStops_cleanHander hreads,
        defined_readHeaders.neverStops unkilled_readHeaders ?_⟩
      rintro ⟨n, w', h⟩
      obtain ⟨cs, hcs, -⟩ := returns_readHeaders.mp h
      exact hreads ⟨cs, w', hcs⟩
  · intro buf r w' hlen h hone
    obtain ⟨s, rest, htake, rfl, -⟩ := (returns_getLine (by omega) (by omega)).mp h
    have hshows := shows_terminated hlen htake
    obtain rfl : s = [LF] := hshows.one_iff.mp hone
    exact ⟨hshows.cstr_eq, rfl⟩

end NetworkCode.Httpd
