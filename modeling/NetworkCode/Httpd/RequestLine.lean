import NetworkCode.Httpd.GetLine
import NetworkCode.Httpd.Serving

/-!
# The words of the request line

The index loops of `HandleSock` run over an array that was filled with NUL bytes, and a NUL
is no white space. So the URL may be copied together with NUL bytes behind the line, which
end it. The method and the URL are the first two words of the line all the same, and no
index leaves its array.
-/

namespace NetworkCode.Httpd

open Prog LineStream Text

variable {w w' : World} {s t buf method url : Bytes} {env : Env}

/-! ### Words -/

/-- The bytes in front of the first white space. -/
def firstToken (s : Bytes) : Bytes := s.takeWhile fun c => !isspace c

/-- The word behind the first white space, or nothing. -/
def nextToken (s : Bytes) : Bytes :=
  firstToken ((s.dropWhile fun c => !isspace c).dropWhile isspace)

/-- The string in front of zeros. -/
theorem cstr_append_zeros (h : 0 ∉ s) (k : Nat) : cstr (s ++ zeros k) = s := by
  cases k with
  | zero =>
    rw [zeros, List.replicate_zero, List.append_nil]
    exact cstr_of_notMem h
  | succ k =>
    rw [zeros, List.replicate_succ]
    exact cstr_append_nul h _

/-- Zeros are taken as a whole. -/
theorem takeWhile_zeros {p : UInt8 → Bool} (hp : p 0 = true) (k : Nat) :
    (zeros k).takeWhile p = zeros k := by
  refine List.takeWhile_eq_self_iff.mpr fun c hc => ?_
  rw [List.eq_of_mem_replicate hc]
  exact hp

/-- NUL bytes behind a line change nothing in the string of a word of it. -/
theorem cstr_word (h : 0 ∉ s) (n k : Nat) :
    cstr (((s ++ zeros k).takeWhile fun c => !isspace c).take n) = (firstToken s).take n := by
  rw [List.takeWhile_append, takeWhile_zeros (by rfl)]
  split
  · rename_i hwhole
    have hself : firstToken s = s := (List.takeWhile_prefix _).eq_of_length hwhole
    have hnot : 0 ∉ s.take n := fun hmem => h (List.mem_of_mem_take hmem)
    rw [hself, List.take_append, zeros, List.take_replicate]
    exact cstr_append_zeros hnot _
  · exact cstr_of_notMem fun hmem =>
      h ((List.takeWhile_prefix _).subset (List.mem_of_mem_take hmem))

/-- A NUL is no white space. -/
theorem spaces_append_zeros (s : Bytes) (k : Nat) :
    (s ++ zeros k).takeWhile isspace = s.takeWhile isspace := by
  have hnone : (zeros k).takeWhile isspace = [] := by
    cases k with
    | zero => rfl
    | succ k => rfl
  rw [List.takeWhile_append, hnone, List.append_nil]
  split
  · rename_i hwhole
    exact ((List.takeWhile_prefix isspace).eq_of_length hwhole).symm
  · rfl

/-- A prefix of the list can be dropped in front of what is appended. -/
theorem drop_takeWhile_append (p : UInt8 → Bool) (s t : Bytes) :
    (s ++ t).drop (s.takeWhile p).length = s.dropWhile p ++ t := by
  have hsplit : s ++ t = s.takeWhile p ++ (s.dropWhile p ++ t) := by
    rw [← List.append_assoc, List.takeWhile_append_dropWhile]
  rw [hsplit, List.drop_left]

/-! ### The array of the request line -/

/-- The line in the array of the request, and zeros behind it. -/
theorem take_requestBuffer (h : s.length ≤ 1024) :
    (requestBuffer s).take 1024 = s ++ zeros (1024 - s.length) := by
  have hbuf : requestBuffer s = s ++ zeros (1025 - s.length) := by
    have hsucc : 1025 - s.length = 1025 - (s.length + 1) + 1 := by omega
    rw [requestBuffer, terminated, zeros, List.drop_replicate, zeros, hsucc, List.replicate_succ]
  rw [hbuf, List.take_append, List.take_of_length_le h, zeros, List.take_replicate, zeros]
  congr 2
  omega

/-- A line of `get_line` with a short first word has white space behind it. -/
theorem firstToken_lt (hline : s.getLast? = some LF ∨ s.length = 1024)
    (hshort : (firstToken s).length ≤ 254) : (firstToken s).length < s.length := by
  have hle : (firstToken s).length ≤ s.length := (List.takeWhile_prefix _).length_le
  rcases hline with hlast | hfull
  · by_contra hge
    have heq : (firstToken s).length = s.length := by omega
    have hself : firstToken s = s := (List.takeWhile_prefix _).eq_of_length heq
    have hmem : LF ∈ firstToken s := by
      rw [hself]
      exact List.mem_of_getLast? hlast
    exact absurd (List.mem_takeWhile_imp hmem) (by decide)
  · omega

/-- The method is the first word of the line. -/
theorem methodWord_eq (hle : s.length ≤ 1024) (hline : s.getLast? = some LF ∨ s.length = 1024)
    (hshort : (firstToken s).length ≤ 254) : methodWord (requestBuffer s) = firstToken s := by
  have hlt := firstToken_lt hline hshort
  rw [methodWord, word, take_requestBuffer hle, List.drop_zero, List.takeWhile_append,
    if_neg (by exact Nat.ne_of_lt hlt)]
  exact List.take_of_length_le hshort

/-- The URL is the next word of the line, as far as it fits. -/
theorem cstr_urlWord_eq (h : 0 ∉ s) (hle : s.length ≤ 1024)
    (hline : s.getLast? = some LF ∨ s.length = 1024) (hshort : (firstToken s).length ≤ 254) :
    cstr (urlWord (requestBuffer s)) = (nextToken s).take 254 := by
  have hmethod := methodWord_eq hle hline hshort
  have hbehind : ((requestBuffer s).take 1024).drop (firstToken s).length =
      (s.dropWhile fun c => !isspace c) ++ zeros (1024 - s.length) := by
    rw [take_requestBuffer hle]
    exact drop_takeWhile_append _ s _
  have hspaces : spaces (requestBuffer s) (firstToken s).length =
      ((s.dropWhile fun c => !isspace c).takeWhile isspace).length := by
    rw [spaces, hbehind, spaces_append_zeros]
  have hnot : 0 ∉ (s.dropWhile fun c => !isspace c).dropWhile isspace := fun hmem =>
    h ((List.dropWhile_suffix _).subset ((List.dropWhile_suffix _).subset hmem))
  rw [urlWord, urlIndex, hmethod, hspaces, word, ← List.drop_drop, hbehind, drop_takeWhile_append]
  exact cstr_word hnot 254 _

/-! ### Nothing is undefined -/

variable {path query : Bytes}

/-- Recording a call is defined. -/
theorem defined_record {e : Event} : (record e).Defined w := defined_modify

/-- A call may wait or be the end of the server, but it is defined. -/
theorem defined_attempt {e : Event} : (attempt e).Defined w := by
  apply defined_ofStep
  cases w.conduct.fate e <;> simp

/-- Reading the request line is defined. -/
theorem defined_readRequest : readRequest.Defined w := by
  have hlen := length_zeros 1025
  refine Defined.bind (defined_getLine (by omega) (by omega)) fun q t hq => ?_
  obtain ⟨s, rest, hchunk, -, -⟩ := (returns_getLine (by omega) (by omega)).mp hq
  have hwhole : readRequest.Returns w _ _ := returns_readRequest.mpr ⟨s, rest, hchunk, rfl, rfl⟩
  exact Returns.defined (hq.bind_iff.mp hwhole)

/-- Opening a file is defined. -/
theorem defined_openFile : (openFile env path).Defined w := by
  refine Defined.bind defined_record fun _ t _ => ?_
  cases env.content path with
  | none => exact defined_pure
  | some content => exact Defined.bind defined_record fun _ _ _ => defined_pure

/-- `echo_code` looks its page up before it opens it. -/
theorem defined_echoCode : (echoCode env).Defined w := by
  refine Defined.bind (Returns.defined (returns_stat.mpr ⟨rfl, rfl⟩)) fun st t hst => ?_
  obtain ⟨rfl, -⟩ := returns_stat.mp hst
  refine Defined.bind defined_cleanHander fun _ t _ => ?_
  refine Defined.bind defined_openFile fun file t hfile => ?_
  cases hc : env.content page404 with
  | none =>
    obtain ⟨-, rfl, -⟩ := (makes_openFile_none hc _ _ _).mp hfile
    exact defined_pure
  | some content =>
    obtain ⟨st, hst⟩ := Option.isSome_iff_exists.mp (env.stat_of_content page404 (by simp [hc]))
    obtain ⟨-, rfl, -⟩ := (makes_openFile_some hc _ _ _).mp hfile
    rw [hst]
    refine Defined.bind defined_attempt fun _ _ _ => ?_
    refine Defined.bind defined_attempt fun _ _ _ => ?_
    exact Defined.bind defined_record fun _ _ _ => defined_pure

/-- `echo_html` is defined. -/
theorem defined_echoHtml {size : Nat} : (echoHtml env path size).Defined w := by
  refine Defined.bind defined_cleanHander fun _ t _ => ?_
  refine Defined.bind defined_openFile fun file t _ => ?_
  cases file with
  | none => exact defined_pure
  | some content =>
    refine Defined.bind defined_attempt fun _ _ _ => ?_
    exact Defined.bind defined_attempt fun _ _ _ => defined_record

/-- Handing on the body is defined. -/
theorem defined_forwardBody {clength : Int} : (forwardBody clength).Defined w := by
  refine Defined.bind ?_ fun _ _ _ => defined_pure
  refine defined_whileLoop (fun _ _ => True) ?_ ?_ (fun _ _ _ _ _ _ _ _ => trivial) trivial
  · intro v t _
    exact defined_pure
  · intro v t t' _ _
    refine Defined.bind defined_recv fun r _ _ => ?_
    exact Defined.bind defined_attempt fun _ _ _ => defined_pure

/-- Handing on the output is defined. -/
theorem defined_forwardOutput {output : Bytes} : (forwardOutput output).Defined w := by
  induction output generalizing w with
  | nil => exact defined_attempt
  | cons ch output ih => exact Defined.bind defined_attempt fun _ _ _ => ih

/-- Running a program is defined. -/
theorem defined_runCgi {clength : Int} : (runCgi env path method query clength).Defined w := by
  have hpipe (p : Pipe) (t : World) : (pipe env p).Defined t := by
    unfold pipe
    split
    · exact Defined.bind defined_record fun _ _ _ =>
        Defined.bind defined_record fun _ _ _ => defined_pure
    · exact defined_pure
  have hinput (t : World) : (cgiInput method clength).Defined t := by
    unfold cgiInput
    split
    · exact defined_forwardBody
    · exact defined_pure
  refine Defined.bind defined_attempt fun _ _ _ => Defined.bind (hpipe _ _) fun opened _ _ => ?_
  split
  · exact defined_pure
  · refine Defined.bind (hpipe _ _) fun opened _ _ => ?_
    split
    · exact defined_pure
    · split
      · exact defined_pure
      · refine Defined.bind defined_record fun _ _ _ => ?_
        refine Defined.bind defined_record fun _ _ _ => ?_
        refine Defined.bind defined_record fun _ _ _ => ?_
        refine Defined.bind (hinput _) fun input _ _ => ?_
        refine Defined.bind defined_forwardOutput fun _ _ _ => ?_
        refine Defined.bind defined_record fun _ _ _ => ?_
        refine Defined.bind defined_record fun _ _ _ => ?_
        exact Defined.bind defined_attempt fun _ _ _ => defined_pure

/-- `excu_cgi` is defined. -/
theorem defined_excuCgi : (excuCgi env path method query).Defined w := by
  unfold excuCgi
  split
  · exact Defined.bind defined_cleanHander fun _ _ _ => defined_runCgi
  · refine Defined.bind defined_readHeaders fun clength t _ => ?_
    split
    · exact Defined.bind defined_echoCode fun _ _ _ => defined_pure
    · exact defined_runCgi

/-- Both suffixes fit into the array of the path. -/
theorem defined_serveFile {start : Nat} {cgi : Bool} (h : Target method url buf start cgi)
    (hurl : url.length ≤ 254) : (serveFile env method buf start cgi).Defined w := by
  have hpath (t : World) : (buildPath buf).Returns t (askedPath method url) t :=
    (h.returns_buildPath hurl).mpr ⟨rfl, rfl⟩
  have hquery (t : World) : (cString (buf.drop start)).Defined t :=
    Returns.defined (returns_cString.mpr ⟨h.query_terminated, rfl, rfl⟩)
  refine Defined.bind (hpath w).defined fun path t hpath' => ?_
  obtain ⟨rfl, -⟩ := hpath'.unique (hpath w)
  refine Defined.bind (Returns.defined (returns_stat.mpr ⟨rfl, rfl⟩)) fun st t _ => ?_
  refine Defined.bind ?_ fun _ _ _ => Defined.bind defined_record fun _ _ _ => defined_pure
  cases st with
  | none => exact Defined.bind defined_echoCode fun _ _ _ => defined_cleanHander
  | some st =>
    refine Defined.bind ?_ fun path t _ => ?_
    · unfold indexPath
      split
      · exact Returns.defined (returns_fit.mpr ⟨length_askedPath hurl, rfl, rfl⟩)
      · exact defined_pure
    · dsimp only
      split
      · refine Defined.bind (hquery _) fun query _ _ => ?_
        exact Defined.bind defined_excuCgi fun _ _ _ => defined_pure
      · exact defined_echoHtml

/-- What is behind the request line is defined. -/
theorem defined_serve (hm : 0 ∈ method) (hu : 0 ∈ url) (hlen : (cstr url).length ≤ 254) :
    (serve env method url).Defined w := by
  refine Defined.bind (Returns.defined (returns_cString.mpr ⟨hm, rfl, rfl⟩)) fun s t hs => ?_
  obtain ⟨-, rfl, -⟩ := returns_cString.mp hs
  by_cases hget : isGet (cstr method) = true
  · obtain ⟨v, hv, hcut⟩ := exists_cutQuery hu
    have htarget := hv.target hget
    rw [isGet] at hget
    simp only [hget, Bool.not_true, Bool.false_and, Bool.false_eq_true, if_false, if_true]
    refine Defined.bind (hcut t).defined fun v' t' hv' => ?_
    obtain ⟨rfl, -⟩ := hv'.unique (hcut t)
    exact defined_serveFile htarget hlen
  · by_cases hpost : isPost (cstr method) = true
    · have htarget := target_of_post hu hget hpost
      rw [isGet] at hget
      rw [isPost] at hpost
      simpa [hget, hpost] using defined_serveFile htarget hlen
    · rw [isGet] at hget
      rw [isPost] at hpost
      simpa [hget, hpost] using Defined.bind defined_echoCode fun _ _ _ => defined_pure

/-- The arrays that the request line is parsed into. -/
theorem exists_of_readRequest (h : readRequest.Returns w (method, url) w') :
    ∃ line, takeChunk w.ending.seen 1024 w.inbox = some (line, w'.inbox) ∧
      method = terminated (methodWord (requestBuffer line)) (zeros 255) ∧
      url = terminated (urlWord (requestBuffer line)) (zeros 255) := by
  obtain ⟨line, rest, hchunk, hresult, rfl⟩ := returns_readRequest.mp h
  obtain ⟨hmethod, hurl⟩ := Prod.mk.inj hresult
  exact ⟨line, hchunk, hmethod, hurl⟩

/-- `HandleSock` never runs into undefined behaviour. -/
theorem defined_handleSock : (handleSock env).Defined w := by
  refine Defined.bind defined_readRequest fun r t hr => ?_
  obtain ⟨line, -, hmethod, hurl⟩ := exists_of_readRequest hr
  refine defined_serve ?_ ?_ ?_
  · rw [hmethod]
    simp [terminated]
  · rw [hurl]
    simp [terminated]
  · rw [hurl, cstr_terminated]
    exact (List.takeWhile_prefix _).length_le.trans length_word_le

/-! ### What the line is parsed into -/

/-- The loop that looks for a query cuts the string in `url` at its first `?`, if it has one.
Then the query starts behind it. -/
structure CutAtQuery (url : Bytes) (v : QueryVars) : Prop where
  unmarked : 63 ∉ cstr v.url
  whole : 63 ∉ cstr url → cstr url = cstr v.url
  parts : 63 ∈ cstr url → cstr url = cstr v.url ++ 63 :: cstr (v.url.drop v.query)

/-- The loop cuts the URL at its first question mark. -/
theorem Cut.cutAtQuery {v : QueryVars} (h : Cut (cstr url) v) : CutAtQuery url v := by
  have hnot : 63 ∉ beforeQuery (cstr url) := by
    intro hmem
    exact absurd (List.mem_takeWhile_imp hmem) (by decide)
  refine ⟨h.url_eq ▸ hnot, ?_, ?_⟩
  · intro hnone
    rw [h.url_eq, (query_of_notMem hnone).1]
  · intro hmark
    obtain ⟨pre, rest, heq, hpre⟩ := List.eq_append_cons_of_mem hmark
    rw [h.url_eq, h.query_eq, heq, beforeQuery_append hpre, afterQuery_append hpre]

/-- What the request line in `buf` is parsed into: the arrays are terminated, the path has room
for both suffixes, and a line without NUL bytes is split at its white space. -/
structure Parsed (buf line method url : Bytes) : Prop where
  buf_terminated : buf.length = 1025 ∧ buf[line.length]? = some 0
  method_terminated : method.length = 255 ∧ 0 ∈ method
  url_terminated : url.length = 255 ∧ 0 ∈ url
  path_terminated : (askedPath (cstr method) (cstr url) ++ ascii "/index.html").length < 1024
  words : 0 ∉ line → firstToken line ≠ [] → (firstToken line).length ≤ 254 →
    cstr method = firstToken line ∧ cstr url = (nextToken line).take 254
  query : isGet (cstr method) = true →
    ∃ v, (∀ w, (cutQuery url).Returns w v w) ∧ CutAtQuery url v

/-- Terminating a string changes no length. -/
theorem length_terminated (hlt : s.length < t.length) :
    (terminated s t).length = t.length := by
  rw [terminated, List.length_append, List.length_cons, List.length_drop]
  omega

/-- What a line that `get_line` has put into the array is parsed into. -/
theorem parsed_of_takeChunk {ends : Bool} {inbox line rest : Bytes}
    (h : takeChunk ends 1024 inbox = some (line, rest)) : Parsed (requestBuffer line) line
      (terminated (methodWord (requestBuffer line)) (zeros 255))
      (terminated (urlWord (requestBuffer line)) (zeros 255)) := by
  have hle := takeChunk_length_le h
  obtain ⟨-, hline⟩ := takeChunk_shape h
  have hmethod : (methodWord (requestBuffer line)).length ≤ 254 := length_word_le
  have hurl : (urlWord (requestBuffer line)).length ≤ 254 := length_word_le
  have hzero (s : Bytes) : 0 ∈ terminated s (zeros 255) := by simp [terminated]
  refine ⟨⟨?_, ?_⟩, ⟨?_, hzero _⟩, ⟨?_, hzero _⟩, ?_, ?_, ?_⟩
  · rw [requestBuffer, length_terminated (by rw [length_zeros]; omega), length_zeros]
  · rw [requestBuffer, terminated, List.getElem?_append_right (Nat.le_refl _), Nat.sub_self]
    rfl
  · rw [length_terminated (by rw [length_zeros]; omega), length_zeros]
  · rw [length_terminated (by rw [length_zeros]; omega), length_zeros]
  · refine length_askedPath ?_
    rw [cstr_terminated]
    exact (List.takeWhile_prefix _).length_le.trans hurl
  · intro hnot _ hshort
    rw [cstr_terminated, cstr_terminated, methodWord_eq hle hline hshort,
      cstr_urlWord_eq hnot hle hline hshort]
    refine ⟨cstr_of_notMem fun hmem => hnot ?_, rfl⟩
    exact (List.takeWhile_prefix _).subset hmem
  · intro _
    obtain ⟨v, hv, hcut⟩ := exists_cutQuery (hzero (urlWord (requestBuffer line)))
    exact ⟨v, hcut, hv.cutAtQuery⟩

/-- No index of `HandleSock` leaves its array, whatever it reads, and every line that
`get_line` has put into its array is parsed into its words. -/
theorem request_line_parsed (env : Env) (w : World) : (handleSock env).Defined w ∧
    ∀ count buf w', (getLine (zeros 1025) 1025).Returns w (count, buf) w' →
      ∃ method url, readRequest.Returns w (method, url) w' ∧
        Parsed buf (buf.take count) method url := by
  refine ⟨defined_handleSock, fun count buf w' h => ?_⟩
  have hlen := length_zeros 1025
  obtain ⟨line, rest, hchunk, hresult, rfl⟩ := (returns_getLine (by omega) (by omega)).mp h
  obtain ⟨rfl, rfl⟩ := Prod.mk.inj hresult
  refine ⟨_, _, returns_readRequest.mpr ⟨line, rest, hchunk, rfl, rfl⟩, ?_⟩
  have hline : (terminated line (zeros 1025)).take line.length = line := List.take_left
  rw [hline]
  exact parsed_of_takeChunk hchunk

end NetworkCode.Httpd
