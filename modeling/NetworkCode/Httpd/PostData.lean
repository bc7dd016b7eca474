import NetworkCode.Core.Lists
import NetworkCode.Httpd.CgiAdd

/-!
# The array `post_data`

In their POST branch `cgi_add`, `cgi_sql`, `cgi_show` and `register` copy as many bytes of
their standard input to `post_data` as `CONTENT_LENGTH` says. The number is not compared with
the 1024 bytes of the array, and what `read` returns is not looked at: behind the end of the
input the loop goes on to store what is in `ch`. `foldlM_postBranch` says that `cgiArgument` is
the array that the assignments of the branch leave.
-/

namespace NetworkCode.Httpd

open Text

/-! ### The loop -/

/-- The variables of the loop, the rest of the standard input, the bytes that `read` gave, and
the assignments to elements of `post_data`. A byte that has no value is missing. -/
structure Posting where
  i : Nat
  ch : Option UInt8
  input : Bytes
  got : Bytes
  stores : List (Nat × Option UInt8)

/-- In front of the loop. -/
def Posting.start (input : Bytes) : Posting := ⟨0, none, input, [], []⟩

/-- One turn of the loop. -/
def Posting.turn (p : Posting) : Posting :=
  match p.input with
  | b :: input => ⟨p.i + 1, some b, input, p.got ++ [b], p.stores ++ [(p.i, some b)]⟩
  | [] => { p with i := p.i + 1, stores := p.stores ++ [(p.i, p.ch)] }

/-- Some turns of the loop. -/
def Posting.turns : Nat → Posting → Posting
  | 0, p => p
  | n + 1, p => turns n p.turn

/-- The NUL behind the loop. -/
def Posting.terminate (p : Posting) : Posting := { p with stores := p.stores ++ [(p.i, some 0)] }

/-- The POST branch of `main`. -/
def postBranch (environment : List Bytes) (input : Bytes) : Option Posting := do
  let clength := atoi (← getenv environment (ascii "CONTENT_LENGTH"))
  return (Posting.turns clength.toNat (.start input)).terminate

/-- All assignments are to elements of `post_data`, of the bytes that were read and of the NUL. -/
structure Posting.Kept (p : Posting) : Prop where
  inside : ∀ s ∈ p.stores, s.1 < 1024
  read : p.stores.map Prod.snd = p.got.map some ++ [some 0]

variable {environment : List Bytes} {method input inbox : Bytes} {p : Posting} {n : Nat}

/-- The loop assigns to one element after the other. -/
theorem turns_spec (n : Nat) (p : Posting) : (p.turns n).i = p.i + n ∧
    (p.turns n).stores.map Prod.fst = p.stores.map Prod.fst ++ List.range' p.i n ∧
    (p.turns n).got = p.got ++ p.input.take n := by
  induction n generalizing p with
  | zero => simp [Posting.turns]
  | succ n ih =>
    have hturn : p.turn.i = p.i + 1 ∧
        p.turn.stores.map Prod.fst = p.stores.map Prod.fst ++ [p.i] ∧
        p.turn.got ++ p.turn.input.take n = p.got ++ p.input.take (n + 1) := by
      unfold Posting.turn
      cases p.input <;> simp
    obtain ⟨hi, hfst, hgot⟩ := ih p.turn
    rw [Posting.turns, hi, hfst, hgot, hturn.1, hturn.2.1, hturn.2.2, List.range'_succ,
      List.append_assoc, Nat.add_assoc, Nat.add_comm 1 n]
    exact ⟨rfl, rfl, rfl⟩

/-- The loop stores what `readPostData` reads, where all of it has a value. -/
theorem turns_values (n : Nat) (p : Posting) : ∃ values,
    (p.turns n).stores.map Prod.snd = p.stores.map Prod.snd ++ values ∧
      values.mapM id = readPostData n p.ch p.input := by
  induction n generalizing p with
  | zero => exact ⟨[], by simp [Posting.turns], rfl⟩
  | succ n ih =>
    obtain ⟨values, hvalues, hread⟩ := ih p.turn
    rw [Posting.turns, hvalues]
    cases hinput : p.input with
    | nil =>
      refine ⟨p.ch :: values, by simp [Posting.turn, hinput], ?_⟩
      rw [List.mapM_cons, hread]
      cases hch : p.ch with
      | none => simp [readPostData]
      | some c =>
        simp only [Posting.turn, hinput, readPostData, hch, id_eq, Option.map_eq_bind]
        rfl
    | cons b input =>
      refine ⟨some b :: values, by simp [Posting.turn, hinput], ?_⟩
      rw [List.mapM_cons, hread]
      simp only [Posting.turn, hinput, readPostData, id_eq, Option.map_eq_bind]
      rfl

/-- Where the input is long enough, the loop reads what it stores. -/
theorem readPostData_of_le {ch : Option UInt8} (h : n ≤ input.length) :
    readPostData n ch input = some (input.take n) := by
  induction n generalizing ch input with
  | zero => rfl
  | succ n ih =>
    cases input with
    | nil => cases h
    | cons b input =>
      rw [readPostData, ih (Nat.le_of_succ_le_succ h), List.take_succ_cons, Option.map_some]

/-! ### The array -/

/-- An assignment to an element of an array: it must be there, and the byte have a value. -/
def assign (array : Bytes) (s : Nat × Option UInt8) : Option Bytes :=
  s.2.bind fun b => if s.1 < array.length then some (array.set s.1 b) else none

/-- Assignments to one element of an array of zeros after the other. -/
theorem foldlM_assign (values : List (Option UInt8)) (written : Bytes) (k : Nat) :
    ((List.range' written.length values.length).zip values).foldlM assign (written ++ zeros k) =
      if values.length ≤ k then
        (values.mapM id).map fun s => written ++ s ++ zeros (k - values.length)
      else none := by
  induction values generalizing written k with
  | nil => simp
  | cons v values ih =>
    rw [List.length_cons, List.range'_succ, List.zip_cons_cons, List.foldlM_cons, List.mapM_cons]
    cases v with
    | none => simp [assign]
    | some b =>
      cases k with
      | zero => simp [assign, zeros]
      | succ k =>
        have hset : assign (written ++ zeros (k + 1)) (written.length, some b) =
            some ((written ++ [b]) ++ zeros k) := by
          simp [assign, zeros, List.replicate_succ]
        have hlen : written.length + 1 = (written ++ [b]).length := by simp
        simp only [hset, hlen, Option.bind_eq_bind, Option.bind_some, ih, Nat.add_le_add_iff_right]
        split
        · cases values.mapM id <;> simp
        · rfl

/-- The whole branch: it assigns to one element more than it was told to read. -/
theorem postBranch_spec {value : Bytes}
    (hlength : getenv environment (ascii "CONTENT_LENGTH") = some value)
    (hn : (atoi value).toNat = n) : ∃ p values, postBranch environment input = some p ∧
      p.stores.map Prod.fst = List.range' 0 (n + 1) ∧
      p.stores.map Prod.snd = values ++ [some 0] ∧ p.got = input.take n ∧ values.length = n ∧
      values.mapM id = readPostData n none input := by
  obtain ⟨hi, hfst, hgot⟩ := turns_spec n (.start input)
  obtain ⟨values, hsnd, hread⟩ := turns_values n (.start input)
  simp only [Posting.start, List.map_nil, List.nil_append, Nat.zero_add] at hi hfst hgot hsnd hread
  have hlen : values.length = n := by
    rw [← hsnd, List.length_map, ← List.length_map (f := Prod.fst), hfst, List.length_range']
  refine ⟨(Posting.turns n (.start input)).terminate, values, ?_, ?_, ?_, hgot, hlen, hread⟩
  · simp [postBranch, hlength, hn]
  · simp [Posting.terminate, Posting.start, hfst, hi, List.range'_1_concat]
  · simp [Posting.terminate, Posting.start, hsnd]

/-- The assignments make of `post_data` the array that the programs get. -/
theorem foldlM_postBranch (hmethod : sameIgnoringCase (ascii "GET") method = false) :
    ((postBranch environment input).bind fun p => p.stores.foldlM assign (zeros 1024)) =
      cgiArgument environment method input := by
  cases hlength : getenv environment (ascii "CONTENT_LENGTH") with
  | none => simp [postBranch, cgiArgument, hmethod, hlength]
  | some value =>
    obtain ⟨p, values, hp, hfst, hsnd, -, hlen, hread⟩ :=
      @postBranch_spec _ input _ _ hlength rfl
    have hfold := foldlM_assign (values ++ [some 0]) [] 1024
    rw [List.mapM_append, hread, List.length_append, hlen, List.length_singleton, List.nil_append,
      List.length_nil] at hfold
    rw [hp, Option.bind_some, List.zip_of_prod hfst hsnd, hfold]
    simp only [cgiArgument, hmethod, hlength, Option.bind_eq_bind, Option.bind_some,
      Bool.false_eq_true, if_false]
    cases hs : readPostData (atoi value).toNat none input with
    | none => simp
    | some s =>
      have hlens : s.length = (atoi value).toNat := by
        rw [hs, mapM_eq_some_iff, List.map_id] at hread
        rw [← hlen, hread, List.length_map]
      have hroom : (atoi value).toNat + 1 ≤ 1024 ↔ s.length < 1024 := by omega
      simp only [Option.bind_some, postData, hroom]
      split
      · rename_i hlt
        have hzeros : zeros (1024 - s.length) = 0 :: zeros (1024 - (s.length + 1)) := by
          have hsucc : 1024 - s.length = (1024 - (s.length + 1)) + 1 := by omega
          rw [hsucc, zeros, zeros, List.replicate_succ]
        rw [hzeros, ← hlens]
        simp
      · rfl

/-! ### What is kept -/

/-- The branch keeps to its array and its input exactly when it is told to read fewer bytes than
the array has, and no more than there are. -/
theorem kept_iff {value : Bytes}
    (hlength : getenv environment (ascii "CONTENT_LENGTH") = some value)
    (hp : postBranch environment input = some p) :
    p.Kept ↔ atoi value ≤ 1023 ∧ atoi value ≤ input.length := by
  obtain ⟨p', values, hp', hfst, hsnd, hgot, hlen, hread⟩ :=
    @postBranch_spec _ input _ _ hlength rfl
  obtain rfl := Option.some.inj (hp.symm.trans hp')
  have hinside : (∀ s ∈ p.stores, s.1 < 1024) ↔ atoi value ≤ 1023 := by
    have hmem : (∀ s ∈ p.stores, s.1 < 1024) ↔ ∀ i ∈ p.stores.map Prod.fst, i < 1024 := by simp
    rw [hmem, hfst]
    constructor
    · intro h
      have hlast := h (atoi value).toNat (by simp)
      omega
    · intro h i hi
      rw [List.mem_range'_1] at hi
      omega
  have hstored : p.stores.map Prod.snd = p.got.map some ++ [some 0] ↔
      atoi value ≤ input.length := by
    rw [hsnd, hgot, List.append_left_inj]
    constructor
    · intro h
      have hlens := congrArg List.length h
      rw [hlen, List.length_map, List.length_take] at hlens
      omega
    · intro h
      rw [readPostData_of_le (by omega), mapM_eq_some_iff, List.map_id] at hread
      exact hread
  exact ⟨fun h => ⟨hinside.mp h.inside, hstored.mp h.read⟩,
    fun h => ⟨hinside.mpr h.1, hstored.mpr h.2⟩⟩

/-! ### Behind the server -/

/-- The text of a number is its decimal digits. -/
theorem ascii_toString (n : Int) : ascii (toString n) = decimal n := by
  cases n with
  | ofNat n =>
    have h : toString (n : Int) = String.ofList (Nat.toDigits 10 n) := rfl
    rw [Int.ofNat_eq_natCast, decimal_natCast, h, ascii, String.toList_ofList]
    rfl
  | negSucc n =>
    have h : toString (Int.negSucc n) = "-" ++ String.ofList (Nat.toDigits 10 (n + 1)) := rfl
    rw [decimal, if_pos (Int.negSucc_lt_zero n), h, ascii, String.toList_append,
      String.toList_ofList, String.toList_ofList]
    rfl

/-- Reading an `int` that was written gives it back. -/
theorem atoi_decimal {n : Int} (hlow : -2 ^ 31 ≤ n) (hhigh : n < 2 ^ 31) :
    atoi (decimal n) = n := by
  by_cases hneg : n < 0
  · have hstrtol : strtol (45 :: digits n.natAbs) = max (-2 ^ 63) (-(n.natAbs : Int)) := by
      have hhead : (45 :: digits n.natAbs).dropWhile isspace = 45 :: digits n.natAbs := rfl
      simp only [strtol, hhead, value_takeWhile_digits]
    rw [decimal, if_pos hneg, atoi, hstrtol, max_eq_right (by omega)]
    rw [Int.bmod_eq_of_le (by omega) (by omega)]
    omega
  · obtain ⟨m, rfl⟩ := Int.eq_ofNat_of_zero_le (not_lt.mp hneg)
    rw [decimal_natCast]
    exact atoi_digits (by omega)

/-- `atoi` gives an `int`. -/
theorem atoi_bounds (s : Bytes) : -2 ^ 31 ≤ atoi s ∧ atoi s < 2 ^ 31 := by
  have hlow : -((2 ^ 32 : Nat) / 2 : Int) ≤ _ := Int.le_bmod (x := strtol s) (by decide)
  have hhigh : _ < (((2 ^ 32 : Nat) : Int) + 1) / 2 := Int.bmod_lt (x := strtol s) (by decide)
  rw [atoi]
  omega

/-- The child process gets the number that the server has. -/
theorem getenv_contentLength (hmethod : sameIgnoringCase (ascii "GET") method = false)
    (query header : Bytes) : ∃ value,
      getenv (cgiEnvironment method query (atoi header)) (ascii "CONTENT_LENGTH") = some value ∧
        atoi value = atoi header := by
  obtain ⟨hlow, hhigh⟩ := atoi_bounds header
  have hplain : 0 ∉ decimal (atoi header) := by
    rw [decimal]
    intro h
    split at h
    · obtain he | hmem := List.mem_cons.mp h
      · cases he
      · exact absurd (mem_digits hmem).1 (by decide)
    · exact absurd (mem_digits h).1 (by decide)
  refine ⟨decimal (atoi header), ?_, atoi_decimal hlow hhigh⟩
  have hget : getenv (cgiEnvironment method query (atoi header)) (ascii "CONTENT_LENGTH") =
      some (cstr (ascii (toString (atoi header)))) := by
    rw [cgiEnvironment, hmethod]
    rfl
  rw [hget, ascii_toString]
  exact congrArg some (cstr_of_notMem hplain)

/-- For every announced length that the server forwards, the branch keeps to its array and its
input exactly when the length is less than that of the array and at most that of the input. What
the server hands over always has the announced length. -/
theorem post_kept_iff (hmethod : sameIgnoringCase (ascii "GET") method = false)
    (query header : Bytes) :
    (∀ input, ∃ p, postBranch (cgiEnvironment method query (atoi header)) input = some p ∧
      (p.Kept ↔ atoi header ≤ 1023 ∧ atoi header ≤ input.length)) ∧
    ∀ inbox, ∃ p, postBranch (cgiEnvironment method query (atoi header))
      (bodyBytes (atoi header).toNat 0 inbox) = some p ∧ (p.Kept ↔ atoi header ≤ 1023) := by
  obtain ⟨value, hvalue, hsame⟩ := getenv_contentLength hmethod query header
  have hbranch (input : Bytes) :
      ∃ p, postBranch (cgiEnvironment method query (atoi header)) input = some p ∧
        (p.Kept ↔ atoi header ≤ 1023 ∧ atoi header ≤ input.length) := by
    obtain ⟨p, -, hp, -⟩ := @postBranch_spec _ input _ _ hvalue rfl
    exact ⟨p, hp, hsame ▸ kept_iff hvalue hp⟩
  refine ⟨hbranch, fun inbox => ?_⟩
  obtain ⟨p, hp, hkept⟩ := hbranch (bodyBytes (atoi header).toNat 0 inbox)
  refine ⟨p, hp, hkept.trans (and_iff_left ?_)⟩
  rw [length_bodyBytes]
  omega

/-- A body of the announced length is kept. -/
theorem post_kept_iff_short :
    ∃ p, postBranch (cgiEnvironment (ascii "POST") [] (atoi (ascii "2"))) (ascii "ab") = some p ∧
      p.Kept := by
  obtain ⟨p, hp, hkept⟩ := (@post_kept_iff (ascii "POST") rfl [] (ascii "2")).1 (ascii "ab")
  exact ⟨p, hp, hkept.mpr (by decide)⟩

/-- The NUL behind a body of 1024 bytes is stored behind the array; behind a body that is shorter
than announced its last byte is stored again. -/
theorem post_not_kept :
    (¬ ∀ header inbox p, atoi header ≠ 0 → postBranch (cgiEnvironment (ascii "POST") []
      (atoi header)) (bodyBytes (atoi header).toNat 0 inbox) = some p →
        ∀ s ∈ p.stores, s.1 < 1024) ∧
    ¬ ∀ header input p, atoi header ≠ 0 → postBranch (cgiEnvironment (ascii "POST") []
      (atoi header)) input = some p → p.stores.map Prod.snd = p.got.map some ++ [some 0] := by
  have hpost : sameIgnoringCase (ascii "GET") (ascii "POST") = false := rfl
  constructor
  · intro h
    obtain ⟨value, hvalue, hsame⟩ := getenv_contentLength hpost [] (ascii "1024")
    have hlength : atoi (ascii "1024") = 1024 := by decide
    obtain ⟨p, -, hp, hfst, -⟩ :=
      @postBranch_spec _ (bodyBytes (atoi (ascii "1024")).toNat 0 []) _ _ hvalue rfl
    have hlast : 1024 ∈ p.stores.map Prod.fst := by
      rw [hfst, hsame, hlength, List.mem_range'_1]
      decide
    obtain ⟨s, hs, he⟩ := List.mem_map.mp hlast
    have hlt := h (ascii "1024") [] p (by decide) hp s hs
    omega
  · intro h
    obtain ⟨p, hp, hvalues⟩ : ∃ p, postBranch (cgiEnvironment (ascii "POST") []
        (atoi (ascii "2"))) (ascii "a") = some p ∧
          p.stores.map Prod.snd ≠ p.got.map some ++ [some 0] := by
      refine ⟨(Posting.turns 2 (.start (ascii "a"))).terminate, rfl, ?_⟩
      decide
    exact hvalues (h (ascii "2") (ascii "a") p (by decide) hp)

end NetworkCode.Httpd
