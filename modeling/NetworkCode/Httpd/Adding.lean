import NetworkCode.Httpd.PostData

/-!
# The sum that `cgi_add` prints

Of a body `v1=A&v2=B` with two numerals of 32 bits `exec_calc` prints `A + B`, as long as the
body fits its array and the sum an `int`. It does not check that a body is of this form: it
rejects one that begins with a NUL, prints a sum for every other one with an `&`, and without
an `&` uses `v2` before it has a value.
-/

namespace NetworkCode.Httpd

open Text

/-! ### Numerals and pages -/

/-- The value of a string of at least one digit. -/
def digitsValue (ds : Bytes) : Option Nat :=
  if ds ≠ [] ∧ ds.all isdigit then some (value ds) else none

/-- The integer that a string spells: a sign or none, and digits. -/
def spelled : Bytes → Option Int
  | 45 :: ds => (digitsValue ds).map fun k : Nat => -(k : Int)
  | 43 :: ds => (digitsValue ds).map fun k : Nat => (k : Int)
  | ds => (digitsValue ds).map fun k : Nat => (k : Int)

/-- The string spells a signed integer of 32 bits. -/
structure Spells (s : Bytes) (n : Int) : Prop where
  spelled : spelled s = some n
  low : -2 ^ 31 ≤ n
  high : n < 2 ^ 31

/-- The body is `v1=A&v2=B` with spellings of `m` and `n`. -/
structure Sums (body a b : Bytes) (m n : Int) : Prop where
  body : body = ascii "v1=" ++ a ++ 38 :: (ascii "v2=" ++ b)
  left : Spells a m
  right : Spells b n

/-- What every page begins with. -/
def pageStart : Bytes := ascii "<html><br/>\n<body background=\"./pika.jpg\"><br/>"

/-- The page for two values with this sum. -/
def sumPage (a b : Bytes) (sum : Int) : Bytes :=
  pageStart ++ (ascii "v1=" ++ a ++ ascii "<br/>\n" ++ (ascii "v2=" ++ b) ++ ascii "<br/>\n" ++
    ascii "<p>v1+v2=" ++ ascii (toString sum) ++ ascii "<br/>\n") ++
      ascii "</body><br/>\n</html><br/>\n"

/-- The page that reports an error. -/
def errorPage : Bytes := pageStart ++ ascii "<p>not cgi arg<br/>\n"

/-- The program is started for a POST of this length. -/
structure Matching (environment : List Bytes) (body : Bytes) : Prop where
  method : getenv environment (ascii "REQUEST_METHOD") = some (ascii "POST")
  length : ∃ value, getenv environment (ascii "CONTENT_LENGTH") = some value ∧
    atoi value = body.length

/-- For a body `v1=A&v2=B` the program prints the exact sum, and for every other one it reports
an error. -/
def AddsOrReports (environment : List Bytes) (body : Bytes) : Prop :=
  (∀ a b m n, Sums body a b m n → cgiAdd environment body = some (sumPage a b (m + n))) ∧
    ((¬ ∃ a b m n, Sums body a b m n) → cgiAdd environment body = some errorPage)

variable {environment : List Bytes} {body a b s : Bytes} {m n : Int}

/-! ### Reading a numeral -/

/-- A text of digits has the value that `atoi` reads. -/
theorem digitsValue_eq_some {ds : Bytes} {k : Nat} (h : digitsValue ds = some k) :
    ds ≠ [] ∧ (∀ c ∈ ds, isdigit c = true) ∧ value (ds.takeWhile isdigit) = k := by
  unfold digitsValue at h
  split at h
  · rename_i hds
    have hall := List.all_eq_true.mp hds.2
    rw [List.takeWhile_eq_self_iff.mpr hall]
    exact ⟨hds.1, hall, Option.some.inj h⟩
  · cases h

/-- A digit is no white space, no separator and no NUL. -/
theorem ne_of_isdigit {c : UInt8} (h : isdigit c = true) : isspace c = false ∧ c ≠ 38 ∧ c ≠ 0 := by
  simp only [isdigit, Bool.and_eq_true, decide_eq_true_eq, UInt8.le_iff_toNat_le] at h
  obtain ⟨hlo, hhi⟩ := h
  have hne {d : UInt8} (hd : d.toNat < 48) : c ≠ d := by
    rintro rfl
    exact absurd hd (not_lt.mpr hlo)
  refine ⟨?_, hne (by decide), hne (by decide)⟩
  simp only [isspace, Bool.or_eq_false_iff, beq_eq_false_iff_ne, Bool.and_eq_false_iff,
    decide_eq_false_iff_not, UInt8.le_iff_toNat_le]
  refine ⟨hne (by decide), .inr ?_⟩
  change ¬ c.toNat ≤ 13
  change 48 ≤ c.toNat at hlo
  omega

/-- A numeral is a sign and digits, or just digits. -/
theorem spelled_cases (h : spelled s = some n) :
    (∃ ds k, s = 45 :: ds ∧ digitsValue ds = some k ∧ n = -(k : Int)) ∨
      (∃ ds k, s = 43 :: ds ∧ digitsValue ds = some k ∧ n = k) ∨
        ∃ k, digitsValue s = some k ∧ n = k := by
  unfold spelled at h
  split at h
  · obtain ⟨k, hk, rfl⟩ := Option.map_eq_some_iff.mp h
    exact .inl ⟨_, k, rfl, hk, rfl⟩
  · obtain ⟨k, hk, rfl⟩ := Option.map_eq_some_iff.mp h
    exact .inr (.inl ⟨_, k, rfl, hk, rfl⟩)
  · obtain ⟨k, hk, rfl⟩ := Option.map_eq_some_iff.mp h
    exact .inr (.inr ⟨k, hk, rfl⟩)

/-- `strtol` reads a numeral, up to its own bounds. -/
theorem strtol_spelled (h : spelled s = some n) (hlow : -2 ^ 63 ≤ n) (hhigh : n ≤ 2 ^ 63 - 1) :
    strtol s = n := by
  rcases spelled_cases h with ⟨ds, k, rfl, hk, rfl⟩ | ⟨ds, k, rfl, hk, rfl⟩ | ⟨k, hk, rfl⟩
  · have hhead : (45 :: ds).dropWhile isspace = 45 :: ds := rfl
    simp only [strtol, hhead, (digitsValue_eq_some hk).2.2]
    exact max_eq_right hlow
  · have hhead : (43 :: ds).dropWhile isspace = 43 :: ds := rfl
    simp only [strtol, hhead, (digitsValue_eq_some hk).2.2]
    exact min_eq_right hhigh
  · obtain ⟨hne, hall, hvalue⟩ := digitsValue_eq_some hk
    obtain ⟨c, s, rfl⟩ := List.exists_cons_of_ne_nil hne
    have hc := hall c List.mem_cons_self
    have hhead : (c :: s).dropWhile isspace = c :: s := by
      rw [List.dropWhile_cons, (ne_of_isdigit hc).1]
      rfl
    rw [strtol, hhead]
    split
    · rename_i he
      rw [(List.cons.inj he).1] at hc
      exact absurd hc (by decide)
    · rename_i he
      rw [(List.cons.inj he).1] at hc
      exact absurd hc (by decide)
    · rw [hvalue]
      exact min_eq_right hhigh

/-- A numeral has no separator and no NUL. -/
theorem Spells.plain (h : Spells s n) : ∀ c ∈ s, c ≠ 38 ∧ c ≠ 0 := by
  have hdigits {ds : Bytes} {k : Nat} (hk : digitsValue ds = some k) :
      ∀ c ∈ ds, c ≠ 38 ∧ c ≠ 0 := fun c hc => (ne_of_isdigit ((digitsValue_eq_some hk).2.1 c hc)).2
  rcases spelled_cases h.spelled with ⟨ds, k, rfl, hk, -⟩ | ⟨ds, k, rfl, hk, -⟩ | ⟨k, hk, -⟩
  · exact List.forall_mem_cons.mpr ⟨by decide, hdigits hk⟩
  · exact List.forall_mem_cons.mpr ⟨by decide, hdigits hk⟩
  · exact hdigits hk

/-- `atoi` reads a numeral of 32 bits. -/
theorem Spells.atoi (h : Spells s n) : atoi s = n := by
  have hlow := h.low
  have hhigh := h.high
  rw [Text.atoi, strtol_spelled h.spelled (by omega) (by omega)]
  exact Int.bmod_eq_of_le (by omega) (by omega)

/-- A body is a sum in one way at most. -/
theorem Sums.unique {a' b' : Bytes} {m' n' : Int} (h : Sums body a b m n)
    (h' : Sums body a' b' m' n') : a = a' ∧ b = b' ∧ m = m' ∧ n = n' := by
  have hplain {key v : Bytes} {k : Int} (hkey : 38 ∉ key) (hv : Spells v k) : 38 ∉ key ++ v := by
    intro hmem
    exact (List.mem_append.mp hmem).elim hkey fun hvalue => (hv.plain 38 hvalue).1 rfl
  have hbody := h.body.symm.trans h'.body
  obtain ⟨hleft, -, hright⟩ := (List.append_cons_inj_of_notMem (hplain (by decide) h.left)
    (hplain (by decide) h.right)).mp hbody
  obtain rfl := List.append_cancel_left hleft
  obtain rfl := List.append_cancel_left hright
  exact ⟨rfl, rfl, Option.some.inj (h.left.spelled.symm.trans h'.left.spelled),
    Option.some.inj (h.right.spelled.symm.trans h'.right.spelled)⟩

/-! ### What the program does with its body -/

/-- The program gets its body in `post_data` when that has room for it. -/
theorem cgiArgument_post (h : Matching environment body) :
    cgiArgument environment (ascii "POST") body = postData body := by
  obtain ⟨value, hvalue, hlength⟩ := h.length
  have hpost : sameIgnoringCase (ascii "GET") (ascii "POST") = false := rfl
  have hread : readPostData body.length none body = some body := by
    rw [readPostData_of_le (Nat.le_refl _), List.take_length]
  simp [cgiArgument, hpost, hvalue, hlength, hread]

/-- The pages of the program, where `exec_calc` is defined. -/
theorem cgiAdd_post (h : Matching environment body) :
    cgiAdd environment body = ((postData body).bind (execCalc environment)).map fun r =>
      if r.2 then pageStart ++ r.1
      else pageStart ++ r.1 ++ ascii "</body><br/>\n</html><br/>\n" := by
  have hlen : ¬ 256 ≤ (ascii "POST").length := by decide
  simp only [cgiAdd, h.method, cgiArgument_post h, hlen, if_false]
  cases postData body with
  | none => rfl
  | some arg => cases hcalc : execCalc environment arg <;> simp [hcalc, pageStart]

/-- The string behind some bytes of an array. -/
theorem stringAt_append_zero {array s : Bytes} {i : Nat} (before rest : Bytes) (h : 0 ∉ s)
    (harray : array = before ++ (s ++ 0 :: rest)) (hi : i = before.length) :
    stringAt array i = some s := by
  have hdrop : array.drop i = s ++ 0 :: rest := by rw [harray, hi, List.drop_left]
  rw [stringAt, hdrop, if_pos (by simp), cstr_append_nul h _]

/-- The separator and NUL can be looked for one byte after the other. -/
theorem ne_of_all {s : Bytes} (h : s.all (fun c => c != 38 && c != 0) = true) :
    ∀ c ∈ s, c ≠ 38 ∧ c ≠ 0 := by
  simpa using h

/-- `exec_calc` on the array of a sum. -/
theorem execCalc_sums (hm : Matching environment body) (h : Sums body a b m n) (k : Nat) :
    execCalc environment (body ++ zeros (k + 1)) = (addInt m n).map fun sum =>
      (ascii "v1=" ++ a ++ ascii "<br/>\n" ++ (ascii "v2=" ++ b) ++ ascii "<br/>\n" ++
        ascii "<p>v1+v2=" ++ ascii (toString sum) ++ ascii "<br/>\n", false) := by
  obtain ⟨value, hvalue, hlength⟩ := hm.length
  obtain ⟨v1, hv1⟩ : ∃ v1, v1 = ascii "v1=" := ⟨_, rfl⟩
  obtain ⟨v2, hv2⟩ : ∃ v2, v2 = ascii "v2=" := ⟨_, rfl⟩
  have hlen1 : v1.length = 3 := by rw [hv1]; rfl
  have hlen2 : v2.length = 3 := by rw [hv2]; rfl
  have hplain1 : ∀ c ∈ v1 ++ a, c ≠ 38 ∧ c ≠ 0 := by
    rw [hv1]
    exact List.forall_mem_append.mpr ⟨ne_of_all rfl, h.left.plain⟩
  have hplain2 : ∀ c ∈ v2 ++ b, c ≠ 38 ∧ c ≠ 0 := by
    rw [hv2]
    exact List.forall_mem_append.mpr ⟨ne_of_all rfl, h.right.plain⟩
  have hzero {s : Bytes} (hs : ∀ c ∈ s, c ≠ 38 ∧ c ≠ 0) : 0 ∉ s := fun hc => (hs 0 hc).2 rfl
  have hbody : body = v1 ++ a ++ 38 :: (v2 ++ b) := by rw [hv1, hv2]; exact h.body
  -- the separator is found, and the array is cut there
  have hfind : (body ++ zeros (k + 1)).take (body.length : Int).toNat = body := by
    rw [Int.toNat_natCast, List.take_left]
  have hidx : body.findIdx? (· == 38) = some (v1 ++ a).length := by
    have hnone : (v1 ++ a).findIdx? (· == 38) = none :=
      List.findIdx?_eq_none_iff.mpr fun c hc => by simpa using (hplain1 c hc).1
    rw [hbody, List.findIdx?_append, hnone, Option.none_or, List.findIdx?_cons]
    simp
  obtain ⟨cut, hcut⟩ : ∃ cut, cut = (body ++ zeros (k + 1)).set (v1 ++ a).length 0 := ⟨_, rfl⟩
  have hset : cut = v1 ++ a ++ 0 :: (v2 ++ b ++ 0 :: zeros k) := by
    rw [hcut, hbody, List.append_assoc, List.set_append_right _ _ (Nat.le_refl _), Nat.sub_self]
    simp [zeros, List.replicate_succ]
  have hstring1 : stringAt cut 0 = some (v1 ++ a) :=
    stringAt_append_zero [] (v2 ++ b ++ 0 :: zeros k) (hzero hplain1) hset rfl
  have hnum1 : stringAt cut 3 = some a :=
    stringAt_append_zero v1 (v2 ++ b ++ 0 :: zeros k) (hzero h.left.plain)
      (by rw [hset, List.append_assoc]) hlen1.symm
  have hstring2 : stringAt cut ((v1 ++ a).length + 1) = some (v2 ++ b) :=
    stringAt_append_zero (v1 ++ a ++ [0]) (zeros k) (hzero hplain2) (by rw [hset]; simp)
      (by simp only [List.length_append, List.length_singleton])
  have hnum2 : stringAt cut ((v1 ++ a).length + 1 + 3) = some b :=
    stringAt_append_zero (v1 ++ a ++ [0] ++ v2) (zeros k) (hzero h.right.plain)
      (by rw [hset]; simp) (by simp only [List.length_append, List.length_singleton, hlen2])
  have hhead : (body ++ zeros (k + 1)).head? = some 118 := by rw [hbody, hv1]; rfl
  have hne : ((118 : UInt8) == 0) = false := rfl
  simp only [execCalc, hhead, Option.bind_eq_bind, Option.bind_some, hne, Bool.false_eq_true,
    if_false, hvalue, hlength, hfind, hidx, ← hcut, hstring1, hnum1, hstring2, hnum2, h.left.atoi,
    h.right.atoi, ← hv1, ← hv2]
  cases addInt m n <;> rfl

/-- The program on a sum: the page with the exact sum, unless the array or the addition
overflows. -/
theorem cgiAdd_sums_iff (hm : Matching environment body) (h : Sums body a b m n) :
    cgiAdd environment body = some (sumPage a b (m + n)) ↔
      body.length ≤ 1023 ∧ -2 ^ 31 ≤ m + n ∧ m + n < 2 ^ 31 := by
  rw [cgiAdd_post hm, postData]
  by_cases hroom : body.length < 1024
  · obtain ⟨k, hk⟩ : ∃ k, 1024 - body.length = k + 1 := ⟨1023 - body.length, by omega⟩
    rw [if_pos hroom, Option.bind_some, hk, execCalc_sums hm h, addInt]
    by_cases hsum : -2 ^ 31 ≤ m + n ∧ m + n < 2 ^ 31
    · rw [if_pos hsum]
      exact iff_of_true rfl ⟨by omega, hsum⟩
    · rw [if_neg hsum]
      exact iff_of_false (by simp) fun hall => hsum hall.2
  · rw [if_neg hroom, Option.bind_none]
    exact iff_of_false (by simp) fun hall => by omega

/-- `exec_calc` exits for an empty argument only. -/
theorem execCalc_stays {c : UInt8} {arg : Bytes} {r : Bytes × Bool} (hc : c ≠ 0)
    (h : execCalc environment (c :: arg) = some r) : r.2 = false := by
  simp only [execCalc, List.head?_cons, Option.bind_eq_bind, Option.bind_some, beq_iff_eq, hc,
    if_false, Option.bind_eq_some_iff] at h
  obtain ⟨_, -, _, -, _, -, _, -, _, -, _, -, _, -, hr⟩ := h
  rw [← Option.some.inj hr]

/-- A page with a sum in it does not report an error. -/
theorem page_ne_errorPage (page : Bytes) :
    pageStart ++ page ++ ascii "</body><br/>\n</html><br/>\n" ≠ errorPage := by
  intro h
  have hseventh := congrArg (fun l => l.reverse[6]?) h
  rw [errorPage] at hseventh
  simp only [List.reverse_append] at hseventh
  revert hseventh
  simp [ascii]

/-- The program reports an error exactly for a body that begins with a NUL, if that fits its
array. -/
theorem cgiAdd_eq_errorPage_iff (hm : Matching environment body) (hne : body ≠ []) :
    cgiAdd environment body = some errorPage ↔ body.head? = some 0 ∧ body.length ≤ 1023 := by
  obtain ⟨c, rest, rfl⟩ := List.exists_cons_of_ne_nil hne
  rw [cgiAdd_post hm, postData]
  by_cases hroom : (c :: rest).length < 1024
  · rw [if_pos hroom, Option.bind_some]
    by_cases hc : c = 0
    · subst hc
      exact iff_of_true rfl ⟨rfl, by omega⟩
    · refine iff_of_false ?_ (fun h => hc (Option.some.inj h.1))
      intro h
      obtain ⟨⟨page, exits⟩, hcalc, hpage⟩ := Option.map_eq_some_iff.mp h
      have hexits : exits = false := execCalc_stays hc hcalc
      rw [hexits] at hpage
      exact page_ne_errorPage page hpage
  · rw [if_neg hroom, Option.bind_none]
    exact iff_of_false (by simp) fun h => by omega

/-- For which bodies `cgi_add` adds or reports: those of a sum that fits an `int`, and those
others that begin with a NUL, if they fit the array. -/
theorem addsOrReports_iff (hm : Matching environment body) (hne : body ≠ []) :
    AddsOrReports environment body ↔
      (∃ a b m n, Sums body a b m n ∧ body.length ≤ 1023 ∧ -2 ^ 31 ≤ m + n ∧ m + n < 2 ^ 31) ∨
        (¬ ∃ a b m n, Sums body a b m n) ∧ body.head? = some 0 ∧ body.length ≤ 1023 := by
  by_cases hsums : ∃ a b m n, Sums body a b m n
  · obtain ⟨a, b, m, n, h⟩ := hsums
    have hexists : ∃ a b m n, Sums body a b m n := ⟨a, b, m, n, h⟩
    constructor
    · rintro ⟨hadds, -⟩
      exact .inl ⟨a, b, m, n, h, (cgiAdd_sums_iff hm h).mp (hadds a b m n h)⟩
    · rintro (⟨a', b', m', n', h', hfits⟩ | ⟨hnot, -⟩)
      · refine ⟨fun a b m n h => ?_, fun hnot => absurd hexists hnot⟩
        obtain ⟨rfl, rfl, rfl, rfl⟩ := h'.unique h
        exact (cgiAdd_sums_iff hm h).mpr hfits
      · exact absurd hexists hnot
  · constructor
    · rintro ⟨-, hreports⟩
      exact .inr ⟨hsums, (cgiAdd_eq_errorPage_iff hm hne).mp (hreports hsums)⟩
    · rintro (⟨a, b, m, n, h, -⟩ | ⟨-, hnul⟩)
      · exact absurd ⟨a, b, m, n, h⟩ hsums
      · exact ⟨fun a b m n h => absurd ⟨a, b, m, n, h⟩ hsums,
          fun _ => (cgiAdd_eq_errorPage_iff hm hne).mpr hnul⟩

/-- The POST of nine bytes. -/
theorem matching_nine (h : body.length = 9) :
    Matching (cgiEnvironment (ascii "POST") [] 9) body :=
  ⟨rfl, ascii "9", rfl, by rw [h]; decide⟩

/-- The sum of the body `v1=1&v2=2` is printed. -/
theorem addsOrReports_iff_three :
    AddsOrReports (cgiEnvironment (ascii "POST") [] 9) (ascii "v1=1&v2=2") := by
  have hone : Spells (ascii "1") 1 := ⟨by decide, by decide, by decide⟩
  have htwo : Spells (ascii "2") 2 := ⟨by decide, by decide, by decide⟩
  refine (addsOrReports_iff (matching_nine rfl) (by decide)).mpr (.inl ?_)
  exact ⟨ascii "1", ascii "2", 1, 2, ⟨rfl, hone, htwo⟩, by decide, by decide, by decide⟩

/-- Without an `&` the program uses `v2` before it has a value, and the addition of two numerals
may overflow. -/
theorem not_addsOrReports :
    ¬ AddsOrReports (cgiEnvironment (ascii "POST") [] 9) (ascii "v1=1;v2=2") ∧
      ¬ AddsOrReports (cgiEnvironment (ascii "POST") [] 18) (ascii "v1=2147483647&v2=1") := by
  constructor
  · have hundefined : cgiAdd (cgiEnvironment (ascii "POST") [] 9) (ascii "v1=1;v2=2") = none := by
      decide +kernel
    have hnot : ¬ ∃ a b m n, Sums (ascii "v1=1;v2=2") a b m n := by
      rintro ⟨a, b, m, n, h⟩
      have hmem : 38 ∈ ascii "v1=1;v2=2" := by
        rw [h.body]
        simp
      exact absurd hmem (by decide)
    rintro ⟨-, hreports⟩
    rw [hreports hnot] at hundefined
    cases hundefined
  · have hundefined : cgiAdd (cgiEnvironment (ascii "POST") [] 18) (ascii "v1=2147483647&v2=1") =
        none := by decide +kernel
    have hmax : Spells (ascii "2147483647") 2147483647 := ⟨by decide, by decide, by decide⟩
    have hone : Spells (ascii "1") 1 := ⟨by decide, by decide, by decide⟩
    rintro ⟨hadds, -⟩
    rw [hadds _ _ _ _ ⟨rfl, hmax, hone⟩] at hundefined
    cases hundefined

end NetworkCode.Httpd
