import Mathlib.Data.List.TakeWhile
import NetworkCode.Httpd.Reader

/-!
# The request line and the route it takes

The index loops of `HandleSock` compute words of the line: the method, the URL,
the part of the URL before its first `?`. With them `HandleSock` takes one of
four routes, which only the method, the URL and the file system decide.
-/

namespace NetworkCode.Httpd

open Prog LineStream Text

variable {w w' : World} {buf : Bytes}

/-! ### Words -/

/-- The bytes of `buf` from index `j` on that are not white space: at most `limit`,
and none from index 1024 on. -/
def word (buf : Bytes) (j limit : Nat) : Bytes :=
  (((buf.take 1024).drop j).takeWhile fun c => !isspace c).take limit

/-- A byte that continues a word. -/
theorem word_succ {j limit : Nat} {c : UInt8} (hc : buf[j]? = some c) (hj : j < 1024)
    (hs : isspace c = false) : word buf j (limit + 1) = c :: word buf (j + 1) limit := by
  have hget : (buf.take 1024)[j]? = some c := by rw [List.getElem?_take_of_lt hj, hc]
  obtain ⟨hlt, hget'⟩ := List.getElem?_eq_some_iff.mp hget
  rw [word, List.drop_eq_getElem_cons hlt, hget', List.takeWhile_cons_of_pos (by simp [hs])]
  rfl

/-- A byte that ends a word. -/
theorem word_space {j limit : Nat} {c : UInt8} (hc : buf[j]? = some c) (hs : isspace c = true) :
    word buf j limit = [] := by
  by_cases hj : j < 1024
  · have hget : (buf.take 1024)[j]? = some c := by rw [List.getElem?_take_of_lt hj, hc]
    obtain ⟨hlt, hget'⟩ := List.getElem?_eq_some_iff.mp hget
    rw [word, List.drop_eq_getElem_cons hlt, hget', List.takeWhile_cons_of_neg (by simp [hs])]
    exact List.take_nil
  · simp [word, List.drop_eq_nil_of_le, Nat.le_of_not_lt hj]

/-- There is no word behind the array. -/
theorem word_end {j limit : Nat} (hj : 1024 ≤ j) : word buf j limit = [] := by
  simp [word, List.drop_eq_nil_of_le, hj]

/-- A word is cut at its limit. -/
theorem length_word_le {j limit : Nat} : (word buf j limit).length ≤ limit :=
  List.length_take_le _ _

/-- The test of the loop that copies a word. -/
theorem returns_wordTest (size : Nat) (inside : Nat → Bool) {v : WordVars} {c : UInt8}
    (hc : buf[v.j]? = some c) (w : World) : (wordTest buf size inside v).Returns w
      (!isspace c && v.i < size - 1 && inside v.j) w := by
  simp [wordTest, returns_load, hc]

/-- One byte of a word is copied. -/
theorem returns_copyByte {v y : WordVars} {c : UInt8} (hc : buf[v.j]? = some c)
    (hi : v.i < v.word.length) : (copyByte buf v).Returns w y w' ↔
      w' = w ∧ y = ⟨v.i + 1, v.j + 1, v.word.set v.i c⟩ := by
  simp [copyByte, returns_load, returns_store, hc, hi]

/-- A loop that copies a word stops behind it. -/
theorem returns_wordLoop {d size i : Nat} {inside : Nat → Bool} {out : Bytes} {y : WordVars}
    (hbuf : buf.length = 1025) (hout : size ≤ out.length) (hij : i + d ≤ 1024)
    (hinside : ∀ k < size - 1, inside (k + d) = decide (k + d < 1024)) :
    (whileLoop (wordTest buf size inside) (copyByte buf) ⟨i, i + d, out⟩).Returns w y w' ↔
      y = ⟨i + (word buf (i + d) (size - 1 - i)).length,
        i + d + (word buf (i + d) (size - 1 - i)).length,
        overwrite out i (word buf (i + d) (size - 1 - i))⟩ ∧ w' = w := by
  induction hn : size - 1 - i generalizing i out with
  | zero =>
    obtain ⟨c, hc⟩ : ∃ c, buf[i + d]? = some c := ⟨_, List.getElem?_eq_getElem (by omega)⟩
    have htest := returns_wordTest size inside (v := ⟨i, i + d, out⟩) hc w
    have hge : ¬ i < size - 1 := by omega
    rw [returns_whileLoop_of_false (by simpa [hge] using htest)]
    simp [word]
  | succ n ih =>
    obtain ⟨c, hc⟩ : ∃ c, buf[i + d]? = some c := ⟨_, List.getElem?_eq_getElem (by omega)⟩
    have htest := returns_wordTest size inside (v := ⟨i, i + d, out⟩) hc w
    have hlt : i < size - 1 := by omega
    simp only [hlt, decide_true, Bool.and_true, hinside i hlt] at htest
    by_cases hs : isspace c = true
    · rw [returns_whileLoop_of_false (by simpa [hs] using htest), word_space hc hs]
      simp
    · by_cases hj : i + d < 1024
      · have hi : i < out.length := by omega
        have hout' : size ≤ (out.set i c).length := by simpa using hout
        have hij' : i + 1 + d ≤ 1024 := by omega
        have hj' : i + d + 1 = i + 1 + d := by omega
        have hcopy (y : WordVars) (t : World) : (copyByte buf ⟨i, i + d, out⟩).Returns w y t ↔
            t = w ∧ y = ⟨i + 1, i + d + 1, out.set i c⟩ := returns_copyByte hc hi
        have hrest := ih hout' hij' (by omega)
        rw [returns_whileLoop_of_true (by simpa [hs, hj] using htest),
          word_succ hc hj (by simpa using hs)]
        simp only [hcopy]
        simp only [hj', and_assoc, exists_eq_left, hrest, overwrite_set hi]
        rw [List.length_cons, ← Nat.add_assoc, ← Nat.add_assoc, Nat.add_right_comm i,
          Nat.add_right_comm (i + d), hj']
      · rw [returns_whileLoop_of_false (by simpa [hj] using htest), word_end (by omega)]
        simp

/-- Copying a word: the index behind it, and an array that holds it. -/
theorem returns_copyWord {j size : Nat} {inside : Nat → Bool} {r : Nat × Bytes}
    (hbuf : buf.length = 1025) (hsize : 0 < size) (hj : j ≤ 1024)
    (hinside : ∀ k < size - 1, inside (k + j) = decide (k + j < 1024)) :
    (copyWord buf j size inside).Returns w r w' ↔
      r = (j + (word buf j (size - 1)).length, terminated (word buf j (size - 1)) (zeros size)) ∧
        w' = w := by
  have hloop (y : WordVars) (t : World) :
      (whileLoop (wordTest buf size inside) (copyByte buf) ⟨0, j, zeros size⟩).Returns w y t ↔
        y = ⟨(word buf j (size - 1)).length, j + (word buf j (size - 1)).length,
          overwrite (zeros size) 0 (word buf j (size - 1))⟩ ∧ t = w := by
    have h : (whileLoop (wordTest buf size inside) (copyByte buf) ⟨0, 0 + j, zeros size⟩).Returns
        w y t ↔ _ := returns_wordLoop hbuf (length_zeros size).ge (by omega) hinside
    simpa only [Nat.zero_add, Nat.sub_zero] using h
  have hle : (word buf j (size - 1)).length ≤ size - 1 := length_word_le
  have hlt : (word buf j (size - 1)).length < (zeros size).length := by
    rw [length_zeros]
    omega
  have hover : (word buf j (size - 1)).length <
      (overwrite (zeros size) 0 (word buf j (size - 1))).length := by
    simp only [overwrite, List.length_append, List.length_take, List.length_drop]
    omega
  simp [copyWord, hloop, returns_store, overwrite_zero_set hlt, terminated, hover]
  exact and_comm

/-- The method in the array of `HandleSock`. -/
def methodWord (buf : Bytes) : Bytes := word buf 0 254

/-- The number of white space bytes from index `j` on, below index 1024. -/
def spaces (buf : Bytes) (j : Nat) : Nat := (((buf.take 1024).drop j).takeWhile isspace).length

/-- The index of the URL in the array of `HandleSock`. -/
def urlIndex (buf : Bytes) : Nat := (methodWord buf).length + spaces buf (methodWord buf).length

/-- The URL in the array of `HandleSock`. -/
def urlWord (buf : Bytes) : Bytes := word buf (urlIndex buf) 254

/-- The method is the first word, cut at its array. -/
theorem returns_readMethod {r : Nat × Bytes} (hbuf : buf.length = 1025) :
    (readMethod buf).Returns w r w' ↔
      r = ((methodWord buf).length, terminated (methodWord buf) (zeros 255)) ∧ w' = w := by
  rw [readMethod, returns_copyWord hbuf (by omega) (by omega)]
  · simp [methodWord]
  · intro k hk
    simp only [true_eq_decide_iff]
    omega

/-- Skipping blanks stays in the array. -/
theorem spaces_le {j : Nat} (hj : j ≤ 1024) (hbuf : buf.length = 1025) :
    j + spaces buf j ≤ 1024 := by
  have h : spaces buf j ≤ ((buf.take 1024).drop j).length := (List.takeWhile_prefix _).length_le
  simp only [List.length_drop, List.length_take] at h
  omega

/-- A blank is skipped. -/
theorem spaces_succ {j : Nat} {c : UInt8} (hc : buf[j]? = some c) (hj : j < 1024)
    (hs : isspace c = true) : spaces buf j = spaces buf (j + 1) + 1 := by
  have hget : (buf.take 1024)[j]? = some c := by rw [List.getElem?_take_of_lt hj, hc]
  obtain ⟨hlt, hget'⟩ := List.getElem?_eq_some_iff.mp hget
  rw [spaces, List.drop_eq_getElem_cons hlt, hget', List.takeWhile_cons_of_pos hs]
  rfl

/-- Any other byte is not skipped. -/
theorem spaces_zero {j : Nat} {c : UInt8} (hc : buf[j]? = some c)
    (hs : j < 1024 → isspace c = false) : spaces buf j = 0 := by
  by_cases hj : j < 1024
  · have hget : (buf.take 1024)[j]? = some c := by rw [List.getElem?_take_of_lt hj, hc]
    obtain ⟨hlt, hget'⟩ := List.getElem?_eq_some_iff.mp hget
    rw [spaces, List.drop_eq_getElem_cons hlt, hget', List.takeWhile_cons_of_neg (by simp [hs hj])]
    rfl
  · simp [spaces, List.drop_eq_nil_of_le, Nat.le_of_not_lt hj]

/-- The test of the loop that skips blanks. -/
theorem returns_spaceTest {j : Nat} {c : UInt8} (hc : buf[j]? = some c) (w : World) :
    (spaceTest buf j).Returns w (isspace c && j < 1025 - 1) w := by
  simp [spaceTest, returns_load, hc]

/-- The loop skips the blanks. -/
theorem returns_skipSpace {j y : Nat} (hbuf : buf.length = 1025) (hj : j ≤ 1024) :
    (skipSpace buf j).Returns w y w' ↔ y = j + spaces buf j ∧ w' = w := by
  rw [skipSpace]
  induction hn : 1024 - j generalizing j with
  | zero =>
    obtain ⟨c, hc⟩ : ∃ c, buf[j]? = some c := ⟨_, List.getElem?_eq_getElem (by omega)⟩
    have hge : ¬ j < 1024 := by omega
    have htest := returns_spaceTest hc w
    rw [returns_whileLoop_of_false (by simpa [hge] using htest),
      spaces_zero hc fun hlt => absurd hlt hge]
    rfl
  | succ n ih =>
    obtain ⟨c, hc⟩ : ∃ c, buf[j]? = some c := ⟨_, List.getElem?_eq_getElem (by omega)⟩
    have hlt : j < 1024 := by omega
    have htest := returns_spaceTest hc w
    by_cases hs : isspace c = true
    · rw [returns_whileLoop_of_true (by simpa [hlt, hs] using htest)]
      simp only [returns_pure, and_assoc, exists_and_left, exists_eq_left,
        ih (show j + 1 ≤ 1024 by omega) (by omega), spaces_succ hc hlt hs]
      rw [Nat.add_assoc, Nat.add_comm 1]
    · rw [returns_whileLoop_of_false (by simpa [hs] using htest),
        spaces_zero hc fun _ => by simpa using hs]
      rfl

/-- The URL is the next word, cut at its array. -/
theorem returns_readUrl {j : Nat} {r : Nat × Bytes} (hbuf : buf.length = 1025) (hj : j ≤ 1024) :
    (readUrl buf j).Returns w r w' ↔
      r = (j + (word buf j 254).length, terminated (word buf j 254) (zeros 255)) ∧ w' = w := by
  rw [readUrl, returns_copyWord hbuf (by omega) hj]
  intro k hk
  rfl

/-- The array of `HandleSock` behind the chunk `s`. -/
def requestBuffer (s : Bytes) : Bytes := terminated s (zeros 1025)

/-- The request line is parsed whenever `get_line` returns. -/
theorem returns_readRequest {r : Bytes × Bytes} : readRequest.Returns w r w' ↔
    ∃ s rest, takeChunk w.ending.seen 1024 w.inbox = some (s, rest) ∧
      r = (terminated (methodWord (requestBuffer s)) (zeros 255),
        terminated (urlWord (requestBuffer s)) (zeros 255)) ∧ w' = w.afterLine rest := by
  have hlen : (zeros 1025).length = 1025 := length_zeros 1025
  have hline (q : Nat × Bytes) (t : World) : (getLine (zeros 1025) 1025).Returns w q t ↔
      ∃ s rest, takeChunk w.ending.seen 1024 w.inbox = some (s, rest) ∧
        q = (s.length, requestBuffer s) ∧ t = w.afterLine rest :=
    returns_getLine (by omega) (by omega)
  have hbuf {s : Bytes} {rest : Bytes}
      (h : takeChunk w.ending.seen 1024 w.inbox = some (s, rest)) :
      (requestBuffer s).length = 1025 := by
    have := takeChunk_length_le h
    simp only [requestBuffer, terminated, List.length_append, List.length_cons, List.length_drop,
      hlen]
    omega
  have hmethod (buf : Bytes) : (methodWord buf).length ≤ 1024 := length_word_le.trans (by omega)
  simp only [readRequest, returns_bind, hline, returns_pure]
  constructor
  · rintro ⟨_, _, ⟨s, rest, hc, rfl, rfl⟩, _, _, hm, _, _, hj, _, _, hu, rfl, rfl⟩
    rw [returns_readMethod (hbuf hc)] at hm
    obtain ⟨rfl, rfl⟩ := hm
    rw [returns_skipSpace (hbuf hc) (hmethod _)] at hj
    obtain ⟨rfl, rfl⟩ := hj
    rw [returns_readUrl (hbuf hc) (spaces_le (hmethod _) (hbuf hc))] at hu
    obtain ⟨rfl, rfl⟩ := hu
    exact ⟨s, rest, hc, rfl, rfl⟩
  · rintro ⟨s, rest, hc, rfl, rfl⟩
    refine ⟨_, _, ⟨s, rest, hc, rfl, rfl⟩, _, _, (returns_readMethod (hbuf hc)).mpr ⟨rfl, rfl⟩,
      _, _, (returns_skipSpace (hbuf hc) (hmethod _)).mpr ⟨rfl, rfl⟩, _, _,
      (returns_readUrl (hbuf hc) (spaces_le (hmethod _) (hbuf hc))).mpr ⟨rfl, rfl⟩, rfl, rfl⟩

/-! ### The query -/

/-- The part of a URL before its first `?`. -/
def beforeQuery (url : Bytes) : Bytes := url.takeWhile (· != 63)

/-- The part of a URL behind its first `?`. -/
def afterQuery (url : Bytes) : Bytes := (url.dropWhile (· != 63)).tail

/-- The variables behind the loop that looks for a query in `url`. -/
structure Cut (url : Bytes) (v : QueryVars) : Prop where
  url_terminated : 0 ∈ v.url
  url_eq : cstr v.url = beforeQuery url
  query_terminated : 0 ∈ v.url.drop v.query
  query_eq : cstr (v.url.drop v.query) = afterQuery url
  cgi_eq : v.cgi = decide (63 ∈ url)

/-- The part of a URL in front of its first question mark. -/
theorem beforeQuery_append {pre rest : Bytes} (h : 63 ∉ pre) :
    beforeQuery (pre ++ 63 :: rest) = pre := by
  have hpre : ∀ c ∈ pre, (c != 63) = true := fun c hc => bne_iff_ne.mpr fun he => h (he ▸ hc)
  simp [beforeQuery, List.takeWhile_append_of_pos hpre]

/-- The part of a URL behind its first question mark. -/
theorem afterQuery_append {pre rest : Bytes} (h : 63 ∉ pre) :
    afterQuery (pre ++ 63 :: rest) = rest := by
  have hpre : ∀ c ∈ pre, (c != 63) = true := fun c hc => bne_iff_ne.mpr fun he => h (he ▸ hc)
  simp [afterQuery, List.dropWhile_append_of_pos hpre]

/-- A URL without a question mark has no query. -/
theorem query_of_notMem {url : Bytes} (h : 63 ∉ url) :
    beforeQuery url = url ∧ afterQuery url = [] := by
  have hurl : ∀ c ∈ url, (c != 63) = true := fun c hc => bne_iff_ne.mpr fun he => h (he ▸ hc)
  constructor
  · exact List.takeWhile_eq_self_iff.mpr hurl
  · rw [afterQuery, List.dropWhile_eq_nil_iff.mpr hurl]
    rfl

/-- The loop that looks for a query, started behind a part without one. -/
theorem exists_queryLoop (pre rest : Bytes) (h0 : 0 ∈ rest) (hpre : 0 ∉ pre) (hq : 63 ∉ pre) :
    ∃ v, Cut (pre ++ cstr rest) v ∧ ∀ w, (whileLoop queryTest queryByte
      ⟨pre.length, pre ++ rest, false, false⟩).Returns w v w := by
  induction rest generalizing pre with
  | nil => cases h0
  | cons c rest ih =>
    have hget : (pre ++ c :: rest)[pre.length]? = some c := by simp
    have htest (w : World) : (queryTest ⟨pre.length, pre ++ c :: rest, false, false⟩).Returns w
        (c != 0) w := by simp [queryTest, returns_load]
    by_cases hzero : c = 0
    · subst hzero
      obtain ⟨hbefore, hafter⟩ := query_of_notMem hq
      refine ⟨⟨pre.length, pre ++ 0 :: rest, false, false⟩, ?_, fun w =>
        (returns_whileLoop_of_false (htest w)).mpr ⟨rfl, rfl⟩⟩
      have hnil : cstr (0 :: rest) = [] := rfl
      constructor <;> simp [cstr_append_nul hpre _, hnil, hbefore, hafter, hq]
    · have hgo (w : World) := (bne_iff_ne.mpr hzero) ▸ htest w
      by_cases hmark : c = 63
      · subst hmark
        have hrest : 0 ∈ rest := by simpa using h0
        refine ⟨⟨pre.length + 1, pre ++ 0 :: rest, true, true⟩, ?_, fun w => ?_⟩
        · have htext : cstr (63 :: rest) = 63 :: cstr rest := rfl
          constructor <;> simp [cstr_append_nul hpre _, htext, beforeQuery_append hq,
            afterQuery_append hq, hrest]
        · refine (returns_whileLoop_of_true (hgo w)).mpr
            ⟨⟨pre.length + 1, pre ++ 0 :: rest, true, true⟩, w, ?_, ?_⟩
          · simp [queryByte, returns_load, returns_store]
          · exact (returns_whileLoop_of_false (by simp [queryTest])).mpr ⟨rfl, rfl⟩
      · have hrest : 0 ∈ rest := by simpa [Ne.symm hzero] using h0
        obtain ⟨v, hv, hloop⟩ := ih (pre ++ [c]) hrest (by simp [hpre, Ne.symm hzero])
          (by simp [hq, Ne.symm hmark])
        refine ⟨v, ?_, fun w => ?_⟩
        · have htext : cstr (c :: rest) = c :: cstr rest := by simp [cstr, hzero]
          simpa [htext] using hv
        · refine (returns_whileLoop_of_true (hgo w)).mpr ⟨_, w, ?_, hloop w⟩
          simp [queryByte, returns_load, hmark]

/-- The loop that looks for a query returns and cuts the URL. -/
theorem exists_cutQuery {url : Bytes} (h0 : 0 ∈ url) :
    ∃ v, Cut (cstr url) v ∧ ∀ w, (cutQuery url).Returns w v w :=
  exists_queryLoop [] url h0 (by simp) (by simp)

/-! ### The route -/

/-- The path of the file for a URL without its query. -/
def pathOf (url : Bytes) : Bytes :=
  if (ascii "wwwroot" ++ url).getLast? = some 47 then
    ascii "wwwroot" ++ url ++ ascii "index.html"
  else ascii "wwwroot" ++ url

/-- A string that fits its array is returned. -/
theorem returns_fit {size : Nat} {s r : Bytes} : (fit size s).Returns w r w' ↔
    s.length < size ∧ r = s ∧ w' = w := by
  unfold fit
  split <;> simp_all

/-- How long the path of a URL can be. -/
theorem length_pathOf (url : Bytes) : (pathOf url).length ≤ url.length + 17 := by
  have hroot : (ascii "wwwroot").length = 7 := rfl
  have hindex : (ascii "index.html").length = 10 := rfl
  unfold pathOf
  split <;> simp only [List.length_append] <;> omega

/-- The path of the URL is built in its array. -/
theorem returns_buildPath {p : Bytes} (h0 : 0 ∈ buf) (hlen : (cstr buf).length ≤ 254) :
    (buildPath buf).Returns w p w' ↔ p = pathOf (cstr buf) ∧ w' = w := by
  have hroot : (ascii "wwwroot").length = 7 := rfl
  have hindex : (ascii "index.html").length = 10 := rfl
  have hshort : (ascii "wwwroot" ++ cstr buf).length < 1024 := by
    rw [List.length_append]
    omega
  have hlong : (ascii "wwwroot" ++ cstr buf ++ ascii "index.html").length < 1024 := by
    rw [List.length_append, List.length_append]
    omega
  have hstring : (cString buf).Returns w (cstr buf) w := returns_cString.mpr ⟨h0, rfl, rfl⟩
  have hfit : (fit 1024 (ascii "wwwroot" ++ cstr buf)).Returns w _ w :=
    returns_fit.mpr ⟨hshort, rfl, rfl⟩
  rw [buildPath, hstring.bind_iff, hfit.bind_iff, pathOf]
  by_cases hslash : (ascii "wwwroot" ++ cstr buf).getLast? = some 47
  · rw [if_pos hslash, if_pos (beq_iff_eq.mpr hslash), returns_fit]
    exact and_iff_right hlong
  · rw [if_neg hslash, if_neg (mt beq_iff_eq.mp hslash)]
    exact returns_pure

/-- Where `HandleSock` goes: the paths it hands to `stat` and on to the rest. -/
inductive Route where
  /-- Neither GET nor POST. -/
  | unsupported
  /-- `stat` fails. -/
  | missing (asked : Bytes)
  | cgi (asked path method query : Bytes)
  | page (asked path : Bytes) (size : Nat)
  deriving DecidableEq, Repr

/-- Whether a method is GET. -/
def isGet (method : Bytes) : Bool := sameIgnoringCase method (ascii "GET")

/-- Whether a method is POST. -/
def isPost (method : Bytes) : Bool := sameIgnoringCase method (ascii "POST")

/-- The part of the URL that names the file. -/
def fileUrl (method url : Bytes) : Bytes := if isGet method then beforeQuery url else url

/-- The path handed to `stat`. -/
def askedPath (method url : Bytes) : Bytes := pathOf (fileUrl method url)

/-- The route of a request for a method and a URL. -/
def routeOf (env : Env) (method url : Bytes) : Route :=
  if !isGet method && !isPost method then .unsupported
  else
    let asked := askedPath method url
    match env.stat asked with
    | none => .missing asked
    | some st =>
      let path := if st.isDir then asked ++ ascii "/index.html" else asked
      if isPost method || (isGet method && 63 ∈ url) ||
          (!st.isDir && (st.xusr || st.xgrp || st.xoth)) then
        .cgi asked path method (if isGet method then afterQuery url else url)
      else .page asked path st.size

/-- What `HandleSock` does on a route. -/
def perform (env : Env) : Route → Prog World Int
  | .unsupported => do
    let _ ← echoCode env
    return -1
  | .missing asked => do
    record (.stat asked)
    let _ ← echoCode env
    cleanHander
    close .sock
    return 0
  | .cgi asked path method query => do
    record (.stat asked)
    let _ ← excuCgi env path method query
    close .sock
    return 0
  | .page asked path size => do
    record (.stat asked)
    echoHtml env path size
    close .sock
    return 0

/-- The URL array that `HandleSock` serves, and where the query starts in it. -/
structure Target (method url : Bytes) (buf : Bytes) (query : Nat) (cgi : Bool) : Prop where
  url_terminated : 0 ∈ buf
  url_eq : cstr buf = fileUrl method url
  query_terminated : 0 ∈ buf.drop query
  query_eq : cstr (buf.drop query) = if isGet method then afterQuery url else url
  cgi_eq : cgi = (isPost method || (isGet method && 63 ∈ url))
  supported : isGet method = true ∨ isPost method = true

/-- The file's part of a URL is no longer than the URL. -/
theorem length_fileUrl_le (method url : Bytes) : (fileUrl method url).length ≤ url.length := by
  unfold fileUrl
  split
  · exact (List.takeWhile_prefix _).length_le
  · exact Nat.le_refl _

/-- The path that was asked for is built. -/
theorem Target.returns_buildPath {method url : Bytes} {query : Nat} {cgi : Bool}
    (h : Target method url buf query cgi) (hurl : url.length ≤ 254) {p : Bytes} :
    (buildPath buf).Returns w p w' ↔ p = askedPath method url ∧ w' = w := by
  have hlen : (fileUrl method url).length ≤ 254 := (length_fileUrl_le _ _).trans hurl
  rw [Httpd.returns_buildPath h.url_terminated (h.url_eq ▸ hlen), h.url_eq]
  rfl

/-- `stat` answers what the file system has. -/
theorem returns_stat {env : Env} {path : Bytes} {st : Option Stat} :
    (stat env path).Returns w st w' ↔
      st = env.stat path ∧ w' = { w with trace := w.trace ++ [.stat path] } := by
  simp [stat, returns_record]

/-- The path with the index page behind it fits its array. -/
theorem length_askedPath {method url : Bytes} (hurl : url.length ≤ 254) :
    (askedPath method url ++ ascii "/index.html").length < 1024 := by
  have hasked := length_pathOf (fileUrl method url)
  have hle := length_fileUrl_le method url
  have hfile : (ascii "/index.html").length = 11 := rfl
  rw [List.length_append, askedPath]
  omega

/-- Behind the request line `HandleSock` serves the route. -/
theorem alike_serveFile (env : Env) {method url : Bytes} {query : Nat} {cgi : Bool}
    (h : Target method url buf query cgi) (hurl : url.length ≤ 254) :
    (serveFile env method buf query cgi).Alike w (perform env (routeOf env method url)) w := by
  have hsupported : ¬ ((!isGet method && !isPost method) = true) := by
    rcases h.supported with hm | hm <;> simp [hm]
  have hpath : (buildPath buf).Returns w (askedPath method url) w :=
    (h.returns_buildPath hurl).mpr ⟨rfl, rfl⟩
  have hstat : (stat env (askedPath method url)).Returns w (env.stat (askedPath method url))
      { w with trace := w.trace ++ [.stat (askedPath method url)] } :=
    returns_stat.mpr ⟨rfl, rfl⟩
  have hlog : (record (.stat (askedPath method url))).Returns w ()
      { w with trace := w.trace ++ [.stat (askedPath method url)] } :=
    returns_record.mpr rfl
  refine hpath.alike.trans (hstat.alike.trans ?_)
  rw [routeOf, if_neg hsupported]
  cases hst : env.stat (askedPath method url) with
  | none =>
    simp only [hst, answerFile, perform, Prog.bind_assoc]
    apply Alike.symm
    exact hlog.alike
  | some st =>
    have hdir (t : World) : (indexPath st (askedPath method url)).Returns t
        (if st.isDir then askedPath method url ++ ascii "/index.html"
          else askedPath method url) t := by
      unfold indexPath
      split
      · exact returns_fit.mpr ⟨length_askedPath hurl, rfl, rfl⟩
      · exact returns_pure.mpr ⟨rfl, rfl⟩
    have hquery (t : World) : (cString (buf.drop query)).Returns t
        (if isGet method then afterQuery url else url) t :=
      returns_cString.mpr ⟨h.query_terminated, h.query_eq.symm, rfl⟩
    simp only [hst, answerFile, Prog.bind_assoc]
    refine (hdir _).alike.trans ?_
    rw [h.cgi_eq]
    split
    · rw [Prog.bind_assoc]
      refine (hquery _).alike.trans ?_
      rw [Prog.bind_assoc, perform]
      apply Alike.symm
      exact hlog.alike
    · rw [perform]
      apply Alike.symm
      exact hlog.alike

/-- A GET asks for what is in front of its query. -/
theorem Cut.target {method url : Bytes} {v : QueryVars} (h : Cut url v)
    (hget : isGet method = true) : Target method url v.url v.query (isPost method || v.cgi) where
  url_terminated := h.url_terminated
  url_eq := by simp [fileUrl, hget, h.url_eq]
  query_terminated := h.query_terminated
  query_eq := by simp [hget, h.query_eq]
  cgi_eq := by simp [hget, h.cgi_eq]
  supported := .inl hget

/-- A POST asks for its whole URL. -/
theorem target_of_post {method url : Bytes} (hu : 0 ∈ url) (hget : ¬ isGet method = true)
    (hpost : isPost method = true) : Target method (cstr url) url 0 true where
  url_terminated := hu
  url_eq := by simp [fileUrl, hget]
  query_terminated := hu
  query_eq := by simp [hget]
  cgi_eq := by simp [hpost]
  supported := .inr hpost

/-- Behind the request line only the route matters. -/
theorem alike_serve (env : Env) {method url : Bytes} (hm : 0 ∈ method) (hu : 0 ∈ url)
    (hlen : (cstr url).length ≤ 254) : (serve env method url).Alike w
      (perform env (routeOf env (cstr method) (cstr url))) w := by
  have hmethod : (cString method).Returns w (cstr method) w :=
    returns_cString.mpr ⟨hm, rfl, rfl⟩
  refine hmethod.alike.trans ?_
  by_cases hget : isGet (cstr method) = true
  · obtain ⟨v, hv, hcut⟩ := exists_cutQuery hu
    refine Alike.trans ?_ (alike_serveFile env (hv.target hget) hlen)
    rw [isGet] at hget
    simp only [hget, Bool.not_true, Bool.false_and, Bool.false_eq_true, if_false, if_true]
    exact (hcut w).alike
  · by_cases hpost : isPost (cstr method) = true
    · have hserve := alike_serveFile (w := w) env (target_of_post hu hget hpost) hlen
      rw [isGet] at hget
      rw [isPost] at hpost
      simpa [hget, hpost] using hserve
    · have hroute : routeOf env (cstr method) (cstr url) = .unsupported := by
        simp [routeOf, hget, hpost]
      rw [isGet] at hget
      rw [isPost] at hpost
      rw [hroute]
      simpa [hget, hpost, perform] using Alike.refl _ w

/-- The route that a request line takes. -/
def lineRoute (env : Env) (line : Bytes) : Route :=
  routeOf env (cstr (methodWord (requestBuffer line))) (cstr (urlWord (requestBuffer line)))

/-- Behind a request line that was read `HandleSock` serves the route of that line. -/
theorem alike_handleSock (env : Env) {line rest : Bytes}
    (hc : takeChunk w.ending.seen 1024 w.inbox = some (line, rest)) :
    (handleSock env).Alike w (perform env (lineRoute env line)) (w.afterLine rest) := by
  have hzero (s : Bytes) : 0 ∈ terminated s (zeros 255) := by simp [terminated]
  have hurl : (cstr (terminated (urlWord (requestBuffer line)) (zeros 255))).length ≤ 254 := by
    rw [cstr_terminated]
    exact (List.takeWhile_prefix _).length_le.trans length_word_le
  have hserve := alike_serve (w := w.afterLine rest) env
    (hzero (methodWord (requestBuffer line))) (hzero _) hurl
  simp only [cstr_terminated] at hserve
  exact (returns_readRequest.mpr ⟨line, rest, hc, rfl, rfl⟩).alike.trans hserve

/-- `HandleSock` reads a request line and serves the route of that line. -/
theorem returns_handleSock {env : Env} {r : Int} : (handleSock env).Returns w r w' ↔
    ∃ line rest, takeChunk w.ending.seen 1024 w.inbox = some (line, rest) ∧
      (perform env (lineRoute env line)).Returns (w.afterLine rest) r w' := by
  constructor
  · intro h
    obtain ⟨_, _, hrequest, -⟩ := returns_bind.mp h
    obtain ⟨line, rest, hc, -⟩ := returns_readRequest.mp hrequest
    exact ⟨line, rest, hc, (alike_handleSock env hc).returns_iff.mp h⟩
  · rintro ⟨line, rest, hc, h⟩
    exact (alike_handleSock env hc).returns_iff.mpr h

end NetworkCode.Httpd
