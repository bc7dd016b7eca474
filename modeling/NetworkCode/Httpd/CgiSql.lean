import NetworkCode.Core.SqlText
import NetworkCode.Httpd.CgiAdd

/-!
# The CGI program that inserts

`cgi_sql` gets its argument as `cgi_add` does. `exec_add` cuts it at every `&` and calls
`Insert` with what is then behind its first three `=`. `Insert` puts these strings between
the quotes of an SQL statement as they are, in an array of 1024 bytes.
-/

namespace NetworkCode.Httpd

open Sql Text

/-! ### The program -/

/-- The arguments of `Insert`, which are C strings. -/
structure Student where
  name : Bytes
  sex : Bytes
  major : Bytes
  terminated : 0 ∉ name ∧ 0 ∉ sex ∧ 0 ∉ major
  deriving DecidableEq

/-- The strings in three arrays. -/
def Student.ofArrays (name sex major : Bytes) : Student where
  name := cstr name
  sex := cstr sex
  major := cstr major
  terminated := ⟨notMem_cstr name, notMem_cstr sex, notMem_cstr major⟩

/-- The loop of `exec_add` over a string: the text it leaves, with a NUL for every `&`, and
in `data` what is then behind each `=`. -/
def splitFields : Bytes → Bytes × List Bytes
  | [] => ([], [])
  | b :: rest =>
    let (behind, data) := splitFields rest
    if b = 61 then (b :: behind, behind :: data)
    else if b = 38 then (0 :: behind, data)
    else (b :: behind, data)

/-- `exec_add(arg)` for an array `arg`: the arguments of its call of `Insert`, or nothing
when it exits before. There is no result when the behaviour is undefined. -/
def execAdd (environment : List Bytes) (arg : Bytes) : Option (Option Student) := do
  if (← arg.head?) == 0 then
    return none
  else
    -- `atoi(NULL)` is undefined
    let _ ← getenv environment (ascii "CONTENT_LENGTH")
    let data := (splitFields (cstr arg)).2
    -- `data` has room for ten addresses, and an entry that is not set has no value
    if 10 < data.length then
      none
    else
      return some (.ofArrays (← data[0]?) (← data[1]?) (← data[2]?))

/-- `main` of `cgi_sql` up to its call of `Insert`: the arguments of this call, or nothing
when the program ends before. There is no result when the behaviour is undefined. -/
def cgiSql (environment : List Bytes) (input : Bytes) : Option (Option Student) := do
  match getenv environment (ascii "REQUEST_METHOD") with
  | none => return none
  | some method =>
    -- `strcpy` to an array of 256 bytes
    if 256 ≤ method.length then
      none
    else
      execAdd environment (← cgiArgument environment method input)

/-- What `sprintf` writes for the three strings. -/
def sprintfValues (s : Student) : Bytes :=
  ascii "('" ++ s.name ++ ascii "','" ++ s.sex ++ ascii "','" ++ s.major ++ ascii "'," ++
    ascii "NOW()" ++ ascii ")"

/-- `Insert(name, sex, major)`: the text it sends to the database. There is no result when
`sprintf` writes past the 1024 bytes of `buf`. -/
def insert (s : Student) : Option Bytes :=
  if (sprintfValues s).length < 1024 then
    some (ascii "INSERT INTO stu_info(name,sex,major,create_time) values" ++ sprintfValues s)
  else
    none

/-! ### The statement -/

/-- The beginning of the statement up to the first string literal. -/
def insertHead : List Token :=
  [.word (ascii "INSERT"), .word (ascii "INTO"), .word (ascii "stu_info"), .symbol 40,
    .word (ascii "name"), .symbol 44, .word (ascii "sex"), .symbol 44, .word (ascii "major"),
    .symbol 44, .word (ascii "create_time"), .symbol 41, .word (ascii "values"), .symbol 40]

/-- One single INSERT of this student. -/
def insertStatement (s : Student) : List Token :=
  insertHead ++ [.literal s.name, .symbol 44, .literal s.sex, .symbol 44, .literal s.major,
    .symbol 44, .word (ascii "NOW"), .symbol 40, .symbol 41, .symbol 41]

/-- The text is built inside its array, and by the lexical rules of SQL it is one single
INSERT of this student. -/
def InsertsOnly (escapes : Bool) (s : Student) : Prop :=
  ∃ query, insert s = some query ∧ tokens escapes query = some (insertStatement s)

variable {escapes : Bool} {s : Student}

/-- The length of the values with what is around them. -/
theorem length_sprintfValues (s : Student) :
    (sprintfValues s).length = s.name.length + s.sex.length + s.major.length + 16 := by
  simp [sprintfValues, ascii]
  omega

/-- The text from the first string literal on. -/
def literals (s : Student) : Bytes :=
  s.name ++ 39 :: 44 :: 39 :: (s.sex ++ 39 :: 44 :: 39 :: (s.major ++ 39 :: 44 :: ascii "NOW())"))

/-- The lexical elements of the text, in terms of those from the first literal on. -/
theorem tokens_insert (s : Student) :
    tokens escapes (ascii "INSERT INTO stu_info(name,sex,major,create_time) values" ++
      sprintfValues s) =
      (tokensFrom escapes (.inside 39 []) (literals s)).map (insertHead ++ ·) := by
  have htext : ascii "INSERT INTO stu_info(name,sex,major,create_time) values" ++
      sprintfValues s =
        ascii "INSERT INTO stu_info(name,sex,major,create_time) values('" ++ literals s := by
    have hopen : ascii "INSERT INTO stu_info(name,sex,major,create_time) values" ++ ascii "('" =
      ascii "INSERT INTO stu_info(name,sex,major,create_time) values('" := rfl
    have hcomma : ascii "','" = [39, 44, 39] := rfl
    have hlast : ascii "'," = [39, 44] := rfl
    have hnow : ascii "NOW()" ++ ascii ")" = ascii "NOW())" := rfl
    simp only [sprintfValues, List.append_assoc, hnow]
    rw [← List.append_assoc, hopen, hcomma, hlast]
    rfl
  have hhead (escapes : Bool) : scanAll escapes .between
      (ascii "INSERT INTO stu_info(name,sex,major,create_time) values('") =
        (.inside 39 [], insertHead) := by
    cases escapes <;> decide +kernel
  rw [tokens, htext, tokensFrom_append, hhead]

/-- A comma ends no literal. -/
theorem not_special_comma : ¬ Special escapes 44 := by
  simp [Special]

/-- The lexical elements of a string, a comma and what follows it. -/
theorem tokensFrom_argument_iff {v t : Bytes} {ts : List Token} :
    tokensFrom escapes (.inside 39 []) (v ++ 39 :: 44 :: 39 :: t) =
        some (.literal v :: .symbol 44 :: ts) ↔
      verbatim escapes v = true ∧ tokensFrom escapes (.inside 39 []) t = some ts := by
  have hcomma : tokensFrom escapes .between (44 :: 39 :: t) =
      (tokensFrom escapes (.inside 39 []) t).map (.symbol 44 :: ·) := by
    have hscan : scanAll escapes .between [44, 39] = (.inside 39 [], [.symbol 44]) := by
      cases escapes <;> rfl
    have happend : tokensFrom escapes .between ([44, 39] ++ t) = _ :=
      tokensFrom_append .between [44, 39] t
    rw [hscan] at happend
    exact happend
  rw [tokensFrom_literal_iff not_special_comma, hcomma]
  simp

/-- The text is one single INSERT of the student exactly when each of the three strings may
be written as it is. -/
theorem tokens_insert_iff :
    tokens escapes (ascii "INSERT INTO stu_info(name,sex,major,create_time) values" ++
        sprintfValues s) = some (insertStatement s) ↔
      verbatim escapes s.name = true ∧ verbatim escapes s.sex = true ∧
        verbatim escapes s.major = true := by
  have hnow : tokensFrom escapes .between (44 :: ascii "NOW())") =
      some [.symbol 44, .word (ascii "NOW"), .symbol 40, .symbol 41, .symbol 41] := by
    cases escapes <;> decide +kernel
  have hcancel (o : Option (List Token)) (ts : List Token) :
      o.map (insertHead ++ ·) = some (insertHead ++ ts) ↔ o = some ts := by
    simp [Option.map_eq_some_iff]
  rw [tokens_insert, insertStatement, hcancel, literals, tokensFrom_argument_iff,
    tokensFrom_argument_iff, tokensFrom_literal_iff not_special_comma]
  simp only [hnow, and_true]

/-- Exactly when `Insert` sends one single INSERT of its three arguments and stays inside its
array: no quote is in them, every backslash of them is followed by `%` or `_` if it starts
an escape sequence, and they are 1007 bytes together at most. -/
theorem insertsOnly_iff (escapes : Bool) (s : Student) : InsertsOnly escapes s ↔
    (verbatim escapes s.name = true ∧ verbatim escapes s.sex = true ∧
      verbatim escapes s.major = true) ∧
      s.name.length + s.sex.length + s.major.length ≤ 1007 := by
  have hlength : (sprintfValues s).length < 1024 ↔
      s.name.length + s.sex.length + s.major.length ≤ 1007 := by
    rw [length_sprintfValues]
    omega
  rw [InsertsOnly, ← tokens_insert_iff, ← hlength, and_comm (b := _ < 1024)]
  constructor
  · rintro ⟨query, hinsert, htokens⟩
    unfold insert at hinsert
    split_ifs at hinsert with hroom
    cases hinsert
    exact ⟨hroom, htokens⟩
  · rintro ⟨hroom, htokens⟩
    exact ⟨_, if_pos hroom, htokens⟩

/-- A student whose name has a quote in it. -/
def quotedStudent : Student := .ofArrays (ascii "O'Neil") (ascii "m") (ascii "cs")

/-- `cgi_sql` calls `Insert` for the POST of this student, and what `Insert` sends is not
one single INSERT of it. -/
theorem not_insertsOnly_quoted :
    cgiSql (cgiEnvironment (ascii "POST") [] 26) (ascii "name=O'Neil&sex=m&major=cs") =
      some (some quotedStudent) ∧ ∀ escapes, ¬ InsertsOnly escapes quotedStudent := by
  refine ⟨?_, ?_⟩
  · decide +kernel
  · rintro escapes ⟨query, hinsert, htokens⟩
    unfold insert at hinsert
    split_ifs at hinsert
    cases hinsert
    have hname := (tokens_insert_iff.mp htokens).1
    exact absurd hname (by cases escapes <;> decide)

end NetworkCode.Httpd
