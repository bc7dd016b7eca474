import NetworkCode.Httpd.FormSplit
import NetworkCode.Weather.State

/-!
# What `register` and `cgi_sql` take from a form

`exec_calc` of `register` splits its form like `exec_add` of `cgi_sql`, by the same loop, and
registers the second value as an e-mail. Both programs get the values of a form as they stand in
its fields, and neither rejects a form that has fewer values than it uses, or more than ten.
-/

namespace NetworkCode.Weather

open Text
open Httpd (Field Split Student cgiEnvironment execAddInPlace formBody getenv plain_of_all
  splitForm splitLoop)

/-- The registration of `data[1]`. -/
def splitRegister (s : Split) : Option Register := do return .start (← s.string 1)

/-- `exec_calc(arg)` of `register`: the registration it makes, or nothing when it exits
before. -/
def execCalc (environment : List Bytes) (arg : Bytes) : Option (Option Register) :=
  splitForm environment arg splitRegister

variable {environment : List Bytes}

/-! ### Forms -/

/-- A form of one to ten fields is split into the values of its fields, of which `Insert` gets
the first three and the registration the second. -/
theorem form_values {fields : List Field} (hsome : 1 ≤ fields.length)
    (hten : fields.length ≤ 10) (rest : Bytes) :
    (∃ split, splitLoop [] [] (formBody fields ++ 0 :: rest) = some split ∧
      ∀ i, split.string i = fields[i]?.map Field.value) ∧
    ∀ environment, getenv environment (ascii "CONTENT_LENGTH") ≠ none →
      (∀ name sex major more, fields = name :: sex :: major :: more → ∃ student : Student,
        execAddInPlace environment (formBody fields ++ 0 :: rest) = some (some student) ∧
          student.name = name.value ∧ student.sex = sex.value ∧ student.major = major.value) ∧
      ∀ first email more, fields = first :: email :: more →
        execCalc environment (formBody fields ++ 0 :: rest) =
          some (some (.start email.value)) := by
  have hzero := Httpd.zero_notMem_formBody fields
  have hcount : ([] : List Nat).length + (formBody fields).count 61 ≤ 10 := by
    rw [Httpd.count_formBody, List.length_nil]
    omega
  obtain ⟨split, hsplit⟩ : ∃ split, splitLoop [] [] (formBody fields ++ 0 :: rest) = some split :=
    ⟨_, (Httpd.splitLoop_eq hzero [] rest (Nat.zero_le _)).trans (if_pos hcount)⟩
  have hstring (i : Nat) : split.string i = fields[i]?.map Field.value := by
    rw [Httpd.string_splitLoop hzero hsplit, ← List.getElem?_map, Httpd.values_formBody,
      List.getElem?_map]
  refine ⟨⟨split, hsplit, hstring⟩, fun environment hset => ⟨?_, ?_⟩⟩
  · intro name sex major more hfields
    have hne := Httpd.formBody_ne_nil (List.ne_nil_of_length_pos hsome)
    refine ⟨.ofArrays name.value sex.value major.value, ?_, name.cstr_value, sex.cstr_value,
      major.cstr_value⟩
    rw [execAddInPlace, Httpd.splitForm_eq hset hzero hne, hsplit]
    simp [Httpd.Split.student, hstring, hfields]
  · intro first email more hfields
    have hne := Httpd.formBody_ne_nil (List.ne_nil_of_length_pos hsome)
    rw [execCalc, Httpd.splitForm_eq hset hzero hne, hsplit]
    simp [splitRegister, hstring, hfields]

/-- The form `name=Li&sex=&=cs`. -/
def studentForm : List Field :=
  [⟨ascii "name", ascii "Li", plain_of_all rfl⟩, ⟨ascii "sex", [], plain_of_all rfl⟩,
    ⟨[], ascii "cs", plain_of_all rfl⟩]

/-- A form with an empty value and an empty key. -/
theorem form_values_studentForm :
    formBody studentForm = ascii "name=Li&sex=&=cs" ∧
    ∃ student : Student, execAddInPlace (cgiEnvironment (ascii "POST") [] 16)
      (ascii "name=Li&sex=&=cs" ++ [0]) = some (some student) ∧
        student.name = ascii "Li" ∧ student.sex = [] ∧ student.major = ascii "cs" := by
  have hbody : formBody studentForm = ascii "name=Li&sex=&=cs" := by decide +kernel
  have hset : getenv (cgiEnvironment (ascii "POST") [] 16) (ascii "CONTENT_LENGTH") ≠ none := by
    decide +kernel
  obtain ⟨-, hprograms⟩ := @form_values studentForm (by decide) (by decide) []
  obtain ⟨hinsert, -⟩ := hprograms _ hset
  rw [hbody] at hinsert
  exact ⟨hbody, hinsert _ _ _ [] rfl⟩

/-! ### Other bodies -/

/-- Exactly when the two programs keep to elements of `data` that are there and assigned, or
reject the body: it begins with a NUL, or has as many `=` as the program uses values and ten at
most. -/
theorem form_kept_iff {body : Bytes}
    (hset : getenv environment (ascii "CONTENT_LENGTH") ≠ none) (hbody : body ≠ [])
    (rest : Bytes) :
    (execAddInPlace environment (body ++ 0 :: rest) ≠ none ↔
      body.head? = some 0 ∨ 3 ≤ (cstr body).count 61 ∧ (cstr body).count 61 ≤ 10) ∧
    (execCalc environment (body ++ 0 :: rest) ≠ none ↔
      body.head? = some 0 ∨ 2 ≤ (cstr body).count 61 ∧ (cstr body).count 61 ≤ 10) := by
  constructor
  · refine Httpd.splitForm_ne_none_iff 3 (fun split hstring => ?_) hset hbody rest
    have hall : split.student ≠ none ↔
        split.string 0 ≠ none ∧ split.string 1 ≠ none ∧ split.string 2 ≠ none := by
      unfold Httpd.Split.student
      cases split.string 0 <;> cases split.string 1 <;> cases split.string 2 <;> simp
    rw [hall, hstring, hstring, hstring]
    omega
  · refine Httpd.splitForm_ne_none_iff 2 (fun split hstring => ?_) hset hbody rest
    have hsecond : splitRegister split ≠ none ↔ split.string 1 ≠ none := by
      unfold splitRegister
      cases split.string 1 <;> simp
    rw [hsecond, hstring]
    omega

theorem getenv_post_length :
    getenv (cgiEnvironment (ascii "POST") [] 3) (ascii "CONTENT_LENGTH") ≠ none := by
  decide +kernel

/-- Both programs keep to their values in a form of three fields. -/
theorem form_kept_iff_three :
    execAddInPlace (cgiEnvironment (ascii "POST") [] 3) (ascii "a=1&b=2&c=3" ++ [0]) ≠ none ∧
      execCalc (cgiEnvironment (ascii "POST") [] 3) (ascii "a=1&b=2&c=3" ++ [0]) ≠ none := by
  have hne : ascii "a=1&b=2&c=3" ≠ [] := by decide
  obtain ⟨hadd, hregister⟩ := form_kept_iff getenv_post_length hne []
  have hthree : (cstr (ascii "a=1&b=2&c=3")).count 61 = 3 := by decide
  exact ⟨hadd.mpr (.inr (by omega)), hregister.mpr (.inr (by omega))⟩

/-- A body with one value is not rejected: neither program has assigned all that it uses. Nor is
one with eleven, the last of which is recorded behind `data`. -/
theorem form_not_rejected :
    (¬ ∀ environment body rest, getenv environment (ascii "CONTENT_LENGTH") ≠ none → body ≠ [] →
      execAddInPlace environment (body ++ 0 :: rest) ≠ none) ∧
    ¬ ∀ environment body rest, getenv environment (ascii "CONTENT_LENGTH") ≠ none → body ≠ [] →
      execCalc environment (body ++ 0 :: rest) ≠ none := by
  have hfew : execAddInPlace (cgiEnvironment (ascii "POST") [] 3) (ascii "a=1" ++ [0]) = none := by
    decide +kernel
  have hmany : execCalc (cgiEnvironment (ascii "POST") [] 3) (ascii "===========" ++ [0]) =
      none := by decide +kernel
  constructor
  · intro h
    exact h _ (ascii "a=1") [] getenv_post_length (by decide) hfew
  · intro h
    exact h _ (ascii "===========") [] getenv_post_length (by decide) hmany

end NetworkCode.Weather
