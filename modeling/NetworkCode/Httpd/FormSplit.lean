import NetworkCode.Httpd.CgiSql

/-!
# The form values of a request body

`exec_add` of `cgi_sql` and `exec_calc` of `register` split a form in place: at every `=`
they record the address behind it in the next element of `data`, and every `&` becomes a
NUL. A recorded address thus gets its terminator only when the loop comes to the `&` behind
it. There are as many values as there are `=`, whatever the fields are, and neither program
looks at how many were recorded before it uses the first three, or the second.
-/

namespace NetworkCode.Httpd

open Text

/-! ### The loop -/

/-- Behind the loop: the rewritten array, and the indices in it that `data` has. -/
structure Split where
  arg : Bytes
  data : List Nat
  deriving DecidableEq, Repr

/-- The loop of `exec_add` and `exec_calc`, with `cur` between the rewritten bytes of the array
and those that it has not come to. Running off the array and a write behind the ten elements
of `data` are undefined. -/
def splitLoop (before : Bytes) (data : List Nat) : Bytes → Option Split
  | [] => none
  | b :: rest =>
    if b = 0 then
      some ⟨before ++ b :: rest, data⟩
    else if b = 61 then
      if data.length < 10 then
        splitLoop (before ++ [b]) (data ++ [before.length + 1]) rest
      else
        none
    else if b = 38 then
      splitLoop (before ++ [0]) data rest
    else
      splitLoop (before ++ [b]) data rest

/-- The string `data[k]`; an element that was not assigned has no value. -/
def Split.string (s : Split) (k : Nat) : Option Bytes := s.data[k]?.bind (stringAt s.arg)

/-- What `exec_add` and `exec_calc` do before they use the values: they exit with nothing for an
empty argument, and split it else. -/
def splitForm {α : Type} (environment : List Bytes) (arg : Bytes) (use : Split → Option α) :
    Option (Option α) := do
  if (← arg.head?) == 0 then
    return none
  else
    -- `atoi(NULL)` is undefined
    let _ ← getenv environment (ascii "CONTENT_LENGTH")
    return some (← use (← splitLoop [] [] arg))

/-- The arguments of `Insert`. -/
def Split.student (s : Split) : Option Student := do
  return .ofArrays (← s.string 0) (← s.string 1) (← s.string 2)

/-- `exec_add(arg)` of `cgi_sql` as it works on the array: the arguments of its call of
`Insert`, or nothing when it exits before. -/
def execAddInPlace (environment : List Bytes) (arg : Bytes) : Option (Option Student) :=
  splitForm environment arg Split.student

variable {environment : List Bytes} {arg s t before rest : Bytes} {data : List Nat} {k : Nat}

/-! ### What the loop leaves -/

/-- The indices that the loop records for a string which begins at `start`. -/
def offsets (start : Nat) : Bytes → List Nat
  | [] => []
  | b :: s => if b = 61 then (start + 1) :: offsets (start + 1) s else offsets (start + 1) s

/-- There is a value for each equals sign. -/
theorem length_splitFields (s : Bytes) : (splitFields s).2.length = s.count 61 := by
  induction s with
  | nil => rfl
  | cons b s ih =>
    by_cases hb : b = 61
    · subst hb
      simp only [splitFields, if_true, List.length_cons, ih, List.count_cons_self]
    · simp only [splitFields, if_neg hb, List.count_cons_of_ne hb]
      split <;> exact ih

/-- The loop comes to the NUL behind its string unless it records more than ten values. -/
theorem splitLoop_eq (h : 0 ∉ s) (before rest : Bytes) (hroom : data.length ≤ 10) :
    splitLoop before data (s ++ 0 :: rest) =
      if data.length + s.count 61 ≤ 10 then
        some ⟨before ++ (splitFields s).1 ++ 0 :: rest, data ++ offsets before.length s⟩
      else none := by
  induction s generalizing before data with
  | nil => simp [splitLoop, splitFields, offsets, hroom]
  | cons b s ih =>
    rw [List.mem_cons, not_or] at h
    have hlen (c : UInt8) : (before ++ [c]).length = before.length + 1 := by simp
    rw [List.cons_append, splitLoop, if_neg (Ne.symm h.1)]
    by_cases heq : b = 61
    · rw [if_pos heq, heq, List.count_cons_self]
      by_cases hlt : data.length < 10
      · have hcount : data.length + 1 + s.count 61 = data.length + (s.count 61 + 1) := by omega
        have hnext : (data ++ [before.length + 1]).length = data.length + 1 := by simp
        rw [if_pos hlt, ih h.2 _ (by omega), hlen, hnext, hcount]
        simp [splitFields, offsets]
      · rw [if_neg hlt, if_neg (by omega)]
    · rw [if_neg heq, List.count_cons_of_ne heq]
      by_cases hamp : b = 38
      · rw [if_pos hamp, ih h.2 _ hroom, hlen]
        simp [splitFields, offsets, hamp]
      · rw [if_neg hamp, ih h.2 _ hroom, hlen]
        simp [splitFields, offsets, heq, hamp]

/-- Behind each recorded index there is what `splitFields` has for it: the bytes ahead of the
loop were rewritten since. -/
theorem drop_offsets (before rest s : Bytes) :
    (offsets before.length s).map (fun i => (before ++ (splitFields s).1 ++ 0 :: rest).drop i) =
      (splitFields s).2.map (· ++ 0 :: rest) := by
  induction s generalizing before with
  | nil => rfl
  | cons b s ih =>
    have hstep (c : UInt8) : (offsets (before.length + 1) s).map
        (fun i => (before ++ c :: (splitFields s).1 ++ 0 :: rest).drop i) =
          (splitFields s).2.map (· ++ 0 :: rest) := by
      have hc := ih (before ++ [c])
      simpa using hc
    by_cases heq : b = 61
    · simp only [offsets, splitFields, if_pos heq, List.map_cons, hstep]
      simp
    · by_cases hamp : b = 38
      · simpa only [offsets, splitFields, if_neg heq, if_pos hamp] using hstep 0
      · simpa only [offsets, splitFields, if_neg heq, if_neg hamp] using hstep b

/-- The strings of a completed split. -/
theorem string_splitLoop {split : Split} (h : 0 ∉ s)
    (hsplit : splitLoop [] [] (s ++ 0 :: rest) = some split) (k : Nat) :
    split.string k = (splitFields s).2[k]?.map cstr := by
  rw [splitLoop_eq h [] rest (Nat.zero_le _)] at hsplit
  split at hsplit
  · cases hsplit
    have hdrop := congrArg (fun l => l[k]?) (drop_offsets [] rest s)
    simp only [List.getElem?_map, List.nil_append, List.length_nil] at hdrop
    rw [Split.string]
    simp only [List.nil_append, List.length_nil]
    cases hoff : (offsets 0 s)[k]? with
    | none =>
      rw [hoff, Option.map_none, eq_comm, Option.map_eq_none_iff] at hdrop
      rw [hdrop]
      rfl
    | some i =>
      rw [hoff, Option.map_some, eq_comm, Option.map_eq_some_iff] at hdrop
      obtain ⟨behind, hbehind, he⟩ := hdrop
      have hmem : (0 : UInt8) ∈ behind ++ 0 :: rest := by simp
      rw [hbehind, Option.bind_some, stringAt, ← he, if_pos hmem, cstr_append_zero,
        Option.map_some]
  · cases hsplit

/-- An element of `data` has a value exactly when the string has that many `=`. -/
theorem string_ne_none_iff {split : Split} (h : 0 ∉ s)
    (hsplit : splitLoop [] [] (s ++ 0 :: rest) = some split) (k : Nat) :
    split.string k ≠ none ↔ k < s.count 61 := by
  rw [string_splitLoop h hsplit, ne_eq, Option.map_eq_none_iff, List.getElem?_eq_none_iff,
    length_splitFields, Nat.not_le]

/-- The split of an argument that is not empty, and the use of its values. -/
theorem splitForm_eq {α : Type} {use : Split → Option α}
    (hset : getenv environment (ascii "CONTENT_LENGTH") ≠ none) (h : 0 ∉ s) (hne : s ≠ []) :
    splitForm environment (s ++ 0 :: rest) use =
      (splitLoop [] [] (s ++ 0 :: rest)).bind fun split => (use split).map some := by
  obtain ⟨clength, hlength⟩ := Option.ne_none_iff_exists'.mp hset
  obtain ⟨b, s, rfl⟩ := List.exists_cons_of_ne_nil hne
  have hb : b ≠ 0 := fun he => h (he ▸ List.mem_cons_self)
  simp only [splitForm, List.cons_append, List.head?_cons, Option.bind_eq_bind, Option.bind_some,
    beq_iff_eq, hb, if_false, hlength]
  cases splitLoop [] [] (b :: (s ++ 0 :: rest)) with
  | none => rfl
  | some split =>
    simp only [Option.bind_some]
    cases use split <;> rfl

/-- A field `k=v` of a form. -/
structure Field where
  key : Bytes
  value : Bytes
  plain : ∀ b ∈ key ++ value, b ≠ 61 ∧ b ≠ 38 ∧ b ≠ 0

/-- The separators can be looked for one byte after the other. -/
theorem plain_of_all {s : Bytes} (h : s.all (fun b => b != 61 && b != 38 && b != 0) = true) :
    ∀ b ∈ s, b ≠ 61 ∧ b ≠ 38 ∧ b ≠ 0 := by
  simpa [and_assoc] using h

/-- A value has no NUL. -/
theorem Field.zero_notMem_value (f : Field) : 0 ∉ f.value := fun h =>
  (f.plain 0 (List.mem_append_right _ h)).2.2 rfl

/-- A value is a string as it is. -/
theorem Field.cstr_value (f : Field) : cstr f.value = f.value :=
  cstr_of_notMem f.zero_notMem_value

/-- The bytes of a field. -/
def Field.bytes (f : Field) : Bytes := f.key ++ 61 :: f.value

/-- A request body with these fields. -/
def formBody (fields : List Field) : Bytes := [38].intercalate (fields.map Field.bytes)

/-- Bytes that are no separators stay where they are. -/
theorem splitFields_append (h : ∀ b ∈ s, b ≠ 61 ∧ b ≠ 38 ∧ b ≠ 0) (t : Bytes) :
    splitFields (s ++ t) = (s ++ (splitFields t).1, (splitFields t).2) := by
  induction s with
  | nil => rfl
  | cons b s ih =>
    obtain ⟨heq, hamp, -⟩ := h b List.mem_cons_self
    rw [List.cons_append, splitFields, ih fun c hc => h c (List.mem_cons_of_mem b hc)]
    simp [heq, hamp]

/-- A field adds its value in front, up to what follows. -/
theorem splitFields_field (f : Field) (t : Bytes) :
    splitFields (f.bytes ++ t) = (f.bytes ++ (splitFields t).1,
      (f.value ++ (splitFields t).1) :: (splitFields t).2) := by
  have hkey : ∀ b ∈ f.key, b ≠ 61 ∧ b ≠ 38 ∧ b ≠ 0 := fun b hb =>
    f.plain b (List.mem_append_left _ hb)
  have hvalue : ∀ b ∈ f.value, b ≠ 61 ∧ b ≠ 38 ∧ b ≠ 0 := fun b hb =>
    f.plain b (List.mem_append_right _ hb)
  rw [Field.bytes, List.append_assoc, splitFields_append hkey, List.cons_append, splitFields,
    splitFields_append hvalue]
  simp

/-- A field has no NUL. -/
theorem zero_notMem_bytes (f : Field) : 0 ∉ f.bytes := by
  intro h
  rcases List.mem_append.mp h with hkey | hrest
  · exact (f.plain 0 (List.mem_append_left _ hkey)).2.2 rfl
  · obtain he | hvalue := List.mem_cons.mp hrest
    · exact absurd he (by decide)
    · exact f.zero_notMem_value hvalue

/-- A form has no NUL. -/
theorem zero_notMem_formBody (fields : List Field) : 0 ∉ formBody fields := by
  induction fields with
  | nil => exact List.not_mem_nil
  | cons f fields ih =>
    cases fields with
    | nil =>
      rw [formBody, List.map_singleton, List.intercalate_singleton]
      exact zero_notMem_bytes f
    | cons g fields =>
      rw [formBody, List.map_cons, List.map_cons, List.intercalate_cons_cons, ← List.map_cons]
      intro h
      rcases List.mem_append.mp h with hfirst | hrest
      · rcases List.mem_append.mp hfirst with hbytes | hamp
        · exact zero_notMem_bytes f hbytes
        · exact absurd (List.mem_singleton.mp hamp) (by decide)
      · exact ih hrest

/-- The values of a form are those of its fields. -/
theorem values_formBody (fields : List Field) :
    (splitFields (formBody fields)).2.map cstr = fields.map Field.value := by
  induction fields with
  | nil => rfl
  | cons f fields ih =>
    cases fields with
    | nil =>
      rw [formBody, List.map_singleton, List.intercalate_singleton, ← List.append_nil f.bytes,
        splitFields_field]
      simp [splitFields, f.cstr_value]
    | cons g fields =>
      rw [formBody, List.map_cons, List.map_cons, List.intercalate_cons_cons, ← List.map_cons,
        List.append_assoc, splitFields_field, List.singleton_append, splitFields]
      simp only [List.map_cons, ← ih]
      simp [formBody, cstr_append_nul f.zero_notMem_value]

/-- There are as many `=` as fields. -/
theorem count_formBody (fields : List Field) : (formBody fields).count 61 = fields.length := by
  have hlen := congrArg List.length (values_formBody fields)
  rwa [List.length_map, List.length_map, length_splitFields] at hlen

/-- A form with fields is not empty. -/
theorem formBody_ne_nil {fields : List Field} (h : fields ≠ []) : formBody fields ≠ [] := by
  intro hnil
  have hcount := count_formBody fields
  rw [hnil, List.count_nil, eq_comm, List.length_eq_zero_iff] at hcount
  exact h hcount

/-! ### Other bodies -/

/-- A request body in its array is a string and its NUL. -/
theorem exists_terminated (body rest : Bytes) :
    ∃ behind, body ++ 0 :: rest = cstr body ++ 0 :: behind := by
  have hmem : (0 : UInt8) ∈ body ++ 0 :: rest := by simp
  obtain ⟨s, behind, he, hs⟩ := List.eq_append_cons_of_mem hmem
  refine ⟨behind, ?_⟩
  rw [← cstr_append_zero body rest, he, cstr_append_nul hs]

/-- A body that does not begin with a NUL is used as far as it has values. -/
theorem splitForm_ne_none_iff {α : Type} {use : Split → Option α} {body : Bytes} (n : Nat)
    (huse : ∀ split : Split, (∀ k, split.string k ≠ none ↔ k < (cstr body).count 61) →
      (use split ≠ none ↔ n ≤ (cstr body).count 61))
    (hset : getenv environment (ascii "CONTENT_LENGTH") ≠ none) (hbody : body ≠ [])
    (rest : Bytes) :
    splitForm environment (body ++ 0 :: rest) use ≠ none ↔
      body.head? = some 0 ∨ n ≤ (cstr body).count 61 ∧ (cstr body).count 61 ≤ 10 := by
  obtain ⟨b, body, rfl⟩ := List.exists_cons_of_ne_nil hbody
  by_cases hb : b = 0
  · subst hb
    exact iff_of_true (by simp [splitForm]) (.inl rfl)
  · have hhead : (b :: body).head? ≠ some 0 := by simpa using hb
    have htext : cstr (b :: body) = b :: cstr body :=
      List.takeWhile_cons_of_pos (by simpa using hb)
    obtain ⟨behind, hbehind⟩ := exists_terminated (b :: body) rest
    have hzero : 0 ∉ cstr (b :: body) := notMem_cstr _
    have hne : cstr (b :: body) ≠ [] := by
      rw [htext]
      exact List.cons_ne_nil _ _
    rw [or_iff_right hhead, hbehind, splitForm_eq hset hzero hne]
    by_cases hten : (cstr (b :: body)).count 61 ≤ 10
    · obtain ⟨split, hsplit⟩ :
          ∃ split, splitLoop [] [] (cstr (b :: body) ++ 0 :: behind) = some split := by
        refine ⟨_, (splitLoop_eq hzero [] behind (Nat.zero_le _)).trans (if_pos ?_)⟩
        simpa using hten
      rw [hsplit, Option.bind_some, ne_eq, Option.map_eq_none_iff, and_iff_left hten]
      exact huse split (string_ne_none_iff hzero hsplit)
    · rw [splitLoop_eq hzero [] behind (Nat.zero_le _), if_neg (by simpa using hten),
        Option.bind_none]
      exact iff_of_false (fun h => h rfl) (fun h => hten h.2)

end NetworkCode.Httpd
