import NetworkCode.Core.FormText
import NetworkCode.Httpd.Framing
import NetworkCode.Httpd.Submitting
import NetworkCode.Weather.Forecast
import NetworkCode.Weather.FormRegister
import NetworkCode.Weather.Registering

/-!
# From the registration form to the mail

The page of the server has a form for a name and an e-mail address. A browser posts what was typed
there to `cgi/register`, the server runs the program with the body of the request, the program
stores the second value of the form in the hash `user`, and `ShowWeather.py` sends its mail to the
values stored there. Of what the browser writes differently for a form the script undoes only the
sign `@`.
-/

namespace NetworkCode.Weather

open LineStream StepResult Text
open Httpd (Env CgiCall Field Posted Request Stat World)

/-! ## The addresses of the script -/

/-- What the script makes of a byte that was typed in a form. -/
def mailedByte (b : UInt8) : Bytes := if b = 64 then [64] else formByte b

/-- The address that the script makes of one that was typed in a form. -/
def mailed (email : Bytes) : Bytes := email.flatMap mailedByte

variable {b c : UInt8} {s t : Bytes}

/-- A byte that is no percent sign stays. -/
theorem replaceAt_cons (h : b ≠ 37) (s : Bytes) : replaceAt (b :: s) = b :: replaceAt s := by
  rw [replaceAt.eq_def]
  split
  · rename_i he
    exact absurd (List.cons.inj he).1 h
  · rename_i he
    obtain ⟨rfl, rfl⟩ := List.cons.inj he
    rfl
  · rename_i he
    cases he

/-- Bytes without a percent sign stay. -/
theorem replaceAt_append (h : ∀ b ∈ s, b ≠ 37) (t : Bytes) :
    replaceAt (s ++ t) = s ++ replaceAt t := by
  induction s with
  | nil => rfl
  | cons b s ih =>
    obtain ⟨hb, hs⟩ := List.forall_mem_cons.mp h
    rw [List.cons_append, replaceAt_cons hb, ih hs, List.cons_append]

/-- A percent sign stays when the sign `@` is not behind it. -/
theorem replaceAt_percent (h : s.take 2 ≠ [52, 48]) :
    replaceAt (37 :: s) = 37 :: replaceAt s := by
  rw [replaceAt.eq_def]
  split
  · rename_i he
    rw [(List.cons.inj he).2] at h
    exact absurd rfl h
  · rename_i he
    obtain ⟨rfl, rfl⟩ := List.cons.inj he
    rfl
  · rename_i he
    cases he

/-- The script undoes what the browser writes for one byte, or leaves it. -/
theorem replaceAt_formByte (b : UInt8) (t : Bytes) :
    replaceAt (formByte b ++ t) = mailedByte b ++ replaceAt t := by
  by_cases hsign : b = 64
  · subst hsign
    rfl
  rw [mailedByte, if_neg hsign]
  unfold formByte
  split
  · rename_i hb
    exact replaceAt_append (List.forall_mem_singleton.mpr (unreserved_ne hb).2.2.2) t
  · split
    · have hplus : (43 : UInt8) ≠ 37 := by decide
      exact replaceAt_append (List.forall_mem_singleton.mpr hplus) t
    · have hdigits : ∀ c ∈ hexByte b, c ≠ 37 := fun c hc =>
        (unreserved_ne (unreserved_hexByte b c hc)).2.2.2
      have hne : (hexByte b ++ t).take 2 ≠ [52, 48] := by
        intro he
        have hsame : hexByte b = hexByte 64 := he
        exact hsign (hexByte_inj hsame)
      rw [List.cons_append, replaceAt_percent hne, replaceAt_append hdigits, List.cons_append]

/-- What the script makes of the browser's encoding. -/
theorem replaceAt_formText (email : Bytes) : replaceAt (formText email) = mailed email := by
  induction email with
  | nil => rfl
  | cons b email ih =>
    rw [formText, List.flatMap_cons, replaceAt_formByte]
    exact congrArg (mailedByte b ++ ·) ih

/-- An address comes back when each of its bytes stands for itself or is the sign `@`. -/
theorem mailed_eq_self_iff {email : Bytes} :
    mailed email = email ↔ ∀ b ∈ email, b = 64 ∨ unreserved b = true := by
  have hne (b : UInt8) : mailedByte b ≠ [] := by
    unfold mailedByte
    split
    · exact List.cons_ne_nil _ _
    · exact formByte_ne_nil b
  refine (flatMap_eq_self_iff hne).trans (forall₂_congr fun b _ => ?_)
  by_cases hsign : b = 64
  · subst hsign
    exact iff_of_true rfl (.inl rfl)
  · rw [mailedByte, if_neg hsign, formByte_eq_self_iff, or_iff_right hsign]

/-! ## The program -/

/-- The path of `register` that `HandleSock` builds. -/
def registerPath : Bytes := ascii "wwwroot/cgi/register"

/-- `main` of `register` up to the commands of its call of `exec_calc`: the registration that it
makes, or nothing when the program ends before. There is no result when the behaviour is
undefined. -/
def registerMain (environment : List Bytes) (input : Bytes) : Option (Option Register) := do
  match Httpd.getenv environment (ascii "REQUEST_METHOD") with
  | none => return none
  | some method =>
    -- `strcpy` to an array of 256 bytes
    if 256 ≤ method.length then
      none
    else
      execCalc environment (← Httpd.cgiArgument environment method input)

/-! ## The form -/

/-- A field of the form with what was typed there. -/
def typedField (key : Bytes) (hkey : key.all (fun b => b != 61 && b != 38 && b != 0) = true)
    (typed : Bytes) : Field where
  key := key
  value := formText typed
  plain b hb := (List.mem_append.mp hb).elim (Httpd.plain_of_all hkey b) ne_of_mem_formText

/-- The fields of the form. -/
def registerFields (name email : Bytes) : List Field :=
  [typedField (ascii "v1") rfl name, typedField (ascii "v2") rfl email]

/-- A POST of the form, whose body `post_data` has room for. -/
structure Submission extends Posted where
  name : Bytes
  email : Bytes
  form : further = Httpd.formBody (registerFields name email)
  /-- No header line is taken for an empty one. -/
  quiet : ∀ h ∈ headers, ¬ 1022 ∣ h.text.length
  short : further.length < 1024

/-- The request line of the form. -/
def registerLine : Line where
  text := ascii "POST /cgi/register HTTP/1.1"
  eol := .crlf
  plain := by decide

/-- The request of a submission. -/
def Submission.request (sub : Submission) : Request where
  toHeaderSection := sub.toHeaderSection
  requestLine := registerLine
  lineEnded h := absurd h (by decide)

/-- How the server should run the program. -/
def Submission.call (sub : Submission) : CgiCall :=
  ⟨registerPath, Httpd.cgiEnvironment (ascii "POST") (ascii "/cgi/register") sub.further.length⟩

/-- The server runs a program: whatever the program puts out for this call and input, a client that
takes it gets it, if the program takes its input and ends. -/
def RunsProgram (env : Env) (q : Request) (call : CgiCall) (input : Bytes) : Prop :=
  ∀ output : CgiCall → Bytes → Bytes, ∃ r w,
    (Httpd.handleSock { env with cgi := output }).Returns (Httpd.connected q.sent .silent) r w ∧
      w.response = Httpd.statusLine ++ output call input

/-- The server can start programs, and finds `register`. -/
structure Serves (env : Env) : Prop where
  started : Httpd.started env = true
  found : ∃ st, env.stat registerPath = some st ∧ st.isDir = false

variable {env : Env} {sub : Submission} {subs : List Submission} {first store store' : Store}
  {call : CgiCall} {input : Bytes}

/-- A submission has a body. -/
theorem Submission.further_ne_nil (sub : Submission) : sub.further ≠ [] := by
  rw [sub.form]
  exact Httpd.formBody_ne_nil (List.cons_ne_nil _ _)

/-- The request line leaves the header section. -/
theorem Submission.remaining_eq (sub : Submission) : sub.request.remaining = sub.stream := by
  have hshort : registerLine.text.length < 1024 := by decide
  have hresidue : sub.request.residue = [] := if_pos hshort
  rw [Request.remaining, Request.ahead, hresidue, List.nil_append]
  rfl

/-- The route of the request line is that of the program. -/
theorem Submission.route_eq (sub : Submission) (h : Serves env) :
    sub.request.route env =
      .cgi registerPath registerPath (ascii "POST") (ascii "/cgi/register") := by
  obtain ⟨st, hstat, hfile⟩ := h.found
  have htake : (registerLine.text ++ [LF]).take 1024 =
      ascii "POST /cgi/register HTTP/1.1\n" := by
    decide +kernel
  have hline : sub.request.line = ascii "POST /cgi/register HTTP/1.1\n" := htake
  have hmethod : cstr (Httpd.methodWord
      (Httpd.requestBuffer (ascii "POST /cgi/register HTTP/1.1\n"))) = ascii "POST" := by
    decide +kernel
  have hurl : cstr (Httpd.urlWord
      (Httpd.requestBuffer (ascii "POST /cgi/register HTTP/1.1\n"))) =
        ascii "/cgi/register" := by
    decide +kernel
  have hasked : Httpd.askedPath (ascii "POST") (ascii "/cgi/register") = registerPath := by
    decide +kernel
  have hget : Httpd.isGet (ascii "POST") = false := rfl
  have hpost : Httpd.isPost (ascii "POST") = true := rfl
  rw [Request.route, Httpd.lineRoute, hline, hmethod, hurl]
  simp only [Httpd.routeOf, hasked, hstat, hget, hpost, hfile, Bool.not_true, Bool.and_false,
    Bool.false_eq_true, if_false, Bool.true_or, if_true]

/-- The header section is read once, and the body is left. -/
theorem Submission.skips (sub : Submission) :
    SkipsTimes false 1022 1 sub.request.remaining sub.further := by
  rw [sub.remaining_eq]
  exact Httpd.stopsBehind_iff_skips.mp
    (Httpd.stopsBehind_of_headers sub.quiet sub.further_ne_nil)

/-- The length that is announced is that of the body. -/
theorem Submission.announced_eq (sub : Submission) :
    Httpd.announced (lines false sub.request.remaining) = sub.further.length := by
  rw [sub.remaining_eq]
  exact sub.announces

/-- What the client gets is in the trace without the lines that were read. -/
theorem response_eq_doings (w : World) : w.response = w.doings.flatMap Httpd.Event.bytes := by
  rw [World.response, World.doings]
  induction w.trace with
  | nil => rfl
  | cons e es ih =>
    rw [List.flatMap_cons, ih]
    cases e <;> rfl

/-- The body is handed over once. -/
theorem Submission.drains (sub : Submission) (h : Serves env) :
    Httpd.routeDrains (lines false sub.request.remaining) (sub.request.route env) = 1 ∧
      Httpd.routeBody env (lines false sub.request.remaining) (sub.request.route env) =
        sub.further.length := by
  have hget : Httpd.isGet (ascii "POST") = false := rfl
  have hsame : Httpd.sameIgnoringCase (ascii "POST") (ascii "POST") = true := rfl
  rw [sub.route_eq h]
  simp [Httpd.routeDrains, Httpd.routeBody, sub.announced_eq, hget, hsame, Httpd.bodyLength,
    h.started, sub.further_ne_nil]

/-- Every submission is served. -/
theorem Submission.exists_returns (sub : Submission) (h : Serves env) : ∃ r w,
    (Httpd.handleSock env).Returns (Httpd.connected sub.request.sent .silent) r w := by
  obtain ⟨hdrains, hbody⟩ := sub.drains h
  obtain ⟨r, w, hw⟩ : (Httpd.perform env (sub.request.route env)).Halts
      ((Httpd.connected sub.request.sent .silent).afterLine sub.request.remaining) := by
    refine Httpd.halts_perform_iff.mpr
      ⟨sub.further, ?_, fun _ => ?_, Httpd.allows_of_willing rfl _⟩
    · exact hdrains ▸ sub.skips
    · exact Nat.le_of_eq hbody
  exact ⟨r, w, Httpd.returns_handleSock_sent.mpr hw⟩

/-- The client of a submission gets the output of the program for the call that it should have. -/
theorem Submission.response_eq {r : Int} {w : World} (h : Serves env)
    (hw : (Httpd.handleSock env).Returns (Httpd.connected sub.request.sent .silent) r w) :
    w.response = Httpd.statusLine ++ env.cgi sub.call sub.further := by
  obtain ⟨hdrains, hbody⟩ := sub.drains h
  obtain ⟨rest, hrest⟩ := Httpd.performed_of_returns (Httpd.returns_handleSock_sent.mp hw)
  have hskips : SkipsTimes false 1022 1 sub.request.remaining rest := hdrains ▸ hrest.skips
  obtain rfl : rest = sub.further := hskips.unique sub.skips
  have hpos : ((sub.further.length : Int) == 0) = false := by simpa using sub.further_ne_nil
  have hget : Httpd.isGet (ascii "POST") = false := rfl
  have hdoings : w.doings = Httpd.routeEvents env (lines false sub.request.remaining)
      (Httpd.bodyBytes (Httpd.routeBody env (lines false sub.request.remaining)
        (sub.request.route env)) 0 sub.further) (sub.request.route env) :=
    hrest.doings.trans (Httpd.Conduct.willing_kept _)
  rw [hbody, Httpd.bodyBytes_length, sub.route_eq h, Httpd.routeEvents, sub.announced_eq, hget,
    hpos, if_neg Bool.false_ne_true, if_neg Bool.false_ne_true] at hdoings
  rw [response_eq_doings, hdoings, List.flatMap_append, List.flatMap_cons,
    Httpd.flatMap_cgiEvents h.started]
  exact List.append_nil _

/-- The server runs `register`, and nothing else, with the body of the submission. -/
theorem runsProgram_iff (h : Serves env) :
    RunsProgram env sub.request call input ↔ call = sub.call ∧ input = sub.further := by
  have hserves (output : CgiCall → Bytes → Bytes) : Serves { env with cgi := output } :=
    ⟨h.started, h.found⟩
  constructor
  · intro hruns
    -- a program whose output tells this call and input from all others
    obtain ⟨r, w, hw, hresponse⟩ := hruns fun call input =>
      if call = sub.call ∧ input = sub.further then [] else [0]
    have hsame : sub.call = sub.call ∧ sub.further = sub.further := ⟨rfl, rfl⟩
    have houtput := List.append_cancel_left ((sub.response_eq (hserves _) hw).symm.trans hresponse)
    dsimp only at houtput
    rw [if_pos hsame] at houtput
    by_contra hother
    rw [if_neg hother] at houtput
    cases houtput
  · rintro ⟨rfl, rfl⟩ output
    obtain ⟨r, w, hw⟩ := sub.exists_returns (hserves output)
    exact ⟨r, w, hw, sub.response_eq (hserves output) hw⟩

/-! ## Registrations that are submitted one after the other -/

/-- The program makes a registration of the address as it is written in the form. -/
theorem registerMain_call (sub : Submission) :
    registerMain sub.call.environment sub.further =
      some (some (.start (formText sub.email))) := by
  have hmatching : Httpd.Matching sub.call.environment sub.further :=
    @Httpd.matching_environment (ascii "/cgi/register") sub.toPosted sub.short
  have hlen : ¬ 256 ≤ (ascii "POST").length := by decide
  have hset : Httpd.getenv sub.call.environment (ascii "CONTENT_LENGTH") ≠ none := by
    obtain ⟨value, hvalue, -⟩ := hmatching.length
    exact Option.ne_none_iff_exists'.mpr ⟨value, hvalue⟩
  obtain ⟨k, hk⟩ := Nat.exists_eq_add_of_lt sub.short
  have hpost : 1024 - sub.further.length = k + 1 := by omega
  have hten : (registerFields sub.name sub.email).length ≤ 10 := Nat.le_add_left 2 8
  obtain ⟨split, hsplit, hstring⟩ := @Httpd.splitForm_formBody _ splitRegister _
    (registerFields sub.name sub.email) k hset (List.cons_ne_nil _ _) hten
  have hregister : splitRegister split = some (.start (formText sub.email)) := by
    rw [splitRegister, hstring]
    rfl
  have hmethod : Httpd.getenv sub.call.environment (ascii "REQUEST_METHOD") =
      some (ascii "POST") := hmatching.method
  rw [registerMain, hmethod]
  dsimp only
  rw [if_neg hlen, Httpd.cgiArgument_post hmatching, Httpd.postData, if_pos sub.short, hpost,
    sub.form]
  exact hsplit.trans (congrArg (Option.map some) hregister)

/-- The server runs a program for a submission, and its registration is completed while nobody else
uses the store. -/
def Registers (env : Env) (store : Store) (sub : Submission) (store' : Store) : Prop :=
  ∃ call input p p', RunsProgram env sub.request call input ∧ call.path = registerPath ∧
    registerMain call.environment input = some (some p) ∧
      Register.Comes (store, p) (store', p') ∧ p'.phase = .done

/-- What submissions, one after the other, make of a store. -/
inductive Registered (env : Env) (first : Store) : List Submission → Store → Prop
  | nil : Registered env first [] first
  | snoc {subs : List Submission} {store store' : Store} {sub : Submission} :
      Registered env first subs store → Registers env store sub store' →
        Registered env first (subs ++ [sub]) store'

/-- Through the server a registration completes as it does when the program is called with the
form. -/
theorem registers_iff_completed (h : Serves env) :
    Registers env store sub store' ↔ Completed store (formText sub.email) store' := by
  constructor
  · rintro ⟨call, input, p, p', hruns, -, hmain, hcomes, hdone⟩
    obtain ⟨rfl, rfl⟩ := (runsProgram_iff h).mp hruns
    rw [registerMain_call, Option.some.injEq, Option.some.injEq] at hmain
    exact ⟨p', hmain ▸ hcomes, hdone⟩
  · rintro ⟨p', hcomes, hdone⟩
    exact ⟨sub.call, sub.further, _, p', (runsProgram_iff h).mpr ⟨rfl, rfl⟩, rfl,
      registerMain_call sub, hcomes, hdone⟩

/-- A registration has only one end. -/
theorem Completed.unique {email : Bytes} {store₁ store₂ : Store}
    (h₁ : Completed store email store₁) (h₂ : Completed store email store₂) : store₁ = store₂ := by
  obtain ⟨p₁, hcomes₁, hdone₁⟩ := h₁
  obtain ⟨p₂, hcomes₂, hdone₂⟩ := h₂
  have hended {c : Store × Register} (hdone : c.2.phase = .done) (c' : Store × Register) :
      Register.stepOn c () ≠ next c' := by
    simp [Register.stepOn, Register.step, hdone]
  exact congrArg Prod.fst (hcomes₁.eq_of_ended hcomes₂ (hended hdone₁) (hended hdone₂))

/-- The next registration is listed behind those before it. -/
theorem Listed.completed {emails : List Bytes} {email : Bytes} (h : Listed emails store)
    (hlt : emails.length + 1 < 10 ^ 7) :
    Completed store email (store.add emails.length email) := by
  refine completed_add h.count hlt (or_iff_not_imp_left.mpr fun hne => ?_) email
  rw [h.users 0 (by omega), List.getElem?_eq_getElem (by omega)]
  exact Option.some_ne_none _

/-- Nobody is listed at the beginning. -/
theorem listed_noUsers : Listed [] noUsers :=
  ⟨Function.update_self _ _ _, fun _ hi => absurd hi (Nat.not_lt_zero _)⟩

/-- The addresses of all submissions are in the store, as they are written in the form. -/
theorem Registered.listed (h : Registered env noUsers subs store) (hs : Serves env)
    (hmany : subs.length < 10 ^ 7) :
    Listed (subs.map fun sub => formText sub.email) store := by
  induction h with
  | nil => exact listed_noUsers
  | snoc _ hregisters ih =>
    rw [List.length_append, List.length_singleton] at hmany
    have hlisted := ih (by omega)
    have hlt := hmany
    rw [← List.length_map fun sub => formText sub.email] at hlt
    rw [((registers_iff_completed hs).mp hregisters).unique (hlisted.completed hlt),
      List.map_append]
    exact hlisted.add _

/-- Submissions come to one store only. -/
theorem Registered.unique (h : Registered env first subs store) (hs : Serves env)
    (h' : Registered env first subs store') : store = store' := by
  induction h generalizing store' with
  | nil =>
    generalize hnil : [] = subs at h'
    cases h' with
    | nil => rfl
    | snoc => exact absurd hnil.symm (List.append_ne_nil_of_right_ne_nil _ (List.cons_ne_nil _ _))
  | @snoc subs _ store sub _ hlast ih =>
    generalize hsnoc : subs ++ [sub] = subs' at h'
    cases h' with
    | nil => exact absurd hsnoc (List.append_ne_nil_of_right_ne_nil _ (List.cons_ne_nil _ _))
    | snoc hbefore hlast' =>
      obtain ⟨rfl, hsub⟩ := List.append_inj' hsnoc rfl
      obtain rfl := List.singleton_inj.mp hsub
      rw [registers_iff_completed hs] at hlast hlast'
      obtain rfl := ih hbefore
      exact hlast.unique hlast'

/-- Every submission can be registered. -/
theorem exists_registered (hs : Serves env) (hmany : subs.length < 10 ^ 7) :
    ∃ store, Registered env noUsers subs store := by
  induction subs using List.reverseRecOn with
  | nil => exact ⟨noUsers, .nil⟩
  | append_singleton subs sub ih =>
    rw [List.length_append, List.length_singleton] at hmany
    obtain ⟨store, hstore⟩ := ih (by omega)
    have hlisted := hstore.listed hs (by omega)
    have hlt := hmany
    rw [← List.length_map fun sub => formText sub.email] at hlt
    exact ⟨_, hstore.snoc ((registers_iff_completed hs).mpr (hlisted.completed hlt))⟩

/-- The script makes its list of the addresses in the store. -/
theorem Listed.recipients_eq {emails : List Bytes} (h : Listed emails store) :
    (store userCount).bind pyInt = some (emails.length : Int) ∧
      recipients store emails.length = emails.map replaceAt := by
  constructor
  · rw [h.count, Option.bind_some, pyInt_digits]
  · rw [recipients, Int.toNat_natCast]
    refine List.ext_getElem? fun i => ?_
    by_cases hi : i < emails.length
    · rw [List.getElem?_map, List.getElem?_range hi, Option.map_some, h.users i hi,
        List.getElem?_map, List.getElem?_eq_getElem hi]
      rfl
    · rw [List.getElem?_eq_none (by simpa using hi), List.getElem?_eq_none (by simpa using hi)]

/-- Less than ten million submissions can all be registered, one after the other, on a store that
counts no users, and come to one store only. A mail that is sent then goes to an address for each
submission, in their order, and these are the addresses that were typed exactly when all of their
bytes are letters, digits, `*`, `-`, `.`, `_` or the sign `@`. -/
theorem typed_addresses_get_mail (hs : Serves env) (hmany : subs.length < 10 ^ 7) :
    (∃! store, Registered env noUsers subs store) ∧
    ∀ store, Registered env noUsers subs store → ∀ weather mail,
      showWeather weather store = some mail →
        mail.toList = subs.map (fun sub => mailed sub.email) ∧
        (mail.toList = subs.map Submission.email ↔
          ∀ sub ∈ subs, ∀ b ∈ sub.email, b = 64 ∨ unreserved b = true) := by
  obtain ⟨last, hlast⟩ := @exists_registered env subs hs hmany
  have honly : ∃! store, Registered env noUsers subs store :=
    ⟨last, hlast, fun _ h => h.unique hs hlast⟩
  refine ⟨honly, fun store hstore weather mail hmail => ?_⟩
  obtain ⟨hcount, hrecipients⟩ := (hstore.listed hs hmany).recipients_eq
  have hlist : mail.toList = subs.map fun sub => mailed sub.email := by
    obtain ⟨count, -, hmail⟩ := Option.bind_eq_some_iff.mp hmail
    rw [hcount, Option.bind_some] at hmail
    obtain ⟨day, -, rfl⟩ := Option.map_eq_some_iff.mp hmail
    dsimp only
    rw [hrecipients, List.map_map]
    exact List.map_congr_left fun sub _ => replaceAt_formText sub.email
  refine ⟨hlist, ?_⟩
  rw [hlist, List.map_inj_left]
  exact forall₂_congr fun sub _ => mailed_eq_self_iff

/-- A system with the program. -/
def registerDisk : Env where
  stat path := if path = registerPath then some ⟨false, true, false, false, 0⟩ else none
  content _ := none
  stat_of_content := by simp
  pipe _ := true
  fork := true
  cgi _ _ := []

/-- A disk with the file of the program serves. -/
theorem serves_registerDisk : Serves registerDisk where
  started := rfl
  found := ⟨⟨false, true, false, false, 0⟩, by decide +kernel, rfl⟩

/-- A submission of an address. -/
def addressSubmission : Submission where
  headers := [{ text := ascii "Content-Length: 16", eol := .crlf, plain := by decide }]
  blank := .crlf
  further := ascii "v1=Li&v2=a%40b.c"
  nonempty := by decide
  ended := ⟨fun h => absurd h (by decide), fun h => absurd h (by decide), trivial⟩
  announces := by decide +kernel
  name := ascii "Li"
  email := ascii "a@b.c"
  form := by decide +kernel
  quiet := by decide
  short := by decide

/-- A submission of an address with a blank. -/
def blankSubmission : Submission where
  headers := [{ text := ascii "Content-Length: 13", eol := .crlf, plain := by decide }]
  blank := .crlf
  further := ascii "v1=&v2=a+b%2C"
  nonempty := by decide
  ended := ⟨fun h => absurd h (by decide), fun h => absurd h (by decide), trivial⟩
  announces := by decide +kernel
  name := []
  email := ascii "a b,"
  form := by decide +kernel
  quiet := by decide
  short := by decide

/-- An address that is typed with a blank and a comma gets its mail at another one. -/
theorem typed_addresses_get_mail_blank : ∃ store mail,
    Registered registerDisk noUsers [addressSubmission, blankSubmission] store ∧
      showWeather yesterday store = some mail ∧
      mail.toList = [ascii "a@b.c", ascii "a+b%2C"] := by
  obtain ⟨⟨store, hstore, -⟩, hall⟩ := @typed_addresses_get_mail registerDisk
    [addressSubmission, blankSubmission] serves_registerDisk (by decide)
  have hlisted := hstore.listed serves_registerDisk (by decide)
  have hcount := hlisted.recipients_eq.1
  have hdays : (yesterday daysKey).bind pyInt = some 2 := by decide +kernel
  have hforecast : forecast yesterday 2 = some (ascii "oldolder") := by decide +kernel
  obtain ⟨mail, hmail⟩ : ∃ mail, showWeather yesterday store = some mail := by
    rw [showWeather, hdays, Option.bind_some, hcount, Option.bind_some, hforecast]
    exact ⟨_, rfl⟩
  exact ⟨store, mail, hstore, hmail, (hall store hstore yesterday mail hmail).1⟩

end NetworkCode.Weather
