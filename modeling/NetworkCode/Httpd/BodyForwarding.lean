import NetworkCode.Httpd.Handing

/-!
# The body that reaches a CGI program

The loop of `excu_cgi` that hands the body of a POST to the CGI program looks neither at what
`recv` returns nor at what `write` returns. When the client disconnects within the body, its last
byte is handed over again for every byte that is missing, until the program takes no more: then
the father waits for ever, or SIGPIPE ends the server.
-/

namespace NetworkCode.Httpd

open Prog LineStream Text

variable {env : Env} {w w₁ : World} {path method query inbox : Bytes} {clength : Int}
  {es : List Event} {tr : List Event} {c : Conduct} {α : Type}

/-- The byte that an event writes to the standard input of the CGI program. -/
def Event.passed? : Event → Option UInt8
  | .passed b => some b
  | _ => none

/-- The bytes written to the standard input of the CGI program so far. -/
def World.handed (w : World) : Bytes := w.trace.filterMap Event.passed?

/-- `excu_cgi` comes to have written exactly these bytes to the CGI program, and writes no
others from there on. -/
def HandsExactly (env : Env) (path method query : Bytes) (w : World) (input : Bytes) : Prop :=
  (excuCgi env path method query).Eventually w fun t => t.handed = w.handed ++ input

/-! ### What the program takes -/

/-- The program takes the next `n` bytes. -/
def Conduct.takes (c : Conduct) (n : Nat) : Bool := (c.feeds.take n).all (· == .taken)

/-- As many of the bytes as the program takes before it takes one no more. -/
def Conduct.eaten (c : Conduct) : Bytes → Bytes
  | [] => []
  | b :: bytes => if c.lets (.passed b) then b :: (c.after (.passed b)).eaten bytes else []

/-- The program takes one byte, and then the others. -/
theorem Conduct.takes_succ (b : UInt8) (n : Nat) :
    c.takes (n + 1) = (c.lets (.passed b) && (c.after (.passed b)).takes n) := by
  obtain ⟨sends, feeds, closes, ends⟩ := c
  cases feeds with
  | nil => simp [takes, lets, fate, after]
  | cons f feeds => cases f <;> rfl

/-- The program takes the beginning of what it is offered. -/
theorem Conduct.eaten_prefix (c : Conduct) (bytes : Bytes) : c.eaten bytes <+: bytes := by
  induction bytes generalizing c with
  | nil => exact List.prefix_rfl
  | cons b bytes ih =>
    rw [eaten]
    split
    · exact (List.prefix_cons_inj b).mpr (ih _)
    · exact List.nil_prefix

/-- How much of it the program takes. -/
theorem Conduct.le_length_eaten_iff {n : Nat} {bytes : Bytes} :
    n ≤ (c.eaten bytes).length ↔ n ≤ bytes.length ∧ c.takes n = true := by
  induction bytes generalizing c n with
  | nil =>
    cases n with
    | zero => simp [eaten, takes]
    | succ n => simp [eaten]
  | cons b bytes ih =>
    cases n with
    | zero => simp [takes]
    | succ n =>
      rw [eaten, takes_succ b]
      cases c.lets (.passed b) with
      | false => simp
      | true => simp [ih]

/-- The program gets exactly the first `n` bytes of what it is offered. -/
theorem Conduct.eaten_eq_take_iff {n : Nat} {bytes : Bytes} (hn : n ≤ bytes.length) :
    c.eaten bytes = bytes.take n ↔
      c.takes n = true ∧ (bytes.length = n ∨ c.takes (n + 1) = false) := by
  have hlen : c.eaten bytes = bytes.take n ↔ (c.eaten bytes).length = n := by
    constructor
    · intro h
      rw [h, List.length_take, Nat.min_eq_left hn]
    · rintro rfl
      exact List.prefix_iff_eq_take.mp (c.eaten_prefix bytes)
  have hle : n ≤ (c.eaten bytes).length ↔ n ≤ bytes.length ∧ c.takes n = true :=
    c.le_length_eaten_iff
  have hlt : n + 1 ≤ (c.eaten bytes).length ↔ n + 1 ≤ bytes.length ∧ c.takes (n + 1) = true :=
    c.le_length_eaten_iff
  rw [hlen]
  cases htakes : c.takes n with
  | false =>
    rw [htakes] at hle
    simp only [Bool.false_eq_true, and_false, iff_false] at hle
    simp only [Bool.false_eq_true, false_and, iff_false]
    omega
  | true =>
    rw [htakes] at hle
    have hge := hle.mpr ⟨hn, rfl⟩
    rw [eq_self, true_and]
    cases hmore : c.takes (n + 1) with
    | false =>
      rw [hmore] at hlt
      simp only [Bool.false_eq_true, and_false, iff_false] at hlt
      simp only [or_true, iff_true]
      omega
    | true =>
      rw [hmore, eq_self, and_true] at hlt
      simp only [Bool.true_eq_false, or_false]
      omega

/-! ### The bytes written in a trace -/

/-- What was handed on behind these calls. -/
theorem handed_log (w : World) (es : List Event) :
    (w.log es).handed = w.handed ++ es.filterMap Event.passed? := by
  have hkept : (w.conduct.kept es).filterMap Event.passed? = es.filterMap Event.passed? := by
    apply Conduct.filterMap_kept
    intro e he
    cases e <;> first | rfl | cases he
  rw [World.handed, log_trace, List.filterMap_append, hkept]
  rfl

/-- Reading lines writes nothing to the CGI program. -/
theorem Reads.handed_eq {cs : List Bytes} (h : Reads w cs w₁) : w₁.handed = w.handed := by
  obtain ⟨-, -, es, htrace, hlines⟩ := h.effect
  have hnone : es.filterMap Event.passed? = [] := by
    rw [List.filterMap_eq_nil_iff]
    intro e he
    obtain ⟨_, _, rfl, -⟩ := hlines.1 e he
    rfl
  rw [World.handed, htrace, List.filterMap_append, hnone, List.append_nil]
  rfl

/-- A program that passes nothing on keeps what was handed over. -/
theorem keeps_handed {p : Prog World α} (h : Emits p fun e => e.passed? = none) (bytes : Bytes) :
    p.Keeps fun t => t.handed = bytes := by
  rintro t rfl n
  obtain ⟨es, htrace, hes⟩ := h.exists_events n t
  rw [World.handed, htrace, List.filterMap_append, List.filterMap_eq_nil_iff.mpr hes,
    List.append_nil]
  rfl

/-! ### The body loop -/

/-- What the body loop has to hand over: on a connection that ends its last byte again and again. -/
def offered (n : Nat) (ch : UInt8) (w : World) : Bytes :=
  if w.ending.seen then bodyBytes n ch w.inbox else w.inbox.take n

/-- One more byte is offered when one has arrived, or the connection has ended. -/
theorem offered_succ {n : Nat} {ch b : UInt8} (h : w.inbox = [] → w.ending.seen = true)
    (hb : w.inbox.head?.getD ch = b) :
    offered (n + 1) ch w = b :: offered n b (w.skip 1) := by
  obtain ⟨inbox, e, k, tr⟩ := w
  cases inbox with
  | nil =>
    have hs : e.seen = true := h rfl
    subst hb
    simp [offered, World.skip, hs, bodyBytes]
  | cons b' bs =>
    obtain rfl : b' = b := hb
    cases hs : e.seen with
    | true => simp [offered, World.skip, hs, bodyBytes]
    | false => simp [offered, World.skip, hs]

/-- `recv` gives the next byte, or leaves the last one behind the end of the connection. -/
theorem returns_recv_byte (ch : UInt8) (h : w.inbox = [] → w.ending.seen = true) :
    ∃ r : Int, (recv false ch).Returns w (r, w.inbox.head?.getD ch) (w.skip 1) := by
  obtain ⟨inbox, e, k, tr⟩ := w
  cases inbox with
  | nil => exact ⟨_, returns_recv_nil.mpr ⟨h rfl, rfl, rfl⟩⟩
  | cons b bs => exact ⟨1, returns_recv_cons.mpr ⟨rfl, rfl⟩⟩

/-- The body loop comes to hand over what the program takes of that. -/
theorem settles_bodyLoop {v : BodyVars} {n : Nat} (hn : (clength - v.i).toNat = n) :
    (whileLoop (bodyTest clength) forwardByte v).Settles w fun t =>
      t.handed = w.handed ++ w.conduct.eaten (offered n v.ch w) := by
  induction n generalizing v w with
  | zero =>
    have hstop : (bodyTest clength v).Returns w false w := by
      have hge : ¬ v.i < clength := by omega
      simp [bodyTest, hge]
    have hnone : offered 0 v.ch w = [] := by
      unfold offered
      split <;> rfl
    refine .inl ⟨v, w, (returns_whileLoop_of_false hstop).mpr ⟨rfl, rfl⟩, ?_⟩
    rw [hnone, Conduct.eaten, List.append_nil]
  | succ n ih =>
    have hgo : (bodyTest clength v).Returns w true w := by
      have hlt : v.i < clength := by omega
      simp [bodyTest, hlt]
    by_cases hwait : w.inbox = [] ∧ w.ending.seen = false
    · -- `recv` waits for the rest of the body
      have hstall : (forwardByte v).Stalls w w := by
        refine Stalls.bind (stalls_ofStep ?_)
        obtain ⟨inbox, e, k, tr⟩ := w
        obtain ⟨rfl, hs⟩ := hwait
        cases e with
        | silent => exact .inl rfl
        | gone why => cases hs
      refine .inr ⟨w, stalls_whileLoop_of_body hgo hstall, ?_⟩
      rw [offered, hwait.2, if_neg Bool.false_ne_true, hwait.1, List.take_nil, Conduct.eaten,
        List.append_nil]
    · have hbyte (hnil : w.inbox = []) : w.ending.seen = true := by
        rw [← Bool.not_eq_false]
        exact fun hs => hwait ⟨hnil, hs⟩
      obtain ⟨r, hrecv⟩ := returns_recv_byte v.ch hbyte
      rw [offered_succ hbyte rfl, Conduct.eaten]
      cases hlets : w.conduct.lets (.passed (w.inbox.head?.getD v.ch)) with
      | false =>
        -- the program takes no more
        have hstall : (forwardByte v).Stalls w (w.skip 1) :=
          hrecv.bind_stalls (Stalls.bind (stalls_attempt hlets))
        refine .inr ⟨w.skip 1, stalls_whileLoop_of_body hgo hstall, ?_⟩
        rw [if_neg Bool.false_ne_true, List.append_nil]
        rfl
      | true =>
        have hbody : (forwardByte v).Returns w
            ⟨v.i + 1, w.inbox.head?.getD v.ch, v.handed ++ [w.inbox.head?.getD v.ch]⟩
            ((w.skip 1).log [.passed (w.inbox.head?.getD v.ch)]) := by
          refine hrecv.bind_iff.mpr ((makes_handOver v _ _ _ _).mpr ⟨?_, rfl, rfl⟩)
          rw [Conduct.allows_cons]
          exact (Bool.and_true _).trans hlets
        have hleft : (clength - (v.i + 1)).toNat = n := by omega
        have hrest := ih (v := ⟨v.i + 1, w.inbox.head?.getD v.ch,
            v.handed ++ [w.inbox.head?.getD v.ch]⟩)
          (w := (w.skip 1).log [.passed (w.inbox.head?.getD v.ch)]) hleft
        have hsame (b : UInt8) : offered n b ((w.skip 1).log [.passed b]) =
            offered n b (w.skip 1) := by
          rw [offered, log_ending, log_inbox]
          rfl
        rw [handed_log, hsame, log_conduct] at hrest
        rw [if_pos rfl]
        refine settles_whileLoop_of_rest hgo hbody ?_
        have hlist (b : UInt8) (bytes : Bytes) : w.handed ++ b :: bytes =
            w.handed ++ [Event.passed b].filterMap Event.passed? ++ bytes := by
          rw [List.append_assoc]
          rfl
        rw [hlist]
        exact hrest

/-! ### `excu_cgi` for POST -/

/-- A POST is no GET. -/
theorem isGet_of_isPost (hpost : isPost method = true) : isGet method = false := by
  rw [isPost, sameIgnoringCase, beq_iff_eq] at hpost
  rw [isGet, sameIgnoringCase, hpost]
  rfl

/-- The environment of a POST says POST. -/
theorem post_isPost (hpost : isPost method = true) :
    sameIgnoringCase (ascii "POST") method = true := by
  rw [isPost, sameIgnoringCase, beq_iff_eq] at hpost
  rw [sameIgnoringCase, hpost, beq_iff_eq]

/-- Behind the body nothing is handed over. -/
theorem keeps_behindInput (call : CgiCall) (input bytes : Bytes) :
    (do forwardOutput (env.cgi call input); close (.writeEnd .cgiIn); close (.readEnd .cgiOut)
        waitpid; return (0 : Int) : Prog World Int).Keeps fun t => t.handed = bytes := by
  have hcall {e : Event} (h : e.passed? = none) :
      Emits (attempt e) fun e => e.passed? = none := emits_attempt h
  have hout (output : Bytes) : Emits (forwardOutput output) fun e => e.passed? = none := by
    induction output with
    | nil => exact hcall rfl
    | cons ch output ih => exact Emits.bind (hcall rfl) fun _ => ih
  have hclose (d : Descriptor) : Emits (close d) fun e => e.passed? = none :=
    emits_record (e := .closed d) rfl
  refine keeps_handed ((hout _).bind fun _ => (hclose _).bind fun _ => (hclose _).bind fun _ => ?_)
    bytes
  exact Emits.bind (hcall rfl) fun _ => emits_pure

/-- The father hands over what the program takes of the body. -/
theorem eventually_fatherProc (env : Env) (path query : Bytes) (hpost : isPost method = true) :
    (fatherProc env path method query clength).Eventually w fun t =>
      t.handed = w.handed ++ w.conduct.eaten (offered clength.toNat 0 w) := by
  have hsettles := settles_bodyLoop (v := ⟨0, 0, []⟩) (w := w.log (startEvents path))
    (congrArg Int.toNat (Int.sub_zero clength))
  have hsame : offered clength.toNat 0 (w.log (startEvents path)) =
      offered clength.toNat 0 w := by
    rw [offered, log_ending, log_inbox]
    rfl
  have hnone : (startEvents path).filterMap Event.passed? = [] := rfl
  rw [handed_log, hnone, List.append_nil, hsame, log_conduct] at hsettles
  refine Eventually.bind ((makes_record rfl).returns rfl) ?_
  refine Eventually.bind (makes_close.returns rfl) ?_
  refine Eventually.bind (makes_close.returns rfl) ?_
  rw [cgiInput, if_pos (post_isPost hpost), forwardBody, Prog.bind_assoc]
  exact hsettles.bind_keeps fun v => keeps_pure.bind fun input => keeps_behindInput _ _ _

/-- Sending the status line does not change what the program takes. -/
theorem eaten_after_status (bytes : Bytes) :
    (c.after (.sent statusLine)).eaten bytes = c.eaten bytes := by
  obtain ⟨sends, feeds, closes, ends⟩ := c
  change Conduct.eaten ⟨sends.tail, feeds, closes, ends⟩ bytes = _
  generalize sends.tail = sends'
  induction bytes generalizing feeds with
  | nil => rfl
  | cons b bytes ih =>
    have hlets : Conduct.lets ⟨sends', feeds, closes, ends⟩ (.passed b) =
        Conduct.lets ⟨sends, feeds, closes, ends⟩ (.passed b) := rfl
    rw [Conduct.eaten, Conduct.eaten, hlets]
    split
    · exact congrArg _ (ih feeds.tail)
    · rfl

/-- The bytes that a POST hands to its program: none if the thread does not get over its status
line, else what the program takes of the body. -/
def handedBy (n : Nat) (w : World) : Bytes :=
  if w.conduct.lets (.sent statusLine) then w.conduct.eaten (offered n 0 w) else []

/-- A program that is started gets these bytes. -/
theorem eventually_runCgi (path query : Bytes) (hs : started env = true)
    (hpost : isPost method = true) :
    (runCgi env path method query clength).Eventually w fun t =>
      t.handed = w.handed ++ handedBy clength.toNat w := by
  unfold handedBy
  cases hlets : w.conduct.lets (.sent statusLine) with
  | false =>
    rw [if_neg Bool.false_ne_true, List.append_nil]
    exact (Stalls.bind (stalls_attempt hlets)).eventually rfl
  | true =>
    obtain ⟨hin, hout, hfork⟩ := started_iff.mp hs
    have hpin := @makes_pipe env .cgiIn
    have hpout := @makes_pipe env .cgiOut
    rw [pipeEvents, hin, if_pos rfl] at hpin
    rw [pipeEvents, hout, if_pos rfl] at hpout
    have hstatus : w.conduct.allows [.sent statusLine] = true := by
      rw [Conduct.allows_cons, hlets]
      rfl
    have hlog : ((w.log [.sent statusLine]).log
        [.opened (.readEnd .cgiIn), .opened (.writeEnd .cgiIn)]).log
          [.opened (.readEnd .cgiOut), .opened (.writeEnd .cgiOut)] = w.log forkEvents := by
      rw [log_log, log_log]
      rfl
    have hfather := @eventually_fatherProc (w.log forkEvents) method clength env path query hpost
    have hnone : forkEvents.filterMap Event.passed? = [] := rfl
    have hsame : offered clength.toNat 0 (w.log forkEvents) = offered clength.toNat 0 w := by
      rw [offered, log_ending, log_inbox]
      rfl
    have hconduct : w.conduct.behind forkEvents = w.conduct.after (.sent statusLine) := rfl
    rw [handed_log, hnone, List.append_nil, hsame, log_conduct, hconduct,
      eaten_after_status] at hfather
    refine Eventually.bind (makes_send.returns hstatus) ?_
    refine Eventually.bind (hpin.returns rfl) ?_
    refine Eventually.bind (hpout.returns rfl) ?_
    rw [hfork, hlog]
    exact hfather

/-- What `excu_cgi` hands over in the long run is exactly this, and nothing else. -/
theorem handsExactly_iff_eq (path query : Bytes) (hpost : isPost method = true)
    (hs : started env = true) (hheaders : readHeaders.Returns w clength w₁) (hpos : 0 < clength)
    (input : Bytes) :
    HandsExactly env path method query w input ↔ handedBy clength.toNat w₁ = input := by
  have hget := isGet_of_isPost hpost
  have hne : (clength == 0) = false := beq_eq_false_iff_ne.mpr (by omega)
  obtain ⟨cs, hreads, -⟩ := returns_readHeaders.mp hheaders
  have hrun : HandsExactly env path method query w (handedBy clength.toNat w₁) := by
    rw [isGet] at hget
    rw [HandsExactly, ← hreads.handed_eq, excuCgi, hget, if_neg Bool.false_ne_true]
    refine Eventually.bind hheaders ?_
    rw [hne, if_neg Bool.false_ne_true]
    exact eventually_runCgi path query hs hpost
  constructor
  · intro h
    obtain ⟨t, ht, ht'⟩ := Eventually.exists_both hrun h
    rwa [ht, List.append_cancel_left_eq] at ht'
  · rintro rfl
    exact hrun

/-- Only a client that stays silent leaves its end unseen. -/
theorem seen_eq_false_iff {e : Ending} : e.seen = false ↔ e = .silent := by
  cases e <;> simp [Ending.seen]

/-- How much there is to hand over. -/
theorem length_offered (n : Nat) (ch : UInt8) (w : World) : (offered n ch w).length =
    if w.ending.seen then n else min n w.inbox.length := by
  unfold offered
  split
  · exact length_bodyBytes ..
  · exact List.length_take ..

/-- It begins with what the client sent. -/
theorem take_offered (n : Nat) (ch : UInt8) (w : World) :
    (offered n ch w).take (min n w.inbox.length) = w.inbox.take n := by
  unfold offered
  split
  · induction n generalizing ch w with
    | zero => simp [bodyBytes]
    | succ n ih =>
      cases hinbox : w.inbox with
      | nil => simp
      | cons b bs =>
        have htail := ih b ⟨bs, w.ending, w.conduct, w.trace⟩ ‹_›
        rw [bodyBytes, List.length_cons, Nat.succ_min_succ, List.take_succ_cons,
          List.take_succ_cons]
        exact congrArg _ htail
  · rw [List.take_take, List.take_eq_take_iff]
    omega

/-- A started program gets exactly the declared beginning of the body, as far as the client
sends it, if and only if it takes these bytes and either the client does not disconnect before the
declared length, or the program takes no further byte; and when the thread does not get over its
status line, if nothing of the body has arrived. -/
theorem handsExactly_iff (path query : Bytes) (hpost : isPost method = true)
    (hs : started env = true) (hheaders : readHeaders.Returns w clength w₁)
    (hpos : 0 < clength) :
    HandsExactly env path method query w (w₁.inbox.take clength.toNat) ↔
      if w₁.conduct.lets (.sent statusLine) then
        w₁.conduct.takes (min clength.toNat w₁.inbox.length) = true ∧
          (w₁.ending = .silent ∨ clength ≤ w₁.inbox.length ∨
            w₁.conduct.takes (w₁.inbox.length + 1) = false)
      else w₁.inbox = [] := by
  have hpos' : 0 < clength.toNat := by omega
  rw [handsExactly_iff_eq path query hpost hs hheaders hpos, handedBy]
  split
  · have hle : min clength.toNat w₁.inbox.length ≤ (offered clength.toNat 0 w₁).length := by
      rw [length_offered]
      split
      · exact Nat.min_le_left ..
      · exact le_rfl
    rw [← take_offered clength.toNat 0 w₁, Conduct.eaten_eq_take_iff hle, length_offered,
      ← seen_eq_false_iff]
    refine and_congr_right fun _ => ?_
    cases hseen : w₁.ending.seen with
    | false => simp
    | true =>
      simp only [if_true, Bool.true_eq_false, false_or]
      by_cases henough : clength ≤ w₁.inbox.length
      · have hmin : clength.toNat = min clength.toNat w₁.inbox.length := by omega
        exact iff_of_true (.inl hmin) (.inl henough)
      · have hmin : min clength.toNat w₁.inbox.length = w₁.inbox.length := by omega
        have hne : clength.toNat ≠ w₁.inbox.length := by omega
        rw [hmin, or_iff_right hne, or_iff_right henough]
  · rw [eq_comm, List.take_eq_nil_iff]
    exact or_iff_right hpos'.ne'

/-- A system with one CGI program, which writes what it reads. -/
def echoDisk : Env where
  stat path := if path = ascii "wwwroot/echo" then some ⟨false, true, true, true, 0⟩ else none
  content _ := none
  stat_of_content := by simp
  pipe _ := true
  fork := true
  cgi _ input := input

/-- A POST of `hello` on a connection that stays open, when the program takes its input. -/
def helloPost : World := connected (ascii "Content-Length: 5\n\nhello") .silent

/-- The program gets the body of this request. -/
theorem handsExactly_helloPost :
    HandsExactly echoDisk (ascii "wwwroot/echo") (ascii "POST") [] helloPost (ascii "hello") := by
  have hpost : isPost (ascii "POST") = true := by decide
  have hs : started echoDisk = true := rfl
  have hheaders : readHeaders.Returns helloPost 5 (readHeaders.run 30 helloPost).2 :=
    returns_of_run (by decide +kernel)
  have hinbox : (readHeaders.run 30 helloPost).2.inbox = ascii "hello" := by decide +kernel
  have hconduct : (readHeaders.run 30 helloPost).2.conduct = .willing := by decide +kernel
  have hexact := (handsExactly_iff (ascii "wwwroot/echo") [] hpost hs hheaders (by decide)).mpr
    (by rw [hconduct, hinbox]; decide +kernel)
  rwa [hinbox] at hexact

/-- A client that declares 5 bytes, sends 2 of them and disconnects. -/
def truncatedPost : World := connected (ascii "Content-Length: 5\n\nab") (.gone .closed)

/-- The last byte that was sent is handed over three more times. -/
theorem truncated_body_padded :
    (∃ t, readHeaders.Returns truncatedPost 5 t ∧ t.inbox = ascii "ab") ∧
      HandsExactly echoDisk (ascii "wwwroot/echo") (ascii "POST") [] truncatedPost
        (ascii "abbbb") ∧
      ¬ HandsExactly echoDisk (ascii "wwwroot/echo") (ascii "POST") [] truncatedPost
        (ascii "ab") := by
  have hpost : isPost (ascii "POST") = true := by decide
  have hs : started echoDisk = true := rfl
  have hheaders : readHeaders.Returns truncatedPost 5 (readHeaders.run 30 truncatedPost).2 :=
    returns_of_run (by decide +kernel)
  have hinbox : (readHeaders.run 30 truncatedPost).2.inbox = ascii "ab" := by decide +kernel
  have hhanded : handedBy 5 (readHeaders.run 30 truncatedPost).2 = ascii "abbbb" := by
    decide +kernel
  have hiff (input : Bytes) := handsExactly_iff_eq (ascii "wwwroot/echo") [] hpost hs hheaders
    (by decide) input
  refine ⟨⟨_, hheaders, hinbox⟩, (hiff _).mpr hhanded, fun hexact => ?_⟩
  have heq := hhanded.symm.trans ((hiff _).mp hexact)
  exact absurd heq (by decide)

end NetworkCode.Httpd
