import NetworkCode.Httpd.Server

/-!
# What the client and the CGI program let a thread do

A thread makes calls one after the other, and goes on behind each as the client and the CGI
program let it. A list of calls is made as a whole exactly when each call is let through in its
turn. What happens to a call depends on how many calls of its kind were made before, and on
nothing else that the thread did.
-/

namespace NetworkCode.Httpd

open Prog Text

variable {c : Conduct} {w w' : World} {e : Event} {es es' : List Event}

/-! ### Lists of calls -/

namespace Conduct

/-- The thread goes on behind all of these calls; `Conduct.allows_iff` says what that asks of the
client and of the program. -/
def allows (c : Conduct) : List Event → Bool
  | [] => true
  | e :: es => c.lets e && (c.after e).allows es

/-- The conduct behind these calls. -/
def behind (c : Conduct) (es : List Event) : Conduct := es.foldl Conduct.after c

/-- What these calls leave in the trace. -/
def kept (c : Conduct) : List Event → List Event
  | [] => []
  | e :: es => c.shown e ++ (c.after e).kept es

/-- Calls in a row are let through when the later ones are behind the earlier ones. -/
@[simp] theorem allows_append (c : Conduct) (es es' : List Event) :
    c.allows (es ++ es') = (c.allows es && (c.behind es).allows es') := by
  induction es generalizing c with
  | nil => rfl
  | cons e es ih => simp only [List.cons_append, allows, ih, Bool.and_assoc, behind,
      List.foldl_cons]

/-- The conduct behind two lists is that behind their sequence. -/
@[simp] theorem behind_append (c : Conduct) (es es' : List Event) :
    c.behind (es ++ es') = (c.behind es).behind es' :=
  List.foldl_append

/-- What two lists leave is in the trace one behind the other. -/
@[simp] theorem kept_append (c : Conduct) (es es' : List Event) :
    c.kept (es ++ es') = c.kept es ++ (c.behind es).kept es' := by
  induction es generalizing c with
  | nil => rfl
  | cons e es ih => simp only [List.cons_append, kept, ih, List.append_assoc, behind,
      List.foldl_cons]

@[simp] theorem allows_nil (c : Conduct) : c.allows [] = true := rfl

@[simp] theorem behind_nil (c : Conduct) : c.behind [] = c := rfl

@[simp] theorem kept_nil (c : Conduct) : c.kept [] = [] := rfl

/-- The first call is let through, and those behind it. -/
theorem allows_cons (c : Conduct) (e : Event) (es : List Event) :
    c.allows (e :: es) = (c.lets e && (c.after e).allows es) := rfl

theorem behind_cons (c : Conduct) (e : Event) (es : List Event) :
    c.behind (e :: es) = (c.after e).behind es := rfl

theorem kept_cons (c : Conduct) (e : Event) (es : List Event) :
    c.kept (e :: es) = c.shown e ++ (c.after e).kept es := rfl

end Conduct

/-- Whether an event needs the client or the CGI program. -/
def Event.isCall : Event → Bool
  | .sent _ | .sentFile _ | .passed _ | .outputEnded | .waited => true
  | _ => false

/-- What needs nobody else is done. -/
theorem Conduct.fate_of_not_call (h : e.isCall = false) : c.fate e = .taken := by
  cases e <;> first | rfl | cases h

/-- It changes nothing for the calls behind it. -/
theorem Conduct.after_of_not_call (h : e.isCall = false) : c.after e = c := by
  cases e <;> first | rfl | cases h

/-- It is in the trace. -/
theorem Conduct.shown_of_not_call (h : e.isCall = false) : c.shown e = [e] := by
  rw [shown, fate_of_not_call h]
  rfl

/-- What needs nobody else is let through. -/
theorem Conduct.lets_of_not_call (h : e.isCall = false) : c.lets e = true := by
  rw [lets, fate_of_not_call h]
  rfl

/-- What needs nobody else is let through, changes nothing and is in the trace. -/
theorem Conduct.allows_of_no_call (h : ∀ e ∈ es, e.isCall = false) :
    c.allows es = true ∧ c.behind es = c ∧ c.kept es = es := by
  induction es with
  | nil => exact ⟨rfl, rfl, rfl⟩
  | cons e es ih =>
    rw [List.forall_mem_cons] at h
    obtain ⟨hallows, hbehind, hkept⟩ := ih h.2
    refine ⟨?_, ?_, ?_⟩
    · rw [allows_cons, lets_of_not_call h.1, after_of_not_call h.1, hallows, Bool.and_self]
    · rw [behind_cons, after_of_not_call h.1, hbehind]
    · rw [kept_cons, shown_of_not_call h.1, after_of_not_call h.1, hkept, List.singleton_append]

/-- What is in the trace is what was called for, in this order. -/
theorem Conduct.kept_sublist (c : Conduct) (es : List Event) : List.Sublist (c.kept es) es := by
  induction es generalizing c with
  | nil => exact .slnil
  | cons e es ih =>
    rw [kept_cons, shown]
    split
    · exact (ih _).cons e
    · exact (ih _).cons_cons e

/-- Only calls that were made are in the trace. -/
theorem Conduct.mem_of_mem_kept (h : e ∈ c.kept es) : e ∈ es := (kept_sublist c es).subset h

/-- Whether an event is a call on the socket. -/
def Event.isSend : Event → Bool
  | .sent _ | .sentFile _ => true
  | _ => false

/-- Only calls on the socket fail. -/
theorem Conduct.isSend_of_refused (h : c.fate e = .refused) : e.isSend = true := by
  obtain ⟨sends, feeds, closes, ends⟩ := c
  cases e with
  | sent _ | sentFile _ => rfl
  | passed _ =>
    cases feeds with
    | nil => cases h
    | cons f feeds => cases f <;> cases h
  | outputEnded => cases closes <;> cases h
  | waited => cases ends <;> cases h
  | _ => cases h

/-- The first call on the socket is in the trace unless it fails. -/
theorem Conduct.count_kept_first (hfirst : es.find? Event.isSend = some e)
    (hone : es.count e = 1) : (c.kept es).count e = 1 ↔ c.sends.head? ≠ some .refused := by
  induction es generalizing c with
  | nil => cases hfirst
  | cons e' es ih =>
    cases hsend : e'.isSend with
    | true =>
      rw [List.find?_cons_of_pos hsend] at hfirst
      obtain rfl := Option.some.inj hfirst
      have hnone : es.count e' = 0 := by
        rw [List.count_cons_self] at hone
        omega
      have hrest : ((c.after e').kept es).count e' = 0 :=
        Nat.le_zero.mp (hnone ▸ (kept_sublist (c.after e') es).count_le e')
      have hfate : c.fate e' = .refused ↔ c.sends.head? = some .refused := by
        have hhead : c.fate e' = c.sends.head?.getD .taken := by
          cases e' <;> first | rfl | cases hsend
        rw [hhead]
        cases c.sends.head? <;> simp
      rw [kept_cons, List.count_append, hrest, Nat.add_zero, shown, ne_eq, ← hfate]
      by_cases hrefused : c.fate e' = .refused
      · simp [hrefused]
      · simp [hrefused]
    | false =>
      have hne : e' ≠ e := by
        rintro rfl
        have hpos := List.find?_some hfirst
        rw [hsend] at hpos
        cases hpos
      have hrefused : c.fate e' ≠ .refused := fun h => by
        rw [isSend_of_refused h] at hsend
        cases hsend
      rw [List.find?_cons_of_neg (by rw [hsend]; exact Bool.false_ne_true)] at hfirst
      rw [List.count_cons_of_ne hne] at hone
      have hsends : (c.after e').sends = c.sends := by
        cases e' <;> first | rfl | cases hsend
      rw [kept_cons, shown, if_neg hrefused, List.singleton_append, List.count_cons_of_ne hne,
        ← hsends]
      exact ih hfirst hone

/-- What can be said of each call that is not on the socket is not lost. -/
theorem Conduct.filterMap_kept {γ : Type} {g : Event → Option γ}
    (h : ∀ e, e.isSend = true → g e = none) (es : List Event) :
    (c.kept es).filterMap g = es.filterMap g := by
  induction es generalizing c with
  | nil => rfl
  | cons e es ih =>
    rw [kept_cons, List.filterMap_append, ih, shown]
    split
    · rename_i hrefused
      rw [List.filterMap_cons_none (h e (isSend_of_refused hrefused))]
      rfl
    · rw [← List.filterMap_append]
      rfl

/-- A call that is not on the socket is in the trace as often as it was made. -/
theorem Conduct.count_kept (he : e.isSend = false) (es : List Event) :
    (c.kept es).count e = es.count e := by
  have hfilter := filterMap_kept (c := c) (g := Option.guard (· == e)) (fun e' he' => by
    rw [Option.guard_eq_none_iff, beq_eq_false_iff_ne]
    rintro rfl
    rw [he] at he'
    cases he') es
  rw [List.filterMap_eq_filter] at hfilter
  rw [List.count_eq_length_filter, List.count_eq_length_filter, hfilter]

/-! ### Everything is taken -/

/-- A willing client and program take everything. -/
theorem Conduct.willing_fate (e : Event) : Conduct.willing.fate e = .taken := by cases e <;> rfl

/-- A willing client and program stay willing. -/
theorem Conduct.willing_after (e : Event) : Conduct.willing.after e = .willing := by
  cases e <;> rfl

/-- A willing client and program let everything through. -/
@[simp] theorem Conduct.willing_allows (es : List Event) : Conduct.willing.allows es = true := by
  induction es with
  | nil => rfl
  | cons e es ih => rw [allows_cons, willing_after, ih, lets, willing_fate]; rfl

/-- They stay willing. -/
@[simp] theorem Conduct.willing_behind (es : List Event) :
    Conduct.willing.behind es = .willing := by
  induction es with
  | nil => rfl
  | cons e es ih => rw [behind_cons, willing_after, ih]

/-- Every call is then in the trace. -/
@[simp] theorem Conduct.willing_kept (es : List Event) : Conduct.willing.kept es = es := by
  induction es with
  | nil => rfl
  | cons e es ih => rw [kept_cons, willing_after, ih, shown, willing_fate]; rfl

/-! ### Counting calls -/

/-- Whether an event is a byte for the CGI program. -/
def Event.isFeed : Event → Bool
  | .passed _ => true
  | _ => false

/-- The thread goes on behind a call on the socket with this fate. -/
def Fate.returns : Fate → Bool
  | taken | refused => true
  | waits | broken => false

/-- All of the calls are let through if and only if the client lets as many calls on the socket
return, the program takes as many bytes, and it closes its output and ends if the thread waits for
that. -/
theorem Conduct.allows_iff : c.allows es = true ↔
    (c.sends.take (es.countP Event.isSend)).all Fate.returns = true ∧
      (c.feeds.take (es.countP Event.isFeed)).all (· == .taken) = true ∧
        (.outputEnded ∈ es → c.closes = true) ∧ (.waited ∈ es → c.ends = true) := by
  induction es generalizing c with
  | nil => simp
  | cons e es ih =>
    obtain ⟨sends, feeds, closes, ends⟩ := c
    rw [allows_cons, Bool.and_eq_true, ih, List.countP_cons, List.countP_cons]
    cases e with
    | sent _ | sentFile _ =>
      cases sends with
      | nil => simp [lets, fate, after, Event.isFeed]
      | cons f sends =>
        have htake (n : Nat) : ((f :: sends).take (n + 1)).all Fate.returns =
            (f.returns && (sends.take n).all Fate.returns) := rfl
        cases f <;> simp only [Event.isSend, if_true, htake] <;>
          simp [lets, fate, after, Event.isFeed, Fate.returns]
    | passed _ =>
      cases feeds with
      | nil => simp [lets, fate, after, Event.isSend]
      | cons f feeds =>
        have htake (n : Nat) : ((f :: feeds).take (n + 1)).all (· == Feeding.taken) =
            (f == .taken && (feeds.take n).all (· == .taken)) := rfl
        cases f <;> simp only [Event.isFeed, if_true, htake] <;>
          simp [lets, fate, after, Event.isSend, Feeding.fate]
    | outputEnded => cases closes <;> simp [lets, fate, after, Event.isSend, Event.isFeed]
    | waited => cases ends <;> simp [lets, fate, after, Event.isSend, Event.isFeed]
    | _ => simp [lets, fate, after, Event.isSend, Event.isFeed]

/-! ### Connections -/

/-- The connection behind these calls. -/
def World.log (w : World) (es : List Event) : World := es.foldl World.after w

@[simp] theorem log_nil (w : World) : w.log [] = w := rfl

@[simp] theorem log_log (w : World) (es es' : List Event) :
    (w.log es).log es' = w.log (es ++ es') :=
  List.foldl_append.symm

/-- What calls change: the conduct of the others, and the trace. -/
theorem log_eq (w : World) (es : List Event) : w.log es =
    { w with conduct := w.conduct.behind es, trace := w.trace ++ w.conduct.kept es } := by
  induction es generalizing w with
  | nil => rw [Conduct.behind_nil, Conduct.kept_nil, List.append_nil, log_nil]
  | cons e es ih =>
    have hstep : w.log (e :: es) = (w.after e).log es := rfl
    rw [hstep, ih, World.after, Conduct.behind_cons, Conduct.kept_cons, List.append_assoc]

/-- The connection when `n` bytes have been read. -/
def World.skip (w : World) (n : Nat) : World := { w with inbox := w.inbox.drop n }

@[simp] theorem log_inbox (w : World) (es : List Event) : (w.log es).inbox = w.inbox := by
  rw [log_eq]

@[simp] theorem log_ending (w : World) (es : List Event) : (w.log es).ending = w.ending := by
  rw [log_eq]

@[simp] theorem log_conduct (w : World) (es : List Event) :
    (w.log es).conduct = w.conduct.behind es := by
  rw [log_eq]

/-- The trace behind these calls. -/
theorem log_trace (w : World) (es : List Event) :
    (w.log es).trace = w.trace ++ w.conduct.kept es := by
  rw [log_eq]

/-- What needs nobody else is just recorded. -/
theorem log_of_no_call (h : ∀ e ∈ es, e.isCall = false) :
    w.log es = { w with trace := w.trace ++ es } := by
  obtain ⟨-, hbehind, hkept⟩ := Conduct.allows_of_no_call (c := w.conduct) h
  rw [log_eq, hbehind, hkept]

/-! ### Programs that only make calls -/

variable {α β : Type} {p : Prog World α} {f : α → Prog World β} {a : α} {b r : β}

/-- The program makes these calls, whatever the connection, and then has this result. -/
def Makes (p : Prog World α) (es : List Event) (a : α) : Prop :=
  ∀ w r w', p.Returns w r w' ↔ w.conduct.allows es = true ∧ r = a ∧ w' = w.log es

/-- Behind such a program the rest goes on with the connection as its calls left it. -/
theorem Makes.bind_iff (h : Makes p es a) :
    (p >>= f).Returns w r w' ↔ w.conduct.allows es = true ∧ (f a).Returns (w.log es) r w' := by
  rw [returns_bind]
  constructor
  · rintro ⟨_, _, hp, hf⟩
    obtain ⟨hallows, rfl, rfl⟩ := (h _ _ _).mp hp
    exact ⟨hallows, hf⟩
  · rintro ⟨hallows, hf⟩
    exact ⟨a, w.log es, (h _ _ _).mpr ⟨hallows, rfl, rfl⟩, hf⟩

/-- When its calls are let through such a program terminates. -/
theorem Makes.returns (h : Makes p es a) (hallows : w.conduct.allows es = true) :
    p.Returns w a (w.log es) :=
  (h _ _ _).mpr ⟨hallows, rfl, rfl⟩

/-- The calls of a sequence are those of its parts. -/
theorem Makes.bind (h : Makes p es a) (hf : Makes (f a) es' b) : Makes (p >>= f) (es ++ es') b := by
  intro w r w'
  rw [h.bind_iff, hf, log_conduct, log_log, Conduct.allows_append, Bool.and_eq_true, and_assoc]

/-- A value makes no call. -/
theorem makes_pure : Makes (pure a : Prog World α) [] a := by
  intro w r w'
  rw [returns_pure, log_nil, Conduct.allows_nil, eq_self, true_and]

/-- What needs nobody else is just recorded. -/
theorem makes_record (he : e.isCall = false) : Makes (record e) [e] () := by
  intro w r w'
  rw [record, returns_modify, log_of_no_call (List.forall_mem_singleton.mpr he),
    Conduct.allows_cons, Conduct.lets_of_not_call he]
  simp

/-- A call returns when it is let through. -/
theorem makes_attempt : Makes (attempt e) [e] () := by
  intro w r w'
  have hlog : w.log [e] = w.after e := rfl
  rw [attempt, returns_ofStep, Conduct.allows_cons, Conduct.allows_nil, Bool.and_true, hlog,
    Conduct.lets]
  cases w.conduct.fate e with
  | taken | refused =>
    constructor
    · rintro h
      exact ⟨rfl, rfl, (Prod.mk.inj h).2.symm⟩
    · rintro ⟨-, -, rfl⟩
      rfl
  | waits | broken =>
    refine iff_of_false (fun h => ?_) fun h => absurd h.1 Bool.false_ne_true
    cases (Prod.mk.inj h).1

/-- A call that is not let through is the last that the thread makes. -/
theorem stalls_attempt (h : w.conduct.lets e = false) : (attempt e).Stalls w w := by
  apply stalls_ofStep
  rw [Conduct.lets, Bool.or_eq_false_iff, beq_eq_false_iff_ne, beq_eq_false_iff_ne] at h
  cases hfate : w.conduct.fate e with
  | taken => exact absurd hfate h.1
  | refused => exact absurd hfate h.2
  | waits => exact .inl rfl
  | broken => exact .inr rfl

end NetworkCode.Httpd
