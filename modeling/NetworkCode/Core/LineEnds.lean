import NetworkCode.Core.LineStream
import Mathlib.Data.List.Induction

/-!
# One LF for every line end

A reader that takes chunks off a stream replaces every line end by an LF. Its chunks, put
together, are the stream it has used with its line ends replaced, because no chunk ends
between the CR and the LF of one line end. So they do not depend on the room for a chunk.
-/

namespace NetworkCode.LineStream

/-- The stream with one LF in place of every CR LF and of every lone CR. -/
def normalise : List UInt8 → List UInt8
  | [] => []
  | [b] => [if b = CR then LF else b]
  | b :: c :: bs =>
    if b = CR then
      if c = LF then LF :: normalise bs else LF :: normalise (c :: bs)
    else
      b :: normalise (c :: bs)

/-- No line end is cut between these two parts of a stream. -/
def Uncut (used rest : List UInt8) : Prop := used.getLast? = some CR → rest.head? ≠ some LF

variable {ends : Bool} {room : Nat} {inbox rest s t c : List UInt8} {b : UInt8}

/-- A byte that is no carriage return stays. -/
theorem normalise_cons (hb : b ≠ CR) (s : List UInt8) : normalise (b :: s) = b :: normalise s := by
  cases s with
  | nil => simp [normalise, hb]
  | cons c s => simp [normalise, hb]

/-- A carriage return and a line feed are one line end. -/
theorem normalise_crlf (s : List UInt8) : normalise (CR :: LF :: s) = LF :: normalise s := by
  simp [normalise]

/-- A carriage return alone is a line end. -/
theorem normalise_cr (hs : s.head? ≠ some LF) : normalise (CR :: s) = LF :: normalise s := by
  cases s with
  | nil => rfl
  | cons c s =>
    have hc : c ≠ LF := by simpa using hs
    simp [normalise, hc]

/-- Parts between which no line end is cut can be rewritten one by one. -/
theorem normalise_append (h : Uncut s t) : normalise (s ++ t) = normalise s ++ normalise t := by
  induction s using List.twoStepInduction with
  | nil => rfl
  | singleton b =>
    by_cases hb : b = CR
    · subst hb
      exact normalise_cr (h rfl)
    · rw [List.singleton_append, normalise_cons hb, normalise_cons hb]
      rfl
  | cons_cons b c s ih ih' =>
    have htail : Uncut (c :: s) t := fun hlast => h (by simpa using hlast)
    by_cases hb : b = CR
    · subst hb
      by_cases hc : c = LF
      · subst hc
        have hs : Uncut s t := by
          intro hlast
          refine htail ?_
          rw [List.getLast?_cons, hlast]
          rfl
        rw [List.cons_append, List.cons_append, normalise_crlf, normalise_crlf, ih hs,
          List.cons_append]
      · have hhead (u : List UInt8) : (c :: s ++ u).head? ≠ some LF := by simpa using hc
        have hhead' : (c :: s).head? ≠ some LF := by simpa using hc
        rw [List.cons_append, normalise_cr (hhead t), normalise_cr hhead', ih' c htail,
          List.cons_append]
    · rw [List.cons_append, normalise_cons hb, normalise_cons hb, ih' c htail, List.cons_append]

theorem uncut_nil (t : List UInt8) : Uncut [] t := fun h => by cases h

/-- Two uncut parts make an uncut part. -/
theorem Uncut.append (h : Uncut s (t ++ rest)) (h' : Uncut t rest) :
    Uncut s t ∧ Uncut (s ++ t) rest := by
  cases t with
  | nil => exact ⟨fun _ => by simp, by simpa using h⟩
  | cons b t =>
    refine ⟨fun hlast => by simpa using h hlast, fun hlast => h' ?_⟩
    rwa [List.getLast?_append_of_ne_nil _ (List.cons_ne_nil b t)] at hlast

/-- What is used up for the line end that starts with a CR. -/
theorem afterCR_used (h : afterCR ends inbox = some rest) :
    ∃ used, CR :: inbox = used ++ rest ∧ Uncut used rest ∧ normalise used = [LF] := by
  cases inbox with
  | nil =>
    simp only [afterCR] at h
    split at h
    · cases h
      exact ⟨[CR], rfl, fun _ => by simp, rfl⟩
    · cases h
  | cons b bs =>
    simp only [afterCR] at h
    split at h
    · rename_i hb
      subst hb
      cases h
      exact ⟨[CR, LF], rfl, fun hlast => absurd hlast (by decide), rfl⟩
    · rename_i hb
      cases h
      exact ⟨[CR], rfl, fun _ => by simpa using hb, rfl⟩

/-- A chunk is what was used up for it, with its line end replaced. -/
theorem takeChunk_used (h : takeChunk ends room inbox = some (c, rest)) :
    ∃ used, inbox = used ++ rest ∧ Uncut used rest ∧ normalise used = c := by
  induction room generalizing inbox c with
  | zero =>
    obtain ⟨rfl, rfl⟩ : [] = c ∧ inbox = rest := by simpa using h
    exact ⟨[], rfl, uncut_nil inbox, rfl⟩
  | succ room ih =>
    cases inbox with
    | nil => cases h
    | cons b bs =>
      by_cases hLF : b = LF
      · subst hLF
        rw [takeChunk_LF] at h
        cases h
        exact ⟨[LF], rfl, fun hlast => absurd hlast (by decide), rfl⟩
      · by_cases hCR : b = CR
        · subst hCR
          rw [takeChunk_CR, Option.map_eq_some_iff] at h
          obtain ⟨r, hr, he⟩ := h
          cases he
          exact afterCR_used hr
        · rw [takeChunk_cons hLF hCR, Option.map_eq_some_iff] at h
          obtain ⟨⟨c', r⟩, hc', he⟩ := h
          cases he
          obtain ⟨used, rfl, huncut, rfl⟩ := ih hc'
          refine ⟨b :: used, rfl, fun hlast => ?_, normalise_cons hCR used⟩
          cases used with
          | nil => exact absurd (by simpa using hlast) hCR
          | cons b' used => exact huncut (by simpa using hlast)

/-- An LF is only at the end of a chunk, and a chunk without one is full. -/
theorem takeChunk_shape (h : takeChunk ends room inbox = some (c, rest)) :
    LF ∉ c.dropLast ∧ (c.getLast? = some LF ∨ c.length = room) := by
  rcases takeChunk_cases h with ⟨t, -, ht, rfl⟩ | ⟨t, _, hle, ht, -, rfl⟩ | ⟨-, -, hmem, hlen⟩
  · exact ⟨by simpa using (takeLine_plain ht).1, .inl (by simp)⟩
  · refine ⟨fun hmem => (takeLine_plain ht).1 ?_, .inr (by simpa using hle)⟩
    exact List.mem_of_mem_take (List.dropLast_subset _ hmem)
  · exact ⟨fun hdrop => hmem (List.dropLast_subset _ hdrop), .inr hlen⟩

/-- The chunks taken one after the other, and the stream behind them. -/
inductive TakesChunks (ends : Bool) (room : Nat) :
    List UInt8 → List (List UInt8) → List UInt8 → Prop
  | nil (inbox : List UInt8) : TakesChunks ends room inbox [] inbox
  | cons {inbox mid rest c : List UInt8} {cs : List (List UInt8)} :
      takeChunk ends room inbox = some (c, mid) → TakesChunks ends room mid cs rest →
        TakesChunks ends room inbox (c :: cs) rest

/-- Chunks taken one after the other are what was used up for them, with every line end
replaced, and no line end is cut behind them. -/
theorem TakesChunks.exists_used {cs : List (List UInt8)} (h : TakesChunks ends room inbox cs rest) :
    ∃ used, inbox = used ++ rest ∧ Uncut used rest ∧ normalise used = cs.flatten := by
  induction h with
  | nil inbox => exact ⟨[], rfl, uncut_nil inbox, rfl⟩
  | cons hc _ ih =>
    obtain ⟨used, rfl, huncut, rfl⟩ := takeChunk_used hc
    obtain ⟨used', rfl, huncut', hflatten⟩ := ih
    obtain ⟨hbetween, hbehind⟩ := huncut.append huncut'
    refine ⟨used ++ used', by rw [List.append_assoc], hbehind, ?_⟩
    rw [normalise_append hbetween, hflatten, List.flatten_cons]

end NetworkCode.LineStream
