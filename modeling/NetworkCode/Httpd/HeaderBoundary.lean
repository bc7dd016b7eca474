import NetworkCode.Httpd.Serving

/-!
# Where `clean_hander` stops

A header section is a list of non-empty lines and an empty line. `clean_hander`
looks at chunks of at most 1022 bytes, so a line whose length is a multiple of
1022 ends in a chunk that looks like an empty line. It stops behind the section
exactly when no header line has such a length.
-/

namespace NetworkCode.Httpd

open Prog LineStream Text

/-- The empty line with the given end. -/
def emptyLine (eol : Eol) : Line := ⟨[], eol, by simp⟩

/-- A header section as a client sends it, and the bytes behind it. -/
structure HeaderSection where
  headers : List Line
  /-- The end of the empty line. -/
  blank : Eol
  further : Bytes
  nonempty : ∀ h ∈ headers, h.text ≠ []
  ended : WellEnded (headers ++ [emptyLine blank]) further

/-- All bytes of the stream. -/
def HeaderSection.stream (s : HeaderSection) : Bytes :=
  bytes (s.headers ++ [emptyLine s.blank]) ++ s.further

/-- `clean_hander` returns and leaves exactly the bytes behind the header section. -/
def StopsBehind (s : HeaderSection) (e : Ending) : Prop :=
  ∃ w, cleanHander.Returns (connected s.stream e) () w ∧ w.inbox = s.further

/-- The section is read to its end when one section is skipped. -/
theorem stopsBehind_iff_skips {s : HeaderSection} {e : Ending} : StopsBehind s e ↔
    SkipsTimes e.seen 1022 1 s.stream s.further := by
  have hdrain : (∃ cs w', Reads (connected s.stream e) cs w' ∧ w'.inbox = s.further) ↔
      ∃ ts, Skips e.seen 1022 s.stream ts s.further := exists_reads_iff
  rw [skipsTimes_one_iff, ← hdrain]
  simp only [StopsBehind, returns_cleanHander]
  constructor
  · rintro ⟨w, ⟨cs, hcs⟩, hw⟩
    exact ⟨cs, w, hcs, hw⟩
  · rintro ⟨cs, w, hcs, hw⟩
    exact ⟨w, ⟨cs, hcs⟩, hw⟩

/-- The blank line is one more line that looks empty. -/
theorem emptyEnds_section (s : HeaderSection) :
    emptyEnds 1022 (s.headers ++ [emptyLine s.blank]) = emptyEnds 1022 s.headers + 1 := by
  rw [emptyEnds_append]
  rfl

/-- `clean_hander` stops exactly behind the empty line if and only if no header line
has a length that is a multiple of 1022 and the end of the empty line can be seen. -/
theorem cleanHander_stops_iff (s : HeaderSection) (e : Ending) : StopsBehind s e ↔
    (∀ h ∈ s.headers, ¬ 1022 ∣ h.text.length) ∧
      ¬ (e = .silent ∧ s.blank = .cr ∧ s.further = []) := by
  have hblank : 1022 ∣ (emptyLine s.blank).text.length := ⟨0, rfl⟩
  have hseen : ((emptyLine s.blank).eol = .cr → s.further = [] → e.seen = true) ↔
      ¬ (e = .silent ∧ s.blank = .cr ∧ s.further = []) := by
    cases e <;> simp [Ending.seen, emptyLine]
  rw [stopsBehind_iff_skips, ← hseen, ← emptyEnds_eq_zero_iff]
  constructor
  · intro h
    obtain ⟨hcount, hends⟩ := (skipsTimes_lines_iff hblank s.ended).mp ⟨_, h, rfl⟩
    rw [emptyEnds_section] at hcount
    exact ⟨by omega, hends⟩
  · rintro ⟨hcount, hends⟩
    have h := skipsTimes_lines hblank s.ended hends
    rwa [emptyEnds_section, hcount] at h

/-- A line of `n` equal letters, ended by LF. -/
def letters (n : Nat) : Line where
  text := List.replicate n 97
  eol := .lf
  plain := by
    constructor <;> intro h <;> exact absurd (List.eq_of_mem_replicate h) (by decide)

theorem length_letters (n : Nat) : (letters n).text.length = n := List.length_replicate

/-- A header section with a single header line of 1022 bytes. -/
def longHeader : HeaderSection where
  headers := [letters 1022]
  blank := .lf
  further := []
  nonempty := by
    intro h hh
    obtain rfl := List.mem_singleton.mp hh
    exact List.ne_nil_of_length_pos (by rw [length_letters]; omega)
  ended := ⟨fun h => absurd h (by decide), fun h => absurd h (by decide), trivial⟩

/-- Behind a header line of 1022 bytes `clean_hander` leaves the empty line unread. -/
theorem long_header_leaves_empty_line : ¬ StopsBehind longHeader (.gone .closed) := by
  intro h
  have hdvd : 1022 ∣ (letters 1022).text.length := ⟨1, length_letters 1022⟩
  have hblank : 1022 ∣ (emptyLine longHeader.blank).text.length := ⟨0, rfl⟩
  obtain ⟨hcount, -⟩ := (skipsTimes_lines_iff hblank longHeader.ended).mp
    ⟨_, stopsBehind_iff_skips.mp h, rfl⟩
  have hone : emptyEnds 1022 longHeader.headers = 1 := emptyEnds_cons_of_dvd hdvd
  rw [emptyEnds_section] at hcount
  omega

end NetworkCode.Httpd
