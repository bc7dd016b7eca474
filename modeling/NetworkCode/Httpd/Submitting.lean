import NetworkCode.Httpd.Adding
import NetworkCode.Httpd.BodyForwarding
import NetworkCode.Httpd.FormSplit

/-!
# From a form to the database

A form that is posted goes through three programs' hands: the server passes the body of the request
on to `cgi_sql`, `cgi_sql` cuts it into values in place, and `Insert` puts three of them in an SQL
statement. The lengths that bound these steps are counted in different places.
-/

namespace NetworkCode.Httpd

open Prog LineStream Sql Text

variable {env : Env} {path query : Bytes} {post : Posted} {name sex major : Field}
  {more : List Field} {escapes : Bool}

/-- The environment in which the server starts a program for this POST. -/
def Posted.environment (post : Posted) (query : Bytes) : List Bytes :=
  cgiEnvironment (ascii "POST") query post.further.length

/-- The program is told that it is a POST, and the length of the body that it gets. -/
theorem matching_environment (hroom : post.further.length < 1024) :
    Matching (post.environment query) post.further := by
  refine ⟨rfl, digits post.further.length, ?_, atoi_digits (by omega)⟩
  have hget : getenv (post.environment query) (ascii "CONTENT_LENGTH") =
      some (cstr (ascii (toString (post.further.length : Int)))) := rfl
  have hplain : 0 ∉ digits post.further.length := fun h => absurd (mem_digits h).1 (by decide)
  rw [hget, ascii_toString, decimal_natCast]
  exact congrArg some (cstr_of_notMem hplain)

/-- The array of a form with up to ten fields is split into their values. -/
theorem splitForm_formBody {α : Type} {use : Split → Option α} {environment : List Bytes}
    {fields : List Field} (k : Nat)
    (hset : getenv environment (ascii "CONTENT_LENGTH") ≠ none) (hsome : fields ≠ [])
    (hten : fields.length ≤ 10) :
    ∃ split, splitForm environment (formBody fields ++ zeros (k + 1)) use = (use split).map some ∧
      ∀ i, split.string i = fields[i]?.map Field.value := by
  have hzero := zero_notMem_formBody fields
  have hcount : ([] : List Nat).length + (formBody fields).count 61 ≤ 10 := by
    rwa [count_formBody, List.length_nil, Nat.zero_add]
  have hzeros : zeros (k + 1) = 0 :: zeros k := List.replicate_succ
  obtain ⟨split, hsplit⟩ : ∃ split,
      splitLoop [] [] (formBody fields ++ 0 :: zeros k) = some split :=
    ⟨_, (splitLoop_eq hzero [] _ (Nat.zero_le _)).trans (if_pos hcount)⟩
  refine ⟨split, ?_, fun i => ?_⟩
  · rw [hzeros, splitForm_eq hset hzero (formBody_ne_nil hsome), hsplit, Option.bind_some]
  · rw [string_splitLoop hzero hsplit, ← List.getElem?_map, values_formBody, List.getElem?_map]

/-- A request with a body whose header lines are not taken for empty ones. -/
theorem stopsBehind_of_headers {s : HeaderSection}
    (hheaders : ∀ h ∈ s.headers, ¬ 1022 ∣ h.text.length) (hne : s.further ≠ []) :
    StopsBehind s .silent := by
  have hblank : 1022 ∣ (emptyLine s.blank).text.length := ⟨0, rfl⟩
  have hskips := @skipsTimes_lines false 1022 _ _ _ hblank s.ended fun _ hnil => absurd hnil hne
  rw [emptyEnds_section, emptyEnds_eq_zero_iff.mpr hheaders] at hskips
  exact stopsBehind_iff_skips.mpr hskips

end NetworkCode.Httpd
