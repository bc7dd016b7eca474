import NetworkCode.Core.LexicalPath
import NetworkCode.Httpd.Handing

/-!
# Confinement to the document root

The server pastes the URL behind `wwwroot` and does not look at its components. It
stays in `wwwroot` exactly when the components of that path do.
-/

namespace NetworkCode.Httpd

open Prog LineStream LexicalPath Text

variable {env : Env} {inbox line rest path file : Bytes} {e : Ending}

/-- The directory that the server serves. -/
def wwwroot : Bytes := ascii "wwwroot"

/-- A relative path that resolves into `wwwroot`. -/
def Inside (path : Bytes) : Prop := ResolvesInto wwwroot (components path)

instance : Decidable (Inside path) := inferInstanceAs (Decidable (ResolvesInto _ _))

/-- However far `HandleSock` runs, every path it hands over resolves into `wwwroot`. -/
def Confined (env : Env) (inbox : Bytes) (e : Ending) : Prop :=
  (handleSock env).Always (connected inbox e) fun w =>
    ∀ ev ∈ w.trace, ∀ path, ev.path? = some path → Inside path

/-- The method of a request line. -/
def lineMethod (line : Bytes) : Bytes := cstr (methodWord (requestBuffer line))

/-- The URL of a request line, for GET without its query. -/
def lineFile (line : Bytes) : Bytes :=
  fileUrl (lineMethod line) (cstr (urlWord (requestBuffer line)))

/-- Behind `wwwroot` the URL goes down to a directory `wwwroot` without climbing above the
directory where the server runs, and does not climb out of it. -/
def StaysInside (file : Bytes) : Prop := Enters wwwroot (components (wwwroot ++ file))

/-! ### Paths -/

/-- The index page of a directory is inside when the directory is. -/
theorem inside_index_page (path : Bytes) :
    Inside (path ++ ascii "/index.html") ↔ Inside path := by
  have hindex : components (ascii "index.html") = [.name (ascii "index.html")] := by decide
  have hslash : ascii "/index.html" = 47 :: ascii "index.html" := rfl
  have hne : ascii "index.html" ≠ wwwroot := by decide
  rw [Inside, hslash, components_append_slash, hindex]
  exact resolvesInto_concat_name hne

/-- The name of the index page behind a slash does not matter. -/
theorem inside_pathOf (file : Bytes) : Inside (pathOf file) ↔ Inside (wwwroot ++ file) := by
  by_cases hlast : (ascii "wwwroot" ++ file).getLast? = some 47
  · obtain ⟨path, hpath⟩ := List.getLast?_eq_some_iff.mp hlast
    have hindex : path ++ [47] ++ ascii "index.html" = path ++ ascii "/index.html" :=
      List.append_assoc _ _ _
    have hslash : Inside (path ++ [47]) ↔ Inside path := by
      rw [Inside, components_concat_slash]
      rfl
    rw [pathOf, if_pos hlast, wwwroot, hpath, hindex, inside_index_page, hslash]
  · rw [pathOf, if_neg hlast, wwwroot]

/-- The path of a file is inside exactly when the URL stays inside. -/
theorem inside_pathOf_iff (file : Bytes) : Inside (pathOf file) ↔ StaysInside file :=
  (inside_pathOf file).trans resolvesInto_iff_enters

/-- The page for missing files is inside. -/
theorem inside_page404 : Inside page404 := by
  decide

/-! ### Connections -/

/-- The URL fits its array. -/
theorem length_url_le (s : Bytes) :
    (cstr (terminated (urlWord s) (zeros 255))).length ≤ 254 := by
  rw [cstr_terminated]
  exact (List.takeWhile_prefix _).length_le.trans length_word_le

/-- What is terminated has a NUL. -/
theorem mem_terminated (s buf : Bytes) : 0 ∈ terminated s buf :=
  List.mem_append_right _ List.mem_cons_self

/-- The path built from the URL of a supported request is handed over. -/
theorem Confined.inside (h : Confined env inbox e)
    (hchunk : takeChunk e.seen 1024 inbox = some (line, rest))
    (hmethod : supported (lineMethod line) = true) : Inside (pathOf (lineFile line)) := by
  have hrequest := returns_readRequest (w := connected inbox e).mpr ⟨line, rest, hchunk, rfl, rfl⟩
  rw [lineMethod, ← cstr_terminated _ (zeros 255)] at hmethod
  have hlook : (handleSock env).Eventually (connected inbox e)
      (LooksUp (askedPath (cstr (terminated (methodWord (requestBuffer line)) (zeros 255)))
        (cstr (terminated (urlWord (requestBuffer line)) (zeros 255))))) :=
    Eventually.bind hrequest
      (eventually_serve (mem_terminated _ _) (mem_terminated _ _) (length_url_le _) hmethod)
  obtain ⟨n, hn⟩ := hlook
  have hmem := hn n (Nat.le_refl n)
  simp only [LooksUp, askedPath, cstr_terminated] at hmem
  exact h n _ hmem _ rfl

/-- The server stays in `wwwroot` if and only if the request has an unsupported method or
its URL stays inside. -/
theorem confined_iff (env : Env) (inbox : Bytes) (e : Ending) : Confined env inbox e ↔
    ∀ line rest, takeChunk e.seen 1024 inbox = some (line, rest) →
      supported (lineMethod line) = true → StaysInside (lineFile line) := by
  constructor
  · intro h line rest hchunk hmethod
    exact (inside_pathOf_iff _).mp (h.inside hchunk hmethod)
  · intro h
    have hstart : Extends Inside [] (connected inbox e) := ⟨[], rfl, by simp⟩
    have hread := hands_readRequest [] _ hstart
    have hall : (handleSock env).Always (connected inbox e) (Extends Inside []) := by
      refine hread.bind fun r t hr => ?_
      obtain ⟨line, rest, hchunk, rfl, rfl⟩ := returns_readRequest.mp hr
      refine hands_serve (mem_terminated _ _) (length_url_le _) ?_ inside_page404 [] _
        (hread.of_returns hr)
      simp only [cstr_terminated]
      intro hmethod
      have hinside := (inside_pathOf_iff _).mpr (h line rest hchunk hmethod)
      exact ⟨hinside, (inside_index_page _).mpr hinside⟩
    intro n ev hev
    obtain ⟨es, hes, hinside⟩ := hall n
    rw [hes] at hev
    exact hinside ev hev

/-- A URL with `..` behind the slash makes the server look outside. -/
theorem parent_url_not_confined :
    ¬ Confined emptyDisk (ascii "GET /../x HTTP/1.0\n") .silent := by
  intro h
  have hchunk : takeChunk Ending.silent.seen 1024 (ascii "GET /../x HTTP/1.0\n") =
      some (ascii "GET /../x HTTP/1.0\n", []) := by decide +kernel
  have hfile : lineFile (ascii "GET /../x HTTP/1.0\n") = ascii "/../x" := by decide +kernel
  have hmethod : supported (lineMethod (ascii "GET /../x HTTP/1.0\n")) = true := by
    decide +kernel
  have hinside := h.inside hchunk hmethod
  rw [hfile] at hinside
  exact absurd hinside (by decide)

end NetworkCode.Httpd
