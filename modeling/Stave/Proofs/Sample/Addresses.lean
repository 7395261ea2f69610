import Stave.Proofs.Score.Positions
import Stave.Sample.Loader

/-!
# Addresses that are declared

A line declares a sample under an address whose scheme is known in any case, while a source looks for
schemes in lower case only.  So what is behind a declared address is read or downloaded, or an error
says why it is not, where the scheme is written in lower case, and only there: under any other spelling
no source ever tries.
-/

namespace Stave

namespace Source

/-- Reads files where they are and has everything else downloaded. -/
def fetching (readBytes download : String → Except String (List UInt8)) : Source := fun url =>
  match Address.ofUrl url with
  | .file path => (readBytes path).mapError .unreadable
  | .download => (download url).mapError .unreachable
  | .other => throw (.scheme url)

/-- A source that downloads nothing says so whenever it should. -/
theorem offline_eq_fetching (readBytes : String → Except String (List UInt8)) :
    offline readBytes = fetching readBytes fun url =>
      throw (url ++ ": built without the " ++ "\x60http\x60" ++ " feature") := by
  funext url
  rw [offline, fetching]
  cases Address.ofUrl url <;> rfl

end Source

namespace Address

/-- What stands before the colon of an address, as it is written. -/
def schemeOf (url : String) : String := String.ofList (url.toList.takeWhile (· != ':'))

/-- Behind the scheme of a declared address there are a colon, two slashes and a resource. -/
theorem exists_resource {url : String} (h : isUrl url.toList = true) :
    ∃ rest, url.toList = (schemeOf url).toList ++ ':' :: '/' :: '/' :: rest := by
  obtain ⟨rest, hurl, -⟩ := exists_rest_of_isUrl h
  exact ⟨rest, by rw [schemeOf, String.toList_ofList]; exact hurl⟩

theorem notMem_schemeOf (url : String) : ':' ∉ (schemeOf url).toList := by
  rw [schemeOf, String.toList_ofList]
  exact notMem_takeWhile_ne ':' url.toList

/-- An address begins with a scheme and what separates it if that is its own scheme. -/
theorem isPrefixOf_iff {url : String} (h : isUrl url.toList = true) (known : String)
    (hknown : ':' ∉ known.toList) :
    (known.toList ++ ':' :: '/' :: '/' :: []).isPrefixOf url.toList = true ↔ schemeOf url = known := by
  obtain ⟨rest, hurl⟩ := exists_resource h
  rw [List.isPrefixOf_iff_prefix, hurl, eq_comm, ← String.toList_inj]
  constructor
  · rintro ⟨behind, heq⟩
    rw [List.append_assoc] at heq
    exact (Heading.append_colon_inj hknown (notMem_schemeOf url) heq).1
  · intro heq
    rw [heq]
    exact ⟨rest, by simp⟩

/-- What a declared address means, by its scheme as it is written. -/
theorem ofUrl_of_isUrl {url : String} (h : isUrl url.toList = true) :
    ofUrl url
      = if schemeOf url = "file" then file (String.ofList (url.toList.drop 7))
        else if schemeOf url = "http" ∨ schemeOf url = "https" then download
        else other := by
  have hfile : "file://".toList.isPrefixOf url.toList = true ↔ schemeOf url = "file" :=
    isPrefixOf_iff h "file" (by decide)
  have hhttp : "http://".toList.isPrefixOf url.toList = true ↔ schemeOf url = "http" :=
    isPrefixOf_iff h "http" (by decide)
  have hhttps : "https://".toList.isPrefixOf url.toList = true ↔ schemeOf url = "https" :=
    isPrefixOf_iff h "https" (by decide)
  simp only [ofUrl, Bool.or_eq_true, hfile, hhttp, hhttps]

/-- The scheme of a declared address is known, and known as it is written if it is in lower case. -/
theorem mem_urlSchemes_iff {url : String} (h : isUrl url.toList = true) :
    schemeOf url ∈ urlSchemes ↔ Text.lowercase (schemeOf url) = schemeOf url := by
  obtain ⟨-, -, -, hknown⟩ := exists_rest_of_isUrl h
  constructor
  · intro hmem
    have hlower : ∀ scheme ∈ urlSchemes, Text.lowercase scheme = scheme := by decide
    exact hlower _ hmem
  · intro hlower
    rw [← hlower]
    exact hknown

end Address

namespace Source

section Fetching

variable {url : String} (h : isUrl url.toList = true)
  (readBytes download : String → Except String (List UInt8))

include h

theorem fetching_file (hscheme : Address.schemeOf url = "file") :
    ∃ path, url = "file://" ++ path
      ∧ fetching readBytes download url = (readBytes path).mapError .unreadable := by
  obtain ⟨rest, hurl⟩ := Address.exists_resource h
  rw [hscheme] at hurl
  refine ⟨String.ofList rest, ?_, ?_⟩
  · rw [← String.toList_inj, hurl]
    simp
  · rw [fetching, Address.ofUrl_of_isUrl h, if_pos hscheme, hurl]
    rfl

theorem fetching_download (hscheme : Address.schemeOf url = "http" ∨ Address.schemeOf url = "https") :
    fetching readBytes download url = (download url).mapError .unreachable := by
  have hother : Address.schemeOf url ≠ "file" := by
    rintro hfile
    rw [hfile] at hscheme
    revert hscheme
    decide
  rw [fetching, Address.ofUrl_of_isUrl h, if_neg hother, if_pos hscheme]

theorem fetching_other (hscheme : Address.schemeOf url ∉ urlSchemes) :
    fetching readBytes download url = .error (.scheme url) := by
  simp only [urlSchemes, List.mem_cons, List.not_mem_nil, or_false, not_or] at hscheme
  rw [fetching, Address.ofUrl_of_isUrl h, if_neg hscheme.2.2, if_neg (by tauto)]
  rfl

/-- A source does not know what to do with a declared address if its scheme is not in lower case. -/
theorem exists_scheme_iff :
    (∃ other, fetching readBytes download url = .error (.scheme other))
      ↔ Text.lowercase (Address.schemeOf url) ≠ Address.schemeOf url := by
  have hlower := Address.mem_urlSchemes_iff h
  refine ⟨?_, fun hcase => ⟨url, fetching_other h readBytes download (hlower.not.mpr hcase)⟩⟩
  rintro ⟨other, herror⟩ hcase
  -- what reading or downloading answers is no matter of the scheme
  have hanswer (answer : Except String (List UInt8)) (cause : String → RecordingError)
      (hcause : ∀ reason, cause reason ≠ .scheme other) :
      answer.mapError cause ≠ .error (.scheme other) := by
    cases answer with
    | error reason => exact fun heq => hcause reason (Except.error.inj heq)
    | ok => exact fun heq => by cases heq
  have hmem := hlower.mpr hcase
  simp only [urlSchemes, List.mem_cons, List.not_mem_nil, or_false] at hmem
  rcases hmem with hscheme | hscheme | hscheme
  · exact hanswer _ _ (fun _ => by simp)
      ((fetching_download h readBytes download (.inl hscheme)).symm.trans herror)
  · exact hanswer _ _ (fun _ => by simp)
      ((fetching_download h readBytes download (.inr hscheme)).symm.trans herror)
  · obtain ⟨path, -, hread⟩ := fetching_file h readBytes download hscheme
    exact hanswer _ _ (fun _ => by simp) (hread.symm.trans herror)

end Fetching

/-- What a source does with a declared address depends on the scheme as it is written: it reads the file
that the address names, has the address downloaded, or does not know what to do.  The last is so for
exactly the schemes that are not in lower case, also where nothing is downloaded. -/
theorem fetched_of_declaration {line : List Char} {d : Declaration}
    (h : Heading.declaration? line = some d)
    (readBytes download : String → Except String (List UInt8)) :
    let scheme := Address.schemeOf d.url
    let fetched := fetching readBytes download d.url
    Text.lowercase scheme ∈ urlSchemes
      ∧ (scheme = "file" → ∃ path, d.url = "file://" ++ path
          ∧ fetched = (readBytes path).mapError .unreadable)
      ∧ (scheme = "http" ∨ scheme = "https" → fetched = (download d.url).mapError .unreachable)
      ∧ (Text.lowercase scheme ≠ scheme → fetched = .error (.scheme d.url))
      ∧ ((∃ url, fetched = .error (.scheme url)) ↔ Text.lowercase scheme ≠ scheme)
      ∧ ((∃ url, offline readBytes d.url = .error (.scheme url)) ↔ Text.lowercase scheme ≠ scheme) := by
  intro scheme fetched
  obtain ⟨heading, -, hurl, hd⟩ := Heading.exists_of_declaration? h
  have hurl : isUrl d.url.toList = true := by
    rw [hd, String.toList_ofList]
    exact hurl
  obtain ⟨-, -, -, hknown⟩ := exists_rest_of_isUrl hurl
  refine ⟨hknown, fetching_file hurl readBytes download, fetching_download hurl readBytes download,
    fun hcase => ?_, exists_scheme_iff hurl readBytes download, ?_⟩
  · exact fetching_other hurl readBytes download ((Address.mem_urlSchemes_iff hurl).not.mpr hcase)
  · rw [offline_eq_fetching]
    exact exists_scheme_iff hurl readBytes _

/-- A name in capital letters with an address in lower case. -/
theorem fetched_of_declaration_of_download :
    let d : Declaration := ⟨"vox", "https://example.com/vox.wav"⟩
    let missing (url : String) : Except String (List UInt8) := .error (url ++ ": HTTP 404 Not Found")
    Heading.declaration? "VOX: https://example.com/vox.wav ".toList = some d
      ∧ fetching (fun _ => .ok []) missing d.url
        = .error (.unreachable "https://example.com/vox.wav: HTTP 404 Not Found") := by
  intro d missing
  have hdeclared : Heading.declaration? "VOX: https://example.com/vox.wav ".toList = some d := by
    decide +kernel
  have hscheme : Address.schemeOf d.url = "https" := by decide +kernel
  obtain ⟨-, -, hdownload, -⟩ := fetched_of_declaration hdeclared (fun _ => .ok []) missing
  exact ⟨hdeclared, hdownload (.inr hscheme)⟩

/-- A file that is there, but is declared under a scheme in capital letters, is never looked for. -/
theorem capital_scheme_is_unsupported :
    ∃ d, Heading.declaration? "vox: FILE:///dev/null".toList = some d
      ∧ ∀ readBytes, offline readBytes d.url = .error (.scheme "FILE:///dev/null") :=
  ⟨⟨"vox", "FILE:///dev/null"⟩, by decide +kernel, fun _ => rfl⟩

end Source

end Stave
