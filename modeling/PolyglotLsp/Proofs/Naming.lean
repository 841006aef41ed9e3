import PolyglotLsp.Proofs.Recognition
import PolyglotLsp.Proofs.Url.Legible
import PolyglotLsp.Proofs.Url.Percent

/-!
# Names that tell their hosts

A file name that is written as segments are (`Canonical`) survives being decoded and encoded again
(`stem_decode`), so that the virtual document is called the same with the suffix put after it
(`url_of_canonical`). From such a name the host can be told; and likewise from one under the
fallback scheme, which holds the host's whole text (`chars_of_fallback`). The two ways of naming
never meet: a host's text has a colon, which a file name keeps and the fallback scheme encodes
(`encode_chars_not_canonical`).
-/

namespace PolyglotLsp

namespace Url

/-- The last segment is what stands in front of the query. -/
theorem chars_concat {u : Url} {front : List (List Char)} {last : List Char}
    (path : u.path = .segments (front ++ [last])) :
    u.chars = (u.scheme ++ ':' :: bodyText u.authority (.segments (front ++ [[]]))) ++ last ++
      (queryText u.query ++ fragmentText u.fragment) := by
  have body : bodyText u.authority (.segments (front ++ [last])) =
      bodyText u.authority (.segments (front ++ [[]])) ++ last := by
    simp [bodyText, VirtualUri.needsDot_concat front last [], Path.text]
  rw [chars_eq, path, body]
  simp

theorem popSegment_concat (front : List (List Char)) (last : List Char) :
    popSegment (front ++ [last]) = if front = [] then [[]] else front := by
  match front with
  | [] => rfl
  | [_] => rfl
  | first :: second :: rest =>
    rw [if_neg (List.cons_ne_nil _ _)]
    change (first :: second :: rest ++ [last]).dropLast = _
    exact List.dropLast_concat

end Url

namespace VirtualUri

open Url

variable {v v' : VirtualUri} {suffix : String} {front : List (List Char)} {name : List Char}

/-! ## Beside the host -/

/-- A segment that is written as the scheme writes a text without tabs and line ends. -/
def Canonical (special : Bool) (segment : List Char) : Prop :=
  ∃ text : List Char, (∀ c ∈ text, c ≠ '\t' ∧ c ≠ '\n' ∧ c ≠ '\r') ∧
    segment = encode (segmentSet special) text

theorem stem_decode {special : Bool} (h : Canonical special name) :
    stem special (decode name) = name := by
  obtain ⟨text, printable, rfl⟩ := h
  have whole : (text.filter fun c => c != '\t' && c != '\n' && c != '\r') = text := by
    refine List.filter_eq_self.2 fun c hc => ?_
    obtain ⟨tab, lf, cr⟩ := printable c hc
    simp [tab, lf, cr]
  rw [decode_encode (by simp [segmentSet]), stem, whole]

/-- The suffix is all that is new. -/
theorem url_of_canonical (hs : v.language.suffix? = some suffix)
    (path : v.host.path = .segments (front ++ [name])) (noRoot : front ≠ [[]])
    (canonical : Canonical v.host.isSpecial name) :
    v.url = { v.host with path := .segments (front ++ [name ++ suffix.toList]) } := by
  obtain ⟨suffix', hs', ⟨none, -⟩ | ⟨items, name', path', last, url⟩⟩ := v.url_cases
  · simp [lastSegment?, path] at none
  · obtain rfl : suffix = suffix' := Option.some.inj (hs.symm.trans hs')
    obtain rfl : items = front ++ [name] := Path.segments.inj (path'.symm.trans path)
    obtain rfl : name = name' := by simpa using last
    have kept : (if popSegment (front ++ [name]) = [[]] then [] else popSegment (front ++ [name])) =
        front := by
      rw [popSegment_concat]
      by_cases single : front = []
      · simp [single]
      · simp [single, noRoot]
    rw [url, sibling, pushSegment_append _ _ _ hs, kept, stem_decode canonical]

/-! ## Under the fallback scheme -/

theorem url_of_fallback (hs : v.language.suffix? = some suffix)
    (none : v.host.lastSegment? = none) :
    v.url = ⟨fallbackScheme.toList, some ⟨[], [], Option.none⟩,
      .segments [encode nonAlphanumericSet v.host.chars ++ suffix.toList], Option.none,
      Option.none⟩ := by
  obtain ⟨suffix', hs', ⟨-, url⟩ | ⟨items, name, path, last, -⟩⟩ := v.url_cases
  · obtain rfl : suffix = suffix' := Option.some.inj (hs.symm.trans hs')
    rw [fallback?_eq v.host hs] at url
    exact (Option.some.inj url).symm
  · simp [lastSegment?, path, last] at none

theorem chars_of_fallback (hs : v.language.suffix? = some suffix)
    (none : v.host.lastSegment? = none) :
    v.url.chars = "razor-virtual:///".toList ++ encode nonAlphanumericSet v.host.chars ++
      suffix.toList := by
  rw [url_of_fallback hs none]
  simp [chars, Authority.text, Path.text, fallbackScheme]

/-- The text of a URL, encoded whole, is not what a segment is written as. -/
theorem encode_chars_not_canonical (host : Url) (special : Bool) :
    ¬ Canonical special (encode nonAlphanumericSet host.chars) := by
  rintro ⟨text, -, same⟩
  have escapes : nonAlphanumericSet '%' = true := by decide
  have read : host.chars = text := by
    rw [← decode_encode escapes host.chars, same, decode_encode (by simp [segmentSet])]
  have colon : ':' ∈ text := by
    rw [← read, chars_eq]
    simp
  -- a segment keeps the colon
  have kept : ':' ∈ encode (segmentSet special) text := by
    refine List.mem_flatMap.2 ⟨':', colon, ?_⟩
    cases special <;> decide
  rw [← same] at kept
  rcases mem_encode_nonAlphanumericSet kept with letter | percent
  · cases letter
  · cases percent

/-! ## Back to the host -/

/-- A host that can be told from the names of its virtual documents. -/
inductive Telling (host : Url) : Prop
  /-- Its file name is canonical, and no empty segment alone stands before it. -/
  | beside (front : List (List Char)) (name : List Char)
      (path : host.path = .segments (front ++ [name])) (noRoot : front ≠ [[]])
      (canonical : Canonical host.isSpecial name)
  /-- It has no file name. -/
  | below (none : host.lastSegment? = none)

theorem host_eq_of_url_eq {s s' : String} (read : Url.parse? s = some v.host)
    (read' : Url.parse? s' = some v'.host) (h : Telling v.host) (h' : Telling v'.host)
    (same : v.url = v'.url) : v.host = v'.host := by
  obtain ⟨suffix, -, hs, -⟩ := suffix_of_urlOf? v.derived
  have hs' : v'.language.suffix? = some suffix := language_eq_of_url_eq same ▸ hs
  -- one is beside its host and the other one under the fallback scheme
  have apart {v v' : VirtualUri} (hs : v.language.suffix? = some suffix)
      (hs' : v'.language.suffix? = some suffix) {front : List (List Char)} {name : List Char}
      (path : v.host.path = .segments (front ++ [name])) (noRoot : front ≠ [[]])
      (canonical : Canonical v.host.isSpecial name) (none : v'.host.lastSegment? = none) :
      v.url ≠ v'.url := by
    intro same
    rw [url_of_canonical hs path noRoot canonical, url_of_fallback hs' none] at same
    have segments := Path.segments.inj (congrArg Url.path same)
    obtain ⟨-, last⟩ := List.append_inj' (segments.trans (List.nil_append _).symm) rfl
    rw [List.singleton_inj, List.append_left_inj] at last
    exact encode_chars_not_canonical v'.host _ (last ▸ canonical)
  cases h with
  | beside front name path noRoot canonical =>
    cases h' with
    | beside front' name' path' noRoot' canonical' =>
      have url := url_of_canonical hs path noRoot canonical
      have url' := url_of_canonical hs' path' noRoot' canonical'
      rw [url, url', Url.mk.injEq, Path.segments.injEq] at same
      obtain ⟨scheme, authority, segments, query, fragment⟩ := same
      obtain ⟨rfl, last⟩ := List.append_inj' segments rfl
      rw [List.singleton_inj, List.append_left_inj] at last
      exact Url.ext scheme authority (by rw [path, path', last]) query fragment
    | below none => exact absurd same (apart hs hs' path noRoot canonical none)
  | below none =>
    cases h' with
    | beside front name path noRoot canonical =>
      exact absurd same.symm (apart hs' hs path noRoot canonical none)
    | below none' =>
      rw [url_of_fallback hs none, url_of_fallback hs' none', Url.mk.injEq, Path.segments.injEq,
        List.singleton_inj, List.append_left_inj] at same
      exact eq_of_chars_eq (legible_of_parse? read) (legible_of_parse? read')
        (encode_injective (by decide) same.2.2.1)

/-- Every host has a name in each embedded language. A canonical file name is kept as it is, with
the suffix after it and all else unchanged; a host without a file name is named by its whole text
under the fallback scheme. Both tell the host and the language. -/
theorem name_exact :
    (∀ host, ∀ language ∈ Language.embedded, ∃ suffix v, language.suffix? = some suffix ∧
      of? host language = some v ∧ v.host = host ∧ v.language = language ∧
      (∀ front name, host.path = .segments (front ++ [name]) → front ≠ [[]] →
        Canonical host.isSpecial name →
        v.url = { host with path := .segments (front ++ [name ++ suffix.toList]) } ∧
          ∃ before rest, host.chars = before ++ name ++ rest ∧
            v.url.chars = before ++ name ++ suffix.toList ++ rest) ∧
      (host.lastSegment? = none →
        v.url.chars = "razor-virtual:///".toList ++ encode nonAlphanumericSet host.chars ++
          suffix.toList)) ∧
    ∀ (s s' : String) (v v' : VirtualUri), Url.parse? s = some v.host →
      Url.parse? s' = some v'.host → Telling v.host → Telling v'.host →
      v.url.text = v'.url.text → v = v' := by
  refine ⟨fun host language embedded => ?_, fun s s' v v' read read' h h' same => ?_⟩
  · obtain ⟨v, named, rfl, rfl⟩ := exists_of? host embedded
    obtain ⟨suffix, -, hs, -⟩ := suffix_of_urlOf? v.derived
    refine ⟨suffix, v, hs, named, rfl, rfl, fun front name path noRoot canonical => ?_,
      chars_of_fallback hs⟩
    have url := url_of_canonical hs path noRoot canonical
    refine ⟨url, _, _, chars_concat path, ?_⟩
    rw [chars_concat (u := v.url) (by rw [url]), url, List.append_assoc _ name]
  · have chars : v.url.chars = v'.url.chars := by
      simpa [Url.text] using congrArg String.toList same
    have url := eq_of_chars_eq (normal_url read).legible (normal_url read').legible chars
    exact eq_of_host_language (host_eq_of_url_eq read read' h h' url) (language_eq_of_url_eq url)

end VirtualUri

/-! ## Names in the sample -/

namespace Scenario.Sample

/-- A host whose file name has a blank in it. -/
def pageUrl : Url :=
  ⟨"file".toList, some ⟨[], [], none⟩, .segments ["p".toList, "My%20Page.razor".toList], none, none⟩

/-- A host without a path. -/
def draftUrl : Url := ⟨"untitled".toList, none, .opaqueText "Page".toList, none, none⟩

end Scenario.Sample

open Scenario.Sample in
/-- The code of a page is beside it, with the blank escaped once; that of a draft is elsewhere. -/
theorem VirtualUri.name_exact_page :
    ∃ v v', of? pageUrl .csharp = some v ∧ of? draftUrl .csharp = some v' ∧
      v.url.text = "file:///p/My%20Page.razor__virtual.cs" ∧
      v'.url.chars = "razor-virtual:///untitled%3APage__virtual.cs".toList ∧
      v.url.text ≠ v'.url.text := by
  have canonical : Canonical pageUrl.isSpecial "My%20Page.razor".toList :=
    ⟨"My Page.razor".toList, @of_decide_eq_true _ (List.decidableBAll ..) (by decide),
      by decide +kernel⟩
  have read : Url.parse? "file:///p/My%20Page.razor" = some pageUrl := by decide +kernel
  have read' : Url.parse? "untitled:Page" = some draftUrl := by decide +kernel
  obtain ⟨suffix, v, hs, named, host, -, beside, -⟩ := name_exact.1 pageUrl .csharp (by decide)
  obtain ⟨suffix', v', hs', named', host', -, -, below⟩ := name_exact.1 draftUrl .csharp (by decide)
  cases hs
  cases hs'
  obtain ⟨url, -⟩ := beside ["p".toList] "My%20Page.razor".toList rfl (by decide) canonical
  refine ⟨v, v', named, named', ?_, ?_, fun same => ?_⟩
  · rw [url]
    decide +kernel
  · rw [below rfl]
    decide +kernel
  · have equal := name_exact.2 _ _ v v' (host ▸ read) (host' ▸ read')
      (host ▸ .beside ["p".toList] _ rfl (by decide) canonical) (host' ▸ .below rfl) same
    rw [equal, host'] at host
    cases host

end PolyglotLsp
