import PolyglotLsp.Language
import PolyglotLsp.Uri

/-!
# Names of virtual documents

The virtual document of a language stands beside its host under the host's file name and the
language's suffix, so that relative paths mean the same in both. A host without path segments has no
such place; its virtual documents live under a scheme of their own, named by the whole text of the
host's URL.
-/

namespace PolyglotLsp

namespace VirtualUri

/-- The scheme for hosts that have no path segments. -/
def fallbackScheme : String := "razor-virtual"

/-- The host's URL with its last segment renamed. -/
def sibling (host : Url) (items : List (List Char)) (name : List Char) (suffix : List Char) : Url :=
  { host with
    path := .segments
      (Url.pushSegment host.isSpecial (Url.popSegment items) (Url.decode name ++ suffix)) }

/-- The URL under the fallback scheme. -/
def fallback? (host : Url) (suffix : List Char) : Option Url :=
  Url.parseChars?
    (fallbackScheme.toList ++ ":///".toList ++ Url.encode Url.nonAlphanumericSet host.chars ++ suffix)

/-- The URL of the virtual document with this suffix. -/
def derive? (host : Url) (suffix : List Char) : Option Url :=
  match host.path with
  | .opaqueText _ => fallback? host suffix
  | .segments items =>
    match items.getLast? with
    | none => fallback? host suffix
    | some name => some (sibling host items name suffix)

/-- The URL of a host's virtual document; `none` for the host language. -/
def urlOf? (host : Url) (language : Language) : Option Url := do
  let suffix ← language.suffix?
  derive? host suffix.toList

end VirtualUri

/-- The name of a virtual document together with what it is the projection of. -/
structure VirtualUri where
  host : Url
  language : Language
  url : Url
  derived : VirtualUri.urlOf? host language = some url
  deriving DecidableEq, Repr

namespace VirtualUri

/-- The name of a host's virtual document; `none` for the host language. -/
def of? (host : Url) (language : Language) : Option VirtualUri :=
  match derived : urlOf? host language with
  | none => none
  | some url => some { host, language, url, derived }

/-- A host has one name per language. -/
theorem eq_of_host_language {v v' : VirtualUri} (hh : v.host = v'.host)
    (hl : v.language = v'.language) : v = v' := by
  obtain ⟨host, language, url, derived⟩ := v
  obtain ⟨host', language', url', derived'⟩ := v'
  obtain rfl : host = host' := hh
  obtain rfl : language = language' := hl
  obtain rfl : url = url' := Option.some.inj (derived.symm.trans derived')
  rfl

theorem host_language_of_of? {host : Url} {language : Language} {v : VirtualUri}
    (h : of? host language = some v) : v.host = host ∧ v.language = language := by
  unfold of? at h
  split at h
  · cases h
  · cases h
    exact ⟨rfl, rfl⟩

/-- Whether a URL is in the form that virtual documents are named in: the fallback scheme, or a file
name that ends in a suffix and has something before it. -/
def isVirtualUrl (u : Url) : Bool :=
  u.scheme == fallbackScheme.toList ||
    match u.lastSegment? with
    | none => false
    | some name =>
      (Language.embedded.filterMap Language.suffix?).any fun suffix =>
        suffix.toList.isSuffixOf name && suffix.length < name.length

/-- Whether a text is the URL of a virtual document. -/
def isVirtual (s : String) : Bool :=
  match Url.parse? s with
  | none => false
  | some u => isVirtualUrl u

end VirtualUri

end PolyglotLsp
