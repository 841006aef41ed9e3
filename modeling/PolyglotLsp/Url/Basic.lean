import PolyglotLsp.Url.Host

/-!
# URLs

A parsed URL and its text. Every URL the router holds is in this form, so two URLs are the same
document exactly when they are equal, however they were first written.
-/

namespace PolyglotLsp

/-- Where a hierarchical URL lives: the encoded user part (with its final `@`), the host and a port
other than the scheme's own. -/
structure Url.Authority where
  userinfo : List Char
  host : List Char
  port : Option Nat
  deriving DecidableEq, Repr, Inhabited

/-- Either text that has no structure, or the segments between slashes. A path without any segment
is empty, and a single empty segment is the root. -/
inductive Url.Path where
  | opaqueText (text : List Char)
  | segments (items : List (List Char))
  deriving DecidableEq, Repr, Inhabited

/-- A parsed URL. -/
structure Url where
  scheme : List Char
  authority : Option Url.Authority
  path : Url.Path
  query : Option (List Char)
  fragment : Option (List Char)
  deriving DecidableEq, Repr, Inhabited

namespace Url

/-- Schemes with a hierarchy, a default port and backslashes for slashes. -/
def isSpecialScheme (scheme : List Char) : Bool :=
  ["file", "http", "https", "ws", "wss", "ftp"].any (·.toList == scheme)

def defaultPort? (scheme : List Char) : Option Nat :=
  if scheme == "http".toList || scheme == "ws".toList then some 80
  else if scheme == "https".toList || scheme == "wss".toList then some 443
  else if scheme == "ftp".toList then some 21
  else none

def isSpecial (u : Url) : Bool := isSpecialScheme u.scheme

def Authority.text (a : Authority) : List Char :=
  "//".toList ++ a.userinfo ++ a.host ++
    match a.port with
    | none => []
    | some p => ':' :: (toString p).toList

/-- The text of a path. -/
def Path.text : Path → List Char
  | .opaqueText t => t
  | .segments items => items.flatMap ('/' :: ·)

/-- A path that begins with an empty segment needs a dot in front when no authority stands there,
or its two slashes would be read as one. -/
def Path.needsDot : Path → Bool
  | .segments ([] :: _ :: _) => true
  | _ => false

/-- The text of a URL. -/
def chars (u : Url) : List Char :=
  u.scheme ++ [':'] ++
    (match u.authority with
      | some a => a.text
      | none => if u.path.needsDot then ['/', '.'] else []) ++
    u.path.text ++
    (match u.query with
      | none => []
      | some q => '?' :: q) ++
    (match u.fragment with
      | none => []
      | some f => '#' :: f)

def text (u : Url) : String := String.ofList u.chars

/-- The last path segment; `none` if the path has no segments. -/
def lastSegment? (u : Url) : Option (List Char) :=
  match u.path with
  | .segments items => items.getLast?
  | .opaqueText _ => none

/-- Removes the last segment; the root stays. -/
def popSegment : List (List Char) → List (List Char)
  | [] => []
  | [_] => [[]]
  | items => items.dropLast

/-- Adds a segment given as plain text, encoded as the scheme asks. Tabs and line ends are dropped,
and the root's empty segment is filled rather than followed. -/
def pushSegment (special : Bool) (items : List (List Char)) (segment : List Char) :
    List (List Char) :=
  let encoded :=
    encode (segmentSet special) (segment.filter fun c => c != '\t' && c != '\n' && c != '\r')
  if items = [[]] then [encoded] else items ++ [encoded]

end Url

end PolyglotLsp
