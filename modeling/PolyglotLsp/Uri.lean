import PolyglotLsp.Url.Parse

/-!
# Protocol URIs

What the editor and the servers exchange are URIs of the generic grammar: a scheme, an optional
authority, a path, an optional query and an optional fragment, each from its own set of ASCII
characters, with `%` only in front of two hexadecimal digits. Such a URI is kept as written. A `Url`
is what the router compares; the two agree on most texts and on neither side include the other.
-/

namespace PolyglotLsp

namespace Uri

/-- Letters, digits and the four marks that never need escaping. -/
def isUnreserved (c : Char) : Bool := c.isAlphanum || c == '-' || c == '.' || c == '_' || c == '~'

def isSubDelim (c : Char) : Bool := "!$&'()*+,;=".toList.contains c

/-- Whether a text consists of characters of a class and well-formed escapes. -/
def allOf (allowed : Char → Bool) : List Char → Bool
  | [] => true
  | '%' :: a :: b :: rest =>
    (Url.hexValue? a).isSome && (Url.hexValue? b).isSome && allOf allowed rest
  | c :: rest => c != '%' && allowed c && allOf allowed rest

def isNameChar (c : Char) : Bool := isUnreserved c || isSubDelim c

def isUserChar (c : Char) : Bool := isNameChar c || c == ':'

def isPathChar (c : Char) : Bool := isUserChar c || c == '@' || c == '/'

def isQueryChar (c : Char) : Bool := isPathChar c || c == '?'

/-- An address of a later version: `v`, its number, a dot and what follows. -/
def isFutureAddress : List Char → Bool
  | c :: rest =>
    (c == 'v' || c == 'V') &&
      match Url.cut (· == '.') rest with
      | (version, '.' :: address) =>
        !version.isEmpty && version.all (fun d => (Url.hexValue? d).isSome) &&
          !address.isEmpty && address.all isUserChar
      | _ => false
  | [] => false

/-- A registered name, or an address in brackets. -/
def isHost (cs : List Char) : Bool :=
  match cs with
  | '[' :: rest =>
    rest.getLast? == some ']' &&
      ((Url.ipv6Address? rest.dropLast).isSome || isFutureAddress rest.dropLast)
  | _ => allOf isNameChar cs

def isAuthority (cs : List Char) : Bool :=
  let (user, hostPort) :=
    match Url.splitUser cs with
    | none => ([], cs)
    | some (user, rest) => (user, rest)
  let (host, port) := Url.splitPort false hostPort
  allOf isUserChar user && isHost host && (port.getD []).all Char.isDigit

/-- Whether a text is a URI with a scheme. -/
def isValid (s : String) : Bool :=
  match Url.scheme? s.toList with
  | none => false
  | some (_, rest) =>
    let (front, fragment) := Url.cut (· == '#') rest
    let (body, query) := Url.cut (· == '?') front
    allOf isQueryChar (fragment.drop 1) && allOf isQueryChar (query.drop 1) &&
      match body with
      | '/' :: '/' :: rest =>
        let (authority, path) := Url.cut (· == '/') rest
        isAuthority authority && allOf isPathChar path
      | path => allOf isPathChar path

end Uri

/-- A valid URI, kept as written. -/
structure Uri where
  text : String
  valid : Uri.isValid text = true
  deriving DecidableEq

namespace Uri

def parse? (s : String) : Option Uri :=
  if h : isValid s = true then some ⟨s, h⟩ else none

/-- The URL that a URI names, if it is one. -/
def toUrl? (u : Uri) : Option Url := Url.parse? u.text

end Uri

/-- The URI of a URL, unless its text holds characters that URIs refuse. -/
def Url.toUri? (u : Url) : Option Uri := Uri.parse? u.text

end PolyglotLsp
