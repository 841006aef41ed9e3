import PolyglotLsp.Url.Basic

/-!
# Reading URLs

Absolute URLs only. Blanks and controls around the text are dropped, tabs and line ends anywhere;
the scheme is folded to lower case; dot segments are resolved; every component is encoded as far as
its set asks, and escapes that are there already are kept as they are.
-/

namespace PolyglotLsp.Url

/-- Splits at the first character that satisfies `stop`, which begins the second part. -/
def cut (stop : Char → Bool) (cs : List Char) : List Char × List Char :=
  (cs.takeWhile (!stop ·), cs.dropWhile (!stop ·))

/-- The text without surrounding blanks and controls and without tabs and line ends. -/
def clean (cs : List Char) : List Char :=
  let blank (c : Char) : Bool := c.val ≤ 32
  let front := cs.dropWhile blank
  let both := (front.reverse.dropWhile blank).reverse
  both.filter fun c => c != '\t' && c != '\n' && c != '\r'

def isSchemeChar (c : Char) : Bool := c.isAlphanum || c == '+' || c == '-' || c == '.'

/-- The scheme in lower case and what follows its colon. -/
def scheme? (cs : List Char) : Option (List Char × List Char) :=
  match cs with
  | [] => none
  | c :: _ =>
    if c.isAlpha then
      match cut (!isSchemeChar ·) cs with
      | (name, ':' :: rest) => some (name.map Char.toLower, rest)
      | _ => none
    else none

/-- One of `.`, `%2e` and `%2E`. -/
def isDot (cs : List Char) : Bool :=
  cs == ['.'] || cs == "%2e".toList || cs == "%2E".toList

/-- Two dots, each in any of its spellings. -/
def isDotDot : List Char → Bool
  | '.' :: rest => isDot rest
  | '%' :: '2' :: 'e' :: rest => isDot rest
  | '%' :: '2' :: 'E' :: rest => isDot rest
  | _ => false

/-- A letter followed by a colon or a bar. -/
def isDriveLetter : List Char → Bool
  | [c, d] => c.isAlpha && (d == ':' || d == '|')
  | _ => false

/-- Removes the last of the segments read so far, given last first; a drive letter stays. -/
def shorten : List (List Char) → List (List Char)
  | [] => []
  | last :: rest => if isDriveLetter last then last :: rest else rest

/-- Resolves dot segments; `done` holds the segments read so far, last first. -/
def resolveDots (done : List (List Char)) : List (List Char) → List (List Char)
  | [] => done.reverse
  | [last] =>
    if isDotDot last then ([] :: shorten done).reverse
    else if isDot last then ([] :: done).reverse
    else (last :: done).reverse
  | item :: rest =>
    if isDotDot item then resolveDots (shorten done) rest
    else if isDot item then resolveDots done rest
    else resolveDots (item :: done) rest

def isSlash (special : Bool) (c : Char) : Bool := c == '/' || (special && c == '\\')

/-- The segments of a path without its leading slash. -/
def segmentsOf (special : Bool) (cs : List Char) : List (List Char) :=
  resolveDots [] ((splitAll (isSlash special) cs).map (encode pathSet))

/-- Drops a leading slash. -/
def dropSlash (special : Bool) : List Char → List Char
  | [] => []
  | c :: rest => if isSlash special c then rest else c :: rest

/-- Empty segments at the front of a file's path are dropped; at least one segment stays. -/
def trimFront (items : List (List Char)) : List (List Char) :=
  match items.dropWhile List.isEmpty with
  | [] => [[]]
  | kept => kept

/-- Splits at the last `@`. -/
def splitUser (cs : List Char) : Option (List Char × List Char) :=
  let back := cs.reverse
  if cs.contains '@' then
    some ((back.dropWhile (· != '@')).drop 1 |>.reverse, (back.takeWhile (· != '@')).reverse)
  else none

/-- The user part as written, with its final `@` unless it is empty. An empty password loses its
colon. -/
def userinfoOf (cs : List Char) : List Char :=
  let (name, rest) := cut (· == ':') cs
  let password := rest.drop 1
  let body := encode userinfoSet name ++
    (if password.isEmpty then [] else ':' :: encode userinfoSet password)
  if body.isEmpty then [] else body ++ ['@']

/-- Splits host and port at the first colon outside brackets. -/
def splitPort (inBrackets : Bool) : List Char → List Char × Option (List Char)
  | [] => ([], none)
  | c :: rest =>
    if c == ':' && !inBrackets then ([], some rest)
    else
      let inner := if c == '[' then true else if c == ']' then false else inBrackets
      let (host, port) := splitPort inner rest
      (c :: host, port)

/-- A port: absent if empty or the scheme's own, and no more than sixteen bits. -/
def port? (scheme : List Char) (cs : List Char) : Option (Option Nat) := do
  if !cs.all Char.isDigit then none
  let n ← digits? 10 cs
  if n > 65535 then none
  some (if cs.isEmpty || defaultPort? scheme == some n then none else some n)

/-- The authority of a URL that is not a file. -/
def authority? (scheme : List Char) (cs : List Char) : Option Authority := do
  let special := isSpecialScheme scheme
  let (user, hostPort) := (splitUser cs).getD ([], cs)
  if (splitUser cs).isSome && hostPort.isEmpty then none
  let (hostText, portText) := splitPort false hostPort
  if hostText.isEmpty && (special || portText.isSome) then none
  let host ← if special then domainHost? hostText else opaqueHost? hostText
  let userinfo := userinfoOf user
  let port ← port? scheme (portText.getD [])
  some { userinfo, host, port }

/-- The host of a file; the local machine has none. -/
def fileHost? (cs : List Char) : Option (List Char) :=
  if cs.isEmpty then some []
  else (domainHost? cs).map fun host => if host == "localhost".toList then [] else host

/-- Authority and path of a file. -/
def fileBody? (cs : List Char) : Option (Authority × Path) :=
  let file (host : List Char) (path : List Char) : Authority × Path :=
    ({ userinfo := [], host, port := none },
      .segments (trimFront (segmentsOf true (dropSlash true path))))
  match cs with
  | a :: b :: rest =>
    if isSlash true a && isSlash true b then
      let (host, path) := cut (isSlash true) rest
      if isDriveLetter host then some (file [] rest)
      else (fileHost? host).map (file · path)
    else some (file [] cs)
  | _ => some (file [] cs)

/-- Authority and path of a URL, given what stands between the scheme and the query. -/
def body? (scheme : List Char) (cs : List Char) : Option (Option Authority × Path) :=
  if scheme == "file".toList then
    (fileBody? cs).map fun (a, p) => (some a, p)
  else if isSpecialScheme scheme then do
    let (auth, path) := cut (isSlash true) (cs.dropWhile (isSlash true))
    let a ← authority? scheme auth
    some (some a, .segments (segmentsOf true (dropSlash true path)))
  else
    match cs with
    | '/' :: '/' :: rest => do
      let (auth, path) := cut (· == '/') rest
      let a ← authority? scheme auth
      some (some a, .segments (if path.isEmpty then [] else segmentsOf false (path.drop 1)))
    | '/' :: rest => some (none, .segments (segmentsOf false rest))
    | _ => some (none, .opaqueText (encode isControl cs))

/-- Reads an absolute URL. -/
def parseChars? (cs : List Char) : Option Url := do
  let (scheme, rest) ← scheme? (clean cs)
  let (front, fragment) := cut (· == '#') rest
  let (body, query) := cut (· == '?') front
  let (authority, path) ← body? scheme body
  let queryEncoding := if isSpecialScheme scheme then specialQuerySet else querySet
  some {
    scheme, authority, path
    query := if query.isEmpty then none else some (encode queryEncoding (query.drop 1))
    fragment := if fragment.isEmpty then none else some (encode fragmentSet (fragment.drop 1)) }

/-- Reads an absolute URL. -/
def parse? (s : String) : Option Url := parseChars? s.toList

end PolyglotLsp.Url
