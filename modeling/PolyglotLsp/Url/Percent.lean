import PolyglotLsp.Text.Utf8

/-!
# Percent-encoding

A component of a URL writes some characters as the bytes of their UTF-8 form, each as `%` and two
upper-case hexadecimal digits. Which characters are written so depends on the component; the sets
are predicates on ASCII characters, and every other character is always encoded.
-/

namespace PolyglotLsp.Url

def upperHex (n : UInt8) : Char :=
  if n < 10 then Char.ofNat (48 + n.toNat) else Char.ofNat (55 + n.toNat)

/-- The value of a hexadecimal digit of either case. -/
def hexValue? (c : Char) : Option UInt8 :=
  if '0' ≤ c ∧ c ≤ '9' then some (c.toNat - 48).toUInt8
  else if 'A' ≤ c ∧ c ≤ 'F' then some (c.toNat - 55).toUInt8
  else if 'a' ≤ c ∧ c ≤ 'f' then some (c.toNat - 87).toUInt8
  else none

/-- One byte as `%XX`. -/
def escapeByte (b : UInt8) : List Char := ['%', upperHex (b / 16), upperHex (b % 16)]

/-- Encodes the characters of a set and all characters outside ASCII. -/
def encodeChar (set : Char → Bool) (c : Char) : List Char :=
  if c.val < 128 && !set c then [c] else (String.utf8EncodeChar c).flatMap escapeByte

def encode (set : Char → Bool) (cs : List Char) : List Char := cs.flatMap (encodeChar set)

/-- The bytes that a text stands for: `%` with two hexadecimal digits is one byte, everything else
is its own UTF-8 form. -/
def decodeBytes : List Char → List UInt8
  | '%' :: a :: b :: rest =>
    match hexValue? a, hexValue? b with
    | some x, some y => (x * 16 + y) :: decodeBytes rest
    | _, _ => 0x25 :: decodeBytes (a :: b :: rest)
  | c :: rest => String.utf8EncodeChar c ++ decodeBytes rest
  | [] => []

/-- The text that an encoded text stands for, with replacements for what is not UTF-8. -/
def decode (cs : List Char) : List Char := Text.decodeLossy (decodeBytes cs)

/-! ## The sets -/

def isControl (c : Char) : Bool := c.val < 32 || c.val == 127

def fragmentSet (c : Char) : Bool :=
  isControl c || c == ' ' || c == '"' || c == '<' || c == '>' || c.val == 96

def querySet (c : Char) : Bool :=
  isControl c || c == ' ' || c == '"' || c == '#' || c == '<' || c == '>'

def specialQuerySet (c : Char) : Bool := querySet c || c.val == 39

def pathSet (c : Char) : Bool :=
  fragmentSet c || c == '#' || c == '?' || c.val == 123 || c.val == 125

def userinfoSet (c : Char) : Bool :=
  pathSet c || c == '/' || c == ':' || c == ';' || c == '=' || c == '@' || c == '[' || c == '\\' ||
    c == ']' || c == '^' || c == '|'

/-- What a path segment encodes beyond `pathSet` when it is written as data. -/
def segmentSet (special : Bool) (c : Char) : Bool :=
  pathSet c || c == '/' || c == '%' || (special && c == '\\')

/-- Everything but ASCII letters and digits. -/
def nonAlphanumericSet (c : Char) : Bool := !c.isAlphanum

end PolyglotLsp.Url
