/-!
# UTF-8 with replacement

Bytes that are not UTF-8 are read as U+FFFD, one for every longest stretch that some well-formed
sequence begins with, and one for every byte that begins none.
-/

namespace PolyglotLsp.Text

/-- The bytes of a text. -/
def utf8Bytes (cs : List Char) : List UInt8 := cs.flatMap String.utf8EncodeChar

/-- U+FFFD, which stands for bytes that are no character. -/
def replacement : Char := Char.ofNat 0xFFFD

def isContinuation (b : UInt8) : Bool := 0x80 ≤ b && b ≤ 0xBF

/-- How many bytes follow a lead byte, and between which bounds the first of them lies. -/
def leadShape (b : UInt8) : Option (Nat × UInt8 × UInt8) :=
  if 0xC2 ≤ b && b ≤ 0xDF then some (1, 0x80, 0xBF)
  else if b == 0xE0 then some (2, 0xA0, 0xBF)
  else if b == 0xED then some (2, 0x80, 0x9F)
  else if 0xE1 ≤ b && b ≤ 0xEF then some (2, 0x80, 0xBF)
  else if b == 0xF0 then some (3, 0x90, 0xBF)
  else if 0xF1 ≤ b && b ≤ 0xF3 then some (3, 0x80, 0xBF)
  else if b == 0xF4 then some (3, 0x80, 0x8F)
  else none

/-- The longest run of at most `n` continuation bytes. -/
def continuations : Nat → List UInt8 → List UInt8
  | 0, _ => []
  | _ + 1, [] => []
  | n + 1, b :: rest => if isContinuation b then b :: continuations n rest else []

/-- The continuation bytes that a lead byte of this shape can take from the front of a list. -/
def followers (count : Nat) (lo hi : UInt8) : List UInt8 → List UInt8
  | [] => []
  | b :: rest => if lo ≤ b && b ≤ hi then b :: continuations (count - 1) rest else []

/-- The code point of a lead byte with all its continuation bytes. -/
def codePoint (lead : UInt8) (tail : List UInt8) : Nat :=
  let high :=
    match tail.length with
    | 1 => lead.toNat % 32
    | 2 => lead.toNat % 16
    | _ => lead.toNat % 8
  tail.foldl (fun n b => n * 64 + b.toNat % 64) high

/-- The first character of a byte sequence and how many further bytes it takes. -/
def decodeFirst (lead : UInt8) (rest : List UInt8) : Char × Nat :=
  if lead < 0x80 then (Char.ofNat lead.toNat, 0)
  else
    match leadShape lead with
    | none => (replacement, 0)
    | some (count, lo, hi) =>
      let tail := followers count lo hi rest
      if tail.length = count then (Char.ofNat (codePoint lead tail), count)
      else (replacement, tail.length)

/-- Reads bytes as UTF-8, with replacements. -/
def decodeLossy : List UInt8 → List Char
  | [] => []
  | lead :: rest =>
    let first := decodeFirst lead rest
    first.1 :: decodeLossy (rest.drop first.2)
termination_by bytes => bytes.length

/-- Reads bytes as UTF-8; `none` if any byte needs a replacement. -/
def decode? (bytes : List UInt8) : Option (List Char) :=
  let cs := decodeLossy bytes
  if utf8Bytes cs = bytes then some cs else none

end PolyglotLsp.Text
