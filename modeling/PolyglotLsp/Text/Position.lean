/-!
# Positions and byte offsets

An editor addresses text by line and column, where lines end at a newline and columns count UTF-16
code units; everything else counts bytes of UTF-8. This module converts between the two on one text,
given as its list of characters.

A position past the end of its line stands for the line's end, and one between the two units of a
surrogate pair for the end of that character. An offset inside a character stands for the
character's start.
-/

namespace PolyglotLsp

/-- A line number and a column in UTF-16 code units, both from zero. -/
structure Position where
  line : Nat
  character : Nat
  deriving DecidableEq, Repr, Inhabited

/-- Two positions, usually in order. -/
structure Range where
  start : Position
  stop : Position
  deriving DecidableEq, Repr, Inhabited

namespace Text

/-- How many UTF-16 code units a character takes. -/
def units (c : Char) : Nat := if c.val < 0x10000 then 1 else 2

/-- How many bytes of UTF-8 a text takes. -/
def byteLength (cs : List Char) : Nat := cs.foldl (fun n c => n + c.utf8Size) 0

/-- The byte offsets at which lines begin. -/
def lineStarts (cs : List Char) : List Nat :=
  go cs 0 [0]
where
  go : List Char → Nat → List Nat → List Nat
    | [], _, acc => acc.reverse
    | c :: rest, offset, acc =>
      let next := offset + c.utf8Size
      go rest next (if c = '\n' then next :: acc else acc)

/-- The text after the first `n` newlines, with the byte offset at which it begins. -/
def dropLines (cs : List Char) (n : Nat) (offset : Nat) : Option (Nat × List Char) :=
  match n, cs with
  | 0, cs => some (offset, cs)
  | _ + 1, [] => none
  | n + 1, c :: rest =>
    if c = '\n' then dropLines rest n (offset + c.utf8Size)
    else dropLines rest (n + 1) (offset + c.utf8Size)
termination_by cs.length

/-- Bytes from the start of a line to its first character boundary at or after `column`, or to the
end of the line. -/
def columnBytes : List Char → Nat → Nat
  | [], _ => 0
  | c :: rest, column =>
    if column = 0 ∨ c = '\n' then 0 else c.utf8Size + columnBytes rest (column - units c)

/-- The byte offset of a position; `none` past the last line. -/
def offsetOf (cs : List Char) (p : Position) : Option Nat :=
  (dropLines cs p.line 0).map fun (start, rest) => start + columnBytes rest p.character

/-- The position of the last character boundary at or before a byte offset, counting from `origin`.
-/
def positionFrom (origin : Position) : List Char → Nat → Option Position
  | [], offset => if offset = 0 then some origin else none
  | c :: rest, offset =>
    if offset < c.utf8Size then some origin
    else
      let next : Position :=
        if c = '\n' then ⟨origin.line + 1, 0⟩ else ⟨origin.line, origin.character + units c⟩
      positionFrom next rest (offset - c.utf8Size)

/-- The position of a byte offset; `none` past the end of the text. -/
def positionOf (cs : List Char) (offset : Nat) : Option Position :=
  positionFrom ⟨0, 0⟩ cs offset

/-- The byte offsets of a range, in order. -/
def offsetsOf (cs : List Char) (r : Range) : Option (Nat × Nat) := do
  let a ← offsetOf cs r.start
  let b ← offsetOf cs r.stop
  some (min a b, max a b)

/-- Bytes of a single line before its first character boundary at or after `column` units; `none` if
the line has fewer units. -/
def lineBytesOfUnits : List Char → Nat → Option Nat
  | _, 0 => some 0
  | [], _ + 1 => none
  | [c], column + 1 => if column + 1 = units c then some c.utf8Size else none
  | c :: d :: rest, column + 1 =>
    (lineBytesOfUnits (d :: rest) (column + 1 - units c)).map (c.utf8Size + ·)

/-- Units of a single line before a byte offset; `none` inside a character and past the end. -/
def lineUnitsOfBytes : List Char → Nat → Option Nat
  | _, 0 => some 0
  | [], _ + 1 => none
  | c :: rest, offset + 1 =>
    if offset + 1 < c.utf8Size then none
    else (lineUnitsOfBytes rest (offset + 1 - c.utf8Size)).map (units c + ·)

/-- Splits a text at a byte offset; `none` inside a character and past the end. -/
def splitAt? : List Char → Nat → Option (List Char × List Char)
  | cs, 0 => some ([], cs)
  | [], _ + 1 => none
  | c :: rest, offset + 1 =>
    if offset + 1 < c.utf8Size then none
    else (splitAt? rest (offset + 1 - c.utf8Size)).map fun (a, b) => (c :: a, b)

/-- Whether a byte offset lies between two characters, or at either end of the text. -/
def isBoundary (cs : List Char) (offset : Nat) : Bool := (splitAt? cs offset).isSome

/-- Replaces the bytes from `start` to `stop`; `none` unless both are boundaries in order. -/
def replace? (cs : List Char) (start stop : Nat) (new : List Char) : Option (List Char) := do
  let (before, rest) ← splitAt? cs start
  let (_, after) ← splitAt? rest (stop - start)
  if start ≤ stop then some (before ++ new ++ after) else none

end Text

end PolyglotLsp
