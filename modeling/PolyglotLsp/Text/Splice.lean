import PolyglotLsp.Error
import PolyglotLsp.Text.Position

/-!
# Splicing a text

A regeneration lists replacements by byte offsets of the text before it. They are applied from the
end of the text towards its start, so that offsets stay valid, and must not overlap.
-/

namespace PolyglotLsp

/-- One replacement in bytes of the text before the change. -/
structure TextChange where
  start : Nat
  length : Nat
  newText : String
  deriving DecidableEq, Repr, Inhabited

namespace TextChange

def stop (c : TextChange) : Nat := c.start + c.length

/-- Offsets are words of 64 bits. -/
def offsetLimit : Nat := 18446744073709551616

/-- The changes from the last start to the first; equal starts keep their order. -/
def descending (changes : List TextChange) : List TextChange :=
  changes.mergeSort fun a b => decide (b.start ≤ a.start)

/-- Why one change cannot be applied below `bound` to a text. -/
def fault? (text : List Char) (bound : Nat) (c : TextChange) : Option RouterError :=
  if offsetLimit ≤ c.stop then some (.invalidEdit "span length overflows")
  else if bound < c.stop then
    some (.invalidEdit ("change " ++ toString c.start ++ ".." ++ toString c.stop ++
      " overlaps or exceeds " ++ toString bound))
  else if !Text.isBoundary text c.start || !Text.isBoundary text c.stop then
    some (.invalidEdit ("change " ++ toString c.start ++ ".." ++ toString c.stop ++
      " splits a character"))
  else none

/-- Applies changes given from the last to the first. `result` is the text so far, which agrees with
`text` before `bound`. -/
def spliceFrom (text : List Char) (bound : Nat) (result : List Char) :
    List TextChange → Except RouterError (List Char)
  | [] => .ok result
  | c :: rest =>
    match fault? text bound c with
    | some e => .error e
    | none =>
      match Text.replace? result c.start c.stop c.newText.toList with
      | some next => spliceFrom text c.start next rest
      | none => .error (.internal "splice outside of the text")

/-- Applies changes to a text, or says which is at fault. -/
def splice (text : String) (changes : List TextChange) : Except RouterError String :=
  (spliceFrom text.toList (Text.byteLength text.toList) text.toList (descending changes)).map
    String.ofList

end TextChange

end PolyglotLsp
