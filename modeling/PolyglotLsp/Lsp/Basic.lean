import PolyglotLsp.Json.Decode
import PolyglotLsp.Language
import PolyglotLsp.Text.Position
import PolyglotLsp.Uri

/-!
# Places and edits

The types of the protocol that name places in documents, with their JSON forms.
-/

namespace PolyglotLsp

open Json (field optField)

/-- A range of a document. -/
structure Location where
  uri : Uri
  range : Range
  deriving DecidableEq

/-- A range of a document with the part of it to select, and the range it is linked from. -/
structure LocationLink where
  origin : Option Range
  targetUri : Uri
  targetRange : Range
  targetSelectionRange : Range
  deriving DecidableEq

/-- A replacement of one range. -/
structure TextEdit where
  range : Range
  newText : String
  deriving DecidableEq, Repr, Inhabited

namespace Uri

def toJson (u : Uri) : Json := .str u.text

def ofJson? (j : Json) : Option Uri := j.asString?.bind parse?

end Uri

namespace Url

def toJson (u : Url) : Json := .str u.text

def ofJson? (j : Json) : Option Url := j.asString?.bind parse?

end Url

namespace Position

def toJson (p : Position) : Json :=
  .obj [("line", .nat p.line), ("character", .nat p.character)]

def ofJson? (j : Json) : Option Position := do
  let j ← j.record? ["line", "character"]
  let line ← j.req "line" Json.asUInt32?
  let character ← j.req "character" Json.asUInt32?
  some { line, character }

end Position

namespace Range

def toJson (r : Range) : Json := .obj [("start", r.start.toJson), ("end", r.stop.toJson)]

def ofJson? (j : Json) : Option Range := do
  let j ← j.record? ["start", "end"]
  let start ← j.req "start" Position.ofJson?
  let stop ← j.req "end" Position.ofJson?
  some { start, stop }

/-- The empty range at the start of a document. -/
def zero : Range := ⟨⟨0, 0⟩, ⟨0, 0⟩⟩

end Range

namespace Location

def toJson (l : Location) : Json := .obj [("uri", l.uri.toJson), ("range", l.range.toJson)]

def ofJson? (j : Json) : Option Location := do
  let j ← j.record? ["uri", "range"]
  let uri ← j.req "uri" Uri.ofJson?
  let range ← j.req "range" Range.ofJson?
  some { uri, range }

end Location

namespace LocationLink

def toJson (l : LocationLink) : Json :=
  Json.object [
    optField "originSelectionRange" Range.toJson l.origin,
    field "targetUri" l.targetUri.toJson,
    field "targetRange" l.targetRange.toJson,
    field "targetSelectionRange" l.targetSelectionRange.toJson]

def ofJson? (j : Json) : Option LocationLink := do
  let j ← j.record?
    ["originSelectionRange", "targetUri", "targetRange", "targetSelectionRange"]
  let origin ← j.opt "originSelectionRange" Range.ofJson?
  let targetUri ← j.req "targetUri" Uri.ofJson?
  let targetRange ← j.req "targetRange" Range.ofJson?
  let targetSelectionRange ← j.req "targetSelectionRange" Range.ofJson?
  some { origin, targetUri, targetRange, targetSelectionRange }

end LocationLink

namespace TextEdit

def toJson (e : TextEdit) : Json :=
  .obj [("range", e.range.toJson), ("newText", .str e.newText)]

def ofJson? (j : Json) : Option TextEdit := do
  let j ← j.record? ["range", "newText"]
  let range ← j.req "range" Range.ofJson?
  let newText ← j.req "newText" Json.asString?
  some { range, newText }

end TextEdit

/-- A progress token. -/
inductive Token where
  | number (value : Int)
  | text (value : String)
  deriving DecidableEq, Repr, Inhabited

namespace Token

def toJson : Token → Json
  | .number n => .int n
  | .text s => .str s

def ofJson? (j : Json) : Option Token :=
  match j with
  | .str s => some (.text s)
  | j => j.asInt32?.map .number

end Token

namespace Language

def toJson (l : Language) : Json := .str l.id

/-- A language is written as its identifier. It may also be read as the only member of an object,
which is `null` then. -/
def ofJson? : Json → Option Language
  | .str name => ofId? name
  | .obj [(name, .null)] => ofId? name
  | _ => none

end Language

end PolyglotLsp
