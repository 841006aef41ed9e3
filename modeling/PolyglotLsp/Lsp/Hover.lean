import PolyglotLsp.Lsp.Completion

/-!
# Hovers, highlights and linked ranges
-/

namespace PolyglotLsp

open Json (field optField)

/-- A plain string, or code in a language. -/
inductive MarkedText where
  | text (value : String)
  | code (language value : String)
  deriving DecidableEq, Repr, Inhabited

namespace MarkedText

def toJson : MarkedText → Json
  | .text s => .str s
  | .code language value => .obj [("language", .str language), ("value", .str value)]

def ofJson? (j : Json) : Option MarkedText :=
  match j with
  | .str s => some (.text s)
  | j => do
    let j ← j.record? ["language", "value"]
    let language ← j.req "language" Json.asString?
    let value ← j.req "value" Json.asString?
    some (.code language value)

end MarkedText

inductive HoverContents where
  | scalar (text : MarkedText)
  | list (texts : List MarkedText)
  | markup (content : MarkupContent)
  deriving DecidableEq, Repr, Inhabited

namespace HoverContents

def toJson : HoverContents → Json
  | .scalar t => t.toJson
  | .list ts => Json.list MarkedText.toJson ts
  | .markup m => m.toJson

def ofJson? (j : Json) : Option HoverContents :=
  ((MarkedText.ofJson? j).map .scalar) <|> ((Json.listOf MarkedText.ofJson? j).map .list) <|>
    ((MarkupContent.ofJson? j).map .markup)

end HoverContents

structure Hover where
  contents : HoverContents
  range : Option Range
  deriving DecidableEq, Repr, Inhabited

namespace Hover

def toJson (h : Hover) : Json :=
  Json.object [field "contents" h.contents.toJson, optField "range" Range.toJson h.range]

def ofJson? (j : Json) : Option Hover := do
  let j ← j.record? ["contents", "range"]
  let contents ← j.req "contents" HoverContents.ofJson?
  let range ← j.opt "range" Range.ofJson?
  some { contents, range }

end Hover

structure DocumentHighlight where
  range : Range
  kind : Option Int
  deriving DecidableEq, Repr, Inhabited

namespace DocumentHighlight

def toJson (h : DocumentHighlight) : Json :=
  Json.object [field "range" h.range.toJson, optField "kind" Json.int h.kind]

def ofJson? (j : Json) : Option DocumentHighlight := do
  let j ← j.record? ["range", "kind"]
  let range ← j.req "range" Range.ofJson?
  let kind ← j.opt "kind" Json.asInt32?
  some { range, kind }

end DocumentHighlight

structure LinkedEditingRanges where
  ranges : List Range
  wordPattern : Option String
  deriving DecidableEq, Repr, Inhabited

namespace LinkedEditingRanges

def toJson (l : LinkedEditingRanges) : Json :=
  Json.object [
    field "ranges" (Json.list Range.toJson l.ranges),
    optField "wordPattern" Json.str l.wordPattern]

def ofJson? (j : Json) : Option LinkedEditingRanges := do
  let j ← j.record? ["ranges", "wordPattern"]
  let ranges ← j.req "ranges" (Json.listOf Range.ofJson?)
  let wordPattern ← j.opt "wordPattern" Json.asString?
  some { ranges, wordPattern }

end LinkedEditingRanges

/-- The answer to a request for a definition. -/
inductive Definition where
  | scalar (location : Location)
  | locations (locations : List Location)
  | links (links : List LocationLink)

namespace Definition

def toJson : Definition → Json
  | .scalar l => l.toJson
  | .locations ls => Json.list Location.toJson ls
  | .links ls => Json.list LocationLink.toJson ls

def ofJson? (j : Json) : Option Definition :=
  ((Location.ofJson? j).map .scalar) <|> ((Json.listOf Location.ofJson? j).map .locations) <|>
    ((Json.listOf LocationLink.ofJson? j).map .links)

end Definition

end PolyglotLsp
