import PolyglotLsp.Document.Snapshot
import PolyglotLsp.Lsp.Basic
import PolyglotLsp.Markup.Completion

/-!
# What the host language's services say

The router does not know the host language itself. A classifier says which language a position
belongs to and where it lies in that language's virtual document; a mapping service takes ranges and
edits of a virtual document back to the host; a document service gives the host's markup. Answers
carry the host version they were computed for, which the router checks before it uses them.
-/

namespace PolyglotLsp

open Json (field optField)

/-- Where a host position lies. -/
structure Classification where
  language : Language
  position : Position
  hostVersion : Option Int
  deriving DecidableEq, Repr

/-- Ranges taken back to the host, in the order they were asked for; `none` for one that has no
place there. -/
structure MappedRanges where
  ranges : List (Option Range)
  hostVersion : Option Int
  deriving DecidableEq, Repr

/-- Edits taken back to the host, perhaps fewer than were given. -/
structure RemappedEdits where
  edits : List TextEdit
  hostVersion : Option Int
  deriving DecidableEq, Repr

/-- A host document's markup and tag helpers at a version. -/
structure DocumentContext where
  tree : Markup.Node
  helpers : Markup.TagHelpers
  hostVersion : Int
  deriving Repr

/-- The value of a formatting option that has no name of its own. -/
inductive FormattingValue where
  | flag (value : Bool)
  | number (value : Int)
  | text (value : String)
  deriving DecidableEq, Repr, Inhabited

structure FormattingOptions where
  tabSize : Nat
  insertSpaces : Bool
  trimTrailingWhitespace : Option Bool
  insertFinalNewline : Option Bool
  trimFinalNewlines : Option Bool
  others : List (String × FormattingValue)
  deriving DecidableEq, Repr, Inhabited

namespace Classification

def toJson (c : Classification) : Json :=
  .obj [
    ("kind", c.language.toJson), ("position", c.position.toJson),
    ("hostDocumentVersion", Json.ofOption Json.int c.hostVersion)]

def ofJson? (j : Json) : Option Classification := do
  let j ← j.partialRecord? ["kind", "position", "hostDocumentVersion"]
  let language ← j.req "kind" Language.ofJson?
  let position ← j.req "position" Position.ofJson?
  let hostVersion ← j.opt "hostDocumentVersion" Json.asInt32?
  some { language, position, hostVersion }

end Classification

namespace MappedRanges

def toJson (m : MappedRanges) : Json :=
  .obj [
    ("ranges", Json.list (Json.ofOption Range.toJson) m.ranges),
    ("hostDocumentVersion", Json.ofOption Json.int m.hostVersion)]

def ofJson? (j : Json) : Option MappedRanges := do
  let j ← j.partialRecord? ["ranges", "hostDocumentVersion"]
  let ranges ← j.req "ranges" (Json.listOf (Json.maybe Range.ofJson?))
  let hostVersion ← j.opt "hostDocumentVersion" Json.asInt32?
  some { ranges, hostVersion }

end MappedRanges

namespace RemappedEdits

def toJson (r : RemappedEdits) : Json :=
  .obj [
    ("edits", Json.list TextEdit.toJson r.edits),
    ("hostDocumentVersion", Json.ofOption Json.int r.hostVersion)]

def ofJson? (j : Json) : Option RemappedEdits := do
  let j ← j.partialRecord? ["edits", "hostDocumentVersion"]
  let edits ← j.req "edits" (Json.listOf TextEdit.ofJson?)
  let hostVersion ← j.opt "hostDocumentVersion" Json.asInt32?
  some { edits, hostVersion }

end RemappedEdits

namespace TextChange

def toJson (c : TextChange) : Json :=
  .obj [
    ("spanStart", .nat c.start), ("spanLength", .nat c.length), ("newText", .str c.newText)]

def ofJson? (j : Json) : Option TextChange := do
  let j ← j.record? ["spanStart", "spanLength", "newText"]
  let start ← j.req "spanStart" Json.asUInt64?
  let length ← j.req "spanLength" Json.asUInt64?
  let newText ← j.req "newText" Json.asString?
  some { start, length, newText }

end TextChange

namespace Regeneration

def toJson (r : Regeneration) : Json :=
  .obj [
    ("hostDocumentUri", r.host.toJson), ("kind", r.language.toJson),
    ("hostDocumentVersion", .int r.hostVersion),
    ("changes", Json.list TextChange.toJson r.changes)]

/-- Changes may be left out, which means none. -/
def ofJson? (j : Json) : Option Regeneration := do
  let j ← j.partialRecord? ["hostDocumentUri", "kind", "hostDocumentVersion", "changes"]
  let host ← j.req "hostDocumentUri" Url.ofJson?
  let language ← j.req "kind" Language.ofJson?
  let hostVersion ← j.req "hostDocumentVersion" Json.asInt32?
  let changes ←
    if j.has "changes" then j.req "changes" (Json.listOf TextChange.ofJson?) else some []
  some { host, language, hostVersion, changes }

end Regeneration

namespace ContentChange

def ofJson? (j : Json) : Option ContentChange := do
  let j ← j.record? ["range", "rangeLength", "text"]
  let range ← j.opt "range" Range.ofJson?
  let rangeLength ← j.opt "rangeLength" Json.asUInt32?
  let text ← j.req "text" Json.asString?
  some { range, rangeLength, text }

end ContentChange

namespace FormattingValue

def toJson : FormattingValue → Json
  | .flag b => .bool b
  | .number n => .int n
  | .text s => .str s

def ofJson? (j : Json) : Option FormattingValue :=
  match j with
  | .bool b => some (.flag b)
  | .str s => some (.text s)
  | j => j.asInt32?.map .number

end FormattingValue

namespace FormattingOptions

/-- The options with names of their own. -/
def names : List String :=
  ["tabSize", "insertSpaces", "trimTrailingWhitespace", "insertFinalNewline", "trimFinalNewlines"]

def toJson (o : FormattingOptions) : Json :=
  Json.object ([
    field "tabSize" (.nat o.tabSize),
    field "insertSpaces" (.bool o.insertSpaces),
    optField "trimTrailingWhitespace" Json.bool o.trimTrailingWhitespace,
    optField "insertFinalNewline" Json.bool o.insertFinalNewline,
    optField "trimFinalNewlines" Json.bool o.trimFinalNewlines] ++
    o.others.map fun (k, v) => field k v.toJson)

def ofJson? (j : Json) : Option FormattingOptions := do
  let members ← j.asMembers?
  let tabSize ← j.req "tabSize" Json.asUInt32?
  let insertSpaces ← j.req "insertSpaces" Json.asBool?
  let trimTrailingWhitespace ← j.opt "trimTrailingWhitespace" Json.asBool?
  let insertFinalNewline ← j.opt "insertFinalNewline" Json.asBool?
  let trimFinalNewlines ← j.opt "trimFinalNewlines" Json.asBool?
  let others ← (members.filter fun m => !names.contains m.1).mapM fun (k, v) => do
    let v ← FormattingValue.ofJson? v
    some (k, v)
  some {
    tabSize, insertSpaces, trimTrailingWhitespace, insertFinalNewline, trimFinalNewlines, others }

end FormattingOptions

namespace ResponseError

def toJson (e : ResponseError) : Json :=
  Json.object [
    field "code" (.int e.code), field "message" (.str e.message), optField "data" id e.data]

def ofJson? (j : Json) : Option ResponseError := do
  let j ← j.record? ["code", "message", "data"]
  let code ← j.req "code" Json.asInt32?
  let message ← j.req "message" Json.asString?
  let data ← j.opt "data" Json.any?
  some { code, message, data }

end ResponseError

end PolyglotLsp
