import PolyglotLsp.Lsp.Basic
import PolyglotLsp.Markup.Completion

/-!
# Completion lists

Completion items and lists in the protocol's form.
-/

namespace PolyglotLsp

open Json (field optField)

/-- Text with or without markup. -/
structure MarkupContent where
  isMarkdown : Bool
  value : String
  deriving DecidableEq, Repr, Inhabited

namespace MarkupContent

def toJson (m : MarkupContent) : Json :=
  .obj [("kind", .str (if m.isMarkdown then "markdown" else "plaintext")), ("value", .str m.value)]

def ofJson? (j : Json) : Option MarkupContent := do
  let j ← j.record? ["kind", "value"]
  let isMarkdown ← j.req "kind" fun k =>
    match k with
    | .str "markdown" => some true
    | .str "plaintext" => some false
    | _ => none
  let value ← j.req "value" Json.asString?
  some { isMarkdown, value }

end MarkupContent

inductive Documentation where
  | text (value : String)
  | markup (value : MarkupContent)
  deriving DecidableEq, Repr, Inhabited

namespace Documentation

def toJson : Documentation → Json
  | .text s => .str s
  | .markup m => m.toJson

def ofJson? (j : Json) : Option Documentation :=
  match j with
  | .str s => some (.text s)
  | j => (MarkupContent.ofJson? j).map .markup

end Documentation

/-- The edit of an item: one range, or one to insert at and one to replace. -/
inductive ItemEdit where
  | edit (edit : TextEdit)
  | insertReplace (newText : String) (insert replace : Range)
  deriving DecidableEq, Repr, Inhabited

namespace ItemEdit

def newText : ItemEdit → String
  | .edit e => e.newText
  | .insertReplace t _ _ => t

/-- The ranges of an edit. -/
def ranges : ItemEdit → List Range
  | .edit e => [e.range]
  | .insertReplace _ insert replace => [insert, replace]

def toJson : ItemEdit → Json
  | .edit e => e.toJson
  | .insertReplace newText insert replace =>
    .obj [("newText", .str newText), ("insert", insert.toJson), ("replace", replace.toJson)]

def ofJson? (j : Json) : Option ItemEdit :=
  match TextEdit.ofJson? j with
  | some e => some (.edit e)
  | none => do
    let j ← j.record? ["newText", "insert", "replace"]
    let newText ← j.req "newText" Json.asString?
    let insert ← j.req "insert" Range.ofJson?
    let replace ← j.req "replace" Range.ofJson?
    some (.insertReplace newText insert replace)

end ItemEdit

structure LabelDetails where
  detail : Option String
  description : Option String
  deriving DecidableEq, Repr, Inhabited

namespace LabelDetails

def toJson (d : LabelDetails) : Json :=
  Json.object [optField "detail" Json.str d.detail, optField "description" Json.str d.description]

def ofJson? (j : Json) : Option LabelDetails := do
  let j ← j.record? ["detail", "description"]
  let detail ← j.opt "detail" Json.asString?
  let description ← j.opt "description" Json.asString?
  some { detail, description }

end LabelDetails

/-- Something the editor can do on the user's behalf. -/
structure Command where
  title : String
  command : String
  arguments : Option (List Json)
  deriving Inhabited

namespace Command

def toJson (c : Command) : Json :=
  Json.object [
    field "title" (.str c.title),
    field "command" (.str c.command),
    optField "arguments" Json.arr c.arguments]

def ofJson? (j : Json) : Option Command := do
  let j ← j.record? ["title", "command", "arguments"]
  let title ← j.req "title" Json.asString?
  let command ← j.req "command" Json.asString?
  let arguments ← j.opt "arguments" Json.asList?
  some { title, command, arguments }

end Command

/-- One entry of a completion list. -/
structure CompletionItem where
  label : String
  labelDetails : Option LabelDetails
  kind : Option Int
  detail : Option String
  documentation : Option Documentation
  deprecated : Option Bool
  preselect : Option Bool
  sortText : Option String
  filterText : Option String
  insertText : Option String
  insertTextFormat : Option Int
  insertTextMode : Option Int
  textEdit : Option ItemEdit
  additionalTextEdits : Option (List TextEdit)
  command : Option Command
  commitCharacters : Option (List String)
  data : Option Json
  tags : Option (List Int)
  deriving Inhabited

namespace CompletionItem

def names : List String :=
  ["label", "labelDetails", "kind", "detail", "documentation", "deprecated", "preselect",
    "sortText", "filterText", "insertText", "insertTextFormat", "insertTextMode", "textEdit",
    "additionalTextEdits", "command", "commitCharacters", "data", "tags"]

def toJson (i : CompletionItem) : Json :=
  Json.object [
    field "label" (.str i.label),
    optField "labelDetails" LabelDetails.toJson i.labelDetails,
    optField "kind" Json.int i.kind,
    optField "detail" Json.str i.detail,
    optField "documentation" Documentation.toJson i.documentation,
    optField "deprecated" Json.bool i.deprecated,
    optField "preselect" Json.bool i.preselect,
    optField "sortText" Json.str i.sortText,
    optField "filterText" Json.str i.filterText,
    optField "insertText" Json.str i.insertText,
    optField "insertTextFormat" Json.int i.insertTextFormat,
    optField "insertTextMode" Json.int i.insertTextMode,
    optField "textEdit" ItemEdit.toJson i.textEdit,
    optField "additionalTextEdits" (Json.list TextEdit.toJson) i.additionalTextEdits,
    optField "command" Command.toJson i.command,
    optField "commitCharacters" (Json.list Json.str) i.commitCharacters,
    optField "data" id i.data,
    optField "tags" (Json.list Json.int) i.tags]

def ofJson? (j : Json) : Option CompletionItem := do
  let j ← j.record? names
  let label ← j.req "label" Json.asString?
  let labelDetails ← j.opt "labelDetails" LabelDetails.ofJson?
  let kind ← j.opt "kind" Json.asInt32?
  let detail ← j.opt "detail" Json.asString?
  let documentation ← j.opt "documentation" Documentation.ofJson?
  let deprecated ← j.opt "deprecated" Json.asBool?
  let preselect ← j.opt "preselect" Json.asBool?
  let sortText ← j.opt "sortText" Json.asString?
  let filterText ← j.opt "filterText" Json.asString?
  let insertText ← j.opt "insertText" Json.asString?
  let insertTextFormat ← j.opt "insertTextFormat" Json.asInt32?
  let insertTextMode ← j.opt "insertTextMode" Json.asInt32?
  let textEdit ← j.opt "textEdit" ItemEdit.ofJson?
  let additionalTextEdits ← j.opt "additionalTextEdits" (Json.listOf TextEdit.ofJson?)
  let command ← j.opt "command" Command.ofJson?
  let commitCharacters ← j.opt "commitCharacters" (Json.listOf Json.asString?)
  let data ← j.opt "data" Json.any?
  let tags ← j.opt "tags" (Json.listOf Json.asInt32?)
  some {
    label, labelDetails, kind, detail, documentation, deprecated, preselect, sortText, filterText
    insertText, insertTextFormat, insertTextMode, textEdit, additionalTextEdits, command
    commitCharacters, data, tags }

/-- An item with nothing but a label. -/
def ofLabel (label : String) : CompletionItem where
  label := label
  labelDetails := none
  kind := none
  detail := none
  documentation := none
  deprecated := none
  preselect := none
  sortText := none
  filterText := none
  insertText := none
  insertTextFormat := none
  insertTextMode := none
  textEdit := none
  additionalTextEdits := none
  command := none
  commitCharacters := none
  data := none
  tags := none

end CompletionItem

/-- An item of the markup's own completion in the protocol's form. -/
def Markup.Item.toCompletionItem (i : Markup.Item) : CompletionItem :=
  { CompletionItem.ofLabel i.display with
    kind := some (if i.kind = .element then 25 else 10)
    documentation :=
      if i.documentation.isEmpty then none else some (.text ("\n\n".intercalate i.documentation))
    insertText := some i.insert
    insertTextFormat := some (if i.isSnippet then 2 else 1)
    commitCharacters := if i.commit.isEmpty then none else some i.commit }

structure CompletionList where
  isIncomplete : Bool
  items : List CompletionItem
  deriving Inhabited

namespace CompletionList

def toJson (l : CompletionList) : Json :=
  .obj [("isIncomplete", .bool l.isIncomplete), ("items", Json.list CompletionItem.toJson l.items)]

/-- A server answers with a list, or with its items alone, which are then complete. -/
def ofResponse? (j : Json) : Option CompletionList :=
  match Json.listOf CompletionItem.ofJson? j with
  | some items => some ⟨false, items⟩
  | none => do
    let j ← j.record? ["isIncomplete", "items"]
    let isIncomplete ← j.req "isIncomplete" Json.asBool?
    let items ← j.req "items" (Json.listOf CompletionItem.ofJson?)
    some { isIncomplete, items }

end CompletionList

end PolyglotLsp
