import PolyglotLsp.Lsp.Services

/-!
# Parameters of requests

What the editor sends with each request and notification. Requests about a position are forwarded to
backing servers with document and position replaced and everything else as it came.
-/

namespace PolyglotLsp

open Json (field optField)

/-- A place in a document. -/
structure Place where
  uri : Uri
  position : Position
  deriving DecidableEq

namespace Place

def ofJson? (j : Json) : Option Place := do
  let j ← j.object?
  let document ← (j.get "textDocument").record? ["uri"]
  let uri ← document.req "uri" Uri.ofJson?
  let position ← j.req "position" Position.ofJson?
  some { uri, position }

/-- The members that name a place. -/
def members (p : Place) : List (Option (String × Json)) :=
  [field "textDocument" (.obj [("uri", p.uri.toJson)]), field "position" p.position.toJson]

end Place

/-- Why completion was asked for. -/
structure CompletionTrigger where
  kind : Int
  character : Option String
  deriving DecidableEq, Repr, Inhabited

namespace CompletionTrigger

def toJson (t : CompletionTrigger) : Json :=
  Json.object [
    field "triggerKind" (.int t.kind), optField "triggerCharacter" Json.str t.character]

def ofJson? (j : Json) : Option CompletionTrigger := do
  let j ← j.record? ["triggerKind", "triggerCharacter"]
  let kind ← j.req "triggerKind" Json.asInt32?
  let character ← j.opt "triggerCharacter" Json.asString?
  some { kind, character }

end CompletionTrigger

/-- What a request about a position asks beyond the position. -/
inductive Ask where
  | hover
  | definition
  | highlight
  | linkedEditing
  | completion (trigger : Option CompletionTrigger)
  | references (includeDeclaration : Bool)
  | rename (newName : String)
  | onTypeFormatting (ch : String) (options : FormattingOptions)

namespace Ask

/-- The method under which servers know the request. -/
def method : Ask → String
  | .hover => "textDocument/hover"
  | .definition => "textDocument/definition"
  | .highlight => "textDocument/documentHighlight"
  | .linkedEditing => "textDocument/linkedEditingRange"
  | .completion _ => "textDocument/completion"
  | .references _ => "textDocument/references"
  | .rename _ => "textDocument/rename"
  | .onTypeFormatting .. => "textDocument/onTypeFormatting"

/-- Whether the request can name a token for partial results. -/
def streams : Ask → Bool
  | .definition | .highlight | .completion _ | .references _ => true
  | _ => false

/-- Whether the request can name a token for its own progress. -/
def reports : Ask → Bool
  | .onTypeFormatting .. => false
  | _ => true

def members : Ask → List (Option (String × Json))
  | .hover | .definition | .highlight | .linkedEditing => []
  | .completion trigger => [optField "context" CompletionTrigger.toJson trigger]
  | .references d => [field "context" (.obj [("includeDeclaration", .bool d)])]
  | .rename newName => [field "newName" (.str newName)]
  | .onTypeFormatting ch options => [field "ch" (.str ch), field "options" options.toJson]

end Ask

/-- A request about a position. -/
structure PositionRequest where
  place : Place
  ask : Ask
  workDoneToken : Option Token
  partialResultToken : Option Token

namespace PositionRequest

/-- The same request about another place. -/
def movedTo (r : PositionRequest) (uri : Uri) (position : Position) : PositionRequest :=
  { r with place := ⟨uri, position⟩ }

def toJson (r : PositionRequest) : Json :=
  Json.object (r.place.members ++ r.ask.members ++ [
    optField "workDoneToken" Token.toJson r.workDoneToken,
    optField "partialResultToken" Token.toJson r.partialResultToken])

/-- Reads a request whose particulars are read by `ask`. -/
def read? (ask : Json → Option Ask) (j : Json) : Option PositionRequest := do
  let place ← Place.ofJson? j
  let ask ← ask j
  let workDoneToken ← if ask.reports then j.opt "workDoneToken" Token.ofJson? else some none
  let partialResultToken ←
    if ask.streams then j.opt "partialResultToken" Token.ofJson? else some none
  some { place, ask, workDoneToken, partialResultToken }

def hover? : Json → Option PositionRequest := read? fun _ => some .hover

def definition? : Json → Option PositionRequest := read? fun _ => some .definition

def highlight? : Json → Option PositionRequest := read? fun _ => some .highlight

def linkedEditing? : Json → Option PositionRequest := read? fun _ => some .linkedEditing

def completion? : Json → Option PositionRequest :=
  read? fun j => (j.opt "context" CompletionTrigger.ofJson?).map .completion

def references? : Json → Option PositionRequest := read? fun j => do
  let context ← (j.get "context").record? ["includeDeclaration"]
  (context.req "includeDeclaration" Json.asBool?).map .references

def rename? : Json → Option PositionRequest :=
  read? fun j => (j.req "newName" Json.asString?).map .rename

def onTypeFormatting? : Json → Option PositionRequest := read? fun j => do
  let ch ← j.req "ch" Json.asString?
  let options ← j.req "options" FormattingOptions.ofJson?
  some (.onTypeFormatting ch options)

end PositionRequest

/-- A request for the diagnostics of a document. -/
structure DiagnosticRequest where
  uri : Uri
  identifier : Option String
  previousResultId : Option String
  workDoneToken : Option Token
  partialResultToken : Option Token

namespace DiagnosticRequest

def toJson (r : DiagnosticRequest) : Json :=
  Json.object [
    field "textDocument" (.obj [("uri", r.uri.toJson)]),
    field "identifier" (Json.ofOption Json.str r.identifier),
    field "previousResultId" (Json.ofOption Json.str r.previousResultId),
    optField "workDoneToken" Token.toJson r.workDoneToken,
    optField "partialResultToken" Token.toJson r.partialResultToken]

def ofJson? (j : Json) : Option DiagnosticRequest := do
  let j ← j.object?
  let document ← (j.get "textDocument").record? ["uri"]
  let uri ← document.req "uri" Uri.ofJson?
  let identifier ← j.opt "identifier" Json.asString?
  let previousResultId ← j.opt "previousResultId" Json.asString?
  let workDoneToken ← j.opt "workDoneToken" Token.ofJson?
  let partialResultToken ← j.opt "partialResultToken" Token.ofJson?
  some { uri, identifier, previousResultId, workDoneToken, partialResultToken }

end DiagnosticRequest

/-- A document as the editor opens it. -/
structure OpenedDocument where
  uri : Uri
  languageId : String
  version : Int
  text : String

namespace OpenedDocument

def ofJson? (j : Json) : Option OpenedDocument := do
  let j ← j.record? ["textDocument"]
  let document ← (j.get "textDocument").record? ["uri", "languageId", "version", "text"]
  let uri ← document.req "uri" Uri.ofJson?
  let languageId ← document.req "languageId" Json.asString?
  let version ← document.req "version" Json.asInt32?
  let text ← document.req "text" Json.asString?
  some { uri, languageId, version, text }

end OpenedDocument

/-- A batch of edits from the editor. -/
structure ChangedDocument where
  uri : Uri
  version : Int
  changes : List ContentChange

namespace ChangedDocument

def ofJson? (j : Json) : Option ChangedDocument := do
  let j ← j.record? ["textDocument", "contentChanges"]
  let document ← (j.get "textDocument").record? ["uri", "version"]
  let uri ← document.req "uri" Uri.ofJson?
  let version ← document.req "version" Json.asInt32?
  let changes ← j.req "contentChanges" (Json.listOf ContentChange.ofJson?)
  some { uri, version, changes }

end ChangedDocument

/-- The document that the editor closes. -/
def closedDocument? (j : Json) : Option Uri := do
  let j ← j.record? ["textDocument"]
  let document ← (j.get "textDocument").record? ["uri"]
  document.req "uri" Uri.ofJson?

/-- What the editor can do with answers. -/
structure ClientCapabilities where
  snippets : Bool
  definitionLinks : Bool
  deriving DecidableEq, Repr, Inhabited

namespace ClientCapabilities

/-- Follows a path of optional objects to a flag. -/
def flag? (path : List String) (j : Json) : Option (Option Bool) :=
  match path with
  | [] => Json.maybe Json.asBool? j
  | key :: rest =>
    match j with
    | .null => some none
    | .obj _ => flag? rest (j.get key)
    | _ => none

def ofJson? (j : Json) : Option ClientCapabilities := do
  let j ← j.object?
  let snippets ← flag? ["textDocument", "completion", "completionItem", "snippetSupport"] j
  let links ← flag? ["textDocument", "definition", "linkSupport"] j
  some ⟨snippets.getD false, links.getD false⟩

end ClientCapabilities

/-- What the editor says when it starts. -/
structure Initialization where
  capabilities : ClientCapabilities
  options : Option Json
  folders : Option (List Uri)
  rootUri : Option Uri

namespace Initialization

def ofJson? (j : Json) : Option Initialization := do
  let j ← j.object?
  let capabilities ← j.req "capabilities" ClientCapabilities.ofJson?
  let options ← j.opt "initializationOptions" Json.any?
  let folders ← j.opt "workspaceFolders" (Json.listOf fun f => do
    let f ← f.record? ["uri", "name"]
    let uri ← f.req "uri" Uri.ofJson?
    let _ ← f.req "name" Json.asString?
    some uri)
  let rootUri ← j.opt "rootUri" Uri.ofJson?
  let _ ← j.opt "rootPath" Json.asString?
  some { capabilities, options, folders, rootUri }

end Initialization

end PolyglotLsp
