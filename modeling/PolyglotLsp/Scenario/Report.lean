import PolyglotLsp.Router.World

/-!
# Reporting on a scenario

How snapshots, failures, traffic and completion sites are written down for a reader of a scenario.
-/

namespace PolyglotLsp

/-- The name of a failure's cause. -/
def RouterError.cause : RouterError → String
  | .lock _ => "Lock"
  | .serverNotFound _ => "ServerNotFound"
  | .transport .. => "Transport"
  | .timeout .. => "Timeout"
  | .invalidResponse .. => "InvalidResponse"
  | .documentNotFound _ => "DocumentNotFound"
  | .invalidEdit _ => "InvalidEdit"
  | .config _ => "Config"
  | .internal _ => "Internal"

namespace VirtualSnapshot

def toJson (d : VirtualSnapshot) : Json :=
  .obj [
    ("uri", d.url.toJson), ("host", d.host.toJson), ("kind", d.language.toJson),
    ("version", .int d.version), ("hostVersion", Json.ofOption Json.int d.hostVersion),
    ("text", .str d.text)]

end VirtualSnapshot

namespace HostSnapshot

def toJson (h : HostSnapshot) : Json :=
  .obj [
    ("uri", h.url.toJson), ("version", .int h.version), ("text", .str h.text),
    ("virtual", Json.list VirtualSnapshot.toJson h.virtuals)]

end HostSnapshot

namespace CompletionContext

def toJson (c : CompletionContext) : Json :=
  .obj [
    ("host", c.host.toJson), ("projected", c.projected.toJson), ("kind", c.language.toJson),
    ("server", .str c.server)]

end CompletionContext

namespace ProgressOutcome

def name : ProgressOutcome → String
  | .completed => "completed"
  | .cancelled => "cancelled"
  | .disposed => "disposed"

end ProgressOutcome

namespace Traffic

/-- Tokens that the router makes up for a request are not shown. -/
def hideToken (method : String) (params : Json) : Json :=
  match params, params.get "partialResultToken" with
  | .obj members, .str _ =>
    if method = "textDocument/references" then
      .obj (Json.setMember "partialResultToken" (.str "<token>") members)
    else params
  | _, _ => params

def toJson : Traffic → Json
  | .classify host position =>
    .obj [("classify", host.toJson), ("position", position.toJson)]
  | .mapRanges host language ranges =>
    .obj [
      ("mapRanges", host.toJson), ("kind", language.toJson),
      ("ranges", Json.list Range.toJson ranges)]
  | .remapEdits host language edits options snippet =>
    .obj [
      ("remapEdits", host.toJson), ("kind", language.toJson),
      ("edits", Json.list TextEdit.toJson edits),
      ("options", Json.ofOption FormattingOptions.toJson options), ("snippet", .bool snippet)]
  | .request server method params =>
    .obj [
      ("server", .str server), ("request", .str method), ("params", hideToken method params)]
  | .noteAccepted server _ accepted =>
    .obj [("server", .str server), ("progressAccepted", .bool accepted)]
  | .notify server method params =>
    .obj [("server", .str server), ("notify", .str method), ("params", params)]
  | .documentContext host => .obj [("documentContext", host.toJson)]

end Traffic

namespace Markup

def Span.toJson (s : Span) : Json := .arr [.nat s.start, .nat s.stop]

def Kind.name : Kind → String
  | .document => "document"
  | .element _ => "element"
  | .startTag .. => "startTag"
  | .endTag _ => "endTag"
  | .attr .. => "attribute"
  | .text => "text"
  | .code => "code"

/-- Names with values, as pairs. -/
def pairs (entries : List (String × String)) : Json :=
  Json.list (fun (name, value) => Json.arr [.str name, .str value]) entries

/-- What the node itself and its children say. -/
def Node.toJson (n : Node) : Json :=
  let shared := [
    ("kind", Json.str n.kind.name), ("tagName", Json.ofOption Json.str n.tagName?),
    ("startTag", Json.ofOption (fun t => t.span.toJson) n.startTag?),
    ("attributes", pairs (n.attributes.map fun a => (a.name, a.value)))]
  match n.kind with
  | .attr a _ => .obj (shared ++ [("name", .str a.name), ("hasValue", .bool a.hasValue)])
  | _ => .obj shared

/-- What both kinds of site have in common. -/
def siteMembers (helpers : TagHelpers) (attributes : List (String × String))
    (parent : Option String) (parentIsTagHelper : Bool) : List (String × Json) :=
  [("attributes", pairs attributes), ("parent", Json.ofOption Json.str parent),
    ("parentIsTagHelper", .bool parentIsTagHelper),
    ("helpers", Json.list (fun h => Json.str h.name) helpers.helpers)]

def Query.toJson : Query → Json
  | .element s =>
    .obj ([("site", Json.str "element"), ("tag", Json.ofOption Json.str s.tag)] ++
      siteMembers s.helpers s.attributes s.parent s.parentIsTagHelper)
  | .attr s =>
    .obj ([("site", Json.str "attribute"), ("tag", Json.str s.tag),
        ("current", Json.ofOption Json.str s.current)] ++
      siteMembers s.helpers s.attributes s.parent s.parentIsTagHelper)

def Item.toJson (i : Item) : Json :=
  .obj [
    ("display", .str i.display), ("insert", .str i.insert),
    ("kind", .str (match i.kind with
      | .element => "element"
      | .attr => "attribute")),
    ("snippet", .bool i.isSnippet), ("commit", Json.list Json.str i.commit),
    ("docs", Json.list Json.str i.documentation)]

end Markup

end PolyglotLsp
