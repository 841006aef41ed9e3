import PolyglotLsp.Scenario.Script

/-!
# Reading scenarios

Scripts, markup trees and tag helpers from JSON. Scripts are read leniently: a member that is
missing or of another type has its default. Trees and typed values are read strictly, and a refusal
says what is wrong.
-/

namespace PolyglotLsp.Scenario

/-- Why an input cannot be read: a typed value or a URL is malformed, or a member is missing or has
no meaning. -/
inductive Refusal where
  | value
  | url
  | member (name : String)
  deriving DecidableEq, Repr, Inhabited

/-- The wording of a refusal. -/
def Refusal.message : Refusal → String
  | .value => "InvalidParams"
  | .url => "InvalidUrl"
  | .member name => name

/-- A reading that may be refused. -/
abbrev Reading := Except Refusal

namespace Reading

def ofOption {α : Type} (r : Refusal) : Option α → Reading α
  | some a => .ok a
  | none => .error r

/-- A typed value. -/
def value {α : Type} (read : Json → Option α) (j : Json) (key : String) : Reading α :=
  ofOption .value (read (j.get key))

/-- A URL. -/
def url (j : Json) (key : String) : Reading Url := ofOption .url (Url.ofJson? (j.get key))

end Reading

/-! ## Members with defaults -/

/-- A text; empty by default. -/
def text (j : Json) (key : String) : String := (j.get key).asString?.getD ""

/-- A number; zero by default. -/
def number (j : Json) (key : String) : Nat := (j.get key).asUInt64?.getD 0

/-- A flag; false by default. -/
def flag (j : Json) (key : String) : Bool := (j.get key).asBool?.getD false

/-- A list; empty by default. -/
def items (j : Json) (key : String) : List Json := (j.get key).asList?.getD []

/-- A list of texts; other elements are left out. -/
def texts (j : Json) (key : String) : List String := (items j key).filterMap Json.asString?

/-- A text that may be absent. -/
def text? (j : Json) (key : String) : Option String := (j.get key).asString?

/-! ## Scripts -/

/-- A scripted failure. -/
def failure? (j : Json) : Option RouterError :=
  match text j "kind" with
  | "lock" => some (.lock (text j "message"))
  | "serverNotFound" => some (.serverNotFound (text j "server"))
  | "transport" => some (.transport (text j "server") (text j "method") (text j "message"))
  | "timeout" => some (.timeout (text j "server") (text j "method") (number j "timeoutMs"))
  | "invalidResponse" => some (.invalidResponse (text j "server") (text j "method") "")
  | "documentNotFound" => some (.documentNotFound (text j "uri"))
  | "invalidEdit" => some (.invalidEdit (text j "message"))
  | "config" => some (.config (text j "message"))
  | "internal" => some (.internal (text j "message"))
  | _ => none

def delay (j : Json) : Nat := number j "delayMs"

def shift (j : Json) : Shift :=
  ⟨(j.get "lineOffset").asInt?.getD 0, (j.get "charOffset").asInt?.getD 0⟩

def classifierRule (j : Json) : ClassifierRule where
  delay := delay j
  failure := failure? (j.get "fail")
  language := Language.ofJson? (j.get "kind")
  shift := shift j
  version := (j.get "version").asInt32?

def classifier (j : Json) : ClassifierScript where
  rules := (items j "rules").map fun r =>
    (number r "fromLine", (r.get "toLine").asUInt64?, classifierRule r)
  otherwise := classifierRule j

def mapping (j : Json) : MappingScript where
  delay := delay j
  failure := failure? (j.get "fail")
  hostFailures := ((j.get "failFor").asMembers?.getD []).filterMap fun (host, e) =>
    (failure? e).map (host, ·)
  editFailure := failure? (j.get "failEdits")
  silent := flag j "none"
  unmappable := (items j "unmappable").filterMap Json.asUInt64?
  shift := shift j
  keepRanges := (j.get "keepRanges").asUInt64?
  extraRanges := number j "extraRanges"
  keepEdits := (j.get "keepEdits").asUInt64?
  version := (j.get "version").asInt32?
  hostVersions := ((j.get "versions").asMembers?.getD []).map fun (host, v) => (host, v.asInt32?)

def note (j : Json) : NoteScript where
  delay := delay j
  method := (text? j "method").getD Progress.method
  token :=
    if j.has "token" then
      match j.get "token" with
      | .null => .absent
      | token => .given token
    else .ofRequest
  value := if j.has "value" then some (j.get "value") else none

def serverAnswer (j : Json) : AnswerScript where
  notes := (items j "progress").map note
  delay := delay j
  outcome :=
    if flag j "hang" then .hang
    else if flag j "panic" then .die
    else
      match text? j "fail" with
      | some message => .fail message
      | none => .answer (j.get "result")

def server (j : Json) : ServerScript where
  answers := ((j.get "answers").asMembers?.getD []).map fun (method, a) =>
    (method,
      match a with
      | .arr answers => answers.map serverAnswer
      | a => [serverAnswer a])
  noticeFailure := text? j "failNotifications"

/-! ## Markup -/

def span (j : Json) : Reading Markup.Span :=
  match j with
  | .arr [start, stop] =>
    match start.asUInt64?, stop.asUInt64? with
    | some start, some stop => .ok ⟨start, stop⟩
    | _, _ => .error (.member "span")
  | _ => .error (.member "span")

def attr (j : Json) : Reading Markup.Attribute :=
  let name := text j "name"
  match text j "type" with
  | "markup" => .ok (.markup name (text j "value"))
  | "minimizedMarkup" => .ok (.minimizedMarkup name)
  | "tagHelper" => .ok (.tagHelper name (text j "value"))
  | "minimizedTagHelper" => .ok (.minimizedTagHelper name)
  | "directive" => .ok (.directive name (text? j "parameter") (text j "value"))
  | "minimizedDirective" => .ok (.minimizedDirective name (text? j "parameter"))
  | _ => .error (.member "type")

def nodeKind (j : Json) : Reading Markup.Kind :=
  match text j "kind" with
  | "document" => .ok .document
  | "element" => .ok (.element (flag j "tagHelper"))
  | "startTag" => do
    let nameSpan ← span (j.get "nameSpan")
    let attributesSpan ← span (j.get "attributesSpan")
    .ok (.startTag (text j "name") nameSpan attributesSpan)
  | "endTag" => .ok (.endTag (text j "name"))
  | "attribute" => do
    let value ← attr (j.get "attribute")
    let nameSpan ← span (j.get "nameSpan")
    .ok (.attr value nameSpan)
  | "text" => .ok .text
  | "code" => .ok .code
  | _ => .error (.member "node kind")

mutual

/-- A node with all below it. -/
def node : Json → Reading Markup.Node
  | .obj members => do
    let s ← span (Json.get (.obj members) "span")
    let kind ← nodeKind (.obj members)
    let children ← childrenIn members
    .ok (.mk kind s children)
  | _ => .error (.member "span")

/-- The nodes under the member that lists them. -/
def childrenIn : List (String × Json) → Reading (List Markup.Node)
  | [] => .ok []
  | (key, value) :: rest =>
    match value with
    | .arr children => if key = "children" then nodes children else childrenIn rest
    | _ => if key = "children" then .ok [] else childrenIn rest

def nodes : List Json → Reading (List Markup.Node)
  | [] => .ok []
  | j :: rest => do
    let n ← node j
    let rest ← nodes rest
    .ok (n :: rest)

end

def matchingRule (j : Json) : Markup.MatchingRule := ⟨text j "tag", text? j "parent"⟩

def boundAttribute (j : Json) : Markup.BoundAttribute where
  name := text j "name"
  typeName := text? j "type"
  indexer := text? j "indexerPrefix"
  indexerType := text? j "indexerType"
  isDirective := flag j "directive"
  documentation := text? j "documentation"

def tagHelper (id : Nat) (j : Json) : Markup.TagHelper where
  id
  name := text j "name"
  documentation := text? j "documentation"
  rules := (items j "rules").map matchingRule
  attributes := (items j "attributes").map boundAttribute
  allowedChildren := texts j "allowedChildren"
  isComponent := flag j "isComponent"

/-- Each entry is a tag helper of its own, also where two say the same. -/
def tagHelpers (j : Json) : Markup.TagHelpers :=
  ⟨text? j "prefix", (items j "helpers").mapIdx tagHelper⟩

/-- A provider of fixed names, if there is one. -/
def provider? (j : Json) : Option Markup.Provider :=
  if j.isObject then some (.fixed (texts j "elements") (texts j "attributes")) else none

/-- What a document service says about a host; nothing if the entry is incomplete. -/
def document (j : Json) : DocumentScript :=
  ⟨delay j,
    match failure? (j.get "fail") with
    | some e => .error e
    | none => .ok do
      let hostVersion ← (j.get "version").asInt32?
      let tree ← (node (j.get "tree")).toOption
      if (j.get "tagHelpers").isObject then
        some { tree, helpers := tagHelpers (j.get "tagHelpers"), hostVersion }
      else none⟩

def documents (j : Json) : List (String × DocumentScript) :=
  (j.asMembers?.getD []).map fun (host, d) => (host, document d)

/-- The scripts of a scenario; there is a document service only if its script is an object. -/
def script (j : Json) : Script where
  classifier := classifier (j.get "classifier")
  mapping := mapping (j.get "mapping")
  documents :=
    if (j.get "documents").isObject then some (documents (j.get "documents")) else none
  provider := (provider? (j.get "scriptedProvider")).getD .byRules
  endpoints := []

end PolyglotLsp.Scenario
