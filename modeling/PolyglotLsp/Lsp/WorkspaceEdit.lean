import PolyglotLsp.Lsp.Basic

/-!
# Edits of several documents
-/

namespace PolyglotLsp

open Json (field optField)

/-- An edit that may carry the name of an annotation. -/
structure AnnotatedEdit where
  edit : TextEdit
  label : Option String
  deriving DecidableEq, Repr, Inhabited

namespace AnnotatedEdit

def toJson (e : AnnotatedEdit) : Json :=
  Json.object [
    field "range" e.edit.range.toJson,
    field "newText" (.str e.edit.newText),
    optField "annotationId" Json.str e.label]

/-- An edit in a server's answer is read as a plain one, so that its annotation is dropped. -/
def ofJson? (j : Json) : Option AnnotatedEdit := (TextEdit.ofJson? j).map (⟨·, none⟩)

/-- An edit with its annotation, if it has one. -/
def ofAnnotated? (j : Json) : Option AnnotatedEdit := do
  let edit ← TextEdit.ofJson? j
  some ⟨edit, (j.get "annotationId").asString?⟩

end AnnotatedEdit

/-- Edits of one document, at a version if one is given. -/
structure DocumentEdit where
  uri : Uri
  version : Option Int
  edits : List AnnotatedEdit
  deriving DecidableEq

namespace DocumentEdit

def toJson (d : DocumentEdit) : Json :=
  .obj [
    ("textDocument", .obj [("uri", d.uri.toJson), ("version", Json.ofOption Json.int d.version)]),
    ("edits", Json.list AnnotatedEdit.toJson d.edits)]

def read? (edit : Json → Option AnnotatedEdit) (j : Json) : Option DocumentEdit := do
  let j ← j.record? ["textDocument", "edits"]
  let document ← (j.get "textDocument").record? ["uri", "version"]
  let uri ← document.req "uri" Uri.ofJson?
  let version ← document.opt "version" Json.asInt32?
  let edits ← j.req "edits" (Json.listOf edit)
  some { uri, version, edits }

end DocumentEdit

/-- How to create, rename or delete a file when one is there already, or is not. -/
structure FileOptions where
  first : Option Bool
  second : Option Bool
  deriving DecidableEq, Repr, Inhabited

/-- A change of the files themselves. -/
inductive ResourceOp where
  | create (uri : Uri) (options : Option FileOptions) (label : Option String)
  | rename (oldUri newUri : Uri) (options : Option FileOptions) (label : Option String)
  | delete (uri : Uri) (options : Option FileOptions) (label : Option String)
  deriving DecidableEq

namespace FileOptions

def toJson (firstName secondName : String) (o : FileOptions) : Json :=
  Json.object [optField firstName Json.bool o.first, optField secondName Json.bool o.second]

def ofJson? (firstName secondName : String) (j : Json) : Option FileOptions := do
  let j ← j.record? [firstName, secondName]
  let first ← j.opt firstName Json.asBool?
  let second ← j.opt secondName Json.asBool?
  some { first, second }

end FileOptions

namespace ResourceOp

def toJson : ResourceOp → Json
  | .create uri options label =>
    Json.object [
      field "kind" (.str "create"), field "uri" uri.toJson,
      optField "options" (FileOptions.toJson "overwrite" "ignoreIfExists") options,
      optField "annotationId" Json.str label]
  | .rename oldUri newUri options label =>
    Json.object [
      field "kind" (.str "rename"), field "oldUri" oldUri.toJson, field "newUri" newUri.toJson,
      optField "options" (FileOptions.toJson "overwrite" "ignoreIfExists") options,
      optField "annotationId" Json.str label]
  | .delete uri options label =>
    Json.object [
      field "kind" (.str "delete"), field "uri" uri.toJson,
      optField "options" (FileOptions.toJson "recursive" "ignoreIfNotExists") options,
      optField "annotationId" Json.str label]

def ofJson? (j : Json) : Option ResourceOp := do
  let j ← j.object?
  let kind ← j.req "kind" Json.asString?
  let label ← j.opt "annotationId" Json.asString?
  match kind with
  | "create" => do
    let uri ← j.req "uri" Uri.ofJson?
    let options ← j.opt "options" (FileOptions.ofJson? "overwrite" "ignoreIfExists")
    some (.create uri options label)
  | "rename" => do
    let oldUri ← j.req "oldUri" Uri.ofJson?
    let newUri ← j.req "newUri" Uri.ofJson?
    let options ← j.opt "options" (FileOptions.ofJson? "overwrite" "ignoreIfExists")
    some (.rename oldUri newUri options label)
  | "delete" => do
    let uri ← j.req "uri" Uri.ofJson?
    let options ← j.opt "options" (FileOptions.ofJson? "recursive" "ignoreIfNotExists")
    some (.delete uri options label)
  | _ => none

end ResourceOp

/-- One entry of a list of document changes. -/
inductive DocumentChange where
  | edit (edit : DocumentEdit)
  | resource (op : ResourceOp)
  deriving DecidableEq

namespace DocumentChange

def toJson : DocumentChange → Json
  | .edit e => e.toJson
  | .resource op => op.toJson

end DocumentChange

/-- Document changes are edits only, or edits and changes of files in one order. -/
inductive DocumentChanges where
  | edits (edits : List DocumentEdit)
  | operations (operations : List DocumentChange)
  deriving DecidableEq

namespace DocumentChanges

def toJson : DocumentChanges → Json
  | .edits es => Json.list DocumentEdit.toJson es
  | .operations ops => Json.list DocumentChange.toJson ops

def read? (edit : Json → Option AnnotatedEdit) (j : Json) : Option DocumentChanges :=
  ((Json.listOf (DocumentEdit.read? edit) j).map .edits) <|>
    ((Json.listOf (fun item =>
      ((ResourceOp.ofJson? item).map .resource) <|>
        ((DocumentEdit.read? edit item).map .edit)) j).map .operations)

end DocumentChanges

structure AnnotationText where
  label : String
  needsConfirmation : Option Bool
  description : Option String
  deriving DecidableEq, Repr, Inhabited

namespace AnnotationText

def toJson (a : AnnotationText) : Json :=
  Json.object [
    field "label" (.str a.label),
    optField "needsConfirmation" Json.bool a.needsConfirmation,
    optField "description" Json.str a.description]

def ofJson? (j : Json) : Option AnnotationText := do
  let j ← j.record? ["label", "needsConfirmation", "description"]
  let label ← j.req "label" Json.asString?
  let needsConfirmation ← j.opt "needsConfirmation" Json.asBool?
  let description ← j.opt "description" Json.asString?
  some { label, needsConfirmation, description }

end AnnotationText

/-- Edits of several documents, in either of two forms. -/
structure WorkspaceEdit where
  changes : Option (List (Uri × List TextEdit))
  documentChanges : Option DocumentChanges
  annotations : Option (List (String × AnnotationText))
  deriving DecidableEq

namespace WorkspaceEdit

def toJson (w : WorkspaceEdit) : Json :=
  Json.object [
    optField "changes" (fun cs =>
      Json.obj (cs.map fun (u, es) => (u.text, Json.list TextEdit.toJson es))) w.changes,
    optField "documentChanges" DocumentChanges.toJson w.documentChanges,
    optField "changeAnnotations" (fun as =>
      Json.obj (as.map fun (k, a) => (k, a.toJson))) w.annotations]

/-- Reads an edit, given how a single edit of a document change is read. -/
def read? (edit : Json → Option AnnotatedEdit) (j : Json) : Option WorkspaceEdit := do
  let j ← j.record? ["changes", "documentChanges", "changeAnnotations"]
  let changes ← j.opt "changes" (Json.membersOf Uri.parse? (Json.listOf TextEdit.ofJson?))
  let documentChanges ← j.opt "documentChanges" (DocumentChanges.read? edit)
  let annotations ← j.opt "changeAnnotations" (Json.membersOf some AnnotationText.ofJson?)
  some { changes, documentChanges, annotations }

/-- Reads a server's answer. -/
def ofJson? : Json → Option WorkspaceEdit := read? AnnotatedEdit.ofJson?

/-- Reads an edit whose single edits keep their annotations. -/
def ofAnnotated? : Json → Option WorkspaceEdit := read? AnnotatedEdit.ofAnnotated?

end WorkspaceEdit

end PolyglotLsp
