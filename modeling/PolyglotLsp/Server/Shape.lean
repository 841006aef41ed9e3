import PolyglotLsp.Lsp.Diagnostic
import PolyglotLsp.Lsp.Hover
import PolyglotLsp.Lsp.WorkspaceEdit
import PolyglotLsp.Server.Reply

/-!
# Shapes of answers

What a request expects back. An answer that cannot be read in the expected shape is a failure of its
server, and so does not hide the answer of another one.
-/

namespace PolyglotLsp

/-- The shapes that requests expect. -/
inductive Shape where
  | any
  | int
  | strings
  | location
  | hover
  | definition
  | locations
  | highlights
  | linkedRanges
  | edits
  | workspaceEdit
  | completionList
  | completionItem
  | diagnosticReport
  deriving DecidableEq, Repr, Inhabited

namespace Shape

/-- The values of a shape. -/
abbrev Val : Shape → Type
  | .any => Json
  | .int => Int
  | .strings => List String
  | .location => Location
  | .hover => Hover
  | .definition => Definition
  | .locations => List Location
  | .highlights => List DocumentHighlight
  | .linkedRanges => LinkedEditingRanges
  | .edits => List TextEdit
  | .workspaceEdit => WorkspaceEdit
  | .completionList => CompletionList
  | .completionItem => CompletionItem
  | .diagnosticReport => DiagnosticReport

/-- Reads an answer in a shape. -/
def decode? : (s : Shape) → Json → Option s.Val
  | .any => some
  | .int => Json.asInt32?
  | .strings => Json.listOf Json.asString?
  | .location => Location.ofJson?
  | .hover => Hover.ofJson?
  | .definition => Definition.ofJson?
  | .locations => Json.listOf Location.ofJson?
  | .highlights => Json.listOf DocumentHighlight.ofJson?
  | .linkedRanges => LinkedEditingRanges.ofJson?
  | .edits => Json.listOf TextEdit.ofJson?
  | .workspaceEdit => WorkspaceEdit.ofJson?
  | .completionList => CompletionList.ofResponse?
  | .completionItem => CompletionItem.ofJson?
  | .diagnosticReport => DiagnosticReport.ofJson?

/-- What an answer amounts to. -/
def reply (s : Shape) (server method : String) (answer : Json) : Reply s.Val :=
  match answer with
  | .null => .nothing
  | answer =>
    match s.decode? answer with
    | some value => .answer value
    | none => .failed (.invalidResponse server method "the answer has another shape")

end Shape

end PolyglotLsp
