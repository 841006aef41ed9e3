import PolyglotLsp.Handler.Completion
import PolyglotLsp.Handler.Diagnostics
import PolyglotLsp.Handler.Navigation

/-!
# Requests and their answers

All requests of the editor, and the program that answers each.
-/

namespace PolyglotLsp

/-- A request of the editor. -/
inductive Request where
  | position (request : PositionRequest)
  | diagnostics (request : DiagnosticRequest)
  | resolve (item : CompletionItem)

/-- An answer to the editor. -/
inductive Answer where
  | hover (value : Option Hover)
  | definition (value : Option Definition)
  | highlights (value : Option (List DocumentHighlight))
  | linkedRanges (value : Option LinkedEditingRanges)
  | completion (value : Option CompletionList)
  | references (value : Option (List Location))
  | rename (value : Option WorkspaceEdit)
  | edits (value : Option (List TextEdit))
  | diagnostics (value : List Diagnostic)
  | item (value : CompletionItem)

namespace Answer

def toJson : Answer → Json
  | .hover v => Json.ofOption Hover.toJson v
  | .definition v => Json.ofOption Definition.toJson v
  | .highlights v => Json.ofOption (Json.list DocumentHighlight.toJson) v
  | .linkedRanges v => Json.ofOption LinkedEditingRanges.toJson v
  | .completion v => Json.ofOption CompletionList.toJson v
  | .references v => Json.ofOption (Json.list Location.toJson) v
  | .rename v => Json.ofOption WorkspaceEdit.toJson v
  | .edits v => Json.ofOption (Json.list TextEdit.toJson) v
  | .diagnostics v => .obj [("kind", .str "full"), ("items", Json.list Diagnostic.toJson v)]
  | .item v => v.toJson

end Answer

namespace Request

/-- Answers a request about a position. -/
def answerPosition (r : PositionRequest) : Action Answer :=
  match r.ask with
  | .hover => Answer.hover <$> Handler.hover r
  | .definition => Answer.definition <$> Handler.definition r
  | .highlight => Answer.highlights <$> Handler.highlight r
  | .linkedEditing => Answer.linkedRanges <$> Handler.linkedEditing r
  | .completion trigger => Answer.completion <$> Handler.completion r trigger
  | .references _ => Answer.references <$> Handler.references r
  | .rename _ => Answer.rename <$> Handler.rename r
  | .onTypeFormatting _ options => Answer.edits <$> Handler.onTypeFormatting r options

/-- Answers a request. -/
def answer : Request → Action Answer
  | .position r => answerPosition r
  | .diagnostics r => Answer.diagnostics <$> Handler.diagnostics r
  | .resolve item => Answer.item <$> Handler.resolve item

end Request

end PolyglotLsp
