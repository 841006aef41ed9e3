/-!
# Languages of a host document

A host document is written in the host language and embeds two others. Each embedded language has a
virtual document of its own; the host language has none.
-/

namespace PolyglotLsp

/-- The language a position of a host document belongs to. -/
inductive Language where
  | razor
  | html
  | csharp
  deriving DecidableEq, Repr, Inhabited

namespace Language

/-- The languages with a virtual document, in the order in which they are listed. -/
def embedded : List Language := [.html, .csharp]

def isEmbedded : Language → Bool
  | .razor => false
  | _ => true

/-- What is appended to the host's file name to name the virtual document. -/
def suffix? : Language → Option String
  | .razor => none
  | .html => some "__virtual.html"
  | .csharp => some "__virtual.cs"

/-- The language identifier that servers and settings use. -/
def id : Language → String
  | .razor => "razor"
  | .html => "html"
  | .csharp => "csharp"

def ofId? : String → Option Language
  | "razor" => some .razor
  | "html" => some .html
  | "csharp" => some .csharp
  | _ => none

end Language

end PolyglotLsp
