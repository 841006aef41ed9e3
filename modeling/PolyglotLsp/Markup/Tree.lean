/-!
# Markup trees

The parts of a parsed host document that completion looks at: elements with their tags and
attributes, as nodes over byte spans. The owner of an offset is found by descending from the root,
at each level into the first child that contains the offset, or else into the first non-empty child
that ends there.
-/

namespace PolyglotLsp.Markup

/-- A half-open span of bytes. -/
structure Span where
  start : Nat
  stop : Nat
  deriving DecidableEq, Repr, Inhabited

namespace Span

def length (s : Span) : Nat := s.stop - s.start

def isEmpty (s : Span) : Bool := s.length == 0

/-- The offset is that of a byte of the span. -/
def contains (s : Span) (offset : Nat) : Bool := decide (s.start ≤ offset ∧ offset < s.stop)

/-- The offset is in the span or right behind it. -/
def touches (s : Span) (offset : Nat) : Bool := decide (s.start ≤ offset ∧ offset ≤ s.stop)

end Span

/-- An attribute as written in a start tag. A directive's name has its `@`, and may have a
parameter. -/
inductive Attribute where
  | markup (name value : String)
  | minimizedMarkup (name : String)
  | tagHelper (name value : String)
  | minimizedTagHelper (name : String)
  | directive (name : String) (parameter : Option String) (value : String)
  | minimizedDirective (name : String) (parameter : Option String)
  deriving DecidableEq, Repr, Inhabited

namespace Attribute

/-- A directive's name with its parameter. -/
def directiveName (name : String) : Option String → String
  | none => name
  | some parameter => name ++ ":" ++ parameter

def name : Attribute → String
  | .markup n _ | .minimizedMarkup n | .tagHelper n _ | .minimizedTagHelper n => n
  | .directive n p _ | .minimizedDirective n p => directiveName n p

/-- The value as written; empty if there is none. -/
def value : Attribute → String
  | .markup _ v | .tagHelper _ v | .directive _ _ v => v
  | _ => ""

/-- Whether the attribute is written with a value. -/
def hasValue : Attribute → Bool
  | .markup .. | .tagHelper .. | .directive .. => true
  | _ => false

end Attribute

/-- What a node is. An attribute's span includes the blanks before it, its name span does not. -/
inductive Kind where
  | document
  | element (isTagHelper : Bool)
  | startTag (name : String) (nameSpan attributesSpan : Span)
  | endTag (name : String)
  | attr (value : Attribute) (nameSpan : Span)
  | text
  | code
  deriving DecidableEq, Repr, Inhabited

/-- A node of a markup tree. -/
inductive Node where
  | mk (kind : Kind) (span : Span) (children : List Node)
  deriving Repr, Inhabited

namespace Node

def kind : Node → Kind
  | .mk k _ _ => k

def span : Node → Span
  | .mk _ s _ => s

def children : Node → List Node
  | .mk _ _ c => c

def isStartTag (n : Node) : Bool :=
  match n.kind with
  | .startTag .. => true
  | _ => false

def isElement (n : Node) : Bool :=
  match n.kind with
  | .element _ => true
  | _ => false

/-- The start tag of an element. -/
def startTag? (n : Node) : Option Node :=
  if n.isElement then n.children.find? isStartTag else none

/-- The name of a start tag, or of an element's start tag. -/
def tagName? (n : Node) : Option String :=
  match n.kind with
  | .startTag name _ _ => some name
  | _ =>
    match n.startTag?.map kind with
    | some (.startTag name _ _) => some name
    | _ => none

/-- The attributes among a node's children. -/
def attributes (n : Node) : List Attribute :=
  n.children.filterMap fun child =>
    match child.kind with
    | .attr a _ => some a
    | _ => none

mutual

/-- The path from a node to the owner of an offset. -/
def ownerPath (offset : Nat) : Node → List Node
  | .mk k s children =>
    .mk k s children ::
      ((containingPath offset children).orElse fun _ => endingPath offset children).getD []

/-- The path of the first child that contains the offset. -/
def containingPath (offset : Nat) : List Node → Option (List Node)
  | [] => none
  | child :: rest =>
    if child.span.contains offset then some (ownerPath offset child)
    else containingPath offset rest

/-- The path of the first non-empty child that ends at the offset. -/
def endingPath (offset : Nat) : List Node → Option (List Node)
  | [] => none
  | child :: rest =>
    if child.span.stop == offset && !child.span.isEmpty then some (ownerPath offset child)
    else endingPath offset rest

end

mutual

/-- All nodes of a tree, each before its children. -/
def preorder : Node → List Node
  | .mk k s children => .mk k s children :: preorderAll children

def preorderAll : List Node → List Node
  | [] => []
  | n :: rest => preorder n ++ preorderAll rest

end

end Node

end PolyglotLsp.Markup
