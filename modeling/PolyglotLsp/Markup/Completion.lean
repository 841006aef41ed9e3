import PolyglotLsp.Markup.TagHelper
import PolyglotLsp.Markup.Tree

/-!
# Completing tag helpers

From a markup tree and an offset to completion items: the owner of the offset says whether an
element's name or an attribute's name is being written, a provider says which names can stand there,
and each name becomes an item with the text to insert.
-/

namespace PolyglotLsp.Markup

/-- Whether an item names an element or an attribute. -/
inductive ItemKind where
  | element
  | attr
  deriving DecidableEq, Repr, Inhabited

/-- A completion item before it is put into the protocol's form. -/
structure Item where
  display : String
  insert : String
  kind : ItemKind
  isSnippet : Bool
  commit : List String
  documentation : List String
  deriving DecidableEq, Repr, Inhabited

/-- The start tag at an offset, the attribute there if any, and the nearest element around the tag's
own element. -/
structure TagSite where
  startTag : Node
  attr : Option Node
  ancestor : Option Node

namespace TagSite

/-- The site with this start tag; `outer` is the path to it, innermost first. -/
def ofPath (startTag : Node) (attr : Option Node) (outer : List Node) : TagSite :=
  ⟨startTag, attr, (outer.drop 1).find? Node.isElement⟩

/-- The site of an offset, if its owner is a start tag or an attribute right inside one. -/
def at? (root : Node) (offset : Nat) : Option TagSite :=
  match (Node.ownerPath offset root).reverse with
  | [] => none
  | owner :: outer =>
    match owner.kind with
    | .startTag .. => some (ofPath owner none outer)
    | .attr .. =>
      match outer with
      | parent :: rest => if parent.isStartTag then some (ofPath parent (some owner) rest) else none
      | [] => none
    | _ => none

def attributes (s : TagSite) : List (String × String) :=
  s.startTag.attributes.map fun a => (a.name, a.value)

def parent (s : TagSite) : Option String := s.ancestor.bind Node.tagName?

def parentIsTagHelper (s : TagSite) : Bool :=
  match s.ancestor.map Node.kind with
  | some (.element isTagHelper) => isTagHelper
  | _ => false

/-- Where the cursor is among the attributes. -/
inductive Cursor where
  | between
  | name (name : String)
  | value
  deriving DecidableEq, Repr

def cursor (s : TagSite) (offset : Nat) : Cursor :=
  match s.attr.map Node.kind with
  | some (.attr a nameSpan) =>
    if nameSpan.touches offset then .name a.name
    else if nameSpan.stop < offset && a.hasValue then .value
    else .between
  | _ => .between

end TagSite

/-- What is being completed. -/
inductive Query where
  | element (site : ElementSite)
  | attr (site : AttributeSite)
  deriving Repr

/-- What is being completed at an offset; `none` if nothing of ours is. A tag's name wins over the
attribute list where the two touch. -/
def query? (root : Node) (helpers : TagHelpers) (offset : Nat) : Option Query := do
  let site ← TagSite.at? root offset
  match site.startTag.kind with
  | .startTag name nameSpan attributesSpan =>
    if nameSpan.touches offset then
      some (.element {
        helpers, tag := some name, attributes := site.attributes
        parent := site.parent, parentIsTagHelper := site.parentIsTagHelper })
    else if attributesSpan.touches offset then
      let names (current : Option String) : Query := .attr {
        helpers := helpers.withoutDirectives, current, tag := name, attributes := site.attributes
        parent := site.parent, parentIsTagHelper := site.parentIsTagHelper }
      match site.cursor offset with
      | .value => none
      | .name current => some (names (some current))
      | .between => some (names none)
    else none
  | _ => none

/-- The item of an element name. -/
def elementItem (name : String) (helpers : List TagHelper) : Item :=
  { display := name, insert := name, kind := .element, isSnippet := false, commit := [" ", ">"]
    documentation := helpers.filterMap (·.documentation) }

/-- The name without the dots that mark an indexer. -/
def indexerLead? (name : String) : Option String :=
  let cs := name.toList
  if "...".toList.isSuffixOf cs then some (String.ofList (cs.take (cs.length - 3))) else none

/-- The item of an attribute name. -/
def attributeItem (snippets : Bool) (name : String) (attributes : List BoundAttribute) : Item :=
  let documentation := attributes.filterMap (·.documentation)
  let item (insert : String) (isSnippet : Bool) (commit : List String) : Item :=
    { display := name, insert, kind := .attr, isSnippet, commit, documentation }
  match indexerLead? name with
  | some lead =>
    let snippet := snippets && !attributes.all (·.isBooleanIndexer)
    item (if snippet then lead ++ "$1=\"$2\"" else lead) snippet []
  | none =>
    if attributes.all (·.isBooleanProperty) then item name false ["=", " "]
    else item (if snippets then name ++ "=\"$1\"" else name) snippets ["="]

/-- The items of a query's answer. -/
def Query.items (provider : Provider) (snippets : Bool) : Query → List Item
  | .element site => (provider.elements site).map fun (name, helpers) => elementItem name helpers
  | .attr site =>
    (provider.attributes site).map fun (name, attributes) => attributeItem snippets name attributes

/-- The completion items at an offset. -/
def completions (provider : Provider) (root : Node) (helpers : TagHelpers) (offset : Nat)
    (snippets : Bool) : List Item :=
  match query? root helpers offset with
  | none => []
  | some q => q.items provider snippets

end PolyglotLsp.Markup
