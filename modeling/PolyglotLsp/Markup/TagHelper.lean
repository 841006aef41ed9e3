import PolyglotLsp.Markup.HtmlTags

/-!
# Tag helpers and what they offer

A tag helper applies to the elements its rules match and adds attributes to them. The rules decide
which element names and which attributes can be offered at a place in the markup. What is offered
is a table from names, in increasing order, to the descriptors that offer them.
-/

namespace PolyglotLsp.Markup

/-- One way in which a tag helper matches an element; the tag `*` matches all. -/
structure MatchingRule where
  tag : String
  parent : Option String
  deriving DecidableEq, Repr, Inhabited

/-- An attribute that a tag helper adds. The name is empty if there is only an indexer. -/
structure BoundAttribute where
  name : String
  typeName : Option String
  indexer : Option String
  indexerType : Option String
  isDirective : Bool
  documentation : Option String
  deriving DecidableEq, Repr, Inhabited

structure TagHelper where
  /-- Which tag helper this is, whatever it says; one may be listed more than once. -/
  id : Nat
  name : String
  documentation : Option String
  rules : List MatchingRule
  attributes : List BoundAttribute
  allowedChildren : List String
  isComponent : Bool
  deriving DecidableEq, Repr, Inhabited

/-- The tag helpers in scope of a document, with what the document puts before their tags. -/
structure TagHelpers where
  lead : Option String
  helpers : List TagHelper
  deriving DecidableEq, Repr, Inhabited

namespace MatchingRule

def matchesAll (r : MatchingRule) : Bool := r.tag == "*"

/-- Whether the rule accepts the enclosing element. -/
def allowsParent (r : MatchingRule) (parent : Option String) : Bool :=
  match r.parent, parent with
  | none, _ => true
  | some required, some actual => equalFold required actual
  | some _, none => false

end MatchingRule

/-- Types whose attributes are written without a value. -/
def isBooleanType (typeName : Option String) : Bool :=
  match typeName with
  | some t => t == "System.Boolean" || t == "bool"
  | none => false

namespace BoundAttribute

def isBooleanProperty (a : BoundAttribute) : Bool := isBooleanType a.typeName

def isBooleanIndexer (a : BoundAttribute) : Bool := isBooleanType a.indexerType

end BoundAttribute

namespace TagHelper

def bindsDirective (h : TagHelper) : Bool := h.attributes.any (·.isDirective)

/-- Whether some rule matches an element of this name under this parent. -/
def appliesTo (h : TagHelper) (lead tag : String) (parent : Option String) : Bool :=
  h.rules.any fun r => (r.matchesAll || equalFold (lead ++ r.tag) tag) && r.allowsParent parent

end TagHelper

namespace TagHelpers

def leadText (t : TagHelpers) : String := t.lead.getD ""

/-- The helpers that bind no directive attribute. -/
def withoutDirectives (t : TagHelpers) : TagHelpers :=
  { t with helpers := t.helpers.filter (!·.bindsDirective) }

end TagHelpers

/-- A table of names in strictly increasing order. -/
abbrev Offers (α : Type) := List (String × List α)

namespace Offers

variable {α : Type}

/-- Adds a value at the end of a name's list. -/
def add (name : String) (value : α) : Offers α → Offers α
  | [] => [(name, [value])]
  | (key, values) :: rest =>
    if name < key then (name, [value]) :: (key, values) :: rest
    else if name = key then (key, values ++ [value]) :: rest
    else (key, values) :: add name value rest

/-- What is listed under a name. -/
def under (name : String) (table : Offers α) : List α := (table.lookup name).getD []

/-- Lists a tag helper under a name, unless it is there. -/
def addOnce (name : String) (h : TagHelper) (table : Offers TagHelper) : Offers TagHelper :=
  if (table.under name).any (·.id == h.id) then table else table.add name h

/-- A table of names without values. -/
def ofNames (names : List String) : Offers α :=
  (names.foldl (fun (t : Offers Unit) n => if t.any (·.1 == n) then t else t.add n ()) []).map
    fun e => (e.1, [])

end Offers

/-- What is known where an element's name is completed. -/
structure ElementSite where
  helpers : TagHelpers
  tag : Option String
  attributes : List (String × String)
  parent : Option String
  parentIsTagHelper : Bool
  deriving Repr

/-- What is known where an attribute's name is completed. -/
structure AttributeSite where
  helpers : TagHelpers
  current : Option String
  tag : String
  attributes : List (String × String)
  parent : Option String
  parentIsTagHelper : Bool
  deriving Repr

/-- A source of names for both kinds of site. -/
structure Provider where
  elements : ElementSite → Offers TagHelper
  attributes : AttributeSite → Offers BoundAttribute

namespace ElementSite

/-- The children that the tag helpers of the parent allow; `none` if they restrict nothing. -/
def allowedChildren? (s : ElementSite) : Option (List String) :=
  if s.parentIsTagHelper then
    match s.parent with
    | none => none
    | some parent =>
      let allowed := (s.helpers.helpers.filter
        (·.appliesTo s.helpers.leadText parent none)).flatMap (·.allowedChildren)
      if allowed.isEmpty then none else some allowed
  else none

/-- Whether a rule names an element that may stand here. -/
def admits (s : ElementSite) (r : MatchingRule) : Bool :=
  !r.matchesAll && !isHtmlTagName r.tag && r.allowsParent s.parent &&
    match s.allowedChildren? with
    | none => true
    | some allowed => allowed.any (equalFold · r.tag)

/-- The element names a tag helper offers here. -/
def namesOf (s : ElementSite) (h : TagHelper) : List String :=
  (h.rules.filter s.admits).map (s.helpers.leadText ++ ·.tag)

/-- All element names on offer with the tag helpers behind them, each once. -/
def offers (s : ElementSite) : Offers TagHelper :=
  s.helpers.helpers.foldl
    (fun table h => (s.namesOf h).foldl (fun table name => table.addOnce name h) table) []

end ElementSite

namespace AttributeSite

/-- Whether an attribute of this name is written already, other than the one being completed. -/
def isPresent (s : AttributeSite) (name : String) : Bool :=
  s.attributes.any (fun a => equalFold a.1 name) &&
    match s.current with
    | none => true
    | some current => !equalFold current name

/-- The names under which an attribute is offered here. -/
def namesOf (s : AttributeSite) (a : BoundAttribute) : List String :=
  (if a.name.isEmpty || s.isPresent a.name then [] else [a.name]) ++
    match a.indexer with
    | none => []
    | some lead => [lead ++ "..."]

/-- All attribute names on offer with the attributes behind them. -/
def offers (s : AttributeSite) : Offers BoundAttribute :=
  let applying := s.helpers.helpers.filter (·.appliesTo s.helpers.leadText s.tag s.parent)
  (applying.flatMap (·.attributes)).foldl
    (fun table a => (s.namesOf a).foldl (fun table name => table.add name a) table) []

end AttributeSite

namespace Provider

/-- Offers what the rules of the tag helpers say. -/
def byRules : Provider := ⟨ElementSite.offers, AttributeSite.offers⟩

/-- Offers the same names everywhere. -/
def fixed (elements attributes : List String) : Provider :=
  ⟨fun _ => Offers.ofNames elements, fun _ => Offers.ofNames attributes⟩

end Provider

end PolyglotLsp.Markup
