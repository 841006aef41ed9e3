import PolyglotLsp.Proofs.Markup.Owner
import PolyglotLsp.Proofs.Markup.TagHelper
import PolyglotLsp.Proofs.Text.ByteOrder
import PolyglotLsp.Markup.Completion

/-!
# Attribute names on offer

From an offset among the attributes of a start tag to the names in the answer. The path to the owner
gives the tag, the attribute that the cursor is in and the nearest element around the tag's own one
(`TagSite.at?_of_owned`). Unless the cursor is in a value, the provider is asked
(`query?_of_owned`), and its table has the names of the bound attributes of all tag helpers that
apply (`AttributeSite.tidy_names_offers`). All together is `attributes_exact`.
-/

namespace PolyglotLsp.Markup

/-! ## The table -/

namespace Offers

variable {α : Type} {table : Offers α}

/-- A value under several names. -/
theorem Tidy.add_all (tidy : Tidy table) (value : α) (keys : List String) :
    Tidy (keys.foldl (fun table name => table.add name value) table) ∧
      ∀ key, key ∈ names (keys.foldl (fun table name => table.add name value) table) ↔
        key ∈ keys ∨ key ∈ table.names := by
  induction keys generalizing table with
  | nil => exact ⟨tidy, fun key => by simp⟩
  | cons name rest ih =>
    obtain ⟨rest_tidy, rest_names⟩ := ih (tidy.add name value)
    refine ⟨rest_tidy, fun key => ?_⟩
    rw [List.foldl_cons, rest_names, mem_names_add, List.mem_cons, or_assoc]
    exact or_left_comm

end Offers

namespace AttributeSite

variable {s : AttributeSite} {a : BoundAttribute} {name : String}

/-- The name may be written: no attribute of the tag has it, but perhaps the one being completed. -/
def Free (s : AttributeSite) (name : String) : Prop :=
  (∃ written ∈ s.attributes, equalFold written.1 name = true) →
    ∃ current, s.current = some current ∧ equalFold current name = true

theorem isPresent_eq_false_iff : s.isPresent name = false ↔ s.Free name := by
  rw [isPresent, Free, Bool.and_eq_false_iff, ← Bool.not_eq_true, List.any_eq_true, imp_iff_not_or]
  refine or_congr Iff.rfl ?_
  cases s.current <;> simp

theorem mem_namesOf_iff : name ∈ s.namesOf a ↔
    (a.name = name ∧ name ≠ "" ∧ s.Free name) ∨
      ∃ lead, a.indexer = some lead ∧ name = lead ++ "..." := by
  rw [namesOf, List.mem_append]
  refine or_congr ?_ ?_
  · split
    · next skipped =>
      refine ⟨nofun, ?_⟩
      rintro ⟨rfl, named, free⟩
      rw [← isPresent_eq_false_iff] at free
      simp [free, named] at skipped
    · next kept =>
      rw [Bool.or_eq_true, not_or, Bool.not_eq_true, Bool.not_eq_true,
        isPresent_eq_false_iff] at kept
      rw [List.mem_singleton]
      constructor
      · rintro rfl
        exact ⟨rfl, by simpa using kept.1, kept.2⟩
      · exact fun named => named.1.symm
  · cases a.indexer <;> simp

theorem tidy_names_offers (s : AttributeSite) :
    s.offers.Tidy ∧ ∀ name, name ∈ s.offers.names ↔ ∃ h ∈ s.helpers.helpers,
      h.appliesTo s.helpers.leadText s.tag s.parent = true ∧
        ∃ a ∈ h.attributes, name ∈ s.namesOf a := by
  have go (attributes : List BoundAttribute) (table : Offers BoundAttribute) (tidy : table.Tidy) :
      Offers.Tidy (attributes.foldl (fun table a => (s.namesOf a).foldl
        (fun table name => table.add name a) table) table) ∧
      ∀ name, name ∈ Offers.names (attributes.foldl (fun table a => (s.namesOf a).foldl
        (fun table name => table.add name a) table) table) ↔
        (∃ a ∈ attributes, name ∈ s.namesOf a) ∨ name ∈ table.names := by
    induction attributes generalizing table with
    | nil => exact ⟨tidy, fun name => by simp⟩
    | cons a rest ih =>
      obtain ⟨tidy_a, names_a⟩ := tidy.add_all a (s.namesOf a)
      obtain ⟨tidy_rest, names_rest⟩ := ih _ tidy_a
      refine ⟨tidy_rest, fun name => ?_⟩
      rw [List.foldl_cons, names_rest, names_a, List.exists_mem_cons_iff, or_assoc]
      exact or_left_comm
  obtain ⟨tidy, names⟩ := go ((s.helpers.helpers.filter
    (·.appliesTo s.helpers.leadText s.tag s.parent)).flatMap (·.attributes)) [] Offers.tidy_nil
  refine ⟨tidy, fun name => (names name).trans ?_⟩
  simp only [Offers.names, List.map_nil, List.not_mem_nil, or_false, List.mem_flatMap,
    List.mem_filter]
  constructor
  · rintro ⟨a, ⟨h, ⟨hm, applies⟩, ha⟩, offered⟩
    exact ⟨h, hm, applies, a, ha, offered⟩
  · rintro ⟨h, hm, applies, a, ha, offered⟩
    exact ⟨a, ⟨h, ⟨hm, applies⟩, ha⟩, offered⟩

end AttributeSite

/-! ## The tag at an offset -/

namespace Node

variable {root tag n : Node} {outer path : List Node} {offset : Nat}

/-- The owner of the offset is a tag below `outer`, or an attribute right inside that tag. -/
inductive OwnedBy (root : Node) (offset : Nat) (outer : List Node) (tag : Node) :
    Option (Attribute × Span) → Prop where
  | tag (path : ownerPath offset root = outer ++ [tag]) : OwnedBy root offset outer tag none
  | attr {owner : Node} {a : Attribute} {nameSpan : Span}
      (path : ownerPath offset root = outer ++ [tag, owner])
      (isAttr : owner.kind = .attr a nameSpan) : OwnedBy root offset outer tag (some (a, nameSpan))

/-- The last element of a path. -/
def Nearest (path : List Node) (n : Node) : Prop :=
  ∃ above below, path = above ++ n :: below ∧ n.isElement = true ∧
    ∀ m ∈ below, m.isElement = false

theorem find?_reverse_eq_some_iff : path.reverse.find? isElement = some n ↔ Nearest path n := by
  rw [List.find?_eq_some_iff_append]
  constructor
  · rintro ⟨element, below, above, split, others⟩
    refine ⟨above.reverse, below.reverse, ?_, element, fun m hm => ?_⟩
    · rw [← List.reverse_inj, split]
      simp
    · simpa using others m (List.mem_reverse.1 hm)
  · rintro ⟨above, below, rfl, element, others⟩
    refine ⟨element, below.reverse, above.reverse, by simp, fun m hm => ?_⟩
    simpa using others m (List.mem_reverse.1 hm)

end Node

/-- The cursor is behind the name of the attribute that owns it, and the attribute has a value. -/
def InValue (offset : Nat) (owner : Option (Attribute × Span)) : Prop :=
  ∃ a nameSpan, owner = some (a, nameSpan) ∧ nameSpan.stop < offset ∧ a.hasValue = true

/-- The name that the cursor touches. -/
def touched? (offset : Nat) : Option (Attribute × Span) → Option String
  | some (a, nameSpan) => if nameSpan.touches offset then some a.name else none
  | none => none

namespace TagSite

variable {root tag : Node} {outer : List Node} {offset : Nat} {owner : Option (Attribute × Span)}

theorem at?_of_owned (owned : root.OwnedBy offset outer tag owner) (isTag : tag.isStartTag = true) :
    ∃ attr : Option Node, attr.map Node.kind = owner.map (fun o => .attr o.1 o.2) ∧
      TagSite.at? root offset = some ⟨tag, attr, outer.dropLast.reverse.find? Node.isElement⟩ := by
  have above : outer.reverse.drop 1 = outer.dropLast.reverse := by
    rw [List.drop_one, List.tail_reverse]
  cases owned with
  | tag path =>
    refine ⟨none, rfl, ?_⟩
    rw [← above, at?, path, List.reverse_concat]
    cases kind : tag.kind <;> simp_all [Node.isStartTag, ofPath]
  | @attr owner a nameSpan path isAttr =>
    refine ⟨some owner, by simp [isAttr], ?_⟩
    rw [← above, at?, path, List.reverse_append]
    simp [isAttr, isTag, ofPath]

theorem cursor_eq_value {s : TagSite}
    (attr : s.attr.map Node.kind = owner.map fun o => .attr o.1 o.2) (h : InValue offset owner) :
    s.cursor offset = .value := by
  obtain ⟨a, nameSpan, rfl, behind, valued⟩ := h
  have beyond : nameSpan.touches offset = false := by simpa [Span.touches] using fun _ => behind
  simp [cursor, attr, beyond, behind, valued]

theorem cursor_eq_name {s : TagSite}
    (attr : s.attr.map Node.kind = owner.map fun o => .attr o.1 o.2) (h : ¬ InValue offset owner) :
    s.cursor offset = (touched? offset owner).elim .between .name := by
  rw [cursor, attr]
  rcases owner with - | ⟨a, nameSpan⟩
  · rfl
  · have empty : ¬ (nameSpan.stop < offset ∧ a.hasValue = true) :=
      fun both => h ⟨a, nameSpan, rfl, both⟩
    simp only [Option.map_some, touched?]
    split
    · rfl
    · exact if_neg (by simpa using empty)

end TagSite

/-! ## What is offered -/

/-- No attribute of the tag has the name, unless the one that owns the cursor has it and the cursor
touches it there. -/
def Writable (tag : Node) (offset : Nat) (owner : Option (Attribute × Span)) (name : String) : Prop :=
  (∃ a ∈ tag.attributes, equalFold a.name name = true) →
    ∃ a nameSpan, owner = some (a, nameSpan) ∧ nameSpan.touches offset = true ∧
      equalFold a.name name = true

/-- The tag helper has a rule for the name of the tag, and the nearest element of the path is the
parent that the rule asks for. -/
def TagHelper.AppliesUnder (h : TagHelper) (lead name : String) (path : List Node) : Prop :=
  ∃ r ∈ h.rules, (r.tag = "*" ∨ equalFold (lead ++ r.tag) name = true) ∧
    ∀ required, r.parent = some required → ∃ e parent, Node.Nearest path e ∧
      e.tagName? = some parent ∧ equalFold required parent = true

section Owned

variable {root tag : Node} {outer : List Node} {offset : Nat} {owner : Option (Attribute × Span)}
  {name : String} {nameSpan attributesSpan : Span}

theorem query?_of_owned (owned : root.OwnedBy offset outer tag owner)
    (isTag : tag.kind = .startTag name nameSpan attributesSpan)
    (beside : nameSpan.touches offset = false) (among : attributesSpan.touches offset = true)
    (helpers : TagHelpers) :
    (InValue offset owner → query? root helpers offset = none) ∧
    (¬ InValue offset owner → ∃ flag, query? root helpers offset = some (.attr {
      helpers := helpers.withoutDirectives, current := touched? offset owner, tag := name
      attributes := tag.attributes.map fun a => (a.name, a.value)
      parent := (outer.dropLast.reverse.find? Node.isElement).bind Node.tagName?
      parentIsTagHelper := flag })) := by
  obtain ⟨attr, kinds, site⟩ := TagSite.at?_of_owned owned (by simp [Node.isStartTag, isTag])
  simp only [query?, site, Option.bind_eq_bind, Option.bind_some, isTag, beside, among, if_true,
    Bool.false_eq_true, if_false]
  refine ⟨fun value => ?_, fun outside => ⟨TagSite.parentIsTagHelper
    ⟨tag, attr, outer.dropLast.reverse.find? Node.isElement⟩, ?_⟩⟩
  · rw [TagSite.cursor_eq_value kinds value]
  · rw [TagSite.cursor_eq_name kinds outside]
    cases touched? offset owner <;> rfl

theorem attributeItem_display (snippets : Bool) (name : String) (attributes : List BoundAttribute) :
    (attributeItem snippets name attributes).display = name := by
  unfold attributeItem
  split
  · rfl
  · dsimp only
    split <;> rfl

theorem free_iff_writable {s : AttributeSite}
    (written : s.attributes = tag.attributes.map fun a => (a.name, a.value))
    (current : s.current = touched? offset owner) : s.Free name ↔ Writable tag offset owner name := by
  rw [AttributeSite.Free, Writable, written, current]
  refine imp_congr (by simp) ?_
  rcases owner with - | ⟨a, nameSpan⟩
  · simp [touched?]
  · by_cases touches : nameSpan.touches offset = true <;> simp [touched?, touches]

theorem appliesTo_iff_under {h : TagHelper} {lead : String} {path : List Node} :
    h.appliesTo lead name ((path.reverse.find? Node.isElement).bind Node.tagName?) = true ↔
      h.AppliesUnder lead name path := by
  rw [TagHelper.appliesTo_iff, TagHelper.AppliesUnder]
  simp only [Option.bind_eq_some_iff, Node.find?_reverse_eq_some_iff]
  refine exists_congr fun r => and_congr_right fun _ => and_congr_right fun _ =>
    forall₂_congr fun required _ => ?_
  constructor
  · rintro ⟨parent, ⟨e, nearest, named⟩, same⟩
    exact ⟨e, parent, nearest, named, same⟩
  · rintro ⟨e, parent, nearest, named, same⟩
    exact ⟨parent, ⟨e, nearest, named⟩, same⟩

/-- Behind the name of an attribute with a value nothing is offered. Elsewhere among the attributes
of a tag the names in the answer strictly increase as bytes, and they are those of the bound
attributes, and of their indexers, of the tag helpers without directives that apply to the tag; the
element around the tag's own one is its parent. A name that is written on the tag is left out,
unless it is the one that the cursor touches. -/
theorem attributes_exact (owned : root.OwnedBy offset outer tag owner)
    (isTag : tag.kind = .startTag name nameSpan attributesSpan)
    (beside : nameSpan.touches offset = false) (among : attributesSpan.touches offset = true)
    (helpers : TagHelpers) (snippets : Bool) :
    let shown := (completions .byRules root helpers offset snippets).map (·.display)
    (InValue offset owner → completions .byRules root helpers offset snippets = []) ∧
    (¬ InValue offset owner →
      shown.Pairwise (fun a b => Text.utf8Bytes a.toList < Text.utf8Bytes b.toList) ∧
      ∀ offered, offered ∈ shown ↔ ∃ h ∈ helpers.helpers,
        (∀ a ∈ h.attributes, a.isDirective = false) ∧
        h.AppliesUnder helpers.leadText name outer.dropLast ∧
        ∃ a ∈ h.attributes, (a.name = offered ∧ offered ≠ "" ∧ Writable tag offset owner offered) ∨
          ∃ lead, a.indexer = some lead ∧ offered = lead ++ "...") := by
  obtain ⟨value, outside⟩ := query?_of_owned owned isTag beside among helpers
  refine ⟨fun inside => by rw [completions, value inside], fun h => ?_⟩
  obtain ⟨flag, asked⟩ := outside h
  let site : AttributeSite :=
    { helpers := helpers.withoutDirectives, current := touched? offset owner, tag := name
      attributes := tag.attributes.map fun a => (a.name, a.value)
      parent := (outer.dropLast.reverse.find? Node.isElement).bind Node.tagName?
      parentIsTagHelper := flag }
  have shown : (completions .byRules root helpers offset snippets).map (·.display) =
      site.offers.names := by
    rw [completions, asked]
    simp only [Query.items, List.map_map, Offers.names]
    exact List.map_congr_left fun e _ => attributeItem_display snippets e.1 e.2
  obtain ⟨tidy, names⟩ := site.tidy_names_offers
  rw [shown]
  refine ⟨tidy.increasing.imp fun less => Text.utf8Bytes_lt_utf8Bytes less, fun offered => ?_⟩
  simp only [names, AttributeSite.mem_namesOf_iff, free_iff_writable (s := site) rfl rfl]
  have directives {h : TagHelper} : h ∈ site.helpers.helpers ↔
      h ∈ helpers.helpers ∧ ∀ a ∈ h.attributes, a.isDirective = false := by
    simp [site, TagHelpers.withoutDirectives, TagHelper.bindsDirective]
  have applies {h : TagHelper} : h.appliesTo site.helpers.leadText site.tag site.parent = true ↔
      h.AppliesUnder helpers.leadText name outer.dropLast := appliesTo_iff_under
  simp only [directives, applies, and_assoc]

end Owned

def itemValue : Node := .mk (.attr (.markup "b" "1") ⟨7, 8⟩) ⟨6, 12⟩ []

def itemName : Node := .mk (.attr (.minimizedMarkup "C") ⟨13, 14⟩) ⟨12, 14⟩ []

def itemTag : Node := .mk (.startTag "a" ⟨5, 6⟩ ⟨6, 15⟩) ⟨4, 16⟩ [itemValue, itemName]

def itemElement : Node := .mk (.element true) ⟨4, 16⟩ [itemTag]

def listElement : Node :=
  .mk (.element false) ⟨0, 16⟩ [.mk (.startTag "ul" ⟨1, 3⟩ ⟨3, 3⟩) ⟨0, 4⟩ [], itemElement]

/-- The tree of `<ul><a b="1" C >`. -/
def listDocument : Node := .mk .document ⟨0, 16⟩ [listElement]

/-- A tag helper for anchors in lists. -/
def link : TagHelper :=
  ⟨0, "Link", none, [⟨"A", some "UL"⟩],
    [⟨"b", none, none, none, false, none⟩, ⟨"c", none, some "c-", none, false, none⟩], [], false⟩

theorem link_appliesUnder : link.AppliesUnder "" "a" [listDocument, listElement] := by
  have sameTag : equalFold ("" ++ "A") "a" = true := equalFold_iff.2 (by decide)
  have sameParent : equalFold "UL" "ul" = true := equalFold_iff.2 (by decide)
  refine ⟨⟨"A", some "UL"⟩, List.mem_cons_self, .inr sameTag, fun required asks => ?_⟩
  rw [← Option.some.inj asks]
  exact ⟨listElement, "ul", ⟨[listDocument], [], rfl, rfl, by simp⟩, rfl, sameParent⟩

/-- Right behind the name `C` this name and its indexer are offered, but not the name written
before it; in the value of that name nothing is. -/
theorem attributes_exact_list :
    completions .byRules listDocument ⟨none, [link]⟩ 11 false = [] ∧
    "c" ∈ (completions .byRules listDocument ⟨none, [link]⟩ 14 false).map (·.display) ∧
    "c-..." ∈ (completions .byRules listDocument ⟨none, [link]⟩ 14 false).map (·.display) ∧
    "b" ∉ (completions .byRules listDocument ⟨none, [link]⟩ 14 false).map (·.display) := by
  have behindValue := @attributes_exact listDocument itemTag [listDocument, listElement, itemElement]
    11 _ _ _ _ (.attr (show _ = _ ++ [itemTag, itemValue] from rfl) rfl) rfl rfl rfl ⟨none, [link]⟩ false
  have behindName := @attributes_exact listDocument itemTag [listDocument, listElement, itemElement]
    14 _ _ _ _ (.attr (show _ = _ ++ [itemTag, itemName] from rfl) rfl) rfl rfl rfl ⟨none, [link]⟩ false
  have outside : ¬ InValue 14 (some (.minimizedMarkup "C", ⟨13, 14⟩)) := by
    rintro ⟨a, nameSpan, same, behind, -⟩
    obtain ⟨-, rfl⟩ := Prod.mk.inj (Option.some.inj same)
    exact absurd behind (by decide)
  obtain ⟨-, offered⟩ := behindName.2 outside
  have plain : ∀ a ∈ link.attributes, a.isDirective = false := by simp [link]
  have touched : equalFold "C" "c" = true := equalFold_iff.2 (by decide)
  have differ : ¬ equalFold "C" "b" = true := mt equalFold_iff.1 (by decide)
  have written : equalFold "b" "b" = true := equalFold_iff.2 rfl
  refine ⟨behindValue.1 ⟨_, _, rfl, by decide, rfl⟩, ?_, ?_, ?_⟩
  · exact (offered "c").2 ⟨link, List.mem_cons_self, plain, link_appliesUnder, _,
      List.mem_cons_of_mem _ List.mem_cons_self,
      .inl ⟨rfl, by decide, fun _ => ⟨_, _, rfl, by decide, touched⟩⟩⟩
  · exact (offered "c-...").2 ⟨link, List.mem_cons_self, plain, link_appliesUnder, _,
      List.mem_cons_of_mem _ List.mem_cons_self, .inr ⟨"c-", rfl, by decide⟩⟩
  · intro shown
    obtain ⟨h, hm, -, -, a, ha, ⟨-, -, free⟩ | ⟨lead, -, same⟩⟩ := (offered "b").1 shown
    · obtain ⟨a, nameSpan, same, -, named⟩ := free ⟨_, List.mem_cons_self, written⟩
      obtain ⟨rfl, -⟩ := Prod.mk.inj (Option.some.inj same)
      exact differ named
    · have lengths := congrArg String.length same
      rw [String.length_append, show "b".length = 1 from rfl,
        show "...".length = 3 from rfl] at lengths
      omega

end PolyglotLsp.Markup
