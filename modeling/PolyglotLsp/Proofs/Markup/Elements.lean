import PolyglotLsp.Proofs.Markup.TagHelper
import Mathlib.Data.List.Nodup
import Mathlib.Data.List.Perm.Basic

/-!
# Element names on offer

A rule's name stands in the table exactly if the rule may be used at the site
(`ElementSite.admits_iff`), under it the tag helpers with such a rule, each once and in the order of
the document (`ElementSite.under_offers`). Which names and which tag helpers these are does not rest
on the order of tag helpers or rules (`ElementSite.Reordered.offers`). All together is
`elements_exact`.
-/

namespace PolyglotLsp.Markup

/-! ## Tag helpers that are kept once -/

namespace Offers

theorem prefix_keep (kept : List TagHelper) (h : TagHelper) : kept <+: keep kept h := by
  unfold keep
  split
  · exact List.prefix_rfl
  · exact List.prefix_append ..

theorem id_mem_keep (kept : List TagHelper) (h : TagHelper) :
    h.id ∈ (keep kept h).map (·.id) := by
  unfold keep
  split
  · next there =>
    obtain ⟨h', hm, same⟩ := List.any_eq_true.1 there
    exact List.mem_map.2 ⟨h', hm, beq_iff_eq.1 same⟩
  · simp

theorem nodup_keep {kept : List TagHelper} (nodup : (kept.map (·.id)).Nodup) (h : TagHelper) :
    ((keep kept h).map (·.id)).Nodup := by
  unfold keep
  split
  · exact nodup
  · next absent =>
    rw [List.map_append, List.map_singleton, List.nodup_append]
    refine ⟨nodup, List.nodup_singleton _, fun id hid id' hid' same => ?_⟩
    obtain ⟨h', hm, rfl⟩ := List.mem_map.1 hid
    rw [List.mem_singleton.1 hid'] at same
    exact absent (List.any_eq_true.2 ⟨h', hm, beq_iff_eq.2 same⟩)

theorem keep_sublist (kept : List TagHelper) (h : TagHelper) : (keep kept h).Sublist (kept ++ [h]) := by
  unfold keep
  split
  · exact List.sublist_append_left ..
  · exact .refl _

/-- What is kept of a list comes from it in its order. -/
theorem foldl_keep_sublist (kept helpers : List TagHelper) :
    (helpers.foldl keep kept).Sublist (kept ++ helpers) := by
  induction helpers generalizing kept with
  | nil => simp
  | cons h rest ih =>
    have first := (keep_sublist kept h).append (List.Sublist.refl rest)
    rw [List.append_assoc] at first
    exact (ih (keep kept h)).trans first

theorem nodup_foldl_keep {kept : List TagHelper} (nodup : (kept.map (·.id)).Nodup)
    (helpers : List TagHelper) : ((helpers.foldl keep kept).map (·.id)).Nodup := by
  induction helpers generalizing kept with
  | nil => exact nodup
  | cons h rest ih => exact ih (nodup_keep nodup h)

theorem prefix_foldl_keep (kept helpers : List TagHelper) : kept <+: helpers.foldl keep kept := by
  induction helpers generalizing kept with
  | nil => exact List.prefix_rfl
  | cons h rest ih => exact (prefix_keep kept h).trans (ih _)

theorem id_mem_foldl_keep {helpers : List TagHelper} {h : TagHelper} (hm : h ∈ helpers)
    (kept : List TagHelper) : h.id ∈ (helpers.foldl keep kept).map (·.id) := by
  induction helpers generalizing kept with
  | nil => cases hm
  | cons first rest ih =>
    rcases List.mem_cons.1 hm with rfl | hm
    · exact ((prefix_foldl_keep (keep kept h) rest).map _).subset (id_mem_keep kept h)
    · exact ih hm _

end Offers

namespace ElementSite

variable {s t : ElementSite} {h : TagHelper} {r : MatchingRule} {name child : String}

/-! ## Rules that may be used at a site -/

/-- A tag helper of the parent, by a rule for its name that asks for no parent, lists this child. -/
def Allows (s : ElementSite) (child : String) : Prop :=
  ∃ parent, s.parent = some parent ∧ ∃ h ∈ s.helpers.helpers,
    (∃ r ∈ h.rules, (r.tag = "*" ∨ equalFold (s.helpers.leadText ++ r.tag) parent = true) ∧
      r.parent = none) ∧ child ∈ h.allowedChildren

/-- The rule is for one name, not one of HTML, that may stand under the parent. -/
structure Fits (s : ElementSite) (r : MatchingRule) : Prop where
  particular : r.tag ≠ "*"
  foreign : ∀ tag ∈ htmlTagNames, equalFold tag r.tag = false
  under : ∀ required, r.parent = some required →
    ∃ parent, s.parent = some parent ∧ equalFold required parent = true
  allowed : s.parentIsTagHelper = true → (∃ child, s.Allows child) →
    ∃ child, s.Allows child ∧ equalFold child r.tag = true

/-- The tag helper has a rule for an element of this name that may stand at the site. -/
def Names (s : ElementSite) (h : TagHelper) (name : String) : Prop :=
  ∃ r ∈ h.rules, s.Fits r ∧ s.helpers.leadText ++ r.tag = name

theorem allows_iff {parent : String} (hp : s.parent = some parent) :
    s.Allows child ↔ child ∈ (s.helpers.helpers.filter
      (·.appliesTo s.helpers.leadText parent none)).flatMap (·.allowedChildren) := by
  have unrestricted (r : MatchingRule) : (∀ required, r.parent = some required →
      ∃ actual, none = some actual ∧ equalFold required actual = true) ↔ r.parent = none := by
    simp [Option.eq_none_iff_forall_ne_some]
  simp only [Allows, hp, Option.some.injEq, exists_eq_left', List.mem_flatMap, List.mem_filter,
    TagHelper.appliesTo_iff, unrestricted, and_assoc]

/-- The children that a site allows, if its parent restricts them. -/
theorem allowedChildren?_cases (s : ElementSite) :
    s.allowedChildren? = none ∧ (s.parentIsTagHelper = true → ¬ ∃ child, s.Allows child) ∨
      ∃ allowed, s.allowedChildren? = some allowed ∧ s.parentIsTagHelper = true ∧
        (∃ child, s.Allows child) ∧ ∀ child, child ∈ allowed ↔ s.Allows child := by
  cases flag : s.parentIsTagHelper with
  | false => exact .inl ⟨by simp [allowedChildren?, flag], nofun⟩
  | true =>
    cases hp : s.parent with
    | none => exact .inl ⟨by simp [allowedChildren?, flag, hp], fun _ => by simp [Allows, hp]⟩
    | some parent =>
      simp only [allowedChildren?, flag, if_true, hp]
      split
      · next empty =>
        refine .inl ⟨rfl, fun _ ⟨child, allows⟩ => ?_⟩
        rw [allows_iff hp, List.isEmpty_iff.1 empty] at allows
        cases allows
      · next listed =>
        rw [List.isEmpty_iff] at listed
        obtain ⟨child, first⟩ := List.exists_mem_of_ne_nil _ listed
        exact .inr ⟨_, rfl, trivial, ⟨child, (allows_iff hp).2 first⟩,
          fun child => (allows_iff hp).symm⟩

theorem admits_iff : s.admits r = true ↔ s.Fits r := by
  have particular : (!r.matchesAll) = true ↔ r.tag ≠ "*" := by simp [MatchingRule.matchesAll]
  have foreign : (!isHtmlTagName r.tag) = true ↔
      ∀ tag ∈ htmlTagNames, equalFold tag r.tag = false := by simp [isHtmlTagName]
  simp only [admits, Bool.and_eq_true, particular, foreign, MatchingRule.allowsParent_iff]
  rcases s.allowedChildren?_cases with ⟨free, none⟩ | ⟨allowed, some, flag, exists_child, mem⟩
  · rw [free]
    constructor
    · rintro ⟨⟨⟨particular, foreign⟩, under⟩, -⟩
      exact ⟨particular, foreign, under, fun flag any => absurd any (none flag)⟩
    · exact fun fits => ⟨⟨⟨fits.particular, fits.foreign⟩, fits.under⟩, rfl⟩
  · simp only [some, List.any_eq_true, mem]
    constructor
    · rintro ⟨⟨⟨particular, foreign⟩, under⟩, child⟩
      exact ⟨particular, foreign, under, fun _ _ => child⟩
    · exact fun fits =>
        ⟨⟨⟨fits.particular, fits.foreign⟩, fits.under⟩, fits.allowed flag exists_child⟩

theorem mem_namesOf_iff : name ∈ s.namesOf h ↔ s.Names h name := by
  simp only [namesOf, List.mem_map, List.mem_filter, admits_iff, Names, and_assoc]

/-! ## The table -/

theorem tidy_under_offers (s : ElementSite) :
    s.offers.Tidy ∧ ∀ name, s.offers.under name =
      (s.helpers.helpers.filter (name ∈ s.namesOf ·)).foldl Offers.keep [] := by
  have go (helpers : List TagHelper) (table : Offers TagHelper) (tidy : table.Tidy) :
      Offers.Tidy (helpers.foldl (fun table h => (s.namesOf h).foldl
        (fun table name => table.addOnce name h) table) table) ∧
      ∀ name, Offers.under name (helpers.foldl (fun table h => (s.namesOf h).foldl
        (fun table name => table.addOnce name h) table) table) =
        (helpers.filter (name ∈ s.namesOf ·)).foldl Offers.keep (table.under name) := by
    induction helpers generalizing table with
    | nil => exact ⟨tidy, fun _ => rfl⟩
    | cons h rest ih =>
      obtain ⟨tidy_h, under_h⟩ := tidy.addOnce_all (h := h) (s.namesOf h)
      obtain ⟨tidy_rest, under_rest⟩ := ih _ tidy_h
      refine ⟨tidy_rest, fun name => ?_⟩
      rw [List.foldl_cons, under_rest, under_h, List.filter_cons]
      by_cases hn : name ∈ s.namesOf h
      · rw [if_pos hn, if_pos (by simpa using hn), List.foldl_cons]
      · rw [if_neg hn, if_neg (by simpa using hn)]
  exact go s.helpers.helpers [] Offers.tidy_nil

/-- Under a name stand tag helpers that offer it, in their order, each once, and none is left out.
-/
theorem under_offers (s : ElementSite) (name : String) :
    (s.offers.under name).Sublist s.helpers.helpers ∧
      ((s.offers.under name).map (·.id)).Nodup ∧ (∀ h ∈ s.offers.under name, s.Names h name) ∧
      ∀ h ∈ s.helpers.helpers, s.Names h name → h.id ∈ (s.offers.under name).map (·.id) := by
  rw [(tidy_under_offers s).2 name]
  have kept : ((s.helpers.helpers.filter (name ∈ s.namesOf ·)).foldl Offers.keep []).Sublist
      (s.helpers.helpers.filter (name ∈ s.namesOf ·)) := Offers.foldl_keep_sublist [] _
  have once := @Offers.nodup_foldl_keep [] List.nodup_nil
    (s.helpers.helpers.filter (name ∈ s.namesOf ·))
  refine ⟨kept.trans List.filter_sublist, once, fun h hm => ?_, fun h hm names =>
    Offers.id_mem_foldl_keep (List.mem_filter.2 ⟨hm, ?_⟩) _⟩
  · exact mem_namesOf_iff.1 (by simpa using (List.mem_filter.1 (kept.subset hm)).2)
  · simpa using mem_namesOf_iff.2 names

theorem mem_names_offers_iff :
    name ∈ s.offers.names ↔ ∃ h ∈ s.helpers.helpers, s.Names h name := by
  obtain ⟨order, -, sound, complete⟩ := s.under_offers name
  rw [(tidy_under_offers s).1.mem_names_iff]
  constructor
  · intro listed
    obtain ⟨h, hm⟩ := List.exists_mem_of_ne_nil _ listed
    exact ⟨h, order.subset hm, sound h hm⟩
  · rintro ⟨h, hm, names⟩ none
    simpa [none] using complete h hm names

theorem mem_ids_offers_iff {id : Nat} : id ∈ (s.offers.under name).map (·.id) ↔
    ∃ h ∈ s.helpers.helpers, s.Names h name ∧ h.id = id := by
  obtain ⟨order, -, sound, complete⟩ := s.under_offers name
  constructor
  · intro listed
    obtain ⟨h, hm, rfl⟩ := List.mem_map.1 listed
    exact ⟨h, order.subset hm, sound h hm, rfl⟩
  · rintro ⟨h, hm, names, rfl⟩
    exact complete h hm names

end ElementSite

/-! ## Other orders -/

/-- The same tag helper up to the order of its rules. -/
def TagHelper.Reordered (h h' : TagHelper) : Prop :=
  h' = { h with rules := h'.rules } ∧ h.rules.Perm h'.rules

theorem TagHelper.Reordered.symm {h h' : TagHelper} (same : h.Reordered h') : h'.Reordered h := by
  refine ⟨?_, same.2.symm⟩
  rw [same.1]

namespace ElementSite

variable {s t : ElementSite} {h : TagHelper} {r : MatchingRule} {name child : String}

/-- The same site up to the order of the tag helpers and of their rules. -/
structure Reordered (s t : ElementSite) : Prop where
  lead : t.helpers.lead = s.helpers.lead
  parent : t.parent = s.parent
  flag : t.parentIsTagHelper = s.parentIsTagHelper
  helpers : ∃ between, s.helpers.helpers.Perm between ∧
    List.Forall₂ TagHelper.Reordered between t.helpers.helpers

/-- Every tag helper of one site is one of the other, up to the order of its rules. -/
structure Alike (s t : ElementSite) : Prop where
  lead : t.helpers.lead = s.helpers.lead
  parent : t.parent = s.parent
  flag : t.parentIsTagHelper = s.parentIsTagHelper
  there : ∀ h ∈ s.helpers.helpers, ∃ h' ∈ t.helpers.helpers, h.Reordered h'
  back : ∀ h' ∈ t.helpers.helpers, ∃ h ∈ s.helpers.helpers, h'.Reordered h

theorem exists_of_forall₂ {α β : Type} {R : α → β → Prop} {l : List α} {l' : List β}
    (h : List.Forall₂ R l l') {a : α} (ha : a ∈ l) : ∃ b ∈ l', R a b := by
  induction h with
  | nil => cases ha
  | cons first rest ih =>
    rcases List.mem_cons.1 ha with rfl | ha
    · exact ⟨_, List.mem_cons_self, first⟩
    · obtain ⟨b, hb, related⟩ := ih ha
      exact ⟨b, List.mem_cons_of_mem _ hb, related⟩

theorem Reordered.alike (same : s.Reordered t) : s.Alike t := by
  obtain ⟨between, reordered, below⟩ := same.helpers
  refine ⟨same.lead, same.parent, same.flag,
    fun h hm => exists_of_forall₂ below (reordered.mem_iff.1 hm), fun h' hm => ?_⟩
  obtain ⟨h, hb, related⟩ := exists_of_forall₂ below.flip hm
  exact ⟨h, reordered.mem_iff.2 hb, TagHelper.Reordered.symm related⟩

namespace Alike

theorem symm (same : s.Alike t) : t.Alike s :=
  ⟨same.lead.symm, same.parent.symm, same.flag.symm, same.back, same.there⟩

theorem leadText (same : s.Alike t) : t.helpers.leadText = s.helpers.leadText := by
  rw [TagHelpers.leadText, TagHelpers.leadText, same.lead]

theorem allows (same : s.Alike t) (allows : s.Allows child) : t.Allows child := by
  obtain ⟨parent, hp, h, hm, ⟨r, hr, names, free⟩, listed⟩ := allows
  obtain ⟨h', hm', related⟩ := same.there h hm
  refine ⟨parent, same.parent.trans hp, h', hm', ⟨r, related.2.mem_iff.1 hr, ?_, free⟩, ?_⟩
  · rwa [same.leadText]
  · rwa [related.1]

theorem fits (same : s.Alike t) (fits : s.Fits r) : t.Fits r := by
  refine ⟨fits.particular, fits.foreign, fun required asks => ?_, fun flag any => ?_⟩
  · rw [same.parent]
    exact fits.under required asks
  · obtain ⟨child, allowed⟩ := any
    obtain ⟨child, allowed, named⟩ :=
      fits.allowed (same.flag.symm.trans flag) ⟨child, same.symm.allows allowed⟩
    exact ⟨child, same.allows allowed, named⟩

theorem names {h' : TagHelper} (same : s.Alike t) (related : h.Reordered h')
    (names : s.Names h name) : t.Names h' name := by
  obtain ⟨r, hr, fits, rfl⟩ := names
  exact ⟨r, related.2.mem_iff.1 hr, same.fits fits, by rw [same.leadText]⟩

theorem mem_names_of (same : s.Alike t) (hn : name ∈ s.offers.names) : name ∈ t.offers.names := by
  obtain ⟨h, hm, names⟩ := mem_names_offers_iff.1 hn
  obtain ⟨h', hm', related⟩ := same.there h hm
  exact mem_names_offers_iff.2 ⟨h', hm', same.names related names⟩

theorem mem_ids_of {id : Nat} (same : s.Alike t) (hid : id ∈ (s.offers.under name).map (·.id)) :
    id ∈ (t.offers.under name).map (·.id) := by
  obtain ⟨h, hm, names, rfl⟩ := mem_ids_offers_iff.1 hid
  obtain ⟨h', hm', related⟩ := same.there h hm
  exact mem_ids_offers_iff.2 ⟨h', hm', same.names related names, by rw [related.1]⟩

end Alike

/-- The order of tag helpers and rules decides neither the names nor who stands under them. -/
theorem Reordered.offers (same : s.Reordered t) : t.offers.names = s.offers.names ∧
    ∀ name, ((t.offers.under name).map (·.id)).Perm ((s.offers.under name).map (·.id)) := by
  have alike := same.alike
  have increasing (u : ElementSite) := (tidy_under_offers u).1.increasing
  have distinct (u : ElementSite) : u.offers.names.Nodup :=
    (increasing u).imp fun {a b} (lt : a < b) (same : a = b) => String.lt_irrefl b (same ▸ lt)
  refine ⟨?_, fun name => ?_⟩
  · have perm : t.offers.names.Perm s.offers.names :=
      (List.perm_ext_iff_of_nodup (distinct t) (distinct s)).2 fun name =>
        ⟨alike.symm.mem_names_of, alike.mem_names_of⟩
    exact perm.eq_of_pairwise (fun a b _ _ ab ba => absurd ba (String.lt_asymm ab))
      (increasing t) (increasing s)
  · exact (List.perm_ext_iff_of_nodup (t.under_offers name).2.1 (s.under_offers name).2.1).2
      fun id => ⟨alike.symm.mem_ids_of, alike.mem_ids_of⟩

end ElementSite

/-! ## What is offered -/

/-- Names are offered exactly for rules that may be used at the site; under a name stand the tag
helpers with such a rule, each once and in the order of the document; and another order of tag
helpers or rules gives the same names with the same tag helpers. -/
theorem elements_exact (s : ElementSite) :
    (∀ name, name ∈ (Provider.byRules.elements s).names ↔
      ∃ h ∈ s.helpers.helpers, s.Names h name) ∧
    (∀ name helpers, (name, helpers) ∈ Provider.byRules.elements s →
      helpers.Sublist s.helpers.helpers ∧ (helpers.map (·.id)).Nodup ∧
      (∀ h ∈ helpers, s.Names h name) ∧
      ∀ h ∈ s.helpers.helpers, s.Names h name → h.id ∈ helpers.map (·.id)) ∧
    ∀ t, s.Reordered t →
      (Provider.byRules.elements t).names = (Provider.byRules.elements s).names ∧
      ∀ name, (((Provider.byRules.elements t).under name).map (·.id)).Perm
        (((Provider.byRules.elements s).under name).map (·.id)) := by
  refine ⟨fun name => ElementSite.mem_names_offers_iff, fun name helpers listed => ?_,
    fun t same => same.offers⟩
  have tidy : s.offers.Tidy := (ElementSite.tidy_under_offers s).1
  rw [← tidy.under_of_mem listed]
  exact s.under_offers name

def grid : TagHelper := ⟨0, "Grid", none, [⟨"grid", none⟩], [], ["ROW"], false⟩

def underGrid : MatchingRule := ⟨"row", some "TH:grid"⟩

def anywhere : MatchingRule := ⟨"row", none⟩

/-- A tag helper for rows with these rules. -/
def rowBy (rules : List MatchingRule) : TagHelper := ⟨1, "Row", none, rules, [], [], false⟩

/-- Where a child of the tag helper `th:grid` is written, with two rules for rows in a tag helper
that is listed twice. -/
def insideGrid : ElementSite :=
  ⟨⟨some "th:", [rowBy [underGrid, anywhere], grid, rowBy [underGrid, anywhere]]⟩, none, [],
    some "th:grid", true⟩

/-- The same place with everything in another order. -/
def insideGrid' : ElementSite :=
  ⟨⟨some "th:", [grid, rowBy [anywhere, underGrid], rowBy [anywhere, underGrid]]⟩, none, [],
    some "th:grid", true⟩

theorem insideGrid_reordered : insideGrid.Reordered insideGrid' := by
  have unchanged (h : TagHelper) : h.Reordered h := ⟨rfl, .refl _⟩
  have swapped : (rowBy [underGrid, anywhere]).Reordered (rowBy [anywhere, underGrid]) :=
    ⟨rfl, .swap anywhere underGrid []⟩
  exact ⟨rfl, rfl, rfl, [grid, rowBy [underGrid, anywhere], rowBy [underGrid, anywhere]],
    .swap grid _ [_], .cons (unchanged grid) (.cons swapped (.cons swapped .nil))⟩

theorem names_insideGrid : insideGrid.Names (rowBy [underGrid, anywhere]) "th:row" := by
  have foreign : ∀ tag ∈ htmlTagNames, equalFold tag "row" = false := by
    simp only [← Bool.not_eq_true, equalFold_iff]
    decide +kernel
  have inGrid : equalFold "TH:grid" "th:grid" = true := equalFold_iff.2 (by decide)
  have sameGrid : equalFold "th:grid" "th:grid" = true := equalFold_iff.2 rfl
  have sameRow : equalFold "ROW" "row" = true := equalFold_iff.2 (by decide)
  have allows : insideGrid.Allows "ROW" :=
    ⟨"th:grid", rfl, grid, by simp [insideGrid],
      ⟨⟨"grid", none⟩, List.mem_cons_self, .inr sameGrid, rfl⟩, List.mem_cons_self⟩
  refine ⟨underGrid, List.mem_cons_self, ⟨by simp [underGrid], foreign,
    fun required asks => ⟨"th:grid", rfl, ?_⟩, fun _ _ => ⟨"ROW", allows, sameRow⟩⟩, by decide⟩
  rw [← Option.some.inj asks]
  exact inGrid

/-- The name is offered whatever the order, and the tag helper, listed twice, stands there once. -/
theorem elements_exact_grid :
    insideGrid.Names (rowBy [underGrid, anywhere]) "th:row" ∧ insideGrid.Reordered insideGrid' ∧
    "th:row" ∈ (Provider.byRules.elements insideGrid).names ∧
    "th:row" ∈ (Provider.byRules.elements insideGrid').names ∧
    ∀ helpers, ("th:row", helpers) ∈ Provider.byRules.elements insideGrid →
      1 ∈ helpers.map (·.id) ∧ (helpers.map (·.id)).Nodup := by
  obtain ⟨names, under, orders⟩ := elements_exact insideGrid
  have offered : "th:row" ∈ (Provider.byRules.elements insideGrid).names :=
    (names "th:row").2 ⟨_, List.mem_cons_self, names_insideGrid⟩
  refine ⟨names_insideGrid, insideGrid_reordered, offered, ?_, fun helpers listed => ?_⟩
  · rwa [(orders insideGrid' insideGrid_reordered).1]
  · obtain ⟨-, once, -, complete⟩ := under "th:row" helpers listed
    exact ⟨complete _ List.mem_cons_self names_insideGrid, once⟩

end PolyglotLsp.Markup
