import PolyglotLsp.Markup.TagHelper
import Mathlib.Data.List.Basic

/-!
# Rules of tag helpers and tables of offers

What the rules of a tag helper say about an element and its parent (`TagHelper.appliesTo_iff`).

Names increase in a table of offers, and something is listed under each of them (`Tidy`), so that
looking a name up gives what stands under it (`Tidy.under_of_mem`). An entry goes to the end of its
name's list and leaves the other names alone (`Tidy.under_add`); a tag helper that is added once
stays where it stands if it is there already (`Tidy.under_addOnce`).
-/

namespace PolyglotLsp.Markup

/-! ## Rules -/

theorem equalFold_iff {a b : String} :
    equalFold a b = true ↔ a.toList.map Char.toLower = b.toList.map Char.toLower := by
  rw [equalFold, beq_iff_eq, foldCase, foldCase, ← String.toList_inj, String.toList_map,
    String.toList_map]

theorem MatchingRule.allowsParent_iff {r : MatchingRule} {parent : Option String} :
    r.allowsParent parent = true ↔ ∀ required, r.parent = some required →
      ∃ actual, parent = some actual ∧ equalFold required actual = true := by
  unfold allowsParent
  cases r.parent <;> cases parent <;> simp

theorem TagHelper.appliesTo_iff {h : TagHelper} {lead tag : String} {parent : Option String} :
    h.appliesTo lead tag parent = true ↔
      ∃ r ∈ h.rules, (r.tag = "*" ∨ equalFold (lead ++ r.tag) tag = true) ∧
        ∀ required, r.parent = some required →
          ∃ actual, parent = some actual ∧ equalFold required actual = true := by
  simp only [appliesTo, List.any_eq_true, Bool.and_eq_true, Bool.or_eq_true,
    MatchingRule.allowsParent_iff, MatchingRule.matchesAll, beq_iff_eq]

namespace Offers

variable {α : Type} {table : Offers α} {name key : String} {value : α} {values : List α}

/-- The names of a table. -/
def names (table : Offers α) : List String := table.map (·.1)

/-- Names increase, and something is listed under each. -/
structure Tidy (table : Offers α) : Prop where
  increasing : table.names.Pairwise (· < ·)
  listed : ∀ e ∈ table, e.2 ≠ []

theorem tidy_nil : Tidy ([] : Offers α) := ⟨.nil, nofun⟩

theorem Tidy.tail {e : String × List α} (h : Tidy (e :: table)) : Tidy table :=
  ⟨(List.pairwise_cons.1 h.increasing).2, fun e' he' => h.listed e' (List.mem_cons_of_mem _ he')⟩

theorem Tidy.lt_of_mem_names {e : String × List α} (h : Tidy (e :: table))
    (hk : key ∈ table.names) : e.1 < key := (List.pairwise_cons.1 h.increasing).1 key hk

/-! ## Looking up -/

@[simp] theorem under_nil (key : String) : under key ([] : Offers α) = [] := rfl

theorem under_cons (e : String × List α) :
    under key (e :: table) = if key = e.1 then e.2 else table.under key := by
  obtain ⟨name, values⟩ := e
  rw [under, List.lookup_cons]
  by_cases h : key = name
  · simp [h]
  · rw [if_neg h, beq_eq_false_iff_ne.2 h, under]

theorem under_eq_nil (h : key ∉ table.names) : table.under key = [] := by
  induction table with
  | nil => rfl
  | cons e rest ih =>
    rw [names, List.map_cons, List.mem_cons, not_or] at h
    rw [under_cons, if_neg h.1, ih h.2]

theorem Tidy.under_of_mem (h : Tidy table) (he : (key, values) ∈ table) :
    table.under key = values := by
  induction table with
  | nil => cases he
  | cons e rest ih =>
    rw [under_cons]
    rcases List.mem_cons.1 he with rfl | he
    · exact if_pos rfl
    · have later := h.lt_of_mem_names (List.mem_map.2 ⟨_, he, rfl⟩)
      rw [if_neg fun same : key = e.1 => String.lt_irrefl _ (same ▸ later), ih h.tail he]

theorem Tidy.mem_names_iff (h : Tidy table) : key ∈ table.names ↔ table.under key ≠ [] := by
  constructor
  · intro hk
    obtain ⟨⟨_, values⟩, he, rfl⟩ := List.mem_map.1 hk
    rw [h.under_of_mem he]
    exact h.listed _ he
  · exact fun listed => by_contra fun absent => listed (under_eq_nil absent)

/-! ## Adding -/

theorem mem_names_add : key ∈ (table.add name value).names ↔ key = name ∨ key ∈ table.names := by
  induction table with
  | nil => simp [add, names]
  | cons e rest ih =>
    obtain ⟨first, values⟩ := e
    simp only [add, names] at ih ⊢
    split
    · simp
    · split
      · next same => simp [same]
      · simp only [List.map_cons, List.mem_cons, ih]
        exact or_left_comm

theorem Tidy.add (h : Tidy table) (name : String) (value : α) : Tidy (table.add name value) := by
  induction table with
  | nil => exact ⟨List.pairwise_singleton .., by simp [Offers.add]⟩
  | cons e rest ih =>
    obtain ⟨first, values⟩ := e
    simp only [Offers.add]
    split
    · next before =>
      refine ⟨List.pairwise_cons.2 ⟨fun key hk => ?_, h.increasing⟩, List.forall_mem_cons.2
        ⟨by simp, h.listed⟩⟩
      rcases List.mem_cons.1 hk with rfl | hk
      · exact before
      · exact String.lt_trans before (h.lt_of_mem_names hk)
    · next notBefore =>
      split
      · next same =>
        exact ⟨h.increasing, List.forall_mem_cons.2 ⟨by simp, h.tail.listed⟩⟩
      · next differ =>
        have after : first < name :=
          by_contra fun no => differ (String.le_antisymm (String.not_lt.1 no)
            (String.not_lt.1 notBefore))
        refine ⟨List.pairwise_cons.2 ⟨fun key hk => ?_, (ih h.tail).increasing⟩,
          List.forall_mem_cons.2 ⟨h.listed _ List.mem_cons_self, (ih h.tail).listed⟩⟩
        rcases mem_names_add.1 hk with rfl | hk
        · exact after
        · exact h.lt_of_mem_names hk

theorem Tidy.under_add (h : Tidy table) (name : String) (value : α) (key : String) :
    (table.add name value).under key =
      if key = name then table.under key ++ [value] else table.under key := by
  induction table with
  | nil => simp [Offers.add, under_cons]
  | cons e rest ih =>
    obtain ⟨first, values⟩ := e
    simp only [Offers.add]
    split
    · next before =>
      -- a name before the first one is in nobody's list
      have absent : name ∉ names ((first, values) :: rest) := by
        intro hm
        rcases List.mem_cons.1 hm with rfl | hm
        · exact String.lt_irrefl _ before
        · exact String.lt_asymm before (h.lt_of_mem_names hm)
      rw [under_cons]
      split
      · next same =>
        rw [same, under_eq_nil absent]
        rfl
      · rfl
    · split
      · next same =>
        rw [under_cons, under_cons]
        split
        · next here => rw [if_pos (here.trans same.symm)]
        · next elsewhere => rw [if_neg (same ▸ elsewhere)]
      · next differ =>
        rw [under_cons, under_cons, ih h.tail]
        by_cases here : key = first
        · rw [if_pos here, if_pos here, if_neg (here ▸ Ne.symm differ)]
        · rw [if_neg here, if_neg here]

/-! ## Adding once -/

/-- A list with a tag helper at its end, unless it is in the list. -/
def keep (kept : List TagHelper) (h : TagHelper) : List TagHelper :=
  if kept.any (·.id == h.id) then kept else kept ++ [h]

theorem keep_keep (kept : List TagHelper) (h : TagHelper) : keep (keep kept h) h = keep kept h := by
  by_cases there : kept.any (·.id == h.id) = true
  · have kept_eq : keep kept h = kept := if_pos there
    rw [kept_eq, kept_eq]
  · have kept_eq : keep kept h = kept ++ [h] := if_neg there
    rw [kept_eq]
    exact if_pos (by simp)

section Once

variable {table : Offers TagHelper} {h : TagHelper}

theorem Tidy.addOnce (tidy : Tidy table) (name : String) (h : TagHelper) :
    Tidy (table.addOnce name h) := by
  unfold Offers.addOnce
  split
  · exact tidy
  · exact tidy.add name h

theorem Tidy.under_addOnce (tidy : Tidy table) (name : String) (h : TagHelper) (key : String) :
    (table.addOnce name h).under key =
      if key = name then keep (table.under key) h else table.under key := by
  unfold Offers.addOnce keep
  split
  · next there =>
    split
    · next same => rw [same, if_pos there]
    · rfl
  · next absent =>
    rw [tidy.under_add]
    split
    · next same => rw [same, if_neg absent]
    · rfl

/-- A tag helper under several names. -/
theorem Tidy.addOnce_all (names : List String) (tidy : Tidy table) :
    Tidy (names.foldl (fun table name => table.addOnce name h) table) ∧
      ∀ key, (names.foldl (fun table name => table.addOnce name h) table).under key =
        if key ∈ names then keep (table.under key) h else table.under key := by
  induction names generalizing table with
  | nil => exact ⟨tidy, fun key => by simp⟩
  | cons name rest ih =>
    obtain ⟨rest_tidy, rest_under⟩ := ih (tidy.addOnce name h)
    refine ⟨rest_tidy, fun key => ?_⟩
    rw [List.foldl_cons, rest_under, tidy.under_addOnce]
    by_cases first : key = name
    · simp only [first, if_true, List.mem_cons_self, keep_keep, ite_self]
    · simp only [first, if_false, List.mem_cons, false_or]

end Once

end Offers

end PolyglotLsp.Markup
