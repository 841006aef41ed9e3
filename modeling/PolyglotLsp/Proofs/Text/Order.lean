import Mathlib.Data.List.Chain
import Mathlib.Data.List.Pairwise
import PolyglotLsp.Proofs.Text.Splice

/-!
# Changes in any order

A regeneration may list its changes in any order, but of changes with the same start the one that is
listed first is applied first, and nothing that comes later may reach beyond that start. A
replacement can be followed by an insertion at its start and not the other way round
(`fits_iff_insertionsLast`). Of changes that leave each other alone, all orders that are applied are
sorted into one (`descending_eq`), so that they have one result; all other orders are refused
(`splice_perm`).
-/

namespace PolyglotLsp.TextChange

open Text

variable {text : String} {changes listed : List TextChange}

/-! ## Whole lists -/

theorem splice_of_fits (h : Fits text.toList (byteLength text.toList) (descending changes)) :
    ∃ out, splice text changes = .ok out ∧ utf8Bytes out.toList =
      replaced (utf8Bytes text.toList) 0 (byteLength text.toList) (descending changes).reverse := by
  obtain ⟨out, done, bytes⟩ := spliceFrom_of_fits List.prefix_rfl [] h
  rw [List.append_nil] at done
  refine ⟨String.ofList out, ?_, ?_⟩
  · rw [splice, done]
    rfl
  · rw [String.toList_ofList, bytes]
    exact List.append_nil _

theorem splice_of_not_fits (h : ¬ Fits text.toList (byteLength text.toList) (descending changes)) :
    ∃ message, splice text changes = .error (.invalidEdit message) := by
  have begun : splice text changes = (spliceFrom text.toList (byteLength text.toList)
      (text.toList ++ []) (descending changes)).map String.ofList := by
    rw [List.append_nil]
    rfl
  rw [begun]
  cases done : spliceFrom text.toList (byteLength text.toList) (text.toList ++ [])
    (descending changes) with
  | ok out => exact absurd (fits_of_spliceFrom List.prefix_rfl done) h
  | error e =>
    obtain ⟨message, rfl⟩ := invalidEdit_of_spliceFrom List.prefix_rfl done
    exact ⟨message, rfl⟩

/-! ## Changes that leave each other alone -/

/-- Changes that leave each other alone: each can be applied to the text by itself, no two spans
overlap, and no two changes insert at one place. An insertion may touch a span at either end. -/
structure Independent (text : List Char) (changes : List TextChange) : Prop where
  applies : ∀ c ∈ changes, Applies text (byteLength text) c
  apart : changes.Pairwise fun a b => a.stop ≤ b.start ∨ b.stop ≤ a.start
  single : changes.Pairwise fun a b => a.length = 0 → b.length = 0 → a.start ≠ b.start

/-- No insertion is listed before a replacement that starts where it inserts. -/
def InsertionsLast (changes : List TextChange) : Prop :=
  changes.Pairwise fun a b => a.start = b.start → a.length = 0 → b.length = 0

instance : DecidablePred InsertionsLast := fun changes =>
  inferInstanceAs (Decidable (changes.Pairwise _))

/-- One change stands after another in the text, whether or not they touch. -/
def After (later earlier : TextChange) : Prop := earlier.stop ≤ later.start

theorem start_le_stop (c : TextChange) : c.start ≤ c.stop := Nat.le_add_right ..

instance : Trans After After After where
  trans {a b c} (hab : b.stop ≤ a.start) (hbc : c.stop ≤ b.start) := by
    have := b.start_le_stop
    exact (hbc.trans this).trans hab

theorem Independent.perm {cs : List Char} (h : Independent cs changes)
    (perm : listed.Perm changes) : Independent cs listed where
  applies c hc := h.applies c (perm.mem_iff.1 hc)
  apart := perm.symm.pairwise h.apart Or.symm
  single := perm.symm.pairwise h.single fun apart hb ha same => apart ha hb same.symm

/-- Of two changes, only one can stand after the other. -/
theorem Independent.eq_of_after {cs : List Char} (h : Independent cs changes) {a b : TextChange}
    (ha : a ∈ changes) (hb : b ∈ changes) (hab : After a b) (hba : After b a) : a = b := by
  by_contra other
  have symm : Std.Symm fun a b : TextChange => a.length = 0 → b.length = 0 → a.start ≠ b.start :=
    ⟨fun _ _ apart hb ha same => apart ha hb same.symm⟩
  have apart := h.single.forall ha hb other
  unfold After stop at hab hba
  apply apart <;> omega

/-- What holds of any two changes with the same start is not changed by sorting. -/
theorem pairwise_descending_iff {R : TextChange → TextChange → Prop} :
    (descending changes).Pairwise (fun a b => a.start = b.start → R a b) ↔
      changes.Pairwise fun a b => a.start = b.start → R a b := by
  have byStart (cs : List TextChange) : cs.Pairwise (fun a b => a.start = b.start → R a b) ↔
      ∀ start, (cs.filter (·.start = start)).Pairwise R := by
    simp only [List.pairwise_filter, decide_eq_true_eq]
    constructor
    · intro h start
      exact h.imp fun hab ha hb => hab (ha.trans hb.symm)
    · intro h
      rw [List.pairwise_iff_getElem]
      intro i j hi hj hij same
      exact List.pairwise_iff_getElem.1 (h cs[i].start) i j hi hj hij rfl same.symm
  rw [byStart, byStart]
  simp only [(descends_descending changes).stable]

/-- Sorted changes fit if each stands after the next one. -/
theorem Independent.fits_iff {cs : List Char} (h : Independent cs changes) :
    Fits cs (byteLength cs) (descending changes) ↔ (descending changes).Pairwise After := by
  have mem {c : TextChange} (hc : c ∈ descending changes) : c ∈ changes :=
    (descends_descending changes).perm.mem_iff.1 hc
  constructor
  · intro fits
    have chain : (descending changes).IsChain After := fits.apart
    exact List.isChain_iff_pairwise.1 chain
  · intro sorted
    have chain : (descending changes).IsChain After := List.isChain_iff_pairwise.2 sorted
    refine ⟨fun c hc => (h.applies c (mem hc)).addressable, fun c hc => ?_, chain, fun c hc => ?_⟩
    · exact (h.applies c (mem (List.mem_of_mem_head? hc))).inside
    · exact ⟨(h.applies c (mem hc)).start, (h.applies c (mem hc)).stop⟩

/-- Changes that leave each other alone fit if insertions come last. -/
theorem Independent.fits_iff_insertionsLast {cs : List Char} (h : Independent cs changes) :
    Fits cs (byteLength cs) (descending changes) ↔ InsertionsLast changes := by
  have descends := descends_descending changes
  rw [h.fits_iff, InsertionsLast, ← pairwise_descending_iff]
  constructor
  · intro sorted
    refine sorted.imp fun {a b} (after : b.stop ≤ a.start) same _ => ?_
    unfold stop at after
    omega
  · intro last
    -- only where two changes start together does it matter which of them is listed first
    refine ((descends.ordered.and last).and (h.perm descends.perm).apart).imp ?_
    rintro a b ⟨⟨ordered, last⟩, before | after⟩
    · have same : a.start = b.start := Nat.le_antisymm (a.start_le_stop.trans before) ordered
      unfold stop at before
      have inserts : b.length = 0 := last same (by omega)
      unfold After stop
      omega
    · exact after

/-- Changes that leave each other alone stand one after the other in one order only. -/
theorem Independent.eq_descending {cs : List Char} (h : Independent cs changes)
    (last : InsertionsLast changes) (perm : listed.Perm changes) (sorted : listed.Pairwise After) :
    listed = descending changes := by
  have descends := (descends_descending changes).perm
  refine List.Perm.eq_of_pairwise (fun a b ha hb => ?_) sorted
    (h.fits_iff.1 (h.fits_iff_insertionsLast.2 last)) (perm.trans descends.symm)
  exact h.eq_of_after (perm.mem_iff.1 ha) (descends.mem_iff.1 hb)

/-- Whatever order they are listed in, changes that leave each other alone are sorted into one
order, if they are applied. -/
theorem Independent.descending_eq {cs : List Char} (h : Independent cs changes)
    (perm : listed.Perm changes) (last : InsertionsLast changes) (last' : InsertionsLast listed) :
    descending listed = descending changes := by
  have independent := h.perm perm
  refine h.eq_descending last ((descends_descending listed).perm.trans perm) ?_
  exact independent.fits_iff.1 (independent.fits_iff_insertionsLast.2 last')

/-! ## All orders -/

def inserts (c : TextChange) : Bool := c.length = 0

/-- The replacements, and then the insertions. -/
def replacementsFirst (changes : List TextChange) : List TextChange :=
  changes.filter (!·.inserts) ++ changes.filter (·.inserts)

theorem perm_replacementsFirst (changes : List TextChange) :
    (replacementsFirst changes).Perm changes :=
  List.perm_append_comm.trans (List.filter_append_perm ..)

theorem insertionsLast_replacementsFirst (changes : List TextChange) :
    InsertionsLast (replacementsFirst changes) := by
  refine List.pairwise_append.2 ⟨?_, ?_, ?_⟩
  · refine List.pairwise_filter.2 (List.pairwise_of_forall fun a b ha _ _ inserts => ?_)
    simp [TextChange.inserts, inserts] at ha
  · refine List.pairwise_filter.2 (List.pairwise_of_forall fun a b _ hb _ _ => ?_)
    simpa [inserts] using hb
  · intro a _ b hb _ _
    simpa [inserts] using (List.mem_filter.1 hb).2

/-- If every order puts insertions last, then no two changes start together. -/
theorem Independent.starts_apart {cs : List Char} (h : Independent cs changes)
    (all : ∀ listed : List TextChange, listed.Perm changes → InsertionsLast listed) :
    changes.Pairwise fun a b => a.start ≠ b.start := by
  have insertionsFirst :=
    (List.pairwise_append.1 (all _ (List.filter_append_perm inserts changes))).2.2
  have mixed {a b : TextChange} (ha : a ∈ changes) (hb : b ∈ changes) (empty : a.length = 0)
      (full : b.length ≠ 0) : a.start ≠ b.start := by
    intro same
    refine full (insertionsFirst a (List.mem_filter.2 ⟨ha, ?_⟩) b (List.mem_filter.2 ⟨hb, ?_⟩) same
      empty)
    · simpa [inserts] using empty
    · simpa [inserts] using full
  refine (h.apart.and h.single).imp_of_mem ?_
  rintro a b ha hb ⟨apart, single⟩ same
  by_cases empty : a.length = 0
  · by_cases empty' : b.length = 0
    · exact single empty empty' same
    · exact mixed ha hb empty empty' same
  · by_cases empty' : b.length = 0
    · exact mixed hb ha empty' empty same.symm
    · unfold stop at apart
      omega

/-- Changes that leave each other alone have one result, in which every span of the old text is
replaced at once. An order of the changes leads to it exactly if no insertion is listed before a
replacement that starts where it inserts, and is refused for a reason otherwise. Hence every order
leads to it exactly if no two changes start together. -/
theorem splice_perm (text : String) (changes : List TextChange)
    (h : Independent text.toList changes) :
    ∃ out,
      (∃ listed : List TextChange, listed.Perm changes ∧ splice text listed = .ok out) ∧
      (∀ ordered : List TextChange, ordered.Perm changes →
        ordered.Pairwise (fun a b => a.stop ≤ b.start) → utf8Bytes out.toList =
          replaced (utf8Bytes text.toList) 0 (byteLength text.toList) ordered) ∧
      (∀ listed : List TextChange, listed.Perm changes →
        (splice text listed = .ok out ↔ InsertionsLast listed) ∧
        (¬ InsertionsLast listed → ∃ message,
          splice text listed = .error (.invalidEdit message))) ∧
      ((∀ listed : List TextChange, listed.Perm changes → splice text listed = .ok out) ↔
        changes.Pairwise fun a b => a.start ≠ b.start) := by
  have perm := perm_replacementsFirst changes
  have last := insertionsLast_replacementsFirst changes
  have independent := h.perm perm
  have fits := independent.fits_iff_insertionsLast.2 last
  obtain ⟨out, done, bytes⟩ := splice_of_fits fits
  have accepted {listed : List TextChange} (perm' : listed.Perm changes)
      (last' : InsertionsLast listed) : splice text listed = .ok out := by
    rw [splice, independent.descending_eq (perm'.trans perm.symm) last last']
    exact done
  have refused {listed : List TextChange} (perm' : listed.Perm changes)
      (first : ¬ InsertionsLast listed) :
      ∃ message, splice text listed = .error (.invalidEdit message) :=
    splice_of_not_fits (mt (h.perm perm').fits_iff_insertionsLast.1 first)
  have exact_iff {listed : List TextChange} (perm' : listed.Perm changes) :
      splice text listed = .ok out ↔ InsertionsLast listed := by
    refine ⟨fun ok => ?_, accepted perm'⟩
    by_contra first
    obtain ⟨message, error⟩ := refused perm' first
    rw [error] at ok
    cases ok
  refine ⟨out, ⟨_, perm, done⟩, ?_, fun listed perm' => ⟨exact_iff perm', refused perm'⟩, ?_, ?_⟩
  · intro ordered perm' sorted
    have reversed : ordered.reverse = descending (replacementsFirst changes) := by
      refine independent.eq_descending last ?_ (List.pairwise_reverse.2 sorted)
      exact (List.reverse_perm ordered).trans (perm'.trans perm.symm)
    rw [bytes, ← reversed, List.reverse_reverse]
  · intro all
    exact h.starts_apart fun listed perm' => (exact_iff perm').1 (all listed perm')
  · intro starts listed perm'
    refine accepted perm' ((perm'.symm.pairwise starts Ne.symm).imp ?_)
    intro a b other same
    exact absurd same other

/-- An insertion at the start of a span, and a replacement of that span. -/
theorem independent_insert_replace :
    Independent "ab".toList [⟨0, 0, "x"⟩, ⟨0, 1, "y"⟩] where
  applies := by
    simp only [List.forall_mem_cons, List.not_mem_nil, false_imp_iff, implies_true, and_true]
    refine ⟨⟨?_, ?_, isBoundary_iff.1 ?_, isBoundary_iff.1 ?_⟩,
      ⟨?_, ?_, isBoundary_iff.1 ?_, isBoundary_iff.1 ?_⟩⟩ <;> decide
  apart := by decide
  single := by decide

theorem splice_perm_insert_replace : ∃ out,
    splice "ab" [⟨0, 1, "y"⟩, ⟨0, 0, "x"⟩] = .ok out ∧
    (∃ message, splice "ab" [⟨0, 0, "x"⟩, ⟨0, 1, "y"⟩] = .error (.invalidEdit message)) ∧
    utf8Bytes out.toList = utf8Bytes "xyb".toList := by
  obtain ⟨out, -, bytes, orders, -⟩ := splice_perm _ _ independent_insert_replace
  refine ⟨out, (orders _ (.swap ..)).1.2 ?_, (orders _ (.refl _)).2 ?_, ?_⟩
  · decide
  · decide
  · rw [bytes _ (.refl _) (by decide)]
    decide

/-- These two leave each other alone, and yet not every order of them is applied. -/
theorem splice_insert_first :
    Independent "ab".toList [⟨0, 0, "x"⟩, ⟨0, 1, "y"⟩] ∧
    splice "ab" [⟨0, 1, "y"⟩, ⟨0, 0, "x"⟩] = .ok "xyb" ∧
    splice "ab" [⟨0, 0, "x"⟩, ⟨0, 1, "y"⟩] =
      .error (.invalidEdit "change 0..1 overlaps or exceeds 0") := by
  refine ⟨independent_insert_replace, ?_, ?_⟩
  · rw [splice, descending, List.mergeSort_of_pairwise (by decide)]
    rfl
  · rw [splice, descending, List.mergeSort_of_pairwise (by decide)]
    rfl

end PolyglotLsp.TextChange
