import Mathlib.Data.List.Chain
import PolyglotLsp.Proofs.Text.Position
import PolyglotLsp.Text.Splice
import PolyglotLsp.Text.Utf8

/-!
# Spans replaced all at once

A regeneration names spans of the text before it and is applied span by span, from the last one to
the first, to a text that changes meanwhile. What lies before the span that comes next is still the
old text (`spliceFrom_cons`), so that the result is the old text with all spans replaced at once:
`replaced` reads everything that is kept off the old text's bytes. Whether a list of changes can be
applied is a matter of the old text too (`Fits`), and a list that cannot is refused with a reason
(`splice_replaces`).
-/

namespace PolyglotLsp

namespace Text

/-- An offset between two characters, or at either end: some stretch from the start of the text has
this many bytes. -/
def Boundary (cs : List Char) (offset : Nat) : Prop :=
  ∃ before, before <+: cs ∧ byteLength before = offset

theorem utf8Bytes_append (cs ds : List Char) :
    utf8Bytes (cs ++ ds) = utf8Bytes cs ++ utf8Bytes ds := List.flatMap_append

theorem length_utf8Bytes (cs : List Char) : (utf8Bytes cs).length = byteLength cs := by
  induction cs with
  | nil => rfl
  | cons c cs ih =>
    rw [byteLength_cons, ← ih, ← String.length_utf8EncodeChar, ← List.length_append]
    rfl

/-- The bytes between two places of a text. -/
theorem extract_utf8Bytes (before middle rest : List Char) :
    (utf8Bytes (before ++ middle ++ rest)).extract (byteLength before)
      (byteLength (before ++ middle)) = utf8Bytes middle := by
  rw [List.extract_eq_take_drop, byteLength_append, Nat.add_sub_cancel_left, List.append_assoc,
    utf8Bytes_append, utf8Bytes_append, ← length_utf8Bytes before, ← length_utf8Bytes middle,
    List.drop_left, List.take_left]

theorem eq_nil_of_byteLength {cs : List Char} (h : byteLength cs = 0) : cs = [] := by
  cases cs with
  | nil => rfl
  | cons c cs =>
    have size := c.utf8Size_pos
    rw [byteLength_cons] at h
    omega

theorem eq_append_of_splitAt? {cs before after : List Char} {offset : Nat}
    (h : splitAt? cs offset = some (before, after)) :
    cs = before ++ after ∧ byteLength before = offset := by
  induction cs generalizing offset before with
  | nil =>
    cases offset with
    | zero =>
      cases h
      exact ⟨rfl, rfl⟩
    | succ offset => cases h
  | cons c cs ih =>
    cases offset with
    | zero =>
      cases h
      exact ⟨rfl, rfl⟩
    | succ offset =>
      rw [splitAt?] at h
      split at h
      · cases h
      · next beyond =>
        obtain ⟨⟨front, rest⟩, found, same⟩ := Option.map_eq_some_iff.1 h
        cases same
        obtain ⟨rfl, size⟩ := ih found
        refine ⟨rfl, ?_⟩
        rw [byteLength_cons, size]
        omega

theorem isBoundary_iff {cs : List Char} {offset : Nat} :
    isBoundary cs offset = true ↔ Boundary cs offset := by
  unfold isBoundary
  constructor
  · intro h
    obtain ⟨⟨before, after⟩, found⟩ := Option.isSome_iff_exists.1 h
    obtain ⟨rfl, size⟩ := eq_append_of_splitAt? found
    exact ⟨before, List.prefix_append .., size⟩
  · rintro ⟨before, ⟨after, rfl⟩, rfl⟩
    rw [splitAt?_append]
    rfl

/-- Of two stretches from the start of a text, the one with fewer bytes begins the other. -/
theorem prefix_of_byteLength_le {cs before upTo : List Char} (hb : before <+: cs) (hu : upTo <+: cs)
    (h : byteLength before ≤ byteLength upTo) : before <+: upTo := by
  rcases List.prefix_or_prefix_of_prefix hb hu with shorter | ⟨more, rfl⟩
  · exact shorter
  · have more_nil : more = [] := by
      refine eq_nil_of_byteLength ?_
      rw [byteLength_append] at h
      omega
    simp [more_nil]

end Text

namespace TextChange

open Text

/-! ## Changes that can be applied -/

/-- A change that can be applied to a text below a bound. -/
structure Applies (text : List Char) (bound : Nat) (c : TextChange) : Prop where
  addressable : c.stop < offsetLimit
  inside : c.stop ≤ bound
  start : Boundary text c.start
  stop : Boundary text c.stop

/-- Changes, from the last to the first, that can be applied to a text below a bound: their ends can
be addressed, the first of them ends at or before the bound and each other one at or before the
start of the one before it, and none of them splits a character. -/
structure Fits (text : List Char) (bound : Nat) (changes : List TextChange) : Prop where
  addressable : ∀ c ∈ changes, c.stop < offsetLimit
  inside : ∀ c ∈ changes.head?, c.stop ≤ bound
  apart : changes.IsChain fun later earlier => earlier.stop ≤ later.start
  whole : ∀ c ∈ changes, Boundary text c.start ∧ Boundary text c.stop

variable {text : List Char} {bound : Nat} {c : TextChange} {changes : List TextChange}

theorem fits_nil : Fits text bound [] := ⟨nofun, nofun, .nil, nofun⟩

theorem fits_cons : Fits text bound (c :: changes) ↔
    Applies text bound c ∧ Fits text c.start changes := by
  constructor
  · rintro ⟨addressable, inside, apart, whole⟩
    obtain ⟨next, apart⟩ := List.isChain_cons.1 apart
    obtain ⟨start, stop⟩ := whole c List.mem_cons_self
    exact ⟨⟨addressable c List.mem_cons_self, inside c rfl, start, stop⟩,
      ⟨fun d hd => addressable d (List.mem_cons_of_mem _ hd), next, apart,
        fun d hd => whole d (List.mem_cons_of_mem _ hd)⟩⟩
  · rintro ⟨first, addressable, inside, apart, whole⟩
    refine ⟨List.forall_mem_cons.2 ⟨first.addressable, addressable⟩, ?_,
      List.isChain_cons.2 ⟨inside, apart⟩,
      List.forall_mem_cons.2 ⟨⟨first.start, first.stop⟩, whole⟩⟩
    rintro d ⟨⟩
    exact first.inside

theorem fault?_eq_none_iff : fault? text bound c = none ↔ Applies text bound c := by
  unfold fault?
  split
  · next overflows =>
    refine ⟨nofun, fun h => ?_⟩
    exact absurd h.addressable (Nat.not_lt.2 overflows)
  · next addressable =>
    split
    · next exceeds =>
      refine ⟨nofun, fun h => ?_⟩
      exact absurd h.inside (Nat.not_le.2 exceeds)
    · next inside =>
      split
      · next splits =>
        refine ⟨nofun, fun h => ?_⟩
        simp [isBoundary_iff.2 h.start, isBoundary_iff.2 h.stop] at splits
      · next whole =>
        simp only [Bool.or_eq_true, Bool.not_eq_true', not_or, Bool.not_eq_false] at whole
        refine ⟨fun _ => ?_, fun _ => rfl⟩
        exact ⟨Nat.not_le.1 addressable, Nat.not_lt.1 inside, isBoundary_iff.1 whole.1,
          isBoundary_iff.1 whole.2⟩

theorem invalidEdit_of_fault? {e : RouterError} (h : fault? text bound c = some e) :
    ∃ message, e = .invalidEdit message := by
  unfold fault? at h
  repeat' split at h
  all_goals cases h
  all_goals exact ⟨_, rfl⟩

/-! ## One change -/

/-- The bytes from `start` to `stop` of a text with some spans, which stand in the text's order,
replaced by new texts. -/
def replaced (bytes : List UInt8) (start stop : Nat) : List TextChange → List UInt8
  | [] => bytes.extract start stop
  | c :: rest =>
    bytes.extract start c.start ++ utf8Bytes c.newText.toList ++ replaced bytes c.stop stop rest

/-- The last span is replaced after all that comes before it. -/
theorem replaced_concat (bytes : List UInt8) (start stop : Nat) (changes : List TextChange)
    (c : TextChange) :
    replaced bytes start stop (changes ++ [c]) =
      replaced bytes start c.start changes ++ utf8Bytes c.newText.toList ++
        bytes.extract c.stop stop := by
  induction changes generalizing start with
  | nil => rfl
  | cons d changes ih => simp only [List.cons_append, replaced, ih, List.append_assoc]

/-- A change that applies cuts what is kept so far into three. -/
theorem Applies.cut {kept : List Char} (h : Applies text (byteLength kept) c)
    (hk : kept <+: text) : ∃ before removed gap, kept = before ++ removed ++ gap ∧
      byteLength before = c.start ∧ byteLength (before ++ removed) = c.stop := by
  obtain ⟨before, hb, start⟩ := h.start
  obtain ⟨upTo, hu, stop⟩ := h.stop
  have ordered : c.start ≤ c.stop := Nat.le_add_right ..
  obtain ⟨gap, rfl⟩ := prefix_of_byteLength_le hu hk (stop ▸ h.inside)
  obtain ⟨removed, rfl⟩ := prefix_of_byteLength_le hb hu (by rw [start, stop]; exact ordered)
  exact ⟨before, removed, gap, rfl, start, stop⟩

/-- What happens to one change, while the text so far begins with what is kept of the old text: it
is refused, or its span is replaced, and what lies before it is kept. -/
theorem spliceFrom_cons {kept : List Char} (hk : kept <+: text) (tail : List Char) (c : TextChange)
    (changes : List TextChange) :
    (¬ Applies text (byteLength kept) c ∧ ∃ message,
      spliceFrom text (byteLength kept) (kept ++ tail) (c :: changes) =
        .error (.invalidEdit message)) ∨
    Applies text (byteLength kept) c ∧ ∃ before gap, before <+: text ∧
      byteLength before = c.start ∧
      utf8Bytes gap = (utf8Bytes text).extract c.stop (byteLength kept) ∧
      spliceFrom text (byteLength kept) (kept ++ tail) (c :: changes) =
        spliceFrom text c.start (before ++ (c.newText.toList ++ gap ++ tail)) changes := by
  rw [spliceFrom]
  cases fault : fault? text (byteLength kept) c with
  | some e =>
    obtain ⟨message, rfl⟩ := invalidEdit_of_fault? fault
    refine .inl ⟨fun applies => ?_, message, rfl⟩
    rw [fault?_eq_none_iff.2 applies] at fault
    cases fault
  | none =>
    have applies := fault?_eq_none_iff.1 fault
    obtain ⟨before, removed, gap, rfl, start, stop⟩ := applies.cut hk
    obtain ⟨dropped, rfl⟩ := hk
    have next := replace?_append before removed (gap ++ tail) c.newText.toList
    rw [start, stop, ← List.append_assoc] at next
    refine .inr ⟨applies, before, gap, ?_, start, ?_, ?_⟩
    · simp only [List.append_assoc]
      exact List.prefix_append ..
    · rw [← stop]
      exact (extract_utf8Bytes (before ++ removed) gap dropped).symm
    · rw [next]
      simp only [List.append_assoc]

/-! ## All changes -/

/-- Changes that fit are applied, and everything that is kept is read off the old text. -/
theorem spliceFrom_of_fits {kept : List Char} (hk : kept <+: text) (tail : List Char)
    (h : Fits text (byteLength kept) changes) :
    ∃ out, spliceFrom text (byteLength kept) (kept ++ tail) changes = .ok out ∧
      utf8Bytes out =
        replaced (utf8Bytes text) 0 (byteLength kept) changes.reverse ++ utf8Bytes tail := by
  induction changes generalizing kept tail with
  | nil =>
    obtain ⟨dropped, rfl⟩ := hk
    have front := extract_utf8Bytes [] kept dropped
    exact ⟨kept ++ tail, rfl, by rw [List.reverse_nil, replaced, utf8Bytes_append, ← front]; rfl⟩
  | cons c changes ih =>
    obtain ⟨first, rest⟩ := fits_cons.1 h
    rcases spliceFrom_cons hk tail c changes with ⟨fails, -⟩ |
      ⟨-, before, gap, hb, start, bytes, next⟩
    · exact absurd first fails
    rw [next, ← start]
    obtain ⟨out, done, result⟩ := ih hb (c.newText.toList ++ gap ++ tail) (start ▸ rest)
    refine ⟨out, done, ?_⟩
    rw [result, start, List.reverse_cons, replaced_concat, utf8Bytes_append, utf8Bytes_append,
      bytes]
    simp only [List.append_assoc]

theorem fits_of_spliceFrom {kept tail out : List Char} (hk : kept <+: text)
    (h : spliceFrom text (byteLength kept) (kept ++ tail) changes = .ok out) :
    Fits text (byteLength kept) changes := by
  induction changes generalizing kept tail with
  | nil => exact fits_nil
  | cons c changes ih =>
    rcases spliceFrom_cons hk tail c changes with ⟨-, message, refused⟩ |
      ⟨first, before, gap, hb, start, -, next⟩
    · rw [refused] at h
      cases h
    rw [next, ← start] at h
    exact fits_cons.2 ⟨first, start ▸ ih hb h⟩

theorem invalidEdit_of_spliceFrom {kept tail : List Char} {e : RouterError} (hk : kept <+: text)
    (h : spliceFrom text (byteLength kept) (kept ++ tail) changes = .error e) :
    ∃ message, e = .invalidEdit message := by
  induction changes generalizing kept tail with
  | nil => cases h
  | cons c changes ih =>
    rcases spliceFrom_cons hk tail c changes with ⟨-, message, refused⟩ |
      ⟨-, before, gap, hb, start, -, next⟩
    · rw [refused] at h
      cases h
      exact ⟨message, rfl⟩
    rw [next, ← start] at h
    exact ih hb h

/-- A list of changes from the last start to the first, in which equal starts keep their order. -/
structure Descends (changes sorted : List TextChange) : Prop where
  perm : sorted.Perm changes
  ordered : sorted.Pairwise fun later earlier => earlier.start ≤ later.start
  stable : ∀ start, sorted.filter (·.start = start) = changes.filter (·.start = start)

theorem descends_descending (changes : List TextChange) :
    Descends changes (descending changes) := by
  have perm : (descending changes).Perm changes := List.mergeSort_perm ..
  have trans : ∀ a b c : TextChange, decide (b.start ≤ a.start) = true →
      decide (c.start ≤ b.start) = true → decide (c.start ≤ a.start) = true := by
    intro a b c hab hbc
    simp only [decide_eq_true_eq] at hab hbc ⊢
    exact hbc.trans hab
  have total : ∀ a b : TextChange,
      (decide (b.start ≤ a.start) || decide (a.start ≤ b.start)) = true := by
    intro a b
    simpa using Nat.le_total b.start a.start
  refine ⟨perm, ?_, fun start => ?_⟩
  · exact (List.pairwise_mergeSort trans total changes).imp of_decide_eq_true
  · -- The changes with one start are in order as they stand, so that sorting keeps them so.
    let tied := changes.filter (·.start = start)
    have ordered : tied.Pairwise fun a b => decide (b.start ≤ a.start) = true := by
      refine List.pairwise_of_forall_mem_list fun a ha b hb => decide_eq_true ?_
      have start_a := of_decide_eq_true (List.mem_filter.1 ha).2
      have start_b := of_decide_eq_true (List.mem_filter.1 hb).2
      rw [start_a, start_b]
    have kept : tied.Sublist (descending changes) :=
      List.sublist_mergeSort trans total ordered List.filter_sublist
    have found := kept.filter (·.start = start)
    rw [List.filter_filter] at found
    simp only [Bool.and_self] at found
    exact (found.eq_of_length (perm.filter _).length_eq.symm).symm

/-- Changes are applied exactly if they fit when they stand from the last start to the first, and
then every span of the old text is replaced by its new text at once and all else is kept. Of changes
with the same start, the last one listed comes first. A list of changes that does not fit is refused
for a reason. -/
theorem splice_replaces (text : String) (changes : List TextChange) :
    Descends changes (descending changes) ∧
    ((∃ out, splice text changes = .ok out) ↔
      Fits text.toList (byteLength text.toList) (descending changes)) ∧
    (∀ out, splice text changes = .ok out → utf8Bytes out.toList =
      replaced (utf8Bytes text.toList) 0 (byteLength text.toList) (descending changes).reverse) ∧
    ∀ e, splice text changes = .error e → ∃ message, e = .invalidEdit message := by
  have all : text.toList <+: text.toList := List.prefix_rfl
  have begun : splice text changes =
      (spliceFrom text.toList (byteLength text.toList) (text.toList ++ []) (descending changes)).map
        String.ofList := by
    rw [List.append_nil]
    rfl
  rw [begun]
  cases spliced : spliceFrom text.toList (byteLength text.toList) (text.toList ++ [])
    (descending changes) with
  | error e =>
    refine ⟨descends_descending changes, ⟨nofun, fun fits => ?_⟩, nofun, ?_⟩
    · obtain ⟨out, done, -⟩ := spliceFrom_of_fits all [] fits
      rw [spliced] at done
      cases done
    · rintro _ ⟨⟩
      exact invalidEdit_of_spliceFrom all spliced
  | ok out =>
    have fits := fits_of_spliceFrom all spliced
    refine ⟨descends_descending changes, ⟨fun _ => fits, fun _ => ⟨_, rfl⟩⟩, ?_, nofun⟩
    rintro _ ⟨⟩
    obtain ⟨_, done, bytes⟩ := spliceFrom_of_fits all [] fits
    rw [spliced] at done
    cases done
    rw [String.toList_ofList, bytes]
    exact List.append_nil _

end TextChange

end PolyglotLsp
