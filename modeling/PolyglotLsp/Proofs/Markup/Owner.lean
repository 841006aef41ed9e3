import PolyglotLsp.Markup.Tree
import Mathlib.Data.List.Perm.Basic

/-!
# The owner of an offset

At each level the descent goes into one child at most (`ownerPath_eq`). In a tree whose siblings do
not overlap and stay inside their parent (`Nested`) that child is the only one which contains the
offset, or else the only one which ends there without being empty, so that the path has all nodes
that contain the offset and after them only nodes that end there (`ownerPath_eq_holders`), and the
order of siblings makes no difference (`Rearranged.ownerPath`). Together with `isChain_ownerPath`
and `child?_getLast_ownerPath` this is `ownerPath_exact`.
-/

namespace PolyglotLsp.Markup

/-! ## Spans -/

namespace Span

/-- Every offset of the first span is one of the second. -/
def Within (a b : Span) : Prop := ∀ o, a.contains o = true → b.contains o = true

/-- No offset is one of both spans. -/
def Apart (a b : Span) : Prop := ∀ o, a.contains o = true → b.contains o = false

/-- The span is not empty and the offset is right behind it. -/
def ends (s : Span) (offset : Nat) : Bool := s.stop == offset && !s.isEmpty

theorem contains_iff {s : Span} {o : Nat} : s.contains o = true ↔ s.start ≤ o ∧ o < s.stop := by
  simp [contains]

theorem isEmpty_iff {s : Span} : s.isEmpty = true ↔ s.stop ≤ s.start := by
  simp [isEmpty, length, Nat.sub_eq_zero_iff_le]

theorem ends_iff {s : Span} {o : Nat} : s.ends o = true ↔ s.stop = o ∧ s.isEmpty = false := by
  simp [ends]

theorem within_iff {a b : Span} :
    a.Within b ↔ a.stop ≤ a.start ∨ b.start ≤ a.start ∧ a.stop ≤ b.stop := by
  simp only [Within, contains_iff]
  constructor
  · intro h
    rcases Nat.lt_or_ge a.start a.stop with bytes | empty
    · have first := h a.start (by omega)
      have last := h (a.stop - 1) (by omega)
      omega
    · exact .inl empty
  · intro h o ho
    omega

theorem apart_iff {a b : Span} :
    a.Apart b ↔ a.stop ≤ a.start ∨ b.stop ≤ b.start ∨ a.stop ≤ b.start ∨ b.stop ≤ a.start := by
  simp only [Apart, ← Bool.not_eq_true, contains_iff]
  constructor
  · intro h
    have both := h (max a.start b.start)
    omega
  · intro h o ho
    omega

instance (a b : Span) : Decidable (a.Within b) := decidable_of_iff _ within_iff.symm

instance (a b : Span) : Decidable (a.Apart b) := decidable_of_iff _ apart_iff.symm

theorem Apart.symm {a b : Span} (h : a.Apart b) : b.Apart a := by
  rw [apart_iff] at h ⊢
  omega

/-- Spans that are apart do not end at one offset, unless one of them is empty. -/
theorem Apart.not_ends {a b : Span} (h : a.Apart b) {o : Nat} (ha : a.ends o = true) :
    b.ends o = false := by
  rw [apart_iff] at h
  rw [ends_iff, ← Bool.not_eq_true, isEmpty_iff] at ha
  rw [← Bool.not_eq_true, ends_iff, ← Bool.not_eq_true, isEmpty_iff]
  omega

end Span

namespace Node

variable {offset : Nat} {root n child : Node}

/-! ## Induction on trees -/

/-- A property that a node has if its children have it holds of all nodes. -/
@[elab_as_elim]
theorem children_induction {P : Node → Prop}
    (step : ∀ n : Node, (∀ child ∈ n.children, P child) → P n) (n : Node) : P n := by
  refine @Node.rec P (fun children => ∀ child ∈ children, P child)
    (fun kind span children ih => step (.mk kind span children) ih) nofun ?_ n
  intro child rest first later other h
  rcases List.mem_cons.1 h with rfl | h
  · exact first
  · exact later other h

/-! ## One step down -/

/-- The child that the owner of an offset is sought in. -/
def child? (offset : Nat) (n : Node) : Option Node :=
  (n.children.find? (·.span.contains offset)).or (n.children.find? (·.span.ends offset))

theorem containingPath_eq (offset : Nat) (children : List Node) :
    containingPath offset children =
      (children.find? (·.span.contains offset)).map (ownerPath offset) := by
  induction children with
  | nil => rfl
  | cons child rest ih =>
    rw [containingPath, List.find?_cons, ih]
    cases child.span.contains offset <;> rfl

theorem endingPath_eq (offset : Nat) (children : List Node) :
    endingPath offset children =
      (children.find? (·.span.ends offset)).map (ownerPath offset) := by
  induction children with
  | nil => rfl
  | cons child rest ih =>
    rw [endingPath, List.find?_cons, ih, ← Span.ends]
    cases child.span.ends offset <;> rfl

theorem ownerPath_eq (offset : Nat) (n : Node) :
    ownerPath offset n = n :: ((n.child? offset).map (ownerPath offset)).getD [] := by
  obtain ⟨kind, span, children⟩ := n
  rw [ownerPath, containingPath_eq, endingPath_eq, child?, Node.children]
  cases children.find? (·.span.contains offset) <;> rfl

theorem ownerPath_of_child? (h : n.child? offset = some child) :
    ownerPath offset n = n :: ownerPath offset child := by
  rw [ownerPath_eq, h]
  rfl

theorem ownerPath_of_none (h : n.child? offset = none) : ownerPath offset n = [n] := by
  rw [ownerPath_eq, h]
  rfl

theorem head?_ownerPath (offset : Nat) (n : Node) : (ownerPath offset n).head? = some n := by
  rw [ownerPath_eq]
  rfl

theorem child?_eq_some (h : n.child? offset = some child) :
    child ∈ n.children ∧ (child.span.contains offset = true ∨ child.span.ends offset = true ∧
      ∀ other ∈ n.children, other.span.contains offset = false) := by
  rcases Option.or_eq_some_iff.1 h with found | ⟨free, found⟩
  · exact ⟨List.mem_of_find?_eq_some found, .inl (by simpa using List.find?_some found)⟩
  · refine ⟨List.mem_of_find?_eq_some found, .inr ⟨by simpa using List.find?_some found, ?_⟩⟩
    simpa using List.find?_eq_none.1 free

theorem child?_eq_none_iff : n.child? offset = none ↔
    ∀ child ∈ n.children, child.span.contains offset = false ∧ child.span.ends offset = false := by
  rw [child?, Option.or_eq_none_iff, List.find?_eq_none, List.find?_eq_none, ← forall₂_and]
  simp

/-! ## The shape of the path -/

theorem isChain_ownerPath (offset : Nat) (root : Node) :
    (ownerPath offset root).IsChain fun parent child => child ∈ parent.children := by
  induction root using children_induction with
  | step n ih =>
    cases below : n.child? offset with
    | none =>
      rw [ownerPath_of_none below]
      exact .singleton n
    | some child =>
      have inside := (child?_eq_some below).1
      rw [ownerPath_of_child? below]
      have rest := ih child inside
      rw [ownerPath_eq] at rest ⊢
      exact .cons_cons inside rest

theorem child?_getLast_ownerPath {last : Node} (h : last ∈ (ownerPath offset root).getLast?) :
    last.child? offset = none := by
  induction root using children_induction with
  | step n ih =>
    cases below : n.child? offset with
    | none =>
      rw [ownerPath_of_none below] at h
      rwa [← Option.some.inj h]
    | some child =>
      refine ih child (child?_eq_some below).1 ?_
      rw [ownerPath_of_child? below, ownerPath_eq, List.getLast?_cons_cons] at h
      rwa [ownerPath_eq]

/-! ## The nodes that contain an offset -/

theorem preorderAll_eq (children : List Node) :
    preorderAll children = children.flatMap preorder := by
  induction children with
  | nil => rfl
  | cons child rest ih => rw [preorderAll, List.flatMap_cons, ih]

theorem preorder_eq (n : Node) : n.preorder = n :: n.children.flatMap preorder := by
  obtain ⟨kind, span, children⟩ := n
  rw [preorder, preorderAll_eq, Node.children]

theorem mem_preorder_self (n : Node) : n ∈ n.preorder := by
  rw [preorder_eq]
  exact List.mem_cons_self

theorem mem_preorder_of_child (inside : child ∈ root.children) (h : n ∈ child.preorder) :
    n ∈ root.preorder := by
  rw [preorder_eq]
  exact List.mem_cons_of_mem _ (List.mem_flatMap.2 ⟨child, inside, h⟩)

/-- The nodes of a tree that contain an offset, each before those below it. -/
def holders (offset : Nat) (root : Node) : List Node :=
  root.preorder.filter (·.span.contains offset)

theorem holders_eq (offset : Nat) (n : Node) :
    n.holders offset =
      (if n.span.contains offset then [n] else []) ++ n.children.flatMap (holders offset) := by
  rw [holders, preorder_eq, List.filter_cons, List.filter_flatMap]
  split <;> rfl

/-! ## Trees whose siblings do not overlap -/

/-- The children of each node are inside it and do not overlap. -/
structure Nested (root : Node) : Prop where
  within : ∀ n ∈ root.preorder, ∀ child ∈ n.children, child.span.Within n.span
  apart : ∀ n ∈ root.preorder, n.children.Pairwise fun a b => a.span.Apart b.span

namespace Nested

theorem below (nested : root.Nested) (inside : child ∈ root.children) : child.Nested :=
  ⟨fun n h => nested.within n (mem_preorder_of_child inside h),
    fun n h => nested.apart n (mem_preorder_of_child inside h)⟩

theorem contains_of_child (nested : root.Nested) (inside : child ∈ root.children)
    (h : child.span.contains offset = true) : root.span.contains offset = true :=
  nested.within root (mem_preorder_self root) child inside offset h

theorem holders_eq_nil (nested : root.Nested) (outside : root.span.contains offset = false) :
    root.holders offset = [] := by
  induction root using children_induction with
  | step n ih =>
    rw [holders_eq, outside, if_neg Bool.false_ne_true, List.nil_append, List.flatMap_eq_nil_iff]
    intro child inside
    refine ih child inside (nested.below inside) ?_
    rw [← Bool.not_eq_true] at outside ⊢
    exact mt (nested.contains_of_child inside) outside

/-- Among siblings, one that contains the offset is the only one below which anything does. -/
theorem flatMap_holders (nested : root.Nested) (inside : child ∈ root.children)
    (h : child.span.contains offset = true) :
    root.children.flatMap (holders offset) = child.holders offset := by
  obtain ⟨before, after, split⟩ := List.append_of_mem inside
  have apart := nested.apart root (mem_preorder_self root)
  rw [split, List.pairwise_append, List.pairwise_cons] at apart
  obtain ⟨-, ⟨later, -⟩, earlier⟩ := apart
  have others : ∀ other ∈ root.children, other.span.contains offset = false →
      other.holders offset = [] := fun other within => (nested.below within).holders_eq_nil
  rw [split] at others ⊢
  have front : before.flatMap (holders offset) = [] := by
    refine List.flatMap_eq_nil_iff.2 fun other ho => others other (by simp [ho]) ?_
    exact (earlier other ho child List.mem_cons_self).symm offset h
  have back : after.flatMap (holders offset) = [] := by
    refine List.flatMap_eq_nil_iff.2 fun other ho => others other (by simp [ho]) ?_
    exact later other ho offset h
  rw [List.flatMap_append, List.flatMap_cons, front, back, List.append_nil, List.nil_append]

/-- The path has the nodes that contain the offset, and then nodes that end there. -/
theorem ownerPath_eq_holders (nested : root.Nested)
    (here : root.span.contains offset = true ∨ root.span.stop = offset) :
    ∃ ending, ownerPath offset root = root.holders offset ++ ending ∧
      ∀ n ∈ ending, n.span.stop = offset := by
  induction root using children_induction with
  | step n ih =>
    -- where no child contains the offset, nothing on the way down does from here on
    have settled (tail : List Node) (path : ownerPath offset n = n :: tail)
        (free : ∀ child ∈ n.children, child.span.contains offset = false)
        (ends : ∀ m ∈ tail, m.span.stop = offset) :
        ∃ ending, ownerPath offset n = n.holders offset ++ ending ∧
          ∀ m ∈ ending, m.span.stop = offset := by
      have below : n.children.flatMap (holders offset) = [] :=
        List.flatMap_eq_nil_iff.2 fun child inside =>
          (nested.below inside).holders_eq_nil (free child inside)
      rw [path, holders_eq, below, List.append_nil]
      cases holds : n.span.contains offset with
      | true => exact ⟨tail, rfl, ends⟩
      | false =>
        have stop : n.span.stop = offset := here.resolve_left (by simp [holds])
        exact ⟨n :: tail, rfl, List.forall_mem_cons.2 ⟨stop, ends⟩⟩
    cases below : n.child? offset with
    | none =>
      exact settled [] (ownerPath_of_none below)
        (fun child inside => (child?_eq_none_iff.1 below child inside).1) nofun
    | some child =>
      obtain ⟨inside, holds | ⟨ends, free⟩⟩ := child?_eq_some below
      · obtain ⟨ending, path, stops⟩ := ih child inside (nested.below inside) (.inl holds)
        refine ⟨ending, ?_, stops⟩
        rw [ownerPath_of_child? below, path, holders_eq offset n,
          nested.contains_of_child inside holds, nested.flatMap_holders inside holds]
        rfl
      · have stop := (Span.ends_iff.1 ends).1
        obtain ⟨ending, path, stops⟩ := ih child inside (nested.below inside) (.inr stop)
        rw [(nested.below inside).holders_eq_nil (free child inside), List.nil_append] at path
        exact settled ending (by rw [ownerPath_of_child? below, path]) free stops

end Nested

/-! ## The order of siblings -/

/-- The same tree up to the order of siblings, at every level. -/
inductive Rearranged : Node → Node → Prop where
  | mk {kind : Kind} {span : Span} {children between children' : List Node}
      (reordered : children.Perm between) (below : List.Forall₂ Rearranged between children') :
      Rearranged (.mk kind span children) (.mk kind span children')

theorem Rearranged.span_eq {n' : Node} (h : n.Rearranged n') : n'.span = n.span := by
  cases h
  rfl

/-- If no two elements satisfy a test, the order does not decide which one is found. -/
theorem find?_of_perm {α : Type} {p : α → Bool} {l l' : List α} (h : l.Perm l')
    (single : l.Pairwise fun a b => p a = true → p b = false) : l.find? p = l'.find? p := by
  rw [← List.head?_filter, ← List.head?_filter]
  have same := h.filter p
  have few : (l.filter p).Pairwise fun _ _ => False := by
    refine (single.filter p).imp_of_mem fun {a b} ha hb apart => ?_
    have pa := (List.mem_filter.1 ha).2
    have pb := (List.mem_filter.1 hb).2
    simp [apart pa] at pb
  cases found : l.filter p with
  | nil =>
    rw [found] at same
    rw [same.nil_eq]
  | cons a rest =>
    rw [found] at same few
    cases rest with
    | nil => rw [List.singleton_perm.1 same]
    | cons b rest => exact ((List.pairwise_cons.1 few).1 b List.mem_cons_self).elim

theorem find?_of_forall₂ {α β : Type} {R : α → β → Prop} {p : α → Bool} {q : β → Bool}
    (same : ∀ a b, R a b → q b = p a) {l : List α} {l' : List β} (h : List.Forall₂ R l l') :
    Option.Rel R (l.find? p) (l'.find? q) := by
  induction h with
  | nil => exact .none
  | @cons a b l l' first rest ih =>
    rw [List.find?_cons, List.find?_cons, same a b first]
    cases p a with
    | true => exact .some first
    | false => exact ih

theorem Rearranged.child? {n' : Node} (h : n.Rearranged n') (nested : n.Nested) :
    Option.Rel Rearranged (n.child? offset) (n'.child? offset) := by
  obtain @⟨kind, span, children, between, children', reordered, below⟩ := h
  have apart : children.Pairwise fun a b => a.span.Apart b.span :=
    nested.apart _ (mem_preorder_self _)
  have holder := find?_of_perm (p := (·.span.contains offset)) reordered
    (apart.imp fun ab => ab offset)
  have ender := find?_of_perm (p := (·.span.ends offset)) reordered
    (apart.imp fun ab => ab.not_ends)
  have holders := find?_of_forall₂ (p := (·.span.contains offset)) (q := (·.span.contains offset))
    (fun a b ab => by rw [ab.span_eq]) below
  have enders := find?_of_forall₂ (p := (·.span.ends offset)) (q := (·.span.ends offset))
    (fun a b ab => by rw [ab.span_eq]) below
  simp only [Node.child?, Node.children, holder, ender]
  generalize between.find? (·.span.contains offset) = found at holders ⊢
  generalize children'.find? (·.span.contains offset) = found' at holders ⊢
  cases holders with
  | none => exact enders
  | some same => exact .some same

/-- The order of siblings makes no difference to the path. -/
theorem Rearranged.ownerPath {root' : Node} (h : root.Rearranged root') (nested : root.Nested) :
    List.Forall₂ Rearranged (ownerPath offset root) (ownerPath offset root') := by
  induction root using children_induction generalizing root' with
  | step n ih =>
    have down : Option.Rel Rearranged (n.child? offset) (root'.child? offset) := h.child? nested
    generalize below' : root'.child? offset = found' at down
    cases below : n.child? offset with
    | none =>
      rw [below] at down
      cases down
      rw [ownerPath_of_none below, ownerPath_of_none below']
      exact .cons h .nil
    | some child =>
      have inside := (child?_eq_some below).1
      rw [below] at down
      cases down with
      | some same =>
        rw [ownerPath_of_child? below, ownerPath_of_child? below']
        exact .cons h (ih child inside same (nested.below inside))

/-! ## The owner -/

/-- The path from the root of a well-formed tree to the owner of an offset: a chain of children that
has the nodes which contain the offset and then nodes that end there, goes on as long as it can, and
is the same for every order of siblings. -/
theorem ownerPath_exact (nested : root.Nested) (first : root.span.start ≤ offset)
    (last : offset ≤ root.span.stop) :
    (ownerPath offset root).head? = some root ∧
    (ownerPath offset root).IsChain (fun parent child => child ∈ parent.children) ∧
    (∃ ending, ownerPath offset root =
        root.preorder.filter (fun n => n.span.start ≤ offset ∧ offset < n.span.stop) ++ ending ∧
      ∀ n ∈ ending, n.span.stop = offset) ∧
    (∀ owner ∈ (ownerPath offset root).getLast?, ∀ child ∈ owner.children,
      ¬ (child.span.start ≤ offset ∧ offset < child.span.stop) ∧
      ¬ (child.span.start < child.span.stop ∧ child.span.stop = offset)) ∧
    ∀ root', root.Rearranged root' →
      List.Forall₂ Rearranged (ownerPath offset root) (ownerPath offset root') := by
  have here : root.span.contains offset = true ∨ root.span.stop = offset := by
    rw [Span.contains_iff]
    omega
  refine ⟨head?_ownerPath offset root, isChain_ownerPath offset root,
    nested.ownerPath_eq_holders here, fun owner hlast child inside => ?_,
    fun root' same => same.ownerPath nested⟩
  obtain ⟨free, unended⟩ := child?_eq_none_iff.1 (child?_getLast_ownerPath hlast) child inside
  rw [← Bool.not_eq_true, Span.contains_iff] at free
  rw [← Bool.not_eq_true, Span.ends_iff, ← Bool.not_eq_true, Span.isEmpty_iff] at unended
  exact ⟨free, fun ends => unended ⟨ends.2, Nat.not_le.2 ends.1⟩⟩

/-- The tree of `<a b="1" c >` with these nodes for its attributes. -/
def anchor (attributes : List Node) : Node :=
  .mk .document ⟨0, 12⟩ [.mk (.element false) ⟨0, 12⟩
    [.mk (.startTag "a" ⟨1, 2⟩ ⟨2, 11⟩) ⟨0, 12⟩ attributes]]

def valued : Node := .mk (.attr (.markup "b" "1") ⟨3, 4⟩) ⟨2, 8⟩ []

def bare : Node := .mk (.attr (.minimizedMarkup "c") ⟨9, 10⟩) ⟨8, 10⟩ []

/-- Right behind an attribute: the nodes around it contain the offset, the attribute ends there. -/
theorem ownerPath_exact_anchor :
    (anchor [valued, bare]).Nested ∧ (anchor [valued, bare]).Rearranged (anchor [bare, valued]) ∧
    (ownerPath 10 (anchor [valued, bare])).map span = [⟨0, 12⟩, ⟨0, 12⟩, ⟨0, 12⟩, ⟨8, 10⟩] ∧
    (∃ ending, ownerPath 10 (anchor [valued, bare]) =
        (anchor [valued, bare]).preorder.filter
          (fun n => n.span.start ≤ 10 ∧ 10 < n.span.stop) ++ ending ∧
      ∀ n ∈ ending, n.span.stop = 10) ∧
    List.Forall₂ Rearranged (ownerPath 10 (anchor [valued, bare]))
      (ownerPath 10 (anchor [bare, valued])) := by
  have nested : (anchor [valued, bare]).Nested := ⟨by decide, by decide⟩
  have leaf (kind : Kind) (s : Span) : Rearranged (.mk kind s []) (.mk kind s []) :=
    .mk .nil .nil
  have swapped : (anchor [valued, bare]).Rearranged (anchor [bare, valued]) :=
    .mk (.refl _) (.cons (.mk (.refl _) (.cons
      (.mk (.swap bare valued []) (.cons (leaf ..) (.cons (leaf ..) .nil))) .nil)) .nil)
  have exact := @ownerPath_exact 10 _ nested (by decide) (by decide)
  exact ⟨nested, swapped, rfl, exact.2.2.1, exact.2.2.2.2 _ swapped⟩

end Node

end PolyglotLsp.Markup
