import Mathlib.Data.String.Basic
import PolyglotLsp.Proofs.Document.Refusal

/-!
# Lines and columns

A line is what stands between two newlines, or between one of them and an end of the text
(`IsLine`). A position finds its line by the newlines before it (`dropLines_append`) and its column
by the units from there: at the first place that has as many before it, or at the end of a line with
fewer (`exists_atColumn`). The table of line starts and the scan of a single line lead to the same
place (`getElem?_lineStarts`, `columnBytes_eq_getD`). A later position never leads further back
(`offsetOf_mono`), and whatever two positions are given, what lies between their places can be
replaced (`offsetOf_laws`).
-/

namespace PolyglotLsp

/-- Earlier in a text: on an earlier line, or further to the left on the same one. -/
instance : LT Position where
  lt p q := p.line < q.line ∨ p.line = q.line ∧ p.character < q.character

instance : LE Position where
  le p q := p.line < q.line ∨ p.line = q.line ∧ p.character ≤ q.character

theorem Position.lt_iff {p q : Position} :
    p < q ↔ p.line < q.line ∨ p.line = q.line ∧ p.character < q.character := Iff.rfl

theorem Position.line_le {p q : Position} (h : p ≤ q) : p.line ≤ q.line := by
  rcases h with earlier | ⟨same, -⟩
  · exact Nat.le_of_lt earlier
  · exact Nat.le_of_eq same

namespace Text

variable {cs before line after : List Char} {n column : Nat}

theorem byteLength_toList (text : String) : byteLength text.toList = text.utf8ByteSize := by
  have size (cs : List Char) : byteLength cs = String.utf8Len cs := by
    induction cs with
    | nil => rfl
    | cons c cs ih => rw [byteLength_cons, ih, String.utf8Len_cons, Nat.add_comm]
  rw [size, ← String.utf8ByteSize_ofList, String.ofList_toList]

/-! ## Lines -/

/-- The line with a number, without its newline, between what stands before and after it. -/
structure IsLine (cs : List Char) (n : Nat) (before line after : List Char) : Prop where
  whole : cs = before ++ (line ++ after)
  number : before.count '\n' = n
  begins : ∀ c ∈ before.getLast?, c = '\n'
  single : '\n' ∉ line
  ends : ∀ c ∈ after.head?, c = '\n'

theorem dropLines_append (begins : ∀ c ∈ before.getLast?, c = '\n') (rest : List Char)
    (offset : Nat) :
    dropLines (before ++ rest) (before.count '\n') offset =
      some (offset + byteLength before, rest) := by
  induction before generalizing offset with
  | nil => simp [dropLines]
  | cons c before ih =>
    rw [byteLength_cons, ← Nat.add_assoc]
    by_cases newline : c = '\n'
    · have later : ∀ d ∈ before.getLast?, d = '\n' := by
        intro d hd
        refine begins d ?_
        rw [List.getLast?_cons, Option.mem_def.1 hd]
        rfl
      rw [List.count_cons, if_pos (beq_iff_eq.2 newline), List.cons_append, dropLines,
        if_pos newline, ih later]
    · cases hl : before.getLast? with
      | none =>
        -- the stretch ends with a newline
        rw [List.getLast?_eq_none_iff] at hl
        subst hl
        exact absurd (begins c rfl) newline
      | some d =>
        have last : d = '\n' := begins d (by rw [List.getLast?_cons, hl]; rfl)
        have found : '\n' ∈ before := last ▸ List.mem_of_getLast? hl
        obtain ⟨m, hm⟩ := Nat.exists_eq_succ_of_ne_zero (Nat.ne_of_gt (List.count_pos_iff.2 found))
        rw [List.count_cons, if_neg (by simpa using newline), Nat.add_zero, hm, List.cons_append,
          dropLines, if_neg newline, ← Nat.succ_eq_add_one, ← hm,
          ih fun e he => (Option.some.inj (hl ▸ he)) ▸ last]

/-- A line is found after the newlines before it. -/
theorem IsLine.dropLines_eq (h : IsLine cs n before line after) (offset : Nat) :
    dropLines cs n offset = some (offset + byteLength before, line ++ after) := by
  rw [h.whole, ← h.number, dropLines_append h.begins]

theorem exists_before_of_dropLines {offset start : Nat} {rest : List Char}
    (h : dropLines cs n offset = some (start, rest)) :
    ∃ before, cs = before ++ rest ∧ before.count '\n' = n ∧ ∀ c ∈ before.getLast?, c = '\n' := by
  fun_induction dropLines cs n offset with
  | case1 =>
    cases h
    exact ⟨[], rfl, rfl, by simp⟩
  | case2 => cases h
  | case3 offset n rest' ih =>
    obtain ⟨before, rfl, number, begins⟩ := ih h
    refine ⟨'\n' :: before, rfl, by rw [List.count_cons_self, number], fun c hc => ?_⟩
    rw [List.getLast?_cons] at hc
    cases hl : before.getLast? with
    | none => simpa [hl] using hc.symm
    | some d =>
      rw [hl] at hc
      cases hc
      exact begins d hl
  | case4 offset n c rest' newline ih =>
    obtain ⟨before, rfl, number, begins⟩ := ih h
    refine ⟨c :: before, rfl, by rw [List.count_cons_of_ne newline, number], fun d hd => ?_⟩
    rw [List.getLast?_cons] at hd
    cases hl : before.getLast? with
    | none =>
      -- there is a newline before the line, since its number is not zero
      rw [List.getLast?_eq_none_iff] at hl
      subst hl
      cases number
    | some e =>
      rw [hl] at hd
      cases hd
      exact begins e hl

/-- What stands from the start of a line to the next newline. -/
theorem isLine_takeWhile {rest : List Char} (whole : cs = before ++ rest)
    (number : before.count '\n' = n) (begins : ∀ c ∈ before.getLast?, c = '\n') :
    IsLine cs n before (rest.takeWhile (· != '\n')) (rest.dropWhile (· != '\n')) := by
  refine ⟨?_, number, begins, fun newline => ?_, fun c hc => ?_⟩
  · rw [List.takeWhile_append_dropWhile, whole]
  · simpa using List.mem_takeWhile_imp newline
  · have first := List.head?_dropWhile_not (· != '\n') rest
    rw [Option.mem_def.1 hc] at first
    simpa using first

/-- A text has one line more than newlines. -/
theorem exists_isLine (h : n ≤ cs.count '\n') :
    ∃ before line after, IsLine cs n before line after := by
  cases found : dropLines cs n 0 with
  | none => exact absurd ((dropLines_eq_none_iff ..).1 found) (Nat.not_lt.2 h)
  | some result =>
    obtain ⟨before, whole, number, begins⟩ := exists_before_of_dropLines found
    exact ⟨before, _, _, isLine_takeWhile whole number begins⟩

/-- Of two lines, the earlier one ends before the later one begins. -/
theorem IsLine.prefix_of_lt {m : Nat} {before' line' after' : List Char}
    (h : IsLine cs n before line after) (h' : IsLine cs m before' line' after') (earlier : n < m) :
    before ++ line <+: before' := by
  have first : before ++ line <+: cs := ⟨after, by rw [h.whole, List.append_assoc]⟩
  have second : before' <+: cs := ⟨_, h'.whole.symm⟩
  refine (List.prefix_or_prefix_of_prefix first second).resolve_right fun shorter => ?_
  have newlines := shorter.sublist.count_le '\n'
  rw [h'.number, List.count_append, h.number, List.count_eq_zero.2 h.single] at newlines
  omega

/-! ## Columns -/

/-- The UTF-16 code units of a text. -/
def unitLength : List Char → Nat
  | [] => 0
  | c :: cs => units c + unitLength cs

@[simp] theorem unitLength_nil : unitLength [] = 0 := rfl

@[simp] theorem unitLength_cons (c : Char) (cs : List Char) :
    unitLength (c :: cs) = units c + unitLength cs := rfl

/-- Where a column lies on a line: at the first place with so many units before it, or at the end of
the line if there is no such place. -/
inductive AtColumn (line : List Char) (column : Nat) : List Char → Prop
  | reached {left : List Char} (inside : left <+: line) (reaches : column ≤ unitLength left)
      (first : ∀ other, other <+: line → column ≤ unitLength other →
        byteLength left ≤ byteLength other) : AtColumn line column left
  | clamped (beyond : ∀ other, other <+: line → unitLength other < column) :
      AtColumn line column line

theorem AtColumn.inside {left : List Char} (h : AtColumn line column left) : left <+: line := by
  cases h with
  | reached inside => exact inside
  | clamped => exact List.prefix_rfl

/-- A line has one place for a column. -/
theorem AtColumn.byteLength_eq {left left' : List Char} (h : AtColumn line column left)
    (h' : AtColumn line column left') : byteLength left = byteLength left' := by
  cases h with
  | reached inside reaches first =>
    cases h' with
    | reached inside' reaches' first' =>
      exact Nat.le_antisymm (first _ inside' reaches') (first' _ inside reaches)
    | clamped beyond => exact absurd reaches (Nat.not_le.2 (beyond _ inside))
  | clamped beyond =>
    cases h' with
    | reached inside' reaches' => exact absurd reaches' (Nat.not_le.2 (beyond _ inside'))
    | clamped => rfl

theorem columnBytes_of_ends (ends : ∀ c ∈ after.head?, c = '\n') (column : Nat) :
    columnBytes after column = 0 := by
  cases after with
  | nil => rfl
  | cons c after => rw [columnBytes, if_pos (.inr (ends c rfl))]

theorem exists_atColumn (single : '\n' ∉ line) (ends : ∀ c ∈ after.head?, c = '\n')
    (column : Nat) :
    ∃ left, AtColumn line column left ∧ columnBytes (line ++ after) column = byteLength left := by
  induction line generalizing column with
  | nil =>
    refine ⟨[], ?_, columnBytes_of_ends ends column⟩
    cases column with
    | zero => exact .reached List.prefix_rfl (Nat.le_refl 0) fun _ _ _ => Nat.zero_le _
    | succ column =>
      refine .clamped fun other inside => ?_
      rw [List.prefix_nil.1 inside]
      exact Nat.succ_pos column
  | cons c line ih =>
    simp only [List.mem_cons, not_or] at single
    by_cases here : column = 0
    · refine ⟨[], .reached List.nil_prefix (Nat.le_of_eq here) fun _ _ _ => Nat.zero_le _, ?_⟩
      rw [List.cons_append, columnBytes, if_pos (.inl here), byteLength_nil]
    · obtain ⟨left, found, bytes⟩ := ih single.2 (column - units c)
      have walked : columnBytes (c :: line ++ after) column = byteLength (c :: left) := by
        rw [List.cons_append, columnBytes, if_neg (not_or.2 ⟨here, Ne.symm single.1⟩), bytes,
          byteLength_cons]
      refine ⟨c :: left, ?_, walked⟩
      cases found with
      | reached inside reaches first =>
        refine .reached (List.cons_prefix_cons.2 ⟨rfl, inside⟩) ?_ fun other leads enough => ?_
        · rw [unitLength_cons]
          omega
        · cases other with
          | nil => exact absurd (Nat.le_zero.1 enough) here
          | cons d other =>
            obtain ⟨rfl, shorter⟩ := List.cons_prefix_cons.1 leads
            rw [unitLength_cons] at enough
            rw [byteLength_cons, byteLength_cons]
            exact Nat.add_le_add_left (first other shorter (by omega)) _
      | clamped beyond =>
        refine .clamped fun other leads => ?_
        cases other with
        | nil => exact Nat.pos_of_ne_zero here
        | cons d other =>
          obtain ⟨rfl, shorter⟩ := List.cons_prefix_cons.1 leads
          have short := beyond other shorter
          rw [unitLength_cons]
          omega

theorem columnBytes_mono (cs : List Char) {column column' : Nat} (h : column ≤ column') :
    columnBytes cs column ≤ columnBytes cs column' := by
  induction cs generalizing column column' with
  | nil => exact Nat.le_refl 0
  | cons c cs ih =>
    rw [columnBytes, columnBytes]
    split
    · exact Nat.zero_le _
    · next going =>
      have further : ¬ (column' = 0 ∨ c = '\n') := by
        rw [not_or] at going ⊢
        exact ⟨by omega, going.2⟩
      rw [if_neg further]
      exact Nat.add_le_add_left (ih (Nat.sub_le_sub_right h _)) _

/-! ## The table of line starts -/

theorem go_eq_append (cs : List Char) (offset : Nat) (acc : List Nat) :
    lineStarts.go cs offset acc = acc.reverse ++ lineStarts.go cs offset [] := by
  induction cs generalizing offset acc with
  | nil => simp [lineStarts.go]
  | cons c cs ih =>
    by_cases newline : c = '\n'
    · simp only [lineStarts.go, newline, ↓reduceIte]
      rw [ih, ih _ [_]]
      simp
    · simp only [lineStarts.go, newline, ↓reduceIte]
      exact ih _ acc

theorem getElem?_cons_go (cs : List Char) (n offset : Nat) :
    (offset :: lineStarts.go cs offset [])[n]? = (dropLines cs n offset).map (·.1) := by
  fun_induction dropLines cs n offset with
  | case1 => rfl
  | case2 => rfl
  | case3 offset n rest ih =>
    rw [← ih, lineStarts.go, if_pos rfl, go_eq_append]
    rfl
  | case4 offset n c rest newline ih =>
    rw [← ih, lineStarts.go, if_neg newline]
    rfl

theorem getElem?_lineStarts (h : IsLine cs n before line after) :
    (lineStarts cs)[n]? = some (byteLength before) := by
  rw [lineStarts, go_eq_append]
  refine (getElem?_cons_go cs n 0).trans ?_
  rw [h.dropLines_eq, Option.map_some, Nat.zero_add]

/-- A column is found by looking at the line alone. -/
theorem columnBytes_eq_getD (single : '\n' ∉ line) (ends : ∀ c ∈ after.head?, c = '\n')
    (column : Nat) :
    columnBytes (line ++ after) column = (lineBytesOfUnits line column).getD (byteLength line) := by
  have start (cs : List Char) : columnBytes cs 0 = 0 := by
    cases cs <;> simp [columnBytes]
  fun_induction lineBytesOfUnits line column with
  | case1 => exact start _
  | case2 => exact columnBytes_of_ends ends _
  | case3 c column same =>
    simp only [List.mem_singleton] at single
    simp [columnBytes, Ne.symm single, columnBytes_of_ends ends]
  | case4 c column other =>
    simp only [List.mem_singleton] at single
    simp [columnBytes, Ne.symm single, columnBytes_of_ends ends]
  | case5 c d rest column ih =>
    rw [List.mem_cons, not_or] at single
    rw [List.cons_append, columnBytes, if_neg (not_or.2 ⟨Nat.succ_ne_zero _, Ne.symm single.1⟩),
      ih single.2]
    cases lineBytesOfUnits (d :: rest) (column + 1 - units c) <;> simp

/-! ## Positions -/

theorem offsetOf_eq_of_isLine {p : Position} (h : IsLine cs p.line before line after) :
    offsetOf cs p = some (byteLength before + columnBytes (line ++ after) p.character) := by
  rw [offsetOf, h.dropLines_eq, Option.map_some, Nat.zero_add]

/-- A position with an offset has a line. -/
theorem exists_isLine_of_offsetOf {p : Position} {offset : Nat} (h : offsetOf cs p = some offset) :
    ∃ before line after, IsLine cs p.line before line after := by
  refine exists_isLine (Nat.not_lt.1 fun beyond => ?_)
  rw [(offsetOf_eq_none_iff cs p).2 beyond] at h
  cases h

/-- A position leads to its column on its line. -/
theorem offsetOf_eq_some_iff {p : Position} {offset : Nat} :
    offsetOf cs p = some offset ↔
      ∃ before line after left, IsLine cs p.line before line after ∧
        AtColumn line p.character left ∧ offset = byteLength (before ++ left) := by
  constructor
  · intro h
    obtain ⟨before, line, after, found⟩ := exists_isLine_of_offsetOf h
    obtain ⟨left, column, bytes⟩ := exists_atColumn found.single found.ends p.character
    rw [offsetOf_eq_of_isLine found, bytes] at h
    exact ⟨before, line, after, left, found, column, by rw [byteLength_append, Option.some.inj h]⟩
  · rintro ⟨before, line, after, left, found, column, rfl⟩
    obtain ⟨left', column', bytes⟩ := exists_atColumn found.single found.ends p.character
    rw [offsetOf_eq_of_isLine found, bytes, byteLength_append, column.byteLength_eq column']

theorem byteLength_le_of_prefix {cs ds : List Char} (h : cs <+: ds) :
    byteLength cs ≤ byteLength ds := by
  obtain ⟨more, rfl⟩ := h
  rw [byteLength_append]
  exact Nat.le_add_right _ _

theorem offsetOf_mono {p q : Position} (h : p ≤ q) {offset' : Nat}
    (hq : offsetOf cs q = some offset') :
    ∃ offset, offsetOf cs p = some offset ∧ offset ≤ offset' := by
  have there : (offsetOf cs p).isSome := by
    rw [Option.isSome_iff_ne_none, ne_eq, offsetOf_eq_none_iff, Nat.not_lt]
    refine Nat.le_trans (Position.line_le h) (Nat.not_lt.1 fun beyond => ?_)
    rw [(offsetOf_eq_none_iff cs q).2 beyond] at hq
    cases hq
  obtain ⟨offset, hp⟩ := Option.isSome_iff_exists.1 there
  refine ⟨offset, hp, ?_⟩
  rcases h with earlier | ⟨same, column⟩
  · -- the line of the first position ends before that of the second begins
    obtain ⟨before, line, after, left, here, found, rfl⟩ := offsetOf_eq_some_iff.1 hp
    obtain ⟨before', line', after', left', there, -, rfl⟩ := offsetOf_eq_some_iff.1 hq
    calc
      byteLength (before ++ left) ≤ byteLength (before ++ line) :=
        byteLength_le_of_prefix ((List.prefix_append_right_inj before).2 found.inside)
      _ ≤ byteLength before' := byteLength_le_of_prefix (here.prefix_of_lt there earlier)
      _ ≤ byteLength (before' ++ left') := byteLength_le_of_prefix (List.prefix_append ..)
  · obtain ⟨before, line, after, here⟩ := exists_isLine_of_offsetOf hp
    rw [offsetOf_eq_of_isLine here] at hp
    rw [offsetOf_eq_of_isLine (same ▸ here)] at hq
    rw [← Option.some.inj hp, ← Option.some.inj hq]
    exact Nat.add_le_add_left (columnBytes_mono _ column) _

/-! ## Ranges -/

theorem offsetsOf_eq_none_iff (cs : List Char) (r : Range) :
    offsetsOf cs r = none ↔ cs.count '\n' < r.start.line ∨ cs.count '\n' < r.stop.line := by
  rw [← offsetOf_eq_none_iff, ← offsetOf_eq_none_iff, offsetsOf]
  cases offsetOf cs r.start <;> cases offsetOf cs r.stop <;> simp

/-- A range lies between two places, the first of which does not come after the second. -/
theorem exists_places_of_offsetsOf {r : Range} {start stop : Nat}
    (h : offsetsOf cs r = some (start, stop)) :
    ∃ before removed rest, cs = before ++ removed ++ rest ∧ byteLength before = start ∧
      byteLength (before ++ removed) = stop := by
  simp only [offsetsOf, Option.bind_eq_bind, Option.bind_eq_some_iff, Option.some.injEq,
    Prod.mk.injEq] at h
  obtain ⟨a, ha, b, hb, rfl, rfl⟩ := h
  have between {a b : Nat} (ha : Boundary cs a) (hb : Boundary cs b) (ordered : a ≤ b) :
      ∃ before removed rest, cs = before ++ removed ++ rest ∧ byteLength before = a ∧
        byteLength (before ++ removed) = b := by
    obtain ⟨before, leads, rfl⟩ := ha
    obtain ⟨upTo, ⟨rest, rfl⟩, rfl⟩ := hb
    obtain ⟨removed, rfl⟩ := prefix_of_byteLength_le leads (List.prefix_append ..) ordered
    exact ⟨before, removed, rest, rfl, rfl, rfl⟩
  have first := boundary_of_offsetOf ha
  have second := boundary_of_offsetOf hb
  rcases Nat.le_total a b with ordered | ordered
  · rw [Nat.min_eq_left ordered, Nat.max_eq_right ordered]
    exact between first second ordered
  · rw [Nat.min_eq_right ordered, Nat.max_eq_left ordered]
    exact between second first ordered

/-- What lies between the places of a range can be replaced. -/
theorem applyChange_of_offsetsOf {text : String} {r : Range} {start stop : Nat}
    (h : offsetsOf text.toList r = some (start, stop)) (url : Url) (rangeLength : Option Nat)
    (new : String) :
    ∃ before removed rest, text.toList = before ++ removed ++ rest ∧ byteLength before = start ∧
      byteLength (before ++ removed) = stop ∧
      Store.applyChange url text ⟨some r, rangeLength, new⟩ =
        .ok (String.ofList (before ++ new.toList ++ rest)) := by
  obtain ⟨before, removed, rest, whole, hstart, hstop⟩ := exists_places_of_offsetsOf h
  refine ⟨before, removed, rest, whole, hstart, hstop, ?_⟩
  have replaced : replace? text.toList start stop new.toList =
      some (before ++ new.toList ++ rest) := by
    rw [whole, ← hstart, ← hstop, replace?_append]
  simp only [Store.applyChange, h, Option.bind_eq_bind, Option.bind_some, replaced]

/-- A position has an offset if the text has its line: that of its column there, which the table of
line starts and a scan of the line give as well. A later position has no smaller one. A range has
offsets if the text has the lines of both its ends; they are in order and between characters, so
that an edit of the range puts the new text between what is before them and what is after them. -/
theorem offsetOf_laws (text : String) :
    (∀ p, offsetOf text.toList p = none ↔ text.toList.count '\n' < p.line) ∧
      (∀ p offset, offsetOf text.toList p = some offset ↔
        ∃ before line after left, IsLine text.toList p.line before line after ∧
          AtColumn line p.character left ∧ offset = byteLength (before ++ left)) ∧
      (∀ p before line after, IsLine text.toList p.line before line after →
        (lineStarts text.toList)[p.line]? = some (byteLength before) ∧
        offsetOf text.toList p = some (byteLength before +
          (lineBytesOfUnits line p.character).getD (byteLength line))) ∧
      (∀ p q offset', p ≤ q → offsetOf text.toList q = some offset' →
        ∃ offset, offsetOf text.toList p = some offset ∧ offset ≤ offset') ∧
      (∀ r, offsetsOf text.toList r = none ↔
        text.toList.count '\n' < r.start.line ∨ text.toList.count '\n' < r.stop.line) ∧
      ∀ r start stop, offsetsOf text.toList r = some (start, stop) →
        start ≤ stop ∧ stop ≤ text.utf8ByteSize ∧ isBoundary text.toList start = true ∧
        isBoundary text.toList stop = true ∧
        ∀ url rangeLength new, ∃ before removed rest, text.toList = before ++ removed ++ rest ∧
          byteLength before = start ∧ byteLength (before ++ removed) = stop ∧
          Store.applyChange url text ⟨some r, rangeLength, new⟩ =
            .ok (String.ofList (before ++ new.toList ++ rest)) := by
  refine ⟨offsetOf_eq_none_iff _, fun p offset => offsetOf_eq_some_iff, ?_,
    fun p q offset' h hq => offsetOf_mono h hq, offsetsOf_eq_none_iff _, ?_⟩
  · intro p before line after found
    exact ⟨getElem?_lineStarts found, by
      rw [offsetOf_eq_of_isLine found, columnBytes_eq_getD found.single found.ends]⟩
  · intro r start stop h
    refine ⟨?_, ?_, ?_, ?_, applyChange_of_offsetsOf h⟩
    all_goals
      obtain ⟨before, removed, rest, whole, rfl, rfl⟩ := exists_places_of_offsetsOf h
    · exact byteLength_le_of_prefix (List.prefix_append ..)
    · rw [← byteLength_toList, whole]
      exact byteLength_le_of_prefix (List.prefix_append ..)
    · exact isBoundary_iff.2 ⟨before, ⟨removed ++ rest, by rw [whole, List.append_assoc]⟩, rfl⟩
    · exact isBoundary_iff.2 ⟨before ++ removed, ⟨rest, whole.symm⟩, rfl⟩

/-- A column between the two units of a character, one beyond the line's end, and a missing line. -/
theorem offsetOf_laws_wide :
    offsetOf "a😀\nb".toList ⟨0, 2⟩ = some 5 ∧ offsetOf "a😀\nb".toList ⟨0, 9⟩ = some 5 ∧
      (∃ offset, offsetOf "a😀\nb".toList ⟨0, 1⟩ = some offset ∧ offset ≤ 5) ∧
      offsetOf "a😀\nb".toList ⟨2, 0⟩ = none := by
  obtain ⟨missing, -, scan, mono, -⟩ := offsetOf_laws "a😀\nb"
  have first : IsLine "a😀\nb".toList 0 [] ['a', '😀'] ['\n', 'b'] :=
    ⟨by decide, rfl, nofun, by decide, by simp⟩
  have between := (scan ⟨0, 2⟩ _ _ _ first).2
  exact ⟨between, (scan ⟨0, 9⟩ _ _ _ first).2,
    mono ⟨0, 1⟩ ⟨0, 2⟩ 5 (.inr ⟨rfl, by decide⟩) between, (missing ⟨2, 0⟩).2 (by decide)⟩

end Text

end PolyglotLsp
