import PolyglotLsp.Proofs.Text.Lines

/-!
# From offsets to positions and back

Every offset of a text has a position, and only these (`isSome_positionOf_iff`): that of the last
place at or before it (`positionOf_append_cons`). A place that comes later has a later position
(`endOf_lt_endOf_append`), so that positions tell places apart, and a position's offset is the place
it was taken from. Neither number of a position exceeds the bytes before it
(`endOf_le_byteLength`). The table of line starts and the scan of a line lead to the same positions
(`positionOf_eq_some_iff`).
-/

namespace PolyglotLsp

namespace Text

/-! ## Sizes -/

theorem units_le_utf8Size (c : Char) : units c ≤ c.utf8Size := by
  grind [units, Char.utf8Size]

/-- Each newline and each unit before a place takes a byte at least. -/
theorem endOf_le_byteLength (cs : List Char) :
    (endOf cs).line + (endOf cs).character ≤ byteLength cs := by
  induction cs with
  | nil => exact Nat.le_refl 0
  | cons c cs ih =>
    have size := units_le_utf8Size c
    have one := c.utf8Size_pos
    rw [byteLength_cons, endOf]
    split
    · dsimp only
      omega
    · split
      · next same =>
        dsimp only
        omega
      · omega

/-! ## Order -/

theorem endOf_append (cs ds : List Char) :
    endOf (cs ++ ds) = advance (endOf cs) (endOf ds) := by
  induction cs with
  | nil => exact (advance_start _).symm
  | cons c cs ih =>
    by_cases newline : c = '\n'
    · by_cases same : (endOf ds).line = 0 <;>
        simp [endOf, newline, ih, advance, same, Nat.add_right_comm]
    · by_cases first : (endOf cs).line = 0
      · by_cases same : (endOf ds).line = 0 <;>
          simp [endOf, newline, ih, advance, same, first, Nat.add_assoc]
      · by_cases same : (endOf ds).line = 0 <;>
          simp [endOf, newline, ih, advance, same, first]

/-- What is not empty ends further on than it begins. -/
theorem lt_advance_endOf (origin : Position) {cs : List Char} (h : cs ≠ []) :
    origin < advance origin (endOf cs) := by
  have beyond : 0 < (endOf cs).line ∨ 0 < (endOf cs).character := by
    cases cs with
    | nil => exact absurd rfl h
    | cons c cs =>
      have unit := units_pos c
      rw [endOf]
      split
      · exact .inl (Nat.succ_pos _)
      · split
        · exact .inr (Nat.add_pos_left unit _)
        · next later => exact .inl (Nat.pos_of_ne_zero later)
  rw [Position.lt_iff, advance]
  split
  · next same =>
    exact .inr ⟨rfl, Nat.lt_add_of_pos_right (beyond.resolve_left (by omega))⟩
  · next later => exact .inl (Nat.lt_add_of_pos_right (Nat.pos_of_ne_zero later))

theorem endOf_lt_endOf_append (cs : List Char) {ds : List Char} (h : ds ≠ []) :
    endOf cs < endOf (cs ++ ds) := by
  rw [endOf_append]
  exact lt_advance_endOf _ h

/-- Of two places, the one with fewer bytes before it has the earlier position. -/
theorem endOf_lt_endOf {cs before upTo : List Char} (hb : before <+: cs) (hu : upTo <+: cs)
    (h : byteLength before < byteLength upTo) : endOf before < endOf upTo := by
  obtain ⟨between, rfl⟩ := prefix_of_byteLength_le hb hu (Nat.le_of_lt h)
  refine endOf_lt_endOf_append before ?_
  rintro rfl
  rw [List.append_nil] at h
  exact Nat.lt_irrefl _ h

/-! ## Offsets between places -/

/-- The position of a character stands for all of its bytes. -/
theorem positionFrom_append_cons (origin : Position) (cs : List Char) (c : Char) (ds : List Char)
    {k : Nat} (h : k < c.utf8Size) :
    positionFrom origin (cs ++ c :: ds) (byteLength cs + k) = some (advance origin (endOf cs)) := by
  induction cs generalizing origin with
  | nil =>
    have here : advance origin (endOf []) = origin := rfl
    rw [here, List.nil_append, byteLength_nil, Nat.zero_add, positionFrom, if_pos h]
  | cons d cs ih =>
    have beyond : ¬ d.utf8Size + (byteLength cs + k) < d.utf8Size := by omega
    rw [advance_endOf_cons, ← ih]
    simp only [List.cons_append, byteLength_cons, positionFrom, Nat.add_assoc, beyond, ↓reduceIte,
      Nat.add_sub_cancel_left]

theorem positionOf_append_cons (cs : List Char) (c : Char) (ds : List Char) {k : Nat}
    (h : k < c.utf8Size) : positionOf (cs ++ c :: ds) (byteLength cs + k) = some (endOf cs) := by
  rw [positionOf, positionFrom_append_cons _ cs c ds h, advance_start]

theorem positionFrom_eq_none_iff (origin : Position) (cs : List Char) (offset : Nat) :
    positionFrom origin cs offset = none ↔ byteLength cs < offset := by
  induction cs generalizing origin offset with
  | nil =>
    rw [positionFrom]
    split <;> simp <;> omega
  | cons c cs ih =>
    rw [positionFrom, byteLength_cons]
    split
    · simp
      omega
    · rw [ih]
      omega

/-- The offsets that have a position. -/
theorem isSome_positionOf_iff {cs : List Char} {offset : Nat} :
    (positionOf cs offset).isSome = true ↔ offset ≤ byteLength cs := by
  rw [Option.isSome_iff_ne_none, ne_eq, positionOf, positionFrom_eq_none_iff, Nat.not_lt]

/-- An offset lies at a place, or inside the character that follows one. -/
theorem exists_place {cs : List Char} {offset : Nat} (h : offset ≤ byteLength cs) :
    ∃ before after, cs = before ++ after ∧ byteLength before ≤ offset ∧
      ∀ c ∈ after.head?, offset < byteLength before + c.utf8Size := by
  induction cs generalizing offset with
  | nil => exact ⟨[], [], rfl, Nat.zero_le _, nofun⟩
  | cons c cs ih =>
    rw [byteLength_cons] at h
    by_cases inside : offset < c.utf8Size
    · refine ⟨[], c :: cs, rfl, Nat.zero_le _, ?_⟩
      rintro d ⟨⟩
      simpa using inside
    · have behind : offset - c.utf8Size ≤ byteLength cs := by omega
      obtain ⟨before, after, rfl, lower, upper⟩ := ih behind
      refine ⟨c :: before, after, rfl, ?_, fun d hd => ?_⟩
      · rw [byteLength_cons]
        omega
      · have := upper d hd
        rw [byteLength_cons]
        omega

/-- Every position is that of a place at or before the offset. -/
theorem exists_endOf_of_positionOf {cs : List Char} {offset : Nat} {p : Position}
    (h : positionOf cs offset = some p) :
    ∃ before, before <+: cs ∧ byteLength before ≤ offset ∧ p = endOf before := by
  have inside : offset ≤ byteLength cs := isSome_positionOf_iff.1 (by rw [h]; rfl)
  obtain ⟨before, after, rfl, lower, upper⟩ := exists_place inside
  refine ⟨before, List.prefix_append .., lower, ?_⟩
  obtain ⟨k, rfl⟩ := Nat.exists_eq_add_of_le lower
  cases after with
  | nil =>
    rw [List.append_nil] at inside h
    obtain rfl : k = 0 := by omega
    have here := positionOf_append before []
    rw [List.append_nil] at here
    exact Option.some.inj (h.symm.trans here)
  | cons c after =>
    have here := positionOf_append_cons before c after (Nat.lt_of_add_lt_add_left (upper c rfl))
    exact Option.some.inj (h.symm.trans here)

/-! ## The scan of a line -/

theorem lineUnitsOfBytes_append (left right : List Char) :
    lineUnitsOfBytes (left ++ right) (byteLength left) = some (unitLength left) := by
  induction left with
  | nil => simp [lineUnitsOfBytes]
  | cons c left ih =>
    obtain ⟨n, hn⟩ := Nat.exists_eq_succ_of_ne_zero (Nat.ne_of_gt c.utf8Size_pos)
    have size : c.utf8Size + byteLength left = n + byteLength left + 1 := by omega
    have beyond : ¬ n + byteLength left + 1 < c.utf8Size := by omega
    have behind : n + byteLength left + 1 - c.utf8Size = byteLength left := by omega
    rw [List.cons_append, byteLength_cons, size, lineUnitsOfBytes, if_neg beyond, behind, ih]
    rfl

/-- A scan of a line passes over the characters before a place, and knows no other offsets. -/
theorem lineUnitsOfBytes_eq_some_iff {line : List Char} {k column : Nat} :
    lineUnitsOfBytes line k = some column ↔
      ∃ left, left <+: line ∧ byteLength left = k ∧ unitLength left = column := by
  constructor
  · intro h
    fun_induction lineUnitsOfBytes line k generalizing column with
    | case1 => exact ⟨[], List.nil_prefix, rfl, Option.some.inj h⟩
    | case2 => cases h
    | case3 => cases h
    | case4 c rest k inside ih =>
      obtain ⟨column, scanned, rfl⟩ := Option.map_eq_some_iff.1 h
      obtain ⟨left, leads, bytes, rfl⟩ := ih scanned
      refine ⟨c :: left, List.cons_prefix_cons.2 ⟨rfl, leads⟩, ?_, rfl⟩
      rw [byteLength_cons, bytes]
      omega
  · rintro ⟨left, ⟨right, rfl⟩, rfl, rfl⟩
    exact lineUnitsOfBytes_append left right

theorem endOf_of_single {left : List Char} (single : '\n' ∉ left) :
    endOf left = ⟨0, unitLength left⟩ := by
  induction left with
  | nil => rfl
  | cons c left ih =>
    rw [List.mem_cons, not_or] at single
    rw [endOf, if_neg (Ne.symm single.1), ih single.2, if_pos rfl, unitLength_cons]

theorem line_endOf (cs : List Char) : (endOf cs).line = cs.count '\n' := by
  induction cs with
  | nil => rfl
  | cons c cs ih =>
    by_cases newline : c = '\n'
    · simp [endOf, newline, ih]
    · rw [endOf, if_neg newline, List.count_cons_of_ne newline, ← ih]
      split
      · next same => exact same.symm
      · rfl

theorem endOf_of_begins {before : List Char} (begins : ∀ c ∈ before.getLast?, c = '\n') :
    endOf before = ⟨before.count '\n', 0⟩ := by
  rcases List.eq_nil_or_concat before with rfl | ⟨earlier, c, rfl⟩
  · rfl
  · obtain rfl : c = '\n' := begins c (by simp)
    rw [List.concat_eq_append, Text.endOf_append, List.count_append, ← line_endOf]
    rfl

/-- The position of a place is that of its column on its line. -/
theorem IsLine.endOf_append {cs before line after left : List Char} {n : Nat}
    (h : IsLine cs n before line after) (inside : left <+: line) :
    endOf (before ++ left) = ⟨n, unitLength left⟩ := by
  have single : '\n' ∉ left := fun newline => h.single (inside.subset newline)
  rw [Text.endOf_append, endOf_of_begins h.begins, endOf_of_single single, h.number]
  simp [advance]

/-- A place lies on a line of the text. -/
theorem exists_isLine_of_prefix {cs upTo : List Char} (h : upTo <+: cs) :
    ∃ before line after left, IsLine cs (upTo.count '\n') before line after ∧ left <+: line ∧
      upTo = before ++ left := by
  obtain ⟨rest, rfl⟩ := h
  obtain ⟨before, left, after, found⟩ := exists_isLine (Nat.le_refl (upTo.count '\n'))
  -- It is the last line of what comes before the place.
  have last : after = [] := by
    have newlines := congrArg (List.count '\n') found.whole
    rw [List.count_append, List.count_append, found.number] at newlines
    cases after with
    | nil => rfl
    | cons c after =>
      obtain rfl := found.ends c rfl
      rw [List.count_cons_self] at newlines
      omega
  obtain ⟨whole, number, begins, single, -⟩ := found
  rw [last, List.append_nil] at whole
  have together : upTo ++ rest = before ++ (left ++ rest) := by rw [whole, List.append_assoc]
  refine ⟨before, _, _, left, isLine_takeWhile together number begins, ?_, whole⟩
  have kept : ∀ c ∈ left, (c != '\n') = true := fun c hc =>
    bne_iff_ne.2 (ne_of_mem_of_not_mem hc single)
  rw [List.takeWhile_append_of_pos kept]
  exact List.prefix_append ..

/-- The table of line starts and a scan of the line give the position of a place. -/
theorem positionOf_eq_some_iff {cs : List Char} {offset : Nat}
    (boundary : isBoundary cs offset = true) {p : Position} :
    positionOf cs offset = some p ↔
      ∃ before line after k, IsLine cs p.line before line after ∧
        (lineStarts cs)[p.line]? = some (byteLength before) ∧
        lineUnitsOfBytes line k = some p.character ∧ offset = byteLength before + k := by
  constructor
  · intro h
    obtain ⟨upTo, hu, rfl⟩ := isBoundary_iff.1 boundary
    obtain ⟨before, line, after, left, found, inside, rfl⟩ := exists_isLine_of_prefix hu
    have here : positionOf cs (byteLength (before ++ left)) = some (endOf (before ++ left)) := by
      obtain ⟨rest, rfl⟩ := hu
      exact positionOf_append ..
    rw [here, found.endOf_append inside] at h
    cases h
    exact ⟨before, line, after, byteLength left, found, getElem?_lineStarts found,
      lineUnitsOfBytes_eq_some_iff.2 ⟨left, inside, rfl, rfl⟩, byteLength_append ..⟩
  · rintro ⟨before, line, after, k, found, -, scanned, rfl⟩
    obtain ⟨left, inside, rfl, column⟩ := lineUnitsOfBytes_eq_some_iff.1 scanned
    have position := found.endOf_append inside
    obtain ⟨right, rfl⟩ := inside
    rw [found.whole, List.append_assoc, ← List.append_assoc, ← byteLength_append,
      positionOf_append, position, column]

/-- The offsets of a text are those that have positions, which are numbers of 32 bits if the text is
shorter than that; a position leads back to the place it was taken from, is shared by the bytes of
the character that follows, and comes later the later the place. -/
theorem positionOf_laws (text : String) (short : text.utf8ByteSize < 4294967296) :
    (∀ offset, (positionOf text.toList offset).isSome = true ↔ offset ≤ text.utf8ByteSize) ∧
      (∀ offset p, positionOf text.toList offset = some p →
        p.line < 4294967296 ∧ p.character < 4294967296) ∧
      (∀ offset, isBoundary text.toList offset = true →
        ∃ p, positionOf text.toList offset = some p ∧ offsetOf text.toList p = some offset) ∧
      (∀ before c after offset, text.toList = before ++ c :: after →
        byteLength before ≤ offset → offset < byteLength before + c.utf8Size →
        positionOf text.toList offset = positionOf text.toList (byteLength before)) ∧
      ∀ offset offset' p p', isBoundary text.toList offset = true →
        isBoundary text.toList offset' = true → offset < offset' →
        positionOf text.toList offset = some p → positionOf text.toList offset' = some p' →
        p < p' := by
  have size := byteLength_toList text
  generalize text.toList = cs at size ⊢
  rw [← size] at short ⊢
  refine ⟨fun offset => isSome_positionOf_iff, fun offset p h => ?_, fun offset h => ?_, ?_, ?_⟩
  · obtain ⟨before, ⟨after, rfl⟩, -, rfl⟩ := exists_endOf_of_positionOf h
    have numbers := endOf_le_byteLength before
    rw [byteLength_append] at short
    omega
  · obtain ⟨before, ⟨after, rfl⟩, rfl⟩ := isBoundary_iff.1 h
    exact ⟨_, positionOf_append before after, offsetOf_endOf before after⟩
  · rintro before c after offset rfl lower upper
    obtain ⟨k, rfl⟩ := Nat.exists_eq_add_of_le lower
    rw [positionOf_append_cons before c after (Nat.lt_of_add_lt_add_left upper),
      positionOf_append before]
  · intro offset offset' p p' h h' earlier hp hp'
    obtain ⟨before, hb, rfl⟩ := isBoundary_iff.1 h
    obtain ⟨upTo, hu, rfl⟩ := isBoundary_iff.1 h'
    have first : some (endOf before) = some p := by
      obtain ⟨after, rfl⟩ := hb
      rw [← hp, positionOf_append]
    have second : some (endOf upTo) = some p' := by
      obtain ⟨after, rfl⟩ := hu
      rw [← hp', positionOf_append]
    cases first
    cases second
    exact endOf_lt_endOf hb hu earlier

/-- The letter after a wide character and a line end, and an offset inside that character. -/
theorem positionOf_laws_wide :
    "a😀\nb".utf8ByteSize < 4294967296 ∧
      (∃ p, positionOf "a😀\nb".toList 6 = some p ∧ offsetOf "a😀\nb".toList p = some 6) ∧
      positionOf "a😀\nb".toList 3 = positionOf "a😀\nb".toList 1 ∧
      (⟨0, 3⟩ : Position) < ⟨1, 0⟩ := by
  have short : "a😀\nb".utf8ByteSize < 4294967296 := by decide
  obtain ⟨-, -, back, inside, order⟩ := positionOf_laws "a😀\nb" short
  exact ⟨short, back 6 (by decide), inside ['a'] '😀' ['\n', 'b'] 3 (by decide) (by decide)
    (by decide), order 5 6 _ _ (by decide) (by decide) (by decide) (by decide) (by decide)⟩

end Text

end PolyglotLsp
