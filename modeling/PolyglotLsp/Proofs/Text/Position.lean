import PolyglotLsp.Text.Position

/-!
# Places between characters

A place of a text is where a stretch of it ends, and `endOf` is the position of that place: the
newlines of the stretch, and the units after the last of them. It does not depend on what follows.
A place has the stretch's bytes as its offset, which lead to its position (`positionOf_append`),
and the position leads back to the offset (`offsetOf_endOf`). What lies between two places can be
cut out by their offsets (`replace?_append`).
-/

namespace PolyglotLsp.Text

/-! ## Bytes -/

theorem foldl_utf8Size (cs : List Char) (n : Nat) :
    cs.foldl (fun n c => n + c.utf8Size) n = n + byteLength cs := by
  induction cs generalizing n with
  | nil => rfl
  | cons c cs ih =>
    have whole : byteLength (c :: cs) = 0 + c.utf8Size + byteLength cs := ih (0 + c.utf8Size)
    rw [List.foldl_cons, ih, whole]
    omega

@[simp] theorem byteLength_nil : byteLength [] = 0 := rfl

@[simp] theorem byteLength_cons (c : Char) (cs : List Char) :
    byteLength (c :: cs) = c.utf8Size + byteLength cs := by
  rw [byteLength, List.foldl_cons, foldl_utf8Size, Nat.zero_add]

@[simp] theorem byteLength_append (cs ds : List Char) :
    byteLength (cs ++ ds) = byteLength cs + byteLength ds := by
  rw [byteLength, List.foldl_append, foldl_utf8Size, foldl_utf8Size, Nat.zero_add]

/-! ## Positions -/

/-- The position at which a stretch of text ends, counting from its start. -/
def endOf : List Char → Position
  | [] => ⟨0, 0⟩
  | c :: rest =>
    if c = '\n' then ⟨(endOf rest).line + 1, (endOf rest).character⟩
    else if (endOf rest).line = 0 then ⟨0, units c + (endOf rest).character⟩
    else endOf rest

/-- A position counted from another one: only on the same line do columns add up. -/
def advance (origin p : Position) : Position :=
  if p.line = 0 then ⟨origin.line, origin.character + p.character⟩
  else ⟨origin.line + p.line, p.character⟩

theorem advance_start (p : Position) : advance ⟨0, 0⟩ p = p := by
  obtain ⟨line, character⟩ := p
  cases line <;> simp [advance]

theorem advance_endOf_cons (origin : Position) (c : Char) (cs : List Char) :
    advance origin (endOf (c :: cs)) =
      advance (if c = '\n' then ⟨origin.line + 1, 0⟩
        else ⟨origin.line, origin.character + units c⟩) (endOf cs) := by
  by_cases newline : c = '\n'
  · by_cases same : (endOf cs).line = 0
    · simp [advance, endOf, newline, same]
    · simp only [advance, endOf, newline, same, ↓reduceIte, Nat.add_eq_zero_iff,
        Nat.one_ne_zero, and_false, Position.mk.injEq, and_true]
      omega
  · by_cases same : (endOf cs).line = 0
    · simp [advance, endOf, newline, same, Nat.add_assoc]
    · simp [advance, endOf, newline, same]

theorem positionFrom_append (origin : Position) (cs ds : List Char) :
    positionFrom origin (cs ++ ds) (byteLength cs) = some (advance origin (endOf cs)) := by
  induction cs generalizing origin with
  | nil =>
    have here : advance origin (endOf []) = origin := rfl
    rw [here]
    cases ds with
    | nil => rfl
    | cons d ds => simp [positionFrom, d.utf8Size_pos]
  | cons c cs ih =>
    have beyond : ¬ c.utf8Size + byteLength cs < c.utf8Size := by omega
    rw [advance_endOf_cons, ← ih]
    simp only [List.cons_append, byteLength_cons, positionFrom, beyond, ↓reduceIte,
      Nat.add_sub_cancel_left]

/-- The position of the place where a stretch of the text ends. -/
theorem positionOf_append (cs ds : List Char) :
    positionOf (cs ++ ds) (byteLength cs) = some (endOf cs) := by
  rw [positionOf, positionFrom_append, advance_start]

theorem units_pos (c : Char) : 0 < units c := by
  unfold units
  split <;> omega

/-- Walking a line up to the units of its front passes over the front. -/
theorem dropLines_endOf (cs ds : List Char) (offset : Nat) :
    (dropLines (cs ++ ds) (endOf cs).line offset).map
        (fun (start, rest) => start + columnBytes rest (endOf cs).character) =
      some (offset + byteLength cs) := by
  induction cs generalizing offset with
  | nil =>
    cases ds with
    | nil => simp [endOf, dropLines, columnBytes]
    | cons d ds => simp [endOf, dropLines, columnBytes]
  | cons c cs ih =>
    have later := ih (offset + c.utf8Size)
    rw [byteLength_cons, ← Nat.add_assoc, ← later]
    by_cases newline : c = '\n'
    · simp [endOf, newline, dropLines]
    · by_cases same : (endOf cs).line = 0
      · -- the column is on this line: `c` is its first character
        have more : units c + (endOf cs).character ≠ 0 := by
          have := units_pos c
          omega
        simp only [endOf, newline, same, dropLines, columnBytes, more, List.cons_append,
          or_self, ↓reduceIte, Option.map_some, Nat.add_sub_cancel_left, Nat.add_assoc]
      · obtain ⟨line, hline⟩ := Nat.exists_eq_succ_of_ne_zero same
        simp [endOf, newline, hline, dropLines]

/-- A position leads back to the place it was taken from. -/
theorem offsetOf_endOf (cs ds : List Char) :
    offsetOf (cs ++ ds) (endOf cs) = some (byteLength cs) := by
  have whole := dropLines_endOf cs ds 0
  rwa [Nat.zero_add] at whole

/-! ## Cutting -/

theorem splitAt?_append (cs ds : List Char) :
    splitAt? (cs ++ ds) (byteLength cs) = some (cs, ds) := by
  induction cs with
  | nil => simp [splitAt?]
  | cons c cs ih =>
    obtain ⟨n, hn⟩ := Nat.exists_eq_succ_of_ne_zero (Nat.ne_of_gt c.utf8Size_pos)
    have size : c.utf8Size + byteLength cs = n + byteLength cs + 1 := by omega
    have beyond : ¬ n + byteLength cs + 1 < c.utf8Size := by omega
    have left : n + byteLength cs + 1 - c.utf8Size = byteLength cs := by omega
    rw [List.cons_append, byteLength_cons, size, splitAt?, if_neg beyond, left, ih]
    rfl

theorem replace?_append (before removed rest new : List Char) :
    replace? (before ++ removed ++ rest) (byteLength before) (byteLength (before ++ removed)) new =
      some (before ++ new ++ rest) := by
  have start : splitAt? (before ++ removed ++ rest) (byteLength before) =
      some (before, removed ++ rest) := by
    rw [List.append_assoc]
    exact splitAt?_append before (removed ++ rest)
  have stop : splitAt? (removed ++ rest) (byteLength (before ++ removed) - byteLength before) =
      some (removed, rest) := by
    rw [byteLength_append, Nat.add_sub_cancel_left]
    exact splitAt?_append removed rest
  have ordered : byteLength before ≤ byteLength (before ++ removed) := by
    rw [byteLength_append]
    omega
  rw [replace?, start]
  simp only [Option.bind_eq_bind, Option.bind_some, stop, if_pos ordered]

end PolyglotLsp.Text
