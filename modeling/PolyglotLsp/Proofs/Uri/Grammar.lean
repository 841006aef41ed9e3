import PolyglotLsp.Proofs.Url.Legible
import PolyglotLsp.Proofs.Url.Percent

/-!
# Texts of URIs

A component of a URI consists of the characters of its class and of escapes (`Written`,
`allOf_iff`). Such a text can be taken apart at every separator, since no escape contains one
(`Written.split`), and it stays in its class when it is encoded further (`Written.encode`). A text
that is encoded as a whole is in the class unless the set leaves a character alone that the class
does not have (`written_encode_iff`).
-/

namespace PolyglotLsp.Uri

open Url

variable {allowed allowed' : Char → Bool} {cs ds : List Char} {c : Char}

/-! ## Characters -/

theorem isPlain_of_hexValue? (h : (hexValue? c).isSome = true) : isPlain c = true := by
  have letter : c.isAlphanum = true := by
    unfold hexValue? at h
    have alpha : c.isAlpha =
        (decide (c.val ≥ 65 ∧ c.val ≤ 90) || (c.val ≥ 97 && c.val ≤ 122)) := rfl
    simp only [Char.isAlphanum, alpha, Char.isDigit]
    split at h
    · next digit => simp [show c.val ≥ 48 ∧ c.val ≤ 57 from digit]
    · split at h
      · next upper =>
        have low : c.val ≥ 65 := upper.1
        have high : c.val ≤ 90 := UInt32.le_trans (show c.val ≤ 70 from upper.2) (by decide)
        simp [low, high]
      · split at h
        · next lower =>
          have low : c.val ≥ 97 := lower.1
          have high : c.val ≤ 122 := UInt32.le_trans (show c.val ≤ 102 from lower.2) (by decide)
          simp [low, high]
        · cases h
  simp [isPlain, letter]

theorem isUserChar_of_isNameChar (h : isNameChar c = true) : isUserChar c = true := by
  simp [isUserChar, h]

theorem isPathChar_of_isUserChar (h : isUserChar c = true) : isPathChar c = true := by
  simp [isPathChar, h]

theorem isQueryChar_of_isPathChar (h : isPathChar c = true) : isQueryChar c = true := by
  simp [isQueryChar, h]

theorem ascii_of_isQueryChar (h : isQueryChar c = true) : c.val < 128 := by
  simp only [isQueryChar, isPathChar, isUserChar, isNameChar, Bool.or_eq_true, beq_iff_eq] at h
  rcases h with ((((unreserved | delimiter) | rfl) | rfl) | rfl) | rfl
  · simp only [isUnreserved, Bool.or_eq_true, beq_iff_eq] at unreserved
    rcases unreserved with (((letter | rfl) | rfl) | rfl) | rfl
    · exact (inert_of_isPlain (by simp [isPlain, letter])).ascii
    · decide
    · decide
    · decide
    · decide
  · have delimiters : ∀ c ∈ "!$&'()*+,;=".toList, c.val < 128 :=
      @of_decide_eq_true _ (List.decidableBAll ..) (by decide)
    exact delimiters c (List.contains_iff_mem.1 delimiter)
  · decide
  · decide
  · decide
  · decide

/-- What holds of the characters of URIs can be looked up. -/
theorem forall_isQueryChar {p : Char → Prop}
    (all : ∀ n : Fin 128, isQueryChar (Char.ofNat n) = true → p (Char.ofNat n))
    (h : isQueryChar c = true) : p c :=
  forall_ascii (p := fun c => isQueryChar c = true → p c) all (ascii_of_isQueryChar h) h

/-! ## Written texts -/

/-- A text of escapes and of characters of a class. -/
inductive Written (allowed : Char → Bool) : List Char → Prop
  | nil : Written allowed []
  | escape {a b : Char} {rest : List Char} (ha : (hexValue? a).isSome = true)
      (hb : (hexValue? b).isSome = true) (h : Written allowed rest) :
      Written allowed ('%' :: a :: b :: rest)
  | char {c : Char} {rest : List Char} (hc : c ≠ '%') (known : allowed c = true)
      (h : Written allowed rest) : Written allowed (c :: rest)

theorem allOf_iff : allOf allowed cs = true ↔ Written allowed cs := by
  constructor
  · intro h
    fun_induction allOf allowed cs with
    | case1 => exact .nil
    | case2 a b rest ih =>
      simp only [Bool.and_eq_true] at h
      exact .escape h.1.1 h.1.2 (ih h.2)
    | case3 c rest _ ih =>
      simp only [Bool.and_eq_true, bne_iff_ne] at h
      exact .char h.1.1 h.1.2 (ih h.2)
  · intro h
    induction h with
    | nil => rfl
    | escape ha hb _ ih => rw [allOf, ha, hb, ih]; rfl
    | @char c rest hc known _ ih =>
      rw [allOf]
      · simp [hc, known, ih]
      · exact fun _ _ _ percent => absurd percent hc

theorem written_of_forall (h : ∀ c ∈ cs, c ≠ '%' ∧ allowed c = true) : Written allowed cs := by
  induction cs with
  | nil => exact .nil
  | cons c cs ih =>
    obtain ⟨hc, known⟩ := h c List.mem_cons_self
    exact .char hc known (ih fun d hd => h d (List.mem_cons_of_mem _ hd))

theorem Written.mem (h : Written allowed cs) : ∀ c ∈ cs, isPlain c = true ∨ allowed c = true := by
  induction h with
  | nil => exact nofun
  | escape ha hb _ ih =>
    intro c hc
    simp only [List.mem_cons] at hc
    rcases hc with rfl | rfl | rfl | hc
    · exact .inl rfl
    · exact .inl (isPlain_of_hexValue? ha)
    · exact .inl (isPlain_of_hexValue? hb)
    · exact ih c hc
  | char _ known _ ih => exact List.forall_mem_cons.2 ⟨.inr known, ih⟩

theorem Written.mono (h : Written allowed cs) (more : ∀ c, allowed c = true → allowed' c = true) :
    Written allowed' cs := by
  induction h with
  | nil => exact .nil
  | escape ha hb _ ih => exact .escape ha hb ih
  | char hc known _ ih => exact .char hc (more _ known) ih

theorem Written.append (h : Written allowed cs) (h' : Written allowed ds) :
    Written allowed (cs ++ ds) := by
  induction h with
  | nil => exact h'
  | escape ha hb _ ih => exact .escape ha hb ih
  | char hc known _ ih => exact .char hc known ih

theorem Written.tail (h : Written allowed (c :: cs)) (hc : c ≠ '%') :
    allowed c = true ∧ Written allowed cs := by
  cases h with
  | escape => exact absurd rfl hc
  | char _ known h => exact ⟨known, h⟩

theorem Written.of_append (h : Written allowed (cs ++ ds)) (hc : Written allowed' cs) :
    Written allowed ds := by
  induction hc with
  | nil => exact h
  | escape _ _ _ ih =>
    simp only [List.cons_append] at h
    cases h with
    | escape _ _ h => exact ih h
    | char hc => exact absurd rfl hc
  | char hc _ _ ih => exact ih (Written.tail h hc).2

/-! ## Taking texts apart -/

/-- A character that no escape contains. -/
def Separates (c : Char) : Prop := c ≠ '%' ∧ hexValue? c = none

/-- No escape is torn apart at a separator. -/
theorem Written.split (sep : Separates c) (h : Written allowed (cs ++ c :: ds)) :
    Written allowed cs ∧ allowed c = true ∧ Written allowed ds := by
  have digit : ¬ (hexValue? c).isSome = true := by simp [sep.2]
  generalize whole : cs ++ c :: ds = text at h
  induction h generalizing cs with
  | nil => simp at whole
  | @escape a b rest ha hb h ih =>
    match cs with
    | [] =>
      simp only [List.nil_append, List.cons.injEq] at whole
      exact absurd whole.1 sep.1
    | [_] =>
      simp only [List.cons_append, List.nil_append, List.cons.injEq] at whole
      exact absurd (whole.2.1 ▸ ha) digit
    | [_, _] =>
      simp only [List.cons_append, List.nil_append, List.cons.injEq] at whole
      exact absurd (whole.2.2.1 ▸ hb) digit
    | _ :: _ :: _ :: cs =>
      simp only [List.cons_append, List.cons.injEq] at whole
      obtain ⟨rfl, rfl, rfl, whole⟩ := whole
      obtain ⟨before, known, after⟩ := ih whole
      exact ⟨.escape ha hb before, known, after⟩
  | @char d rest hd known h ih =>
    cases cs with
    | nil =>
      simp only [List.nil_append, List.cons.injEq] at whole
      obtain ⟨rfl, rfl⟩ := whole
      exact ⟨.nil, known, h⟩
    | cons e cs =>
      simp only [List.cons_append, List.cons.injEq] at whole
      obtain ⟨rfl, whole⟩ := whole
      obtain ⟨before, known', after⟩ := ih whole
      exact ⟨.char hd known before, known', after⟩

theorem Written.cut {stop : Char → Bool} (sep : ∀ c, stop c = true → Separates c)
    (h : Written allowed cs) :
    Written allowed (cut stop cs).1 ∧ Written allowed (Url.cut stop cs).2 := by
  have whole : cs.takeWhile (!stop ·) ++ cs.dropWhile (!stop ·) = cs :=
    List.takeWhile_append_dropWhile
  have first := List.head?_dropWhile_not (!stop ·) cs
  unfold Url.cut
  cases rest : cs.dropWhile (!stop ·) with
  | nil =>
    rw [rest, List.append_nil] at whole
    exact ⟨whole.symm ▸ h, .nil⟩
  | cons c rest' =>
    rw [rest, List.head?_cons] at first
    rw [rest] at whole
    have mark := sep c (by simpa using first)
    obtain ⟨before, known, after⟩ := Written.split mark (whole.symm ▸ h)
    exact ⟨before, .char mark.1 known after⟩

theorem splitAll_cons_of_not_sep {sep : Char → Bool} (h : sep c = false) (cs : List Char) :
    ∃ first more, splitAll sep cs = first :: more ∧
      splitAll sep (c :: cs) = (c :: first) :: more := by
  obtain ⟨first, more, parts⟩ := List.exists_cons_of_ne_nil (splitAll_ne_nil sep cs)
  exact ⟨first, more, parts, by simp [splitAll, h, parts]⟩

theorem Written.splitAll {sep : Char → Bool} (hs : ∀ c, sep c = true → Separates c)
    (h : Written allowed cs) : ∀ part ∈ splitAll sep cs, Written allowed part := by
  have digit {c : Char} (h : (hexValue? c).isSome = true) : sep c = false :=
    Bool.eq_false_iff.2 fun mark => by simp [(hs c mark).2] at h
  have percent : sep '%' = false := Bool.eq_false_iff.2 fun mark => (hs '%' mark).1 rfl
  induction h with
  | nil => simpa [Url.splitAll] using Written.nil
  | @escape a b rest ha hb _ ih =>
    obtain ⟨first, more, parts, three⟩ := splitAll_cons_of_not_sep (digit hb) rest
    obtain ⟨first', more', parts', two⟩ := splitAll_cons_of_not_sep (digit ha) (b :: rest)
    obtain ⟨first'', more'', parts'', one⟩ := splitAll_cons_of_not_sep percent (a :: b :: rest)
    rw [three] at parts'
    cases parts'
    rw [two] at parts''
    cases parts''
    rw [parts] at ih
    rw [one]
    obtain ⟨here, others⟩ := List.forall_mem_cons.1 ih
    exact List.forall_mem_cons.2 ⟨.escape ha hb here, others⟩
  | @char c rest hc known _ ih =>
    cases mark : sep c with
    | true =>
      rw [Url.splitAll, if_pos mark]
      exact List.forall_mem_cons.2 ⟨.nil, ih⟩
    | false =>
      obtain ⟨first, more, parts, whole⟩ := splitAll_cons_of_not_sep mark rest
      rw [parts] at ih
      rw [whole]
      obtain ⟨here, others⟩ := List.forall_mem_cons.1 ih
      exact List.forall_mem_cons.2 ⟨.char hc known here, others⟩

/-! ## Encoded texts -/

theorem written_escapes (bytes : List UInt8) : Written allowed (bytes.flatMap escapeByte) := by
  have digit {n : UInt8} (h : n.toNat < 16) : (hexValue? (upperHex n)).isSome = true := by
    rw [hexValue?_upperHex h]
    rfl
  have sixteen : (16 : UInt8).toNat = 16 := rfl
  induction bytes with
  | nil => exact .nil
  | cons b bytes ih =>
    have byte := b.toNat_lt
    refine .escape (digit ?_) (digit ?_) ih
    · rw [UInt8.toNat_div, sixteen]
      omega
    · rw [UInt8.toNat_mod, sixteen]
      omega

theorem written_encodeChar {set : Char → Bool} (hc : c ≠ '%' ∨ set c = true)
    (kept : c.val < 128 → set c = false → allowed c = true) :
    Written allowed (encodeChar set c) := by
  unfold encodeChar
  split
  · next h =>
    simp only [Bool.and_eq_true, decide_eq_true_eq, Bool.not_eq_true'] at h
    exact .char (hc.resolve_right (by simp [h.2])) (kept h.1 h.2) .nil
  · exact written_escapes _

/-- What is written stays so when it is encoded by a set that leaves escapes alone. -/
theorem Written.encode {set : Char → Bool} (h : Written allowed cs)
    (plain : ∀ c, isPlain c = true → set c = false)
    (kept : ∀ c, allowed c = true → set c = false → allowed' c = true) :
    Written allowed' (encode set cs) := by
  have same {c : Char} (h : isPlain c = true) : encodeChar set c = [c] := by
    simp [encodeChar, plain c h, (inert_of_isPlain h).ascii]
  induction h with
  | nil => exact .nil
  | escape ha hb _ ih =>
    simp only [Url.encode, List.flatMap_cons, same (c := '%') rfl, same (isPlain_of_hexValue? ha),
      same (isPlain_of_hexValue? hb)]
    exact .escape ha hb ih
  | @char c rest hc known _ ih =>
    rw [Url.encode, List.flatMap_cons]
    exact (written_encodeChar (.inl hc) fun _ left => kept c known left).append ih

/-- A text that is encoded whole is of the class if all is that the set leaves alone. -/
theorem written_encode_iff {set : Char → Bool} (escapes : set '%' = true)
    (plain : ∀ c, isPlain c = true → c ≠ '%' → allowed c = true) :
    Written allowed (encode set cs) ↔
      ∀ c ∈ cs, c.val < 128 → set c = false → allowed c = true := by
  constructor
  · intro h c hc ascii kept
    have mem : c ∈ encode set cs := by
      refine List.mem_flatMap.2 ⟨c, hc, ?_⟩
      simp [encodeChar, ascii, kept]
    rcases h.mem c mem with letter | known
    · refine plain c letter ?_
      rintro rfl
      rw [escapes] at kept
      cases kept
    · exact known
  · intro h
    induction cs with
    | nil => exact .nil
    | cons c cs ih =>
      rw [encode, List.flatMap_cons]
      refine (written_encodeChar ?_ (h c List.mem_cons_self)).append
        (ih fun d hd => h d (List.mem_cons_of_mem _ hd))
      by_cases percent : c = '%'
      · exact .inr (percent ▸ escapes)
      · exact .inl percent

end PolyglotLsp.Uri
