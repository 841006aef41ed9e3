import PolyglotLsp.Proofs.Url.Reading

/-!
# Different URLs have different texts

A text without structure is read back as well as a path with segments is (`body?_opaqueText`), so
that the parts of any URL that was read are found again between its separators
(`legible_of_parse?`), and two such URLs with one text are the same (`eq_of_chars_eq`). Reading
drops blanks at the end of a text, where a path without structure would keep them; but the text of a
URL that was read has none there (`EndsVisibly`), so that the whole URL is read back
(`parse?_text_of_parse?`).
-/

namespace PolyglotLsp.Url

attribute [ext] Url

/-! ## Paths without structure -/

theorem of_body?_opaqueText {scheme cs text : List Char} {authority : Option Authority}
    (h : body? scheme cs = some (authority, .opaqueText text)) :
    authority = none ∧ isSpecialScheme scheme = false ∧ text = encode isControl cs ∧
      ∀ c ∈ cs.head?, c ≠ '/' := by
  unfold body? at h
  split at h
  · obtain ⟨⟨a, path⟩, hb, h⟩ := Option.map_eq_some_iff.1 h
    cases h
    -- a file has segments
    unfold fileBody? at hb
    dsimp only at hb
    repeat' split at hb
    all_goals simp at hb
  · split at h
    · obtain ⟨a, -, h⟩ := Option.bind_eq_some_iff.1 h
      cases h
    · next ordinary =>
      split at h
      · obtain ⟨a, -, h⟩ := Option.bind_eq_some_iff.1 h
        cases h
      · cases h
      · next other =>
        cases h
        refine ⟨rfl, by simpa using ordinary, rfl, fun c hc => ?_⟩
        rintro rfl
        obtain ⟨rest, rfl⟩ := List.head?_eq_some_iff.1 hc
        exact other rest rfl

theorem isControl_of_isPlain {c : Char} (h : isPlain c = true) : isControl c = false :=
  (not_control_of_fragmentSet (querySet_of_isPlain h).2.2.1).1

/-- Text without structure is read back. -/
theorem body?_opaqueText {scheme cs : List Char} (ordinary : isSpecialScheme scheme = false)
    (first : ∀ c ∈ cs.head?, c ≠ '/') :
    body? scheme (encode isControl cs) = some (none, .opaqueText (encode isControl cs)) := by
  have same : encode isControl (encode isControl cs) = encode isControl cs :=
    encode_eq_self fun c => not_mem_set_of_mem_encode fun _ => isControl_of_isPlain
  have noSlash (rest : List Char) : encode isControl cs ≠ '/' :: rest := by
    cases cs with
    | nil => exact fun h => by cases h
    | cons c cs =>
      intro slash
      rw [encode, List.flatMap_cons, encodeChar] at slash
      split at slash
      · exact first c rfl (List.cons.inj slash).1
      · obtain ⟨b, more, bytes⟩ := List.exists_cons_of_ne_nil
          (List.ne_nil_of_length_pos (String.length_utf8EncodeChar c ▸ c.utf8Size_pos))
        rw [bytes] at slash
        cases slash
  unfold body?
  rw [if_neg (ne_file_of_not_special ordinary), if_neg (by simp [ordinary])]
  split
  · next rest slash => exact absurd slash (noSlash _)
  · next rest slash => exact absurd slash (noSlash _)
  · rw [same]

/-! ## Whole URLs -/

theorem queryText_injective {query query' : Option (List Char)}
    (h : queryText query = queryText query') : query = query' := by
  cases query <;> cases query' <;> simp_all [queryText]

theorem fragmentText_injective {fragment fragment' : Option (List Char)}
    (h : fragmentText fragment = fragmentText fragment') : fragment = fragment' := by
  cases fragment <;> cases fragment' <;> simp_all [fragmentText]

/-- A URL whose parts are found again in its text. -/
structure Legible (u : Url) : Prop where
  scheme : IsScheme u.scheme
  body : ∀ c ∈ bodyText u.authority u.path, c ≠ '?' ∧ c ≠ '#'
  reads : body? u.scheme (bodyText u.authority u.path) = some (u.authority, u.path)
  query : ∀ c ∈ queryText u.query, c ≠ '#'

theorem Normal.legible {u : Url} (h : u.Normal) : u.Legible := by
  obtain ⟨items, path, located⟩ := h.located
  refine ⟨h.scheme, ?_, ?_, fun c hc => (of_mem_queryText h.query hc).2⟩
  · rw [path]
    exact fun c hc => (located.chars c hc).2
  · rw [path]
    exact located.reads

theorem legible_of_parse? {s : String} {u : Url} (h : parse? s = some u) : u.Legible := by
  obtain ⟨rest, scheme, read⟩ := readFrom_of_parse? h
  cases path : u.path with
  | segments items => exact (normal_of_parse? h path).legible
  | opaqueText text =>
    have place := read.body
    rw [path] at place
    obtain ⟨bare, ordinary, rfl, first⟩ := of_body?_opaqueText place
    refine ⟨isScheme_of_scheme? scheme, ?_, ?_, fun c hc => (of_mem_queryText read.query hc).2⟩
    · rw [bare, path]
      intro c hc
      rcases mem_encode hc with ⟨mem, -⟩ | plain
      · have noQuestion : c ≠ '?' := by simpa using List.mem_takeWhile_imp mem
        have front := (List.takeWhile_sublist _).mem mem
        exact ⟨noQuestion, by simpa using List.mem_takeWhile_imp front⟩
      · exact ⟨(inert_of_isPlain plain).noQuestion, (inert_of_isPlain plain).noHash⟩
    · rw [bare, path]
      exact body?_opaqueText ordinary first

theorem eq_of_chars_eq {u u' : Url} (h : u.Legible) (h' : u'.Legible) (same : u.chars = u'.chars) :
    u = u' := by
  have parts := congrArg scheme? same
  rw [chars_eq, chars_eq, scheme?_append h.scheme, scheme?_append h'.scheme, Option.some.injEq,
    Prod.mk.injEq] at parts
  obtain ⟨scheme, rest⟩ := parts
  have front := congrArg (cut (· == '#')) rest
  rw [cut_fragmentText (fun c hc => (h.body c hc).2) h.query,
    cut_fragmentText (fun c hc => (h'.body c hc).2) h'.query, Prod.mk.injEq] at front
  obtain ⟨front, fragment⟩ := front
  have body := congrArg (cut (· == '?')) front
  rw [cut_queryText fun c hc => (h.body c hc).1, cut_queryText fun c hc => (h'.body c hc).1,
    Prod.mk.injEq] at body
  obtain ⟨body, query⟩ := body
  have place := h.reads
  rw [scheme, body, h'.reads, Option.some.injEq, Prod.mk.injEq] at place
  obtain ⟨authority, path⟩ := place
  exact Url.ext scheme authority.symm path.symm (queryText_injective query)
    (fragmentText_injective fragment)

/-! ## URLs that were read -/

/-- A text whose last character is not a blank. -/
def EndsVisibly (cs : List Char) : Prop := ∀ c ∈ cs.getLast?, ¬ c.val ≤ 32

namespace EndsVisibly

variable {cs front back : List Char}

theorem of_forall (h : ∀ c ∈ cs, ¬ c.val ≤ 32) : EndsVisibly cs :=
  fun c hc => h c (List.mem_of_getLast? hc)

theorem append (hb : EndsVisibly back) (hf : back = [] → EndsVisibly front) :
    EndsVisibly (front ++ back) := by
  intro c hc
  rcases Option.or_eq_some_iff.1 (List.getLast?_append ▸ hc) with hc | ⟨none, hc⟩
  · exact hb c hc
  · exact hf (List.getLast?_eq_none_iff.1 none) c hc

theorem of_append (h : EndsVisibly (front ++ back)) : EndsVisibly back := by
  intro c hc
  refine h c ?_
  rw [List.getLast?_append, hc]
  rfl

theorem cons {c : Char} (visible : ¬ c.val ≤ 32) (h : EndsVisibly cs) : EndsVisibly (c :: cs) :=
  @append [c] cs h fun _ => of_forall (List.forall_mem_singleton.2 visible)

theorem of_cons {c : Char} (h : EndsVisibly (c :: cs)) : EndsVisibly cs := @of_append [c] cs h

/-- What is left of a text by `clean` ends visibly. -/
theorem clean (cs : List Char) : EndsVisibly (clean cs) := by
  unfold Url.clean
  intro c hc
  dsimp only at hc
  generalize (cs.dropWhile fun c => decide (c.val ≤ 32)).reverse = back at hc
  have ends := List.head?_dropWhile_not (fun c : Char => decide (c.val ≤ 32)) back
  generalize back.dropWhile (fun c => decide (c.val ≤ 32)) = rest at hc ends
  cases rest with
  | nil => cases hc
  | cons d rest =>
    have visible : ¬ d.val ≤ 32 := of_decide_eq_false ends
    have last : [d].filter (fun c => c != '\t' && c != '\n' && c != '\r') = [d] := by
      simp [not_lineEnd fun low => visible (UInt32.le_of_lt low)]
    rw [List.reverse_cons, List.filter_append, last, List.getLast?_concat] at hc
    cases hc
    exact visible

theorem cut {stop : Char → Bool} (h : EndsVisibly cs) (nothing : (cut stop cs).2 = []) :
    EndsVisibly (cut stop cs).1 := by
  have whole : (Url.cut stop cs).1 ++ (Url.cut stop cs).2 = cs := List.takeWhile_append_dropWhile
  rw [nothing, List.append_nil] at whole
  rwa [whole]

theorem encode (h : EndsVisibly cs) : EndsVisibly (encode isControl cs) := by
  induction cs using List.reverseRecOn with
  | nil => exact nofun
  | append_singleton front d _ =>
    rw [encode_append]
    refine append (of_forall fun c hc => ?_) fun none => absurd (encode_eq_nil_iff.1 none) (by simp)
    rcases mem_encode hc with ⟨hd, -⟩ | plain
    · rw [List.mem_singleton.1 hd]
      exact h d List.getLast?_concat
    · exact (inert_of_isPlain plain).visible

end EndsVisibly

/-- A URL that was read is read back from its text. -/
theorem parse?_text_of_parse? {s : String} {u : Url} (h : parse? s = some u) :
    parse? u.text = some u := by
  obtain ⟨rest, scheme, read⟩ := readFrom_of_parse? h
  have legible := legible_of_parse? h
  cases path : u.path with
  | segments items => exact parse?_text (normal_of_parse? h path)
  | opaqueText text =>
    have place := read.body
    rw [path] at place
    obtain ⟨bare, -, rfl, -⟩ := of_body?_opaqueText place
    have body : bodyText u.authority u.path =
        encode isControl (cut (· == '?') (cut (· == '#') rest).1).1 := by
      rw [bare, path]
      rfl
    refine parse?_text_of_clean (clean_eq_self_of_ends ?first ?last ?inner) legible.scheme
      legible.body legible.reads read.query read.fragment
    case first =>
      obtain ⟨c, more, start, -⟩ := legible.scheme.begins
      intro d hd
      rw [chars_eq, start] at hd
      cases hd
      exact UInt32.not_le.2 (legible.scheme.visible c (start ▸ List.mem_cons_self))
    case last =>
      -- the cleaned text ends visibly, and so does each of its parts that nothing follows
      have ends : EndsVisibly rest := by
        obtain ⟨name, whole, -⟩ := eq_append_of_scheme? scheme
        have all := EndsVisibly.clean s.toList
        rw [whole] at all
        exact all.of_append.of_cons
      rw [chars_eq, body]
      refine EndsVisibly.append (.cons (by decide) ?_) nofun
      refine .append (.of_forall fun c hc => UInt32.not_le.2 (of_mem_fragmentText read.fragment hc))
        fun noFragment => ?_
      refine .append (.of_forall fun c hc => UInt32.not_le.2 (of_mem_queryText read.query hc).1)
        fun noQuery => ?_
      exact ((ends.cut (read.noFragment (fragmentText_injective noFragment))).cut
        (read.noQuery (queryText_injective noQuery))).encode
    case inner =>
      intro c hc
      have visible {c : Char} (h : 32 < c.val) : ¬ c.val < 32 := UInt32.not_lt.2 (UInt32.le_of_lt h)
      rw [chars_eq, body, List.mem_append, List.mem_cons, List.mem_append, List.mem_append] at hc
      rcases hc with hc | rfl | (hc | hc) | hc
      · exact visible (legible.scheme.visible c hc)
      · decide
      · rcases mem_encode hc with ⟨-, -, plain⟩ | plain
        · simp only [isControl, Bool.or_eq_false_iff, decide_eq_false_iff_not] at plain
          exact plain.1
        · exact visible (UInt32.not_le.1 (inert_of_isPlain plain).visible)
      · exact visible (of_mem_queryText read.query hc).1
      · exact visible (of_mem_fragmentText read.fragment hc)

end PolyglotLsp.Url
