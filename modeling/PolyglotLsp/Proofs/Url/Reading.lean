import PolyglotLsp.Proofs.Url.Authority

/-!
# URLs are read back

Two halves meet at the form that URLs with path segments are kept in (`Normal`): whatever is read is
in this form (`normal_of_parse?`), and what is in this form is read back from its text
(`parse?_text`).
-/

namespace PolyglotLsp.Url

/-! ## Schemes -/

/-- A scheme as it is read. -/
structure IsScheme (cs : List Char) : Prop where
  begins : ∃ c rest, cs = c :: rest ∧ c.isAlpha = true
  chars : ∀ c ∈ cs, isSchemeChar c = true ∧ c.toLower = c

theorem ascii_of_isSchemeChar {c : Char} (h : isSchemeChar c = true) : c.val < 128 := by
  simp only [isSchemeChar, Bool.or_eq_true, beq_iff_eq] at h
  rcases h with ((h | rfl) | rfl) | rfl
  · exact (inert_of_isPlain (by simp [isPlain, h])).ascii
  · decide
  · decide
  · decide

theorem isSchemeChar_toLower {c : Char} (h : isSchemeChar c = true) :
    isSchemeChar c.toLower = true ∧ (c.isAlpha = true → c.toLower.isAlpha = true) :=
  forall_ascii (p := fun c => isSchemeChar c = true → isSchemeChar c.toLower = true ∧
    (c.isAlpha = true → c.toLower.isAlpha = true)) (by decide) (ascii_of_isSchemeChar h) h

theorem isScheme_of_scheme? {cs scheme rest : List Char} (h : scheme? cs = some (scheme, rest)) :
    IsScheme scheme := by
  unfold scheme? at h
  split at h
  · cases h
  · next c cs =>
    split at h
    · next alpha =>
      split at h
      · next name rest' parts =>
        cases h
        obtain ⟨rfl, -⟩ := Prod.mk.inj parts
        have first : isSchemeChar c = true := by simp [isSchemeChar, Char.isAlphanum, alpha]
        refine ⟨⟨c.toLower, (cs.takeWhile isSchemeChar).map Char.toLower, ?_,
          (isSchemeChar_toLower first).2 alpha⟩, fun d hd => ?_⟩
        · simp [first]
        · obtain ⟨e, he, rfl⟩ := List.mem_map.1 hd
          have allowed : isSchemeChar e = true := by simpa using List.mem_takeWhile_imp he
          exact ⟨(isSchemeChar_toLower allowed).1, toLower_toLower e⟩
      · cases h
    · cases h

theorem eq_append_of_scheme? {cs scheme rest : List Char} (h : scheme? cs = some (scheme, rest)) :
    ∃ name, cs = name ++ ':' :: rest ∧ ∀ c ∈ name, isSchemeChar c = true := by
  unfold scheme? at h
  split at h
  · cases h
  · next c cs =>
    split at h
    · split at h
      · next name rest' parts =>
        cases h
        obtain ⟨rfl, behind⟩ := Prod.mk.inj parts
        refine ⟨_, (behind ▸ List.takeWhile_append_dropWhile).symm, fun d hd => ?_⟩
        simpa using List.mem_takeWhile_imp hd
      · cases h
    · cases h

theorem IsScheme.visible {scheme : List Char} (h : IsScheme scheme) : ∀ c ∈ scheme, 32 < c.val :=
  fun c hc => forall_ascii (p := fun c => isSchemeChar c = true → 32 < c.val) (by decide)
    (ascii_of_isSchemeChar (h.chars c hc).1) (h.chars c hc).1

theorem scheme?_append {scheme : List Char} (h : IsScheme scheme) (rest : List Char) :
    scheme? (scheme ++ ':' :: rest) = some (scheme, rest) := by
  have name : cut (!isSchemeChar ·) (scheme ++ ':' :: rest) = (scheme, ':' :: rest) :=
    cut_append (fun c hc => by simp [(h.chars c hc).1]) (by simp [isSchemeChar])
  have lower : scheme.map Char.toLower = scheme :=
    (List.map_congr_left fun c hc => (h.chars c hc).2).trans (List.map_id scheme)
  obtain ⟨c, more, rfl, alpha⟩ := h.begins
  rw [List.cons_append] at name ⊢
  simp only [scheme?, alpha, if_true, name, lower]

/-! ## Paths -/

/-- A path segment as it is read: encoded, without separators, and neither one dot nor two. -/
structure Segment (special : Bool) (item : List Char) : Prop where
  chars : ∀ c ∈ item, c.val < 128 ∧ pathSet c = false ∧ isSlash special c = false
  noDot : isDot item = false
  noDotDot : isDotDot item = false

theorem segmentChar_of_isPlain (special : Bool) {c : Char} (h : isPlain c = true) :
    c.val < 128 ∧ pathSet c = false ∧ isSlash special c = false := by
  have inert := inert_of_isPlain h
  refine ⟨inert.ascii, inert.kept, ?_⟩
  simp [isSlash, inert.noSlash, (quiet_of_isPlain h).noBackslash]

theorem Segment.nil (special : Bool) : Segment special [] := ⟨nofun, rfl, rfl⟩

theorem splitAll_ne_nil (sep : Char → Bool) (cs : List Char) : splitAll sep cs ≠ [] := by
  cases cs with
  | nil => exact List.cons_ne_nil _ _
  | cons c cs =>
    rw [splitAll]
    split
    · exact List.cons_ne_nil _ _
    · split <;> exact List.cons_ne_nil _ _

theorem not_sep_of_mem_splitAll {sep : Char → Bool} {cs part : List Char}
    (h : part ∈ splitAll sep cs) : ∀ c ∈ part, sep c = false := by
  induction cs generalizing part with
  | nil =>
    rw [List.mem_singleton.1 h]
    exact nofun
  | cons d cs ih =>
    rw [splitAll] at h
    split at h
    · rcases List.mem_cons.1 h with rfl | h
      · exact nofun
      · exact ih h
    · next other =>
      split at h
      · next empty => exact absurd empty (splitAll_ne_nil sep cs)
      · next first more parts =>
        rcases List.mem_cons.1 h with rfl | h
        · intro c hc
          rcases List.mem_cons.1 hc with rfl | hc
          · simpa using other
          · exact ih (parts ▸ List.mem_cons_self) c hc
        · exact ih (parts ▸ List.mem_cons_of_mem _ h)

theorem resolveDots_ne_nil (done : List (List Char)) {items : List (List Char)} (h : items ≠ []) :
    resolveDots done items ≠ [] := by
  induction items generalizing done with
  | nil => exact absurd rfl h
  | cons item items ih =>
    cases items with
    | nil =>
      rw [resolveDots]
      split
      · simp
      · split <;> simp
    | cons next items =>
      rw [resolveDots]
      · split
        · exact ih _ (List.cons_ne_nil _ _)
        · split <;> exact ih _ (List.cons_ne_nil _ _)
      · exact List.cons_ne_nil _ _

/-- No dot segments are left, and nothing else is new but empty segments. -/
theorem forall_mem_resolveDots {p : List Char → Prop} (empty : p [])
    {done items : List (List Char)} (hd : ∀ item ∈ done, p item)
    (hi : ∀ item ∈ items, isDot item = false → isDotDot item = false → p item) :
    ∀ item ∈ resolveDots done items, p item := by
  have shortened {done : List (List Char)} (hd : ∀ item ∈ done, p item) :
      ∀ item ∈ shorten done, p item := by
    intro item h
    cases done with
    | nil => cases h
    | cons last done =>
      rw [shorten] at h
      split at h
      · exact hd item h
      · exact hd item (List.mem_cons_of_mem _ h)
  have more {item : List Char} {done : List (List Char)} (h : p item) (hd : ∀ item ∈ done, p item) :
      ∀ i ∈ item :: done, p i := List.forall_mem_cons.2 ⟨h, hd⟩
  have turned {done : List (List Char)} (hd : ∀ item ∈ done, p item) :
      ∀ item ∈ done.reverse, p item := fun item h => hd item (List.mem_reverse.1 h)
  induction items generalizing done with
  | nil => exact turned hd
  | cons item items ih =>
    have later (i : List Char) (h : i ∈ items) : isDot i = false → isDotDot i = false → p i :=
      hi i (List.mem_cons_of_mem _ h)
    by_cases two : isDotDot item = true
    · cases items with
      | nil =>
        rw [resolveDots, if_pos two]
        exact turned (more empty (shortened hd))
      | cons next items => simpa [resolveDots, two] using ih (shortened hd) later
    · by_cases one : isDot item = true
      · cases items with
        | nil =>
          rw [resolveDots, if_neg two, if_pos one]
          exact turned (more empty hd)
        | cons next items => simpa [resolveDots, two, one] using ih hd later
      · have kept := hi item List.mem_cons_self (by simpa using one) (by simpa using two)
        cases items with
        | nil =>
          rw [resolveDots, if_neg two, if_neg one]
          exact turned (more kept hd)
        | cons next items => simpa [resolveDots, two, one] using ih (more kept hd) later

theorem segment_of_mem_segmentsOf {special : Bool} {cs item : List Char}
    (h : item ∈ segmentsOf special cs) : Segment special item := by
  refine forall_mem_resolveDots (Segment.nil special) (by simp) ?_ item h
  intro item hi noDot noDotDot
  refine ⟨fun c hc => ?_, noDot, noDotDot⟩
  obtain ⟨part, hp, rfl⟩ := List.mem_map.1 hi
  rcases mem_encode hc with ⟨mem, ascii, kept⟩ | plain
  · exact ⟨ascii, kept, not_sep_of_mem_splitAll hp c mem⟩
  · exact segmentChar_of_isPlain special plain

theorem segmentsOf_ne_nil (special : Bool) (cs : List Char) : segmentsOf special cs ≠ [] :=
  resolveDots_ne_nil [] (by simpa using splitAll_ne_nil _ cs)

theorem resolveDots_eq_append {items : List (List Char)}
    (h : ∀ item ∈ items, isDot item = false ∧ isDotDot item = false) (done : List (List Char)) :
    resolveDots done items = done.reverse ++ items := by
  induction items generalizing done with
  | nil => simp [resolveDots]
  | cons item items ih =>
    obtain ⟨noDot, noDotDot⟩ := h item List.mem_cons_self
    cases items with
    | nil => simp [resolveDots, noDot, noDotDot]
    | cons next items =>
      have later := ih (fun item hi => h item (List.mem_cons_of_mem _ hi)) (item :: done)
      rw [resolveDots, noDotDot, noDot]
      · simpa using later
      · exact List.cons_ne_nil _ _

/-- The segments between the slashes of a path. -/
theorem splitAll_path {special : Bool} {item : List Char} {items : List (List Char)}
    (h : ∀ i ∈ item :: items, ∀ c ∈ i, isSlash special c = false) :
    splitAll (isSlash special) (item ++ items.flatMap ('/' :: ·)) = item :: items := by
  induction items generalizing item with
  | nil =>
    rw [List.flatMap_nil, List.append_nil]
    exact splitAll_eq_singleton (h item List.mem_cons_self)
  | cons next items ih =>
    rw [List.flatMap_cons, List.cons_append,
      splitAll_append_cons (h item List.mem_cons_self) (by simp [isSlash]),
      ih fun i hi => h i (List.mem_cons_of_mem _ hi)]

/-- A path is read back from its text. -/
theorem segmentsOf_path {special : Bool} {item : List Char} {items : List (List Char)}
    (h : ∀ i ∈ item :: items, Segment special i) :
    segmentsOf special (item ++ items.flatMap ('/' :: ·)) = item :: items := by
  have encoded : (item :: items).map (encode pathSet) = item :: items :=
    (List.map_congr_left fun i hi => encode_eq_self fun c hc =>
      ⟨((h i hi).chars c hc).1, ((h i hi).chars c hc).2.1⟩).trans (List.map_id _)
  rw [segmentsOf, splitAll_path fun i hi c hc => ((h i hi).chars c hc).2.2, encoded,
    resolveDots_eq_append fun i hi => ⟨(h i hi).noDot, (h i hi).noDotDot⟩]
  rfl

/-! ## Places -/

/-- A scheme, an authority and path segments that go together, as they are read. -/
inductive Located : List Char → Option Authority → List (List Char) → Prop
  | file {host : List Char} {items : List (List Char)} (text : HostText host)
      (reads : fileHost? host = some host) (segments : ∀ i ∈ items, Segment true i)
      (front : trimFront items = items) :
      Located "file".toList (some ⟨[], host, none⟩) items
  | special {scheme : List Char} {a : Authority} {items : List (List Char)}
      (kind : isSpecialScheme scheme = true) (other : scheme ≠ "file".toList)
      (authority : a.Normal scheme) (segments : ∀ i ∈ items, Segment true i)
      (written : items ≠ []) : Located scheme (some a) items
  | placed {scheme : List Char} {a : Authority} {items : List (List Char)}
      (kind : isSpecialScheme scheme = false) (authority : a.Normal scheme)
      (segments : ∀ i ∈ items, Segment false i) : Located scheme (some a) items
  | bare {scheme : List Char} {items : List (List Char)} (kind : isSpecialScheme scheme = false)
      (segments : ∀ i ∈ items, Segment false i) (written : items ≠ []) :
      Located scheme none items

theorem fileHost?_fileHost? {cs host : List Char} (h : fileHost? cs = some host) :
    HostText host ∧ fileHost? host = some host := by
  unfold fileHost? at h
  split at h
  · cases h
    exact ⟨.nil, rfl⟩
  · obtain ⟨name, hn, h⟩ := Option.map_eq_some_iff.1 h
    split at h
    · cases h
      exact ⟨.nil, rfl⟩
    · next other =>
      cases h
      obtain ⟨text, written, reads⟩ := domainHost?_domainHost? hn
      refine ⟨text, ?_⟩
      rw [fileHost?, if_neg (mt List.isEmpty_iff.1 written), reads, Option.map_some, if_neg other]

theorem trimFront_cons {item : List Char} (h : item ≠ []) (items : List (List Char)) :
    trimFront (item :: items) = item :: items := by
  have kept : item.isEmpty = false := by simpa using h
  simp [trimFront, kept]

theorem trimFront_trimFront (items : List (List Char)) :
    trimFront (trimFront items) = trimFront items := by
  cases hd : items.dropWhile List.isEmpty with
  | nil => simp [trimFront, hd]
  | cons item more =>
    have first := List.head?_dropWhile_not List.isEmpty items
    have trimmed : trimFront items = item :: more := by simp [trimFront, hd]
    rw [hd, List.head?_cons] at first
    rw [trimmed, trimFront_cons (by simpa using first)]

theorem segment_of_mem_trimFront {special : Bool} {items : List (List Char)}
    (h : ∀ i ∈ items, Segment special i) : ∀ i ∈ trimFront items, Segment special i := by
  intro i hi
  unfold trimFront at hi
  split at hi
  · rw [List.mem_singleton.1 hi]
    exact .nil special
  · exact h i ((List.dropWhile_sublist _).mem hi)

theorem located_of_fileBody? {cs : List Char} {a : Authority} {items : List (List Char)}
    (h : fileBody? cs = some (a, .segments items)) : Located "file".toList (some a) items := by
  have placed {host : List Char} (text : HostText host) (reads : fileHost? host = some host)
      (path : List Char) : Located "file".toList (some ⟨[], host, none⟩)
        (trimFront (segmentsOf true (dropSlash true path))) :=
    .file text reads (segment_of_mem_trimFront fun i => segment_of_mem_segmentsOf)
      (trimFront_trimFront _)
  unfold fileBody? at h
  dsimp only at h
  split at h
  · split at h
    · split at h
      · cases h
        exact placed .nil rfl _
      · obtain ⟨host, hh, h⟩ := Option.map_eq_some_iff.1 h
        cases h
        obtain ⟨text, reads⟩ := fileHost?_fileHost? hh
        exact placed text reads _
    · cases h
      exact placed .nil rfl _
  · cases h
    exact placed .nil rfl _

/-- Whatever is read is in one of the forms. -/
theorem located_of_body? {scheme cs : List Char} {authority : Option Authority}
    {items : List (List Char)} (h : body? scheme cs = some (authority, .segments items)) :
    Located scheme authority items := by
  unfold body? at h
  split at h
  · next file =>
    obtain ⟨⟨a, path⟩, hb, h⟩ := Option.map_eq_some_iff.1 h
    cases h
    rw [beq_iff_eq.1 file]
    exact located_of_fileBody? hb
  · next other =>
    split at h
    · next kind =>
      obtain ⟨a, ha, h⟩ := Option.bind_eq_some_iff.1 h
      cases h
      exact .special kind (by simpa using other) (normal_of_authority? ha)
        (fun i => segment_of_mem_segmentsOf) (segmentsOf_ne_nil _ _)
    · next kind =>
      have kind : isSpecialScheme scheme = false := by simpa using kind
      split at h
      · next rest =>
        obtain ⟨a, ha, h⟩ := Option.bind_eq_some_iff.1 h
        cases h
        refine .placed kind (normal_of_authority? ha) fun i hi => ?_
        split at hi
        · cases hi
        · exact segment_of_mem_segmentsOf hi
      · cases h
        exact .bare kind (fun i => segment_of_mem_segmentsOf) (segmentsOf_ne_nil _ _)
      · cases h

/-! ## Texts of places -/

/-- What stands between the scheme and the query. -/
def bodyText (authority : Option Authority) (path : Path) : List Char :=
  (match authority with
    | some a => a.text
    | none => if path.needsDot then ['/', '.'] else []) ++ path.text

theorem bodyText_some (a : Authority) (path : Path) :
    bodyText (some a) path = '/' :: '/' :: (a.body ++ path.text) := by
  rw [bodyText, a.text_eq]
  rfl

theorem head_text (items : List (List Char)) :
    ∀ c ∈ (Path.text (.segments items)).head?, c = '/' := by
  cases items with
  | nil => exact nofun
  | cons item items => simp [Path.text]

theorem dropSlash_text (special : Bool) (items : List (List Char)) :
    dropSlash special (Path.text (.segments items)) = (Path.text (.segments items)).drop 1 := by
  cases items with
  | nil => rfl
  | cons item items => simp [Path.text, dropSlash, isSlash]

theorem segmentsOf_text {special : Bool} {items : List (List Char)} (written : items ≠ [])
    (h : ∀ i ∈ items, Segment special i) :
    segmentsOf special ((Path.text (.segments items)).drop 1) = items := by
  obtain ⟨item, more, rfl⟩ := List.exists_cons_of_ne_nil written
  exact segmentsOf_path h

theorem HostText.not_driveLetter {host : List Char} (h : HostText host) :
    isDriveLetter host = false := by
  cases h with
  | name chars =>
    unfold isDriveLetter
    split
    · next c d =>
      have permitted := (chars d (by simp)).2.2
      refine Bool.eq_false_iff.2 fun drive => ?_
      simp only [Bool.and_eq_true, Bool.or_eq_true, beq_iff_eq] at drive
      rcases drive.2 with rfl | rfl <;> cases permitted
    · rfl
  | @address body =>
    rw [List.cons_append]
    unfold isDriveLetter
    split
    · next h =>
      cases (List.cons.inj h).1
      rfl
    · rfl

theorem ne_nil_of_trimFront {items : List (List Char)} (h : trimFront items = items) :
    items ≠ [] := by
  rintro rfl
  cases h

theorem cut_slash_text (special : Bool) {cs : List Char} (h : ∀ c ∈ cs, Quiet c)
    (items : List (List Char)) :
    cut (isSlash special) (cs ++ Path.text (.segments items)) =
      (cs, Path.text (.segments items)) := by
  refine cut_append (fun c hc => ?_) (fun c hc => ?_)
  · simp [isSlash, (h c hc).noSlash, (h c hc).noBackslash]
  · rw [head_text items c hc]
    rfl

theorem fileBody?_text {host : List Char} (text : HostText host)
    (reads : fileHost? host = some host) {items : List (List Char)}
    (segments : ∀ i ∈ items, Segment true i) (front : trimFront items = items) :
    fileBody? (bodyText (some ⟨[], host, none⟩) (.segments items)) =
      some (⟨[], host, none⟩, .segments items) := by
  have body : (Authority.mk [] host none).body = host := by simp [Authority.body, portText]
  have place := cut_slash_text true text.quiet items
  rw [bodyText_some, body]
  unfold fileBody?
  simp only [place, text.not_driveLetter, reads, Option.map_some, dropSlash_text,
    segmentsOf_text (ne_nil_of_trimFront front) segments, front]
  rfl

theorem dropWhile_slash_text {scheme : List Char} {a : Authority}
    (kind : isSpecialScheme scheme = true) (authority : a.Normal scheme) (path : Path) :
    (bodyText (some a) path).dropWhile (isSlash true) = a.body ++ path.text := by
  have host : a.host ≠ [] := by
    intro none
    have ordinary := (authority.hostPort.present none).1
    rw [kind] at ordinary
    cases ordinary
  have written : a.body ≠ [] := by simp [Authority.body, host]
  obtain ⟨c, rest, begins⟩ := List.exists_cons_of_ne_nil written
  have quiet := authority.quiet c (begins ▸ List.mem_cons_self)
  rw [bodyText_some, begins]
  simp [isSlash, quiet.noSlash, quiet.noBackslash]

theorem body?_special {scheme : List Char} {a : Authority} (kind : isSpecialScheme scheme = true)
    (other : scheme ≠ "file".toList) (authority : a.Normal scheme) {items : List (List Char)}
    (segments : ∀ i ∈ items, Segment true i) (written : items ≠ []) :
    body? scheme (bodyText (some a) (.segments items)) = some (some a, .segments items) := by
  have place := cut_slash_text true authority.quiet items
  unfold body?
  rw [if_neg (by simpa using other), if_pos kind]
  simp only [dropWhile_slash_text kind authority, place, authority.reads, dropSlash_text,
    segmentsOf_text written segments]
  rfl

theorem ne_file_of_not_special {scheme : List Char} (h : isSpecialScheme scheme = false) :
    ¬ (scheme == "file".toList) = true := by
  intro file
  rw [beq_iff_eq.1 file] at h
  cases h

theorem body?_placed {scheme : List Char} {a : Authority} (kind : isSpecialScheme scheme = false)
    (authority : a.Normal scheme) {items : List (List Char)}
    (segments : ∀ i ∈ items, Segment false i) :
    body? scheme (bodyText (some a) (.segments items)) = some (some a, .segments items) := by
  have place : cut (· == '/') (a.body ++ Path.text (.segments items)) =
      (a.body, Path.text (.segments items)) := by
    refine cut_append (fun c hc => ?_) (fun c hc => ?_)
    · exact beq_eq_false_iff_ne.2 (authority.quiet c hc).noSlash
    · exact beq_iff_eq.2 (head_text items c hc)
  unfold body?
  rw [if_neg (ne_file_of_not_special kind), if_neg (by simp [kind]), bodyText_some]
  simp only [place, authority.reads, Option.bind_eq_bind, Option.bind_some]
  cases items with
  | nil => rfl
  | cons item items =>
    rw [segmentsOf_text (List.cons_ne_nil _ _) segments]
    rfl

theorem body?_slash {scheme : List Char} (kind : isSpecialScheme scheme = false) {rest : List Char}
    (h : ∀ c ∈ rest.head?, c ≠ '/') :
    body? scheme ('/' :: rest) = some (none, .segments (segmentsOf false rest)) := by
  unfold body?
  rw [if_neg (ne_file_of_not_special kind), if_neg (by simp [kind])]
  split
  · next rest' same =>
    rw [(List.cons.inj same).2] at h
    exact absurd rfl (h '/' rfl)
  · next same =>
    rw [(List.cons.inj same).2]
  · next other => exact absurd rfl (other rest)

theorem segmentsOf_dot (rest : List Char) :
    segmentsOf false ('.' :: '/' :: rest) = segmentsOf false rest := by
  have alone : ∀ c ∈ ['.'], isSlash false c = false := by simp [isSlash]
  have parts : splitAll (isSlash false) ('.' :: '/' :: rest) =
      ['.'] :: splitAll (isSlash false) rest := splitAll_append_cons alone rfl rest
  have dot : encode pathSet ['.'] = ['.'] := rfl
  obtain ⟨item, items, written⟩ := List.exists_cons_of_ne_nil (splitAll_ne_nil (isSlash false) rest)
  rw [segmentsOf, segmentsOf, parts, written, List.map_cons, dot, List.map_cons, resolveDots]
  · rfl
  · exact List.cons_ne_nil _ _

theorem body?_bare {scheme : List Char} (kind : isSpecialScheme scheme = false)
    {items : List (List Char)} (segments : ∀ i ∈ items, Segment false i) (written : items ≠ []) :
    body? scheme (bodyText none (.segments items)) = some (none, .segments items) := by
  have path := segmentsOf_text written segments
  obtain ⟨item, more, rfl⟩ := List.exists_cons_of_ne_nil written
  cases item with
  | cons c item =>
    -- the path begins with one slash
    have noSlash : c ≠ '/' := by
      have := ((segments (c :: item) List.mem_cons_self).chars c List.mem_cons_self).2.2
      simpa [isSlash] using this
    have text : bodyText none (.segments ((c :: item) :: more)) =
        '/' :: (Path.text (.segments ((c :: item) :: more))).drop 1 := by
      simp [bodyText, Path.needsDot, Path.text]
    rw [text, body?_slash kind, path]
    simpa [Path.text] using noSlash
  | nil =>
    cases more with
    | nil => exact body?_slash kind (by simp)
    | cons next more =>
      -- a dot keeps the two slashes of the path from being those of an authority
      have text : bodyText none (.segments ([] :: next :: more)) =
          '/' :: '.' :: Path.text (.segments ([] :: next :: more)) := rfl
      rw [text, body?_slash kind (by simp)]
      exact congrArg (fun items => some (none, Path.segments items)) ((segmentsOf_dot _).trans path)

/-- What is in one of the forms is read back. -/
theorem Located.reads {scheme : List Char} {authority : Option Authority}
    {items : List (List Char)} (h : Located scheme authority items) :
    body? scheme (bodyText authority (.segments items)) = some (authority, .segments items) := by
  cases h with
  | file text reads segments front =>
    unfold body?
    rw [if_pos (beq_self_eq_true _), fileBody?_text text reads segments front]
    rfl
  | special kind other authority segments written =>
    exact body?_special kind other authority segments written
  | placed kind authority segments => exact body?_placed kind authority segments
  | bare kind segments written => exact body?_bare kind segments written

theorem Located.chars {scheme : List Char} {authority : Option Authority}
    {items : List (List Char)} (h : Located scheme authority items) :
    ∀ c ∈ bodyText authority (.segments items), 32 < c.val ∧ c ≠ '?' ∧ c ≠ '#' := by
  have ofQuiet {c : Char} (h : Quiet c) : 32 < c.val ∧ c ≠ '?' ∧ c ≠ '#' :=
    ⟨h.visible, h.noQuestion, h.noHash⟩
  have ofPath {special : Bool} (segments : ∀ i ∈ items, Segment special i) {c : Char}
      (hc : c ∈ Path.text (.segments items)) : 32 < c.val ∧ c ≠ '?' ∧ c ≠ '#' := by
    obtain ⟨i, hi, hc⟩ := List.mem_flatMap.1 hc
    rcases List.mem_cons.1 hc with rfl | hc
    · decide
    · have kept := fragmentSet_of_pathSet ((segments i hi).chars c hc).2.1
      exact ⟨lt_val_of_fragmentSet kept.1, kept.2.2, kept.2.1⟩
  have ofAuthority {a : Authority} (quiet : ∀ c ∈ a.body, Quiet c) {special : Bool}
      (segments : ∀ i ∈ items, Segment special i) :
      ∀ c ∈ bodyText (some a) (.segments items), 32 < c.val ∧ c ≠ '?' ∧ c ≠ '#' := by
    intro c hc
    rw [bodyText_some, List.mem_cons, List.mem_cons, List.mem_append] at hc
    rcases hc with rfl | rfl | hc | hc
    · decide
    · decide
    · exact ofQuiet (quiet c hc)
    · exact ofPath segments hc
  cases h with
  | file text reads segments front =>
    refine ofAuthority (fun c hc => text.quiet c ?_) segments
    simpa [Authority.body, portText] using hc
  | special kind other authority segments written => exact ofAuthority authority.quiet segments
  | placed kind authority segments => exact ofAuthority authority.quiet segments
  | bare kind segments written =>
    intro c hc
    rcases List.mem_append.1 hc with hc | hc
    · dsimp only at hc
      split at hc
      · simp only [List.mem_cons, List.not_mem_nil, or_false] at hc
        rcases hc with rfl | rfl <;> decide
      · cases hc
    · exact ofPath segments hc

/-! ## Whole URLs -/

/-- What a query encodes. -/
def queryEncoding (scheme : List Char) : Char → Bool :=
  if isSpecialScheme scheme then specialQuerySet else querySet

theorem queryEncoding_of_isPlain (scheme : List Char) {c : Char} (h : isPlain c = true) :
    queryEncoding scheme c = false := by
  unfold queryEncoding
  split
  · exact (querySet_of_isPlain h).2.1
  · exact (querySet_of_isPlain h).1

theorem of_queryEncoding {scheme : List Char} {c : Char} (h : queryEncoding scheme c = false) :
    32 < c.val ∧ c ≠ '#' := by
  have kept : querySet c = false := by
    unfold queryEncoding at h
    split at h
    · simp only [specialQuerySet, Bool.or_eq_false_iff] at h
      exact h.1
    · exact h
  simp only [querySet, Bool.or_eq_false_iff, beq_eq_false_iff_ne] at kept
  exact ⟨lt_val_of_not_control kept.1.1.1.1.1 kept.1.1.1.1.2, kept.1.1.2⟩

/-- The form that URLs with path segments are kept in. -/
structure Normal (u : Url) : Prop where
  scheme : IsScheme u.scheme
  located : ∃ items, u.path = .segments items ∧ Located u.scheme u.authority items
  query : ∀ q, u.query = some q → ∀ c ∈ q, c.val < 128 ∧ queryEncoding u.scheme c = false
  fragment : ∀ f, u.fragment = some f → ∀ c ∈ f, c.val < 128 ∧ fragmentSet c = false

/-- A URL and what followed the colon of its scheme in the text that it was read from. -/
structure ReadFrom (rest : List Char) (u : Url) : Prop where
  body : body? u.scheme (cut (· == '?') (cut (· == '#') rest).1).1 = some (u.authority, u.path)
  query : ∀ q, u.query = some q → ∀ c ∈ q, c.val < 128 ∧ queryEncoding u.scheme c = false
  noQuery : u.query = none → (cut (· == '?') (cut (· == '#') rest).1).2 = []
  fragment : ∀ f, u.fragment = some f → ∀ c ∈ f, c.val < 128 ∧ fragmentSet c = false
  noFragment : u.fragment = none → (cut (· == '#') rest).2 = []

theorem readFrom_of_parse? {s : String} {u : Url} (h : parse? s = some u) :
    ∃ rest, scheme? (clean s.toList) = some (u.scheme, rest) ∧ ReadFrom rest u := by
  unfold parse? parseChars? at h
  obtain ⟨⟨scheme, rest⟩, hs, h⟩ := Option.bind_eq_some_iff.1 h
  obtain ⟨⟨authority, path⟩, hb, h⟩ := Option.bind_eq_some_iff.1 h
  cases h
  refine ⟨rest, hs, ?_⟩
  constructor
  case body => exact hb
  case query =>
    intro q hq c hc
    dsimp only at hq
    split at hq
    · cases hq
    · cases hq
      exact not_mem_set_of_mem_encode (fun _ => queryEncoding_of_isPlain scheme) hc
  case noQuery =>
    intro absent
    dsimp only at absent
    split at absent
    · next empty => exact List.isEmpty_iff.1 empty
    · cases absent
  case fragment =>
    intro f hf c hc
    dsimp only at hf
    split at hf
    · cases hf
    · cases hf
      exact not_mem_set_of_mem_encode (fun _ h => (querySet_of_isPlain h).2.2.1) hc
  case noFragment =>
    intro absent
    dsimp only at absent
    split at absent
    · next empty => exact List.isEmpty_iff.1 empty
    · cases absent

theorem normal_of_parse? {s : String} {u : Url} (h : parse? s = some u)
    {items : List (List Char)} (path : u.path = .segments items) : u.Normal := by
  obtain ⟨rest, scheme, read⟩ := readFrom_of_parse? h
  have located := read.body
  rw [path] at located
  exact ⟨isScheme_of_scheme? scheme, ⟨items, path, located_of_body? located⟩, read.query,
    read.fragment⟩

def queryText (query : Option (List Char)) : List Char := query.elim [] ('?' :: ·)

def fragmentText (fragment : Option (List Char)) : List Char := fragment.elim [] ('#' :: ·)

theorem chars_eq (u : Url) :
    u.chars = u.scheme ++ ':' :: (bodyText u.authority u.path ++ queryText u.query ++
      fragmentText u.fragment) := by
  unfold chars bodyText queryText fragmentText
  cases u.authority <;> cases u.query <;> cases u.fragment <;> simp

theorem of_mem_queryText {scheme : List Char} {query : Option (List Char)}
    (h : ∀ q, query = some q → ∀ c ∈ q, c.val < 128 ∧ queryEncoding scheme c = false) {c : Char}
    (hc : c ∈ queryText query) : 32 < c.val ∧ c ≠ '#' := by
  cases query with
  | none => cases hc
  | some q =>
    rcases List.mem_cons.1 hc with rfl | hc
    · decide
    · exact of_queryEncoding (h q rfl c hc).2

theorem of_mem_fragmentText {fragment : Option (List Char)}
    (h : ∀ f, fragment = some f → ∀ c ∈ f, c.val < 128 ∧ fragmentSet c = false) {c : Char}
    (hc : c ∈ fragmentText fragment) : 32 < c.val := by
  cases fragment with
  | none => cases hc
  | some f =>
    rcases List.mem_cons.1 hc with rfl | hc
    · decide
    · exact lt_val_of_fragmentSet (h f rfl c hc).2

theorem Normal.visible {u : Url} (h : u.Normal) : ∀ c ∈ u.chars, ¬ c.val ≤ 32 := by
  obtain ⟨items, path, located⟩ := h.located
  intro c hc
  refine UInt32.not_le.2 ?_
  rw [chars_eq, path, List.mem_append, List.mem_cons, List.mem_append, List.mem_append] at hc
  rcases hc with hc | rfl | (hc | hc) | hc
  · exact h.scheme.visible c hc
  · decide
  · exact (located.chars c hc).1
  · exact (of_mem_queryText h.query hc).1
  · exact of_mem_fragmentText h.fragment hc

theorem cut_fragmentText {body : List Char} {query : Option (List Char)} (hb : ∀ c ∈ body, c ≠ '#')
    (hq : ∀ c ∈ queryText query, c ≠ '#') (fragment : Option (List Char)) :
    cut (· == '#') (body ++ queryText query ++ fragmentText fragment) =
      (body ++ queryText query, fragmentText fragment) := by
  refine cut_append (fun c hc => beq_eq_false_iff_ne.2 ?_) ?_
  · exact (List.mem_append.1 hc).elim (hb c) (hq c)
  · cases fragment <;> simp [fragmentText]

theorem cut_queryText {body : List Char} (hb : ∀ c ∈ body, c ≠ '?')
    (query : Option (List Char)) :
    cut (· == '?') (body ++ queryText query) = (body, queryText query) := by
  refine cut_append (fun c hc => beq_eq_false_iff_ne.2 (hb c hc)) ?_
  cases query <;> simp [queryText]

/-- A URL whose parts are found again in its text is read back if nothing of the text is dropped. -/
theorem parse?_text_of_clean {u : Url} (kept : clean u.chars = u.chars) (scheme : IsScheme u.scheme)
    (body : ∀ c ∈ bodyText u.authority u.path, c ≠ '?' ∧ c ≠ '#')
    (reads : body? u.scheme (bodyText u.authority u.path) = some (u.authority, u.path))
    (query : ∀ q, u.query = some q → ∀ c ∈ q, c.val < 128 ∧ queryEncoding u.scheme c = false)
    (fragment : ∀ f, u.fragment = some f → ∀ c ∈ f, c.val < 128 ∧ fragmentSet c = false) :
    parse? u.text = some u := by
  have front := cut_fragmentText (fun c hc => (body c hc).2)
    (fun c hc => (of_mem_queryText query hc).2) u.fragment
  have inner := cut_queryText (fun c hc => (body c hc).1) u.query
  have queryBack : (if (queryText u.query).isEmpty then none
      else some (encode (queryEncoding u.scheme) ((queryText u.query).drop 1))) = u.query := by
    cases hq : u.query with
    | none => rfl
    | some q => exact congrArg some (encode_eq_self (query q hq))
  have fragmentBack : (if (fragmentText u.fragment).isEmpty then none
      else some (encode fragmentSet ((fragmentText u.fragment).drop 1))) = u.fragment := by
    cases hf : u.fragment with
    | none => rfl
    | some f => exact congrArg some (encode_eq_self (fragment f hf))
  rw [parse?, text, String.toList_ofList, parseChars?, kept, chars_eq, scheme?_append scheme]
  simp only [Option.bind_eq_bind, Option.bind_some, front, inner, reads]
  rw [queryEncoding] at queryBack
  rw [queryBack, fragmentBack]

/-- A URL with path segments is read back from its text. -/
theorem parse?_text {u : Url} (h : u.Normal) : parse? u.text = some u := by
  obtain ⟨items, path, located⟩ := h.located
  refine parse?_text_of_clean (clean_eq_self h.visible) h.scheme ?_ ?_ h.query h.fragment
  · rw [path]
    exact fun c hc => (located.chars c hc).2
  · rw [path]
    exact located.reads

end PolyglotLsp.Url
