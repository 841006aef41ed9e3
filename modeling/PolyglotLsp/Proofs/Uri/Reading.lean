import PolyglotLsp.Proofs.Uri.Authority

/-!
# URLs that are read from URIs

What is between the scheme and the query of a URI is an authority and a path, or a path alone
(`IsBody`). A URL may take more of it for the authority than the URI does, or less, but what it
keeps of user, path, query and fragment are still characters that URIs have, and its host may only
hold what domain names may (`spelled_of_toUrl?`).
-/

namespace PolyglotLsp.Uri

open Url

variable {cs scheme : List Char} {authority : Option Authority} {path : Path}

/-! ## Between scheme and query -/

/-- An authority and a path, or a path alone. -/
inductive IsBody : List Char → Prop
  | placed {authority path : List Char} (known : isAuthority authority = true)
      (begins : ∀ c ∈ path.head?, c = '/') (written : Written isPathChar path) :
      IsBody ('/' :: '/' :: (authority ++ path))
  | bare {path : List Char} (single : ∀ rest, path ≠ '/' :: '/' :: rest)
      (written : Written isPathChar path) : IsBody path

/-- Whether a text can stand between the scheme and the query of a URI. -/
def isBody (cs : List Char) : Bool :=
  match cs with
  | '/' :: '/' :: rest =>
    isAuthority (cut (· == '/') rest).1 && allOf isPathChar (cut (· == '/') rest).2
  | path => allOf isPathChar path

theorem isBody_placed {authority path : List Char} (noSlash : ∀ c ∈ authority, c ≠ '/')
    (begins : ∀ c ∈ path.head?, c = '/') :
    isBody ('/' :: '/' :: (authority ++ path)) = true ↔
      isAuthority authority = true ∧ Written isPathChar path := by
  have parts : cut (· == '/') (authority ++ path) = (authority, path) :=
    cut_append (fun c hc => beq_eq_false_iff_ne.2 (noSlash c hc))
      fun c hc => beq_iff_eq.2 (begins c hc)
  rw [isBody, parts, Bool.and_eq_true, allOf_iff]

theorem isBody_bare (single : ∀ rest, cs ≠ '/' :: '/' :: rest) :
    isBody cs = true ↔ Written isPathChar cs := by
  unfold isBody
  split
  · next rest => exact absurd rfl (single rest)
  · exact allOf_iff

theorem isBody_of_isBody (h : isBody cs = true) : IsBody cs := by
  unfold isBody at h
  split at h
  · next rest =>
    rw [Bool.and_eq_true, allOf_iff] at h
    have whole : (cut (· == '/') rest).1 ++ (cut (· == '/') rest).2 = rest :=
      List.takeWhile_append_dropWhile
    rw [← whole]
    refine .placed h.1 (fun c hc => ?_) h.2
    have mark := List.head?_dropWhile_not (! · == '/') rest
    have begins : (rest.dropWhile (! · == '/')).head? = some c := hc
    rw [begins] at mark
    simpa using mark
  · next other => exact .bare other (allOf_iff.1 h)

theorem isValid_eq (s : String) :
    isValid s =
      match scheme? s.toList with
      | none => false
      | some (_, rest) =>
        allOf isQueryChar ((cut (· == '#') rest).2.drop 1) &&
          allOf isQueryChar ((cut (· == '?') (cut (· == '#') rest).1).2.drop 1) &&
          isBody (cut (· == '?') (cut (· == '#') rest).1).1 := rfl

/-! ## Paths -/

theorem separates_of_isSlash {special : Bool} {c : Char} (h : isSlash special c = true) :
    Separates c := by
  simp only [isSlash, Bool.or_eq_true, beq_iff_eq, Bool.and_eq_true] at h
  rcases h with rfl | ⟨-, rfl⟩ <;> exact ⟨by decide, by decide⟩

theorem written_of_mem_segmentsOf {special : Bool} (h : Written isPathChar cs) :
    ∀ i ∈ segmentsOf special cs, Written isPathChar i := by
  refine forall_mem_resolveDots .nil (by simp) fun item hi _ _ => ?_
  obtain ⟨part, hp, rfl⟩ := List.mem_map.1 hi
  refine (h.splitAll (fun _ => separates_of_isSlash) part hp).encode (fun c plain => ?_)
    fun _ known _ => known
  exact (inert_of_isPlain plain).kept

theorem Written.dropSlash {special : Bool} (h : Written isPathChar cs) :
    Written isPathChar (dropSlash special cs) := by
  unfold Url.dropSlash
  split
  · exact .nil
  · split
    · next slash => exact (h.tail (separates_of_isSlash slash).1).2
    · exact h

theorem Written.dropSlashes {special : Bool} (h : Written isPathChar cs) :
    Written isPathChar (cs.dropWhile (isSlash special)) := by
  induction cs with
  | nil => exact h
  | cons c cs ih =>
    rw [List.dropWhile_cons]
    split
    · next slash => exact ih (h.tail (separates_of_isSlash slash).1).2
    · exact h

theorem written_of_mem_trimFront {items : List (List Char)}
    (h : ∀ i ∈ items, Written isPathChar i) : ∀ i ∈ trimFront items, Written isPathChar i := by
  intro i hi
  unfold trimFront at hi
  split at hi
  · rw [List.mem_singleton.1 hi]
    exact .nil
  · exact h i ((List.dropWhile_sublist _).mem hi)

/-! ## Authorities -/

/-- An authority of a URL that URIs have, but for its host. -/
structure AuthoritySpelled (a : Authority) : Prop where
  user : UserSpelled a.userinfo
  host : HostSpelled a.host

theorem not_slash_of_isAuthority {special : Bool} (h : isAuthority cs = true) :
    ∀ c ∈ cs, isSlash special c = false := by
  have other {c : Char} (h : isHostChar c = true) : c ≠ '/' ∧ c ≠ '\\' :=
    forall_ascii (p := fun c => isHostChar c = true → c ≠ '/' ∧ c ≠ '\\') (by decide +kernel)
      (ascii_of_isHostChar h) h
  intro c hc
  rcases mem_of_isAuthority h c hc with known | rfl
  · simp [isSlash, (other known).1, (other known).2]
  · simp [isSlash]

theorem written_userParts (h : Written isPathChar cs) : Written isPathChar (userParts cs).1 := by
  unfold userParts
  cases split : splitUser cs with
  | none => exact .nil
  | some parts =>
    rw [eq_append_of_splitUser split] at h
    exact (h.split ⟨by decide, by decide⟩).1

theorem parts_of_authority? {a : Authority} (h : authority? scheme cs = some a) :
    a.userinfo = userinfoOf (userParts cs).1 ∧
      host? scheme (splitPort false (userParts cs).2).1 = some a.host := by
  have located {rest : List Char} {host : List Char} {port : Option Nat}
      (h : hostPort? scheme rest = some (host, port)) :
      host? scheme (splitPort false rest).1 = some host := by
    unfold hostPort? at h
    split at h
    · cases h
    · obtain ⟨host', hh, h⟩ := Option.bind_eq_some_iff.1 h
      obtain ⟨port', -, h⟩ := Option.map_eq_some_iff.1 h
      cases h
      exact hh
  rw [authority?_eq] at h
  unfold userParts
  split at h
  · next none =>
    obtain ⟨⟨host, port⟩, hp, rfl⟩ := Option.map_eq_some_iff.1 h
    simp only [none, Option.getD_none]
    exact ⟨trivial, located hp⟩
  · next user rest some =>
    split at h
    · cases h
    · obtain ⟨⟨host, port⟩, hp, rfl⟩ := Option.map_eq_some_iff.1 h
      simp only [some, Option.getD_some]
      exact ⟨trivial, located hp⟩

/-- An authority is read from one of a URI, or from a path where more slashes do not count. -/
theorem authoritySpelled_of_authority? {a : Authority} (h : authority? scheme cs = some a)
    (known : isAuthority cs = true ∨ isSpecialScheme scheme = true ∧ Written isPathChar cs) :
    AuthoritySpelled a := by
  obtain ⟨user, host⟩ := parts_of_authority? h
  constructor
  · rw [user]
    refine userSpelled_userinfoOf ?_
    rcases known with known | ⟨-, known⟩
    · exact (isAuthority_iff.1 known).1.mono fun _ => isPathChar_of_isUserChar
    · exact written_userParts known
  · unfold host? at host
    split at host
    · exact hostSpelled_of_domainHost? host
    · next ordinary =>
      have known := known.resolve_right fun h => ordinary h.1
      exact .inl (isHost_of_opaqueHost? host (isAuthority_iff.1 known).2.1)

/-! ## Places -/

/-- An authority and a path of a URL that URIs have, but for the host. -/
structure PlaceSpelled (authority : Option Authority) (path : Path) : Prop where
  authority : ∀ a ∈ authority, AuthoritySpelled a
  segments : ∀ items, path = .segments items → ∀ i ∈ items, Written isPathChar i

theorem placeSpelled_segments {items : List (List Char)}
    (authority_ : ∀ a ∈ authority, AuthoritySpelled a) (h : ∀ i ∈ items, Written isPathChar i) :
    PlaceSpelled authority (.segments items) := by
  refine ⟨authority_, fun items' same => ?_⟩
  cases same
  exact h

theorem cut_slash_authority (special : Bool) {auth path : List Char}
    (known : isAuthority auth = true) (begins : ∀ c ∈ path.head?, c = '/') :
    cut (isSlash special) (auth ++ path) = (auth, path) := by
  refine cut_append (not_slash_of_isAuthority known) fun c hc => ?_
  rw [begins c hc]
  rfl

theorem authoritySpelled_file {host : List Char} (h : fileHost? cs = some host) :
    AuthoritySpelled ⟨[], host, none⟩ := by
  refine ⟨.inl rfl, ?_⟩
  unfold fileHost? at h
  split at h
  · cases h
    exact .inl rfl
  · obtain ⟨name, hn, h⟩ := Option.map_eq_some_iff.1 h
    split at h
    · cases h
      exact .inl rfl
    · cases h
      exact hostSpelled_of_domainHost? hn

theorem eq_slash_of_written {special : Bool} {c : Char} (h : Written isPathChar (c :: cs))
    (slash : isSlash special c = true) : c = '/' ∧ Written isPathChar cs := by
  obtain ⟨known, rest⟩ := h.tail (separates_of_isSlash slash).1
  simp only [isSlash, Bool.or_eq_true, beq_iff_eq, Bool.and_eq_true] at slash
  refine ⟨slash.resolve_right ?_, rest⟩
  rintro ⟨-, rfl⟩
  cases known

/-- A drive letter that stands where an authority could is followed by a colon. -/
theorem written_of_isDriveLetter (known : isAuthority cs = true) (h : isDriveLetter cs = true) :
    Written isPathChar cs := by
  unfold isDriveLetter at h
  split at h
  · next c d =>
    simp only [Bool.and_eq_true, Bool.or_eq_true, beq_iff_eq] at h
    have colon : d = ':' := by
      refine h.2.resolve_right ?_
      rintro rfl
      rcases mem_of_isAuthority known '|' (by simp) with bar | bar <;> cases bar
    have letter : c ≠ '%' ∧ isPathChar c = true := by
      refine ⟨?_, by simp [isPathChar, isUserChar, isNameChar, isUnreserved, Char.isAlphanum, h.1]⟩
      rintro rfl
      cases h.1
    rw [colon]
    exact .char letter.1 letter.2 (.char (by decide) (by decide) .nil)
  · cases h

theorem placeSpelled_of_fileBody? {a : Authority} (known : IsBody cs)
    (h : fileBody? cs = some (a, path)) : PlaceSpelled (some a) path := by
  have placed {host path : List Char} (spelled : AuthoritySpelled ⟨[], host, none⟩)
      (written : Written isPathChar path) :
      PlaceSpelled (some ⟨[], host, none⟩)
        (.segments (trimFront (segmentsOf true (dropSlash true path)))) := by
    refine placeSpelled_segments (fun a ha => ?_)
      (written_of_mem_trimFront (written_of_mem_segmentsOf written.dropSlash))
    cases ha
    exact spelled
  have here : AuthoritySpelled ⟨[], [], none⟩ := ⟨.inl rfl, .inl rfl⟩
  unfold fileBody? at h
  dsimp only at h
  cases known with
  | @placed auth path' known begins written =>
    have slashes : (isSlash true '/' && isSlash true '/') = true := rfl
    simp only [slashes, if_true, cut_slash_authority true known begins] at h
    split at h
    · next drive =>
      cases h
      exact placed here ((written_of_isDriveLetter known drive).append written)
    · obtain ⟨host, hh, h⟩ := Option.map_eq_some_iff.1 h
      cases h
      exact placed (authoritySpelled_file hh) written
  | bare single written =>
    split at h
    · next a b rest =>
      split at h
      · next slashes =>
        rw [Bool.and_eq_true] at slashes
        obtain ⟨rfl, more⟩ := eq_slash_of_written written slashes.1
        obtain ⟨rfl, -⟩ := eq_slash_of_written more slashes.2
        exact absurd rfl (single rest)
      · cases h
        exact placed here written
    · cases h
      exact placed here written

/-- Where more slashes do not count, what follows them is the authority. -/
theorem parts_of_isBody (known : IsBody cs) :
    ∃ auth path, cut (isSlash true) (cs.dropWhile (isSlash true)) = (auth, path) ∧
      (isAuthority auth = true ∨ Written isPathChar auth) ∧ Written isPathChar path := by
  have later {cs : List Char} (written : Written isPathChar cs) :
      ∃ auth path, cut (isSlash true) (cs.dropWhile (isSlash true)) = (auth, path) ∧
        (isAuthority auth = true ∨ Written isPathChar auth) ∧ Written isPathChar path := by
    have behind : Written isPathChar (cs.dropWhile (isSlash true)) := written.dropSlashes
    obtain ⟨auth, path⟩ := behind.cut fun _ => separates_of_isSlash
    exact ⟨_, _, rfl, .inr auth, path⟩
  cases known with
  | @placed auth path known begins written =>
    cases auth with
    | nil =>
      have slashes : ('/' :: '/' :: ([] ++ path)).dropWhile (isSlash true) =
          path.dropWhile (isSlash true) := rfl
      rw [slashes]
      exact later written
    | cons c auth =>
      have other : isSlash true c = false := not_slash_of_isAuthority known c List.mem_cons_self
      have stays : ('/' :: '/' :: (c :: auth ++ path)).dropWhile (isSlash true) =
          c :: auth ++ path := by
        have slash : isSlash true '/' = true := rfl
        simp [other, slash]
      rw [stays]
      exact ⟨_, _, cut_slash_authority true known begins, .inl known, written⟩
  | bare single written => exact later written

theorem placeSpelled_of_body? (known : IsBody cs) (h : body? scheme cs = some (authority, path)) :
    PlaceSpelled authority path := by
  unfold body? at h
  split at h
  · obtain ⟨⟨a, path'⟩, hb, h⟩ := Option.map_eq_some_iff.1 h
    cases h
    exact placeSpelled_of_fileBody? known hb
  · split at h
    · next special =>
      obtain ⟨auth, path', parts, known, written⟩ := parts_of_isBody known
      simp only [parts] at h
      obtain ⟨a, ha, h⟩ := Option.bind_eq_some_iff.1 h
      cases h
      refine placeSpelled_segments (fun a' ha' => ?_) (written_of_mem_segmentsOf written.dropSlash)
      cases ha'
      exact authoritySpelled_of_authority? ha (known.imp_right fun known => ⟨special, known⟩)
    · next ordinary =>
      cases known with
      | @placed auth path' known begins written =>
        have parts : cut (· == '/') (auth ++ path') = (auth, path') := by
          refine cut_append (fun c hc => ?_) fun c hc => beq_iff_eq.2 (begins c hc)
          have other : isSlash false c = false := not_slash_of_isAuthority known c hc
          simpa [isSlash] using other
        simp only [parts] at h
        obtain ⟨a, ha, h⟩ := Option.bind_eq_some_iff.1 h
        cases h
        refine placeSpelled_segments (fun a' ha' => ?_) ?_
        · cases ha'
          exact authoritySpelled_of_authority? ha (.inl known)
        · cases path' with
          | nil => simp
          | cons c path' =>
            obtain rfl := begins c rfl
            exact written_of_mem_segmentsOf (written.tail (by decide)).2
      | bare single written =>
        split at h
        · next rest => exact absurd rfl (single rest)
        · next rest =>
          cases h
          exact placeSpelled_segments (by simp)
            (written_of_mem_segmentsOf (written.tail (by decide)).2)
        · cases h
          exact ⟨by simp, by simp⟩

/-! ## Whole URIs -/

/-- A URL that is made of what URIs are made of, but for its host. -/
structure Spelled (u : Url) : Prop where
  place : PlaceSpelled u.authority u.path
  query : ∀ q, u.query = some q → Written isQueryChar q
  fragment : ∀ f, u.fragment = some f → Written isQueryChar f

theorem visible_of_written (h : Written isQueryChar cs) : ∀ c ∈ cs, 32 < c.val := by
  intro c hc
  rcases h.mem c hc with plain | known
  · exact UInt32.not_le.1 (inert_of_isPlain plain).visible
  · exact forall_isQueryChar (p := fun c => 32 < c.val) (by decide +kernel) known

theorem IsBody.visible (h : IsBody cs) : ∀ c ∈ cs, 32 < c.val := by
  have path {cs : List Char} (h : Written isPathChar cs) : ∀ c ∈ cs, 32 < c.val :=
    visible_of_written (h.mono fun _ => isQueryChar_of_isPathChar)
  cases h with
  | @placed auth path' known begins written =>
    intro c hc
    simp only [List.mem_cons, List.mem_append] at hc
    rcases hc with rfl | rfl | hc | hc
    · decide
    · decide
    · rcases mem_of_isAuthority known c hc with known | rfl
      · exact forall_ascii (p := fun c => isHostChar c = true → 32 < c.val) (by decide +kernel)
          (ascii_of_isHostChar known) known
      · decide
    · exact path written c hc
  | bare single written => exact path written

theorem mem_cut (stop : Char → Bool) {c : Char} (h : c ∈ cs) :
    c ∈ (cut stop cs).1 ∨ stop c = true ∨ c ∈ (cut stop cs).2.drop 1 := by
  have whole : (cut stop cs).1 ++ (cut stop cs).2 = cs := List.takeWhile_append_dropWhile
  rw [← whole] at h
  refine (List.mem_append.1 h).imp_right fun h => ?_
  have mark := List.head?_dropWhile_not (!stop ·) cs
  have same : (cut stop cs).2 = cs.dropWhile (!stop ·) := rfl
  rw [same] at h ⊢
  cases behind : cs.dropWhile (!stop ·) with
  | nil => simp [behind] at h
  | cons d rest =>
    rw [behind] at h mark
    rcases List.mem_cons.1 h with rfl | h
    · exact .inl (by simpa using mark)
    · exact .inr h

/-- The parts of a valid text. -/
theorem parts_of_isValid {s : String} (h : isValid s = true) :
    ∃ scheme rest, scheme? s.toList = some (scheme, rest) ∧
      Written isQueryChar ((cut (· == '#') rest).2.drop 1) ∧
      Written isQueryChar ((cut (· == '?') (cut (· == '#') rest).1).2.drop 1) ∧
      IsBody (cut (· == '?') (cut (· == '#') rest).1).1 := by
  rw [isValid_eq] at h
  split at h
  · cases h
  · next scheme rest read =>
    simp only [Bool.and_eq_true, allOf_iff] at h
    exact ⟨scheme, rest, read, h.1.1, h.1.2, isBody_of_isBody h.2⟩

/-- Nothing of a URI's text is dropped. -/
theorem visible (u : Uri) : ∀ c ∈ u.text.toList, ¬ c.val ≤ 32 := by
  obtain ⟨scheme, rest, read, fragment, query, body⟩ := parts_of_isValid u.valid
  obtain ⟨name, whole, allowed⟩ := eq_append_of_scheme? read
  intro c hc
  refine UInt32.not_le.2 ?_
  rw [whole, List.mem_append, List.mem_cons] at hc
  rcases hc with hc | rfl | hc
  · exact forall_ascii (p := fun c => isSchemeChar c = true → 32 < c.val) (by decide)
      (ascii_of_isSchemeChar (allowed c hc)) (allowed c hc)
  · decide
  · rcases mem_cut (· == '#') hc with hc | mark | hc
    · rcases mem_cut (· == '?') hc with hc | mark | hc
      · exact body.visible c hc
      · rw [beq_iff_eq.1 mark]
        decide
      · exact visible_of_written query c hc
    · rw [beq_iff_eq.1 mark]
      decide
    · exact visible_of_written fragment c hc

theorem spelled_of_toUrl? {uri : Uri} {u : Url} (h : uri.toUrl? = some u) : Spelled u := by
  obtain ⟨scheme, rest, read, fragment, query, body⟩ := parts_of_isValid uri.valid
  unfold toUrl? Url.parse? parseChars? at h
  rw [clean_eq_self uri.visible, read] at h
  simp only [Option.bind_eq_bind, Option.bind_some] at h
  obtain ⟨⟨authority, path⟩, hb, h⟩ := Option.bind_eq_some_iff.1 h
  cases h
  refine ⟨placeSpelled_of_body? body hb, fun q hq => ?_, fun f hf => ?_⟩
  · dsimp only at hq
    split at hq
    · cases hq
    · cases hq
      exact query.encode (fun _ => queryEncoding_of_isPlain scheme) fun _ known _ => known
  · dsimp only at hf
    split at hf
    · cases hf
    · cases hf
      exact fragment.encode (fun _ h => (querySet_of_isPlain h).2.2.1) fun _ known _ => known

end PolyglotLsp.Uri
