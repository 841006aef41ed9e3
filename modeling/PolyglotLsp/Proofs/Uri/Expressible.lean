import PolyglotLsp.Proofs.Naming
import PolyglotLsp.Proofs.Uri.Reading

/-!
# Which names of virtual documents are URIs

The text of a URL is a URI if its authority and its segments are written as in one
(`isValid_text_iff`). A name that is derived from a URL keeps all of it but the last segment, which
is decoded and encoded again as segments of URLs are: what such an encoding leaves alone and URIs
refuse was escaped in the URI and is bare in the name. So the name is a URI unless there is such a
character in the file name, or one that only domain names may hold in the host
(`isSome_toUri?_iff`).
-/

namespace PolyglotLsp

open Url

namespace Uri

variable {items : List (List Char)} {scheme : List Char}

/-! ## Texts of URLs -/

theorem written_text_iff :
    Written isPathChar (Path.text (.segments items)) ↔ ∀ i ∈ items, Written isPathChar i := by
  have slash : Separates '/' := ⟨by decide, by decide⟩
  induction items with
  | nil => simpa [Path.text] using Written.nil
  | cons item items ih =>
    have text : Path.text (.segments (item :: items)) =
        '/' :: (item ++ Path.text (.segments items)) := rfl
    rw [text, List.forall_mem_cons]
    refine Iff.trans ?_ (and_congr_right' ih)
    constructor
    · intro h
      have behind := (h.tail slash.1).2
      cases items with
      | nil => exact ⟨by simpa [Path.text] using behind, .nil⟩
      | cons next items =>
        obtain ⟨here, known, more⟩ := Written.split slash behind
        exact ⟨here, .char slash.1 known more⟩
    · rintro ⟨here, more⟩
      exact .char slash.1 (by decide) (here.append more)

theorem ne_at_of_hostText {host : List Char} (h : HostText host) : ∀ c ∈ host, c ≠ '@' := by
  intro c hc
  rintro rfl
  cases h with
  | name chars => cases (chars _ hc).2.2
  | address chars =>
    simp only [List.cons_append, List.mem_cons, List.mem_append, List.not_mem_nil, or_false] at hc
    rcases hc with hc | hc | hc
    · cases hc
    · rcases chars _ hc with h | h <;> cases h
    · cases hc

theorem isDigit_of_mem_port {port : Option Nat} :
    ∀ c ∈ (port.map (Nat.toDigits 10)).getD [], c.isDigit = true := by
  cases port with
  | none => exact nofun
  | some p => exact fun c hc => Nat.isDigit_of_mem_toDigits (by decide) (by decide) hc

theorem ne_at_of_mem_portText {port : Option Nat} : ∀ c ∈ portText port, c ≠ '@' := by
  cases port with
  | none => exact nofun
  | some p =>
    refine List.forall_mem_cons.2 ⟨by decide, fun c hc => ?_⟩
    have digit := Nat.isDigit_of_mem_toDigits (by decide) (by decide) hc
    rintro rfl
    cases digit

/-- Only the host of an authority can be in the way. -/
theorem isAuthority_body_iff {a : Authority} (user : IsUserinfo a.userinfo) (text : HostText a.host)
    (spelled : AuthoritySpelled a) :
    isAuthority a.body = true ↔ ∀ c ∈ a.host, domainOnly c = false := by
  obtain ⟨userinfo, host, port⟩ := a
  have noUser : ∀ c ∈ host ++ portText port, c ≠ '@' := fun c hc =>
    (List.mem_append.1 hc).elim (ne_at_of_hostText text c) (ne_at_of_mem_portText c)
  have located : splitPort false (host ++ portText port) =
      (host, port.map (Nat.toDigits 10)) := by
    rw [HostText.splitPort text, splitPort_portText, List.append_nil]
  have parts : Written isUserChar (userParts (Authority.body ⟨userinfo, host, port⟩)).1 ∧
      (userParts (Authority.body ⟨userinfo, host, port⟩)).2 = host ++ portText port := by
    unfold userParts
    cases user with
    | none =>
      have body : Authority.body ⟨[], host, port⟩ = host ++ portText port := rfl
      rw [body, splitUser_eq_none noUser]
      exact ⟨.nil, rfl⟩
    | @some name =>
      have body : Authority.body ⟨name ++ ['@'], host, port⟩ =
          name ++ '@' :: (host ++ portText port) := by
        simp [Authority.body]
      simp only [List.append_eq] at spelled ⊢
      rw [body, splitUser_append noUser]
      refine ⟨?_, rfl⟩
      rcases spelled.user with none | ⟨body', same, written⟩
      · simp at none
      · have same : name ++ ['@'] = body' ++ ['@'] := same
        rwa [List.append_cancel_right same]
  rw [isAuthority_iff, parts.2, located, ← spelled.host.isHost_iff]
  exact ⟨fun h => h.2.1, fun h => ⟨parts.1, h, isDigit_of_mem_port⟩⟩

theorem located_authority {a : Authority} (h : Located scheme (some a) items) :
    IsUserinfo a.userinfo ∧ HostText a.host ∧ ∀ c ∈ a.body, c ≠ '/' := by
  cases h with
  | @file host _ text _ _ _ =>
    refine ⟨.none, text, fun c hc => (text.quiet c ?_).noSlash⟩
    simpa [Authority.body, portText] using hc
  | special _ _ authority _ _ =>
    exact ⟨authority.user, authority.hostPort.text, fun c hc => (authority.quiet c hc).noSlash⟩
  | placed _ authority _ =>
    exact ⟨authority.user, authority.hostPort.text, fun c hc => (authority.quiet c hc).noSlash⟩

/-- Without an authority there is none to be read either. -/
theorem bodyText_bare (h : Located scheme none items) :
    ∀ rest, bodyText none (.segments items) ≠ '/' :: '/' :: rest := by
  intro rest text
  have reads := h.reads
  cases h with
  | bare kind segments written =>
    unfold body? at reads
    rw [if_neg (ne_file_of_not_special kind), if_neg (by simp [kind]), text] at reads
    obtain ⟨a, -, reads⟩ := Option.bind_eq_some_iff.1 reads
    cases reads

theorem isBody_bodyText_iff {authority : Option Authority} (h : Located scheme authority items)
    (spelled : ∀ a ∈ authority, AuthoritySpelled a) :
    isBody (bodyText authority (.segments items)) = true ↔
      (∀ a ∈ authority, ∀ c ∈ a.host, domainOnly c = false) ∧
        ∀ i ∈ items, Written isPathChar i := by
  rw [← written_text_iff]
  cases authority with
  | some a =>
    obtain ⟨user, text, noSlash⟩ := located_authority h
    rw [bodyText_some, isBody_placed noSlash (head_text items),
      isAuthority_body_iff user text (spelled a rfl)]
    simp
  | none =>
    rw [isBody_bare (bodyText_bare h)]
    have front :
        Written isPathChar (if (Path.segments items).needsDot then ['/', '.'] else []) := by
      split
      · exact .char (by decide) (by decide) (.char (by decide) (by decide) .nil)
      · exact .nil
    refine ⟨fun h => ⟨nofun, h.of_append front⟩, fun h => front.append h.2⟩

/-- Whether the text of a URL is a URI depends on its host and its segments. -/
theorem isValid_text_iff {u : Url} (h : u.Normal) (path : u.path = .segments items)
    (spelled : ∀ a ∈ u.authority, AuthoritySpelled a)
    (query : ∀ q, u.query = some q → Written isQueryChar q)
    (fragment : ∀ f, u.fragment = some f → Written isQueryChar f) :
    isValid u.text = true ↔ (∀ a ∈ u.authority, ∀ c ∈ a.host, domainOnly c = false) ∧
      ∀ i ∈ items, Written isPathChar i := by
  obtain ⟨items', path', located⟩ := h.located
  obtain rfl : items = items' := Path.segments.inj (path.symm.trans path')
  have legible := h.legible
  have writtenQuery : Written isQueryChar ((queryText u.query).drop 1) := by
    cases hq : u.query with
    | none => exact .nil
    | some q => exact query q hq
  have writtenFragment : Written isQueryChar ((fragmentText u.fragment).drop 1) := by
    cases hf : u.fragment with
    | none => exact .nil
    | some f => exact fragment f hf
  rw [isValid_eq, Url.text, String.toList_ofList, chars_eq, scheme?_append h.scheme]
  dsimp only
  rw [cut_fragmentText (fun c hc => (legible.body c hc).2) legible.query,
    cut_queryText fun c hc => (legible.body c hc).1, allOf_iff.2 writtenQuery,
    allOf_iff.2 writtenFragment, Bool.true_and, Bool.true_and, path,
    isBody_bodyText_iff located spelled]

theorem isSome_toUri?_iff_isValid {u : Url} : u.toUri?.isSome = true ↔ isValid u.text = true := by
  unfold Url.toUri? parse?
  split
  · next valid => simp [valid]
  · next refused => simp [refused]

end Uri

namespace VirtualUri

open Uri

/-- What a segment of a URL leaves as it is, although URIs refuse it. -/
def segmentOnly (special : Bool) (c : Char) : Bool :=
  c == '[' || c == ']' || c == '^' || c == '|' || (!special && c == '\\')

/-- A host whose virtual documents have names that are URIs: it has no file name, or there is
nothing in it, escaped or not, that only segments of URLs may hold, and nothing in the authority
that only domain names may. -/
def Expressible (host : Url) : Prop :=
  ∀ name ∈ host.lastSegment?, (∀ a ∈ host.authority, ∀ c ∈ a.host, domainOnly c = false) ∧
    ∀ c ∈ decode name, segmentOnly host.isSpecial c = false

instance (host : Url) : Decidable (Expressible host) :=
  -- character by character: there are too many characters to try
  letI (a : Authority) : Decidable (∀ c ∈ a.host, domainOnly c = false) := List.decidableBAll ..
  letI (name : List Char) : Decidable (∀ c ∈ decode name, segmentOnly host.isSpecial c = false) :=
    List.decidableBAll ..
  inferInstanceAs (Decidable (∀ name ∈ host.lastSegment?, _ ∧ _))

variable {special : Bool} {c : Char} {suffix : String} {language : Language}

theorem segmentOnly_kept (h : segmentOnly special c = true) :
    c.val < 128 ∧ segmentSet special c = false ∧ c ≠ '\t' ∧ c ≠ '\n' ∧ c ≠ '\r' := by
  simp only [segmentOnly, Bool.or_eq_true, beq_iff_eq, Bool.and_eq_true, Bool.not_eq_true'] at h
  rcases h with (((rfl | rfl) | rfl) | rfl) | ⟨rfl, rfl⟩
  · cases special <;> decide
  · cases special <;> decide
  · cases special <;> decide
  · cases special <;> decide
  · decide

/-- Of what a segment leaves as it is, nothing else is refused. -/
theorem isPathChar_iff (ascii : c.val < 128) (kept : segmentSet special c = false) :
    isPathChar c = true ↔ segmentOnly special c = false := by
  cases special
  · exact forall_ascii (p := fun c => segmentSet false c = false →
      (isPathChar c = true ↔ segmentOnly false c = false)) (by decide +kernel) ascii kept
  · exact forall_ascii (p := fun c => segmentSet true c = false →
      (isPathChar c = true ↔ segmentOnly true c = false)) (by decide +kernel) ascii kept

theorem isPathChar_of_isPlain (h : isPlain c = true) (percent : c ≠ '%') : isPathChar c = true :=
  forall_ascii (p := fun c => isPlain c = true → c ≠ '%' → isPathChar c = true) (by decide +kernel)
    (inert_of_isPlain h).ascii h percent

theorem written_suffix (hs : language.suffix? = some suffix) :
    Written isPathChar suffix.toList := by
  have encoded : encode (segmentSet true) suffix.toList = suffix.toList :=
    encode_eq_self fun c hc => ⟨(suffix_kept hs c hc).2.1.1, (suffix_kept hs c hc).2.1.2 true⟩
  rw [← encoded, written_encode_iff (by decide) fun c => isPathChar_of_isPlain]
  intro c hc _ kept
  refine isPathChar_of_isPlain (suffix_kept hs c hc).1 ?_
  rintro rfl
  cases kept

theorem written_stem_iff (name : List Char) :
    Written isPathChar (stem special name) ↔ ∀ c ∈ name, segmentOnly special c = false := by
  rw [stem, written_encode_iff (by simp [segmentSet]) fun c => isPathChar_of_isPlain]
  constructor
  · intro h c hc
    refine Bool.eq_false_iff.2 fun bare => ?_
    obtain ⟨ascii, kept, tab, lf, cr⟩ := segmentOnly_kept bare
    have mem : c ∈ name.filter fun c => c != '\t' && c != '\n' && c != '\r' :=
      List.mem_filter.2 ⟨hc, by simp [tab, lf, cr]⟩
    rw [(isPathChar_iff ascii kept).1 (h c mem ascii kept)] at bare
    cases bare
  · intro h c hc ascii kept
    exact (isPathChar_iff ascii kept).2 (h c (List.mem_filter.1 hc).1)

theorem written_append_suffix_iff {cs : List Char} (hs : language.suffix? = some suffix) :
    Written isPathChar (cs ++ suffix.toList) ↔ Written isPathChar cs := by
  refine ⟨fun h => ?_, fun h => h.append (written_suffix hs)⟩
  -- a suffix begins with an underscore
  obtain ⟨rest, begins⟩ : ∃ rest, suffix.toList = '_' :: rest := by
    cases language with
    | razor => cases hs
    | html | csharp =>
      cases hs
      exact ⟨_, rfl⟩
  rw [begins] at h
  exact (Written.split ⟨by decide, by decide⟩ h).1

variable {v : VirtualUri}

/-- Under the fallback scheme everything is encoded. -/
theorem isValid_below (normal : v.url.Normal) (hs : v.language.suffix? = some suffix)
    (none : v.host.lastSegment? = none) : isValid v.url.text = true := by
  have url := url_of_fallback hs none
  have escapes : nonAlphanumericSet '%' = true := by decide
  have whole : Written isPathChar (encode nonAlphanumericSet v.host.chars) := by
    rw [written_encode_iff escapes fun c => isPathChar_of_isPlain]
    intro c _ _ letter
    have plain : c.isAlphanum = true := by simpa [nonAlphanumericSet] using letter
    simp [isPathChar, isUserChar, isNameChar, isUnreserved, plain]
  have here : ∀ a ∈ v.url.authority, a = ⟨[], [], Option.none⟩ := by
    rw [url]
    rintro a ⟨⟩
    rfl
  refine (isValid_text_iff normal (congrArg Url.path url) (fun a ha => ?_) ?_ ?_).2
    ⟨fun a ha => ?_, ?_⟩
  · rw [here a ha]
    exact ⟨.inl rfl, .inl rfl⟩
  · simp [url]
  · simp [url]
  · simp [here a ha]
  · exact List.forall_mem_singleton.2 ((written_append_suffix_iff hs).2 whole)

/-- Beside its host a document keeps all of the host's text but the file name. -/
theorem isValid_beside_iff (spelled : Spelled v.host) (normal : v.url.Normal)
    (hs : v.language.suffix? = some suffix) {items : List (List Char)} {name : List Char}
    (path : v.host.path = .segments items) (last : items.getLast? = some name)
    (url : v.url = sibling v.host items name suffix.toList) :
    isValid v.url.text = true ↔ Expressible v.host := by
  obtain ⟨front, pushed, place⟩ := exists_front v.host.isSpecial last (decode name) hs
  have named : v.host.lastSegment? = some name := by simp [lastSegment?, path, last]
  have path' : v.url.path =
      .segments (front ++ [stem v.host.isSpecial (decode name) ++ suffix.toList]) := by
    rw [url, sibling, pushed]
  have kept : ∀ i ∈ front, Written isPathChar i := by
    rcases place with rfl | ⟨old, rfl⟩
    · simp
    · exact fun i hi => spelled.place.segments _ path i (List.mem_append_left _ hi)
  have authority : v.url.authority = v.host.authority := by
    rw [url]
    rfl
  have query : v.url.query = v.host.query := by
    rw [url]
    rfl
  have fragment : v.url.fragment = v.host.fragment := by
    rw [url]
    rfl
  rw [isValid_text_iff normal path' (authority ▸ spelled.place.authority)
    (query ▸ spelled.query) (fragment ▸ spelled.fragment), authority, Expressible, named]
  simp only [Option.mem_def, Option.some.injEq, forall_eq', List.forall_mem_append,
    List.forall_mem_singleton, written_append_suffix_iff hs, written_stem_iff]
  exact and_congr_right' (and_iff_right kept)

/-- A name is a URI exactly if its host is expressible. -/
theorem isSome_toUri?_iff {uri : Uri} (named : uri.toUrl? = some v.host) :
    v.url.toUri?.isSome = true ↔ Expressible v.host := by
  have normal := normal_url named
  rw [isSome_toUri?_iff_isValid]
  obtain ⟨suffix, hs, ⟨none, -⟩ | ⟨items, name, path, last, url⟩⟩ := v.url_cases
  · refine iff_of_true (isValid_below normal hs none) ?_
    simp [Expressible, none]
  · exact isValid_beside_iff (spelled_of_toUrl? named) normal hs path last url

end VirtualUri

end PolyglotLsp
