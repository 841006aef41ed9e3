import Mathlib.Data.List.TakeWhile
import PolyglotLsp.VirtualUri

/-!
# What names of virtual documents look like

A virtual document is named after its host in one of two ways, and both can always be carried out:
beside the host, or, for a host without path segments, under the fallback scheme, where reading the
name back gives a URL of one segment (`fallback?_eq`). Either way the last segment ends in the
language's suffix (`suffix_of_urlOf?`). So each embedded language of a host has a virtual document
(`exists_of?`), and one name never stands for two languages (`language_eq_of_url_eq`), nor do two
names of one host have one text (`language_eq_of_text_eq`). A name can stand for two hosts: encoding
undoes decoding on some file names only.
-/

namespace PolyglotLsp

namespace Url

/-! ## Encoding -/

theorem encode_append (set : Char → Bool) (cs ds : List Char) :
    encode set (cs ++ ds) = encode set cs ++ encode set ds := List.flatMap_append

theorem encode_eq_self {set : Char → Bool} {cs : List Char}
    (h : ∀ c ∈ cs, c.val < 128 ∧ set c = false) : encode set cs = cs := by
  induction cs with
  | nil => rfl
  | cons c cs ih =>
    obtain ⟨hc, hs⟩ := h c List.mem_cons_self
    have rest := ih fun d hd => h d (List.mem_cons_of_mem _ hd)
    rw [encode, List.flatMap_cons, ← encode, rest]
    simp [encodeChar, hc, hs]

theorem isAlphanum_upperHex {n : UInt8} (h : n.toNat < 16) : (upperHex n).isAlphanum = true := by
  have all : ∀ k : Fin 16, (upperHex (UInt8.ofNat k.val)).isAlphanum = true := by decide
  have := all ⟨n.toNat, h⟩
  simpa using this

theorem mem_escapeByte {b : UInt8} {c : Char} (h : c ∈ escapeByte b) :
    c.isAlphanum = true ∨ c = '%' := by
  have hb := b.toNat_lt
  have sixteen : (16 : UInt8).toNat = 16 := rfl
  simp only [escapeByte, List.mem_cons, List.not_mem_nil, or_false] at h
  rcases h with rfl | rfl | rfl
  · exact .inr rfl
  · refine .inl (isAlphanum_upperHex ?_)
    rw [UInt8.toNat_div, sixteen]
    omega
  · refine .inl (isAlphanum_upperHex ?_)
    rw [UInt8.toNat_mod, sixteen]
    omega

theorem mem_encode_nonAlphanumericSet {cs : List Char} {c : Char}
    (h : c ∈ encode nonAlphanumericSet cs) : c.isAlphanum = true ∨ c = '%' := by
  obtain ⟨d, -, hd⟩ := List.mem_flatMap.1 h
  unfold encodeChar at hd
  split at hd
  · next hk =>
    rw [List.mem_singleton.1 hd]
    simp only [nonAlphanumericSet, Bool.and_eq_true, Bool.not_not] at hk
    exact .inl hk.2
  · obtain ⟨b, -, hb⟩ := List.mem_flatMap.1 hd
    exact mem_escapeByte hb

/-! ## Reading plain text -/

/-- Letters, digits and the marks that a name under the fallback scheme can hold. -/
def isPlain (c : Char) : Bool := c.isAlphanum || c == '%' || c == '_' || c == '.'

theorem toNat_lt_of_isPlain {c : Char} (h : isPlain c = true) : c.toNat < 128 := by
  delta isPlain Char.isAlphanum Char.isAlpha Char.isUpper Char.isLower Char.isDigit at h
  simp only [Bool.or_eq_true, Bool.and_eq_true, decide_eq_true_eq, beq_iff_eq,
    UInt32.le_iff_toNat_le, ge_iff_le] at h
  rcases h with ((((⟨-, h⟩ | ⟨-, h⟩) | ⟨-, h⟩) | rfl) | rfl) | rfl
  · exact Nat.lt_of_le_of_lt h (by decide)
  · exact Nat.lt_of_le_of_lt h (by decide)
  · exact Nat.lt_of_le_of_lt h (by decide)
  · decide
  · decide
  · decide

/-- A character that a URL reader passes over: no blank, no separator, and nothing to encode. -/
structure Inert (c : Char) : Prop where
  ascii : c.val < 128
  visible : ¬ c.val ≤ 32
  kept : pathSet c = false
  noSlash : c ≠ '/'
  noHash : c ≠ '#'
  noQuestion : c ≠ '?'

theorem inert_of_isPlain {c : Char} (h : isPlain c = true) : Inert c := by
  -- there are few enough ASCII characters to look at them all
  have all : ∀ n : Fin 128, isPlain (Char.ofNat n) = true →
      (Char.ofNat n).val < 128 ∧ ¬ (Char.ofNat n).val ≤ 32 ∧ pathSet (Char.ofNat n) = false ∧
        Char.ofNat n ≠ '/' ∧ Char.ofNat n ≠ '#' ∧ Char.ofNat n ≠ '?' := by
    decide
  have hc := all ⟨c.toNat, toNat_lt_of_isPlain h⟩
  simp only [Char.ofNat_toNat] at hc
  obtain ⟨ascii, visible, kept, noSlash, noHash, noQuestion⟩ := hc h
  exact ⟨ascii, visible, kept, noSlash, noHash, noQuestion⟩

theorem not_lineEnd {c : Char} (h : ¬ c.val < 32) : c ≠ '\t' ∧ c ≠ '\n' ∧ c ≠ '\r' := by
  refine ⟨?_, ?_, ?_⟩ <;> rintro rfl <;> exact h (by decide)

/-- A text that neither begins nor ends with a blank and has no tabs and line ends is clean. -/
theorem clean_eq_self_of_ends {cs : List Char} (first : ∀ c ∈ cs.head?, ¬ c.val ≤ 32)
    (last : ∀ c ∈ cs.getLast?, ¬ c.val ≤ 32) (inner : ∀ c ∈ cs, ¬ c.val < 32) : clean cs = cs := by
  have keep {ds : List Char} (h : ∀ c ∈ ds.head?, ¬ c.val ≤ 32) :
      ds.dropWhile (fun c => decide (c.val ≤ 32)) = ds := by
    cases ds with
    | nil => rfl
    | cons d ds => simp [h d rfl]
  have back : cs.reverse.dropWhile (fun c => decide (c.val ≤ 32)) = cs.reverse :=
    keep (by rwa [List.head?_reverse])
  simp only [clean, keep first, back, List.reverse_reverse]
  exact List.filter_eq_self.2 fun c hc => by simp [not_lineEnd (inner c hc)]

theorem clean_eq_self {cs : List Char} (h : ∀ c ∈ cs, ¬ c.val ≤ 32) : clean cs = cs :=
  clean_eq_self_of_ends (fun c hc => h c (List.mem_of_head? hc))
    (fun c hc => h c (List.mem_of_getLast? hc)) fun c hc low => h c hc (UInt32.le_of_lt low)

theorem cut_eq_self {stop : Char → Bool} {cs : List Char} (h : ∀ c ∈ cs, stop c = false) :
    cut stop cs = (cs, []) := by
  have keep : cs.takeWhile (!stop ·) = cs := List.takeWhile_eq_self_iff.2 (by simpa using h)
  have drop : cs.dropWhile (!stop ·) = [] := List.dropWhile_eq_nil_iff.2 (by simpa using h)
  rw [cut, keep, drop]

theorem splitAll_eq_singleton {sep : Char → Bool} {cs : List Char} (h : ∀ c ∈ cs, sep c = false) :
    splitAll sep cs = [cs] := by
  induction cs with
  | nil => rfl
  | cons c cs ih =>
    have hc := h c List.mem_cons_self
    rw [splitAll, ih fun d hd => h d (List.mem_cons_of_mem _ hd)]
    simp [hc]

theorem length_le_of_isDot {cs : List Char} (h : isDot cs = true) : cs.length ≤ 3 := by
  simp only [isDot, Bool.or_eq_true, beq_iff_eq] at h
  rcases h with (rfl | rfl) | rfl <;> decide

theorem length_le_of_isDotDot {cs : List Char} (h : isDotDot cs = true) : cs.length ≤ 6 := by
  unfold isDotDot at h
  split at h
  · have := length_le_of_isDot h
    simp only [List.length_cons]
    omega
  · have := length_le_of_isDot h
    simp only [List.length_cons]
    omega
  · have := length_le_of_isDot h
    simp only [List.length_cons]
    omega
  · cases h

end Url

namespace VirtualUri

open Url

theorem segmentsOf_eq_singleton {name : List Char} (h : ∀ c ∈ name, Inert c)
    (hd : isDot name = false) (hdd : isDotDot name = false) : segmentsOf false name = [name] := by
  have whole : splitAll (isSlash false) name = [name] :=
    splitAll_eq_singleton fun c hc => by simpa [isSlash] using (h c hc).noSlash
  have encoded : encode pathSet name = name :=
    encode_eq_self fun c hc => ⟨(h c hc).ascii, (h c hc).kept⟩
  rw [segmentsOf, whole]
  simp [encoded, resolveDots, hd, hdd]

/-- After the fallback scheme, three slashes and inert characters are an empty authority and one
segment. -/
theorem body?_fallback {name : List Char} (h : ∀ c ∈ name, Inert c)
    (hd : isDot name = false) (hdd : isDotDot name = false) :
    body? fallbackScheme.toList ('/' :: '/' :: '/' :: name) =
      some (some ⟨[], [], none⟩, .segments [name]) := by
  have authority : authority? fallbackScheme.toList [] = some ⟨[], [], none⟩ := by decide +kernel
  have place : cut (· == '/') ('/' :: name) = ([], '/' :: name) := by simp [cut]
  unfold body?
  rw [if_neg (by decide), if_neg (by decide +kernel)]
  simp [place, authority, segmentsOf_eq_singleton h hd hdd]

theorem parseChars?_fallback {name : List Char} (h : ∀ c ∈ name, Inert c)
    (hd : isDot name = false) (hdd : isDotDot name = false) :
    Url.parseChars? (fallbackScheme.toList ++ ":///".toList ++ name) =
      some ⟨fallbackScheme.toList, some ⟨[], [], none⟩, .segments [name], none, none⟩ := by
  have cleaned : clean (fallbackScheme.toList ++ ":///".toList ++ name) =
      fallbackScheme.toList ++ ":///".toList ++ name := by
    refine clean_eq_self fun c hc => ?_
    rcases List.mem_append.1 hc with hc | hc
    · -- character by character: there are too many characters to try
      have all : ∀ c ∈ fallbackScheme.toList ++ ":///".toList, ¬ c.val ≤ 32 :=
        @of_decide_eq_true _ (List.decidableBAll ..) (by decide)
      exact all c hc
    · exact (h c hc).visible
  have scheme : scheme? (fallbackScheme.toList ++ ":///".toList ++ name) =
      some (fallbackScheme.toList, '/' :: '/' :: '/' :: name) := by
    simp [scheme?, cut, fallbackScheme, isSchemeChar]
  have uncut (mark : Char) (slash : ('/' == mark) = false) (hm : ∀ c ∈ name, c ≠ mark) :
      cut (· == mark) ('/' :: '/' :: '/' :: name) = ('/' :: '/' :: '/' :: name, []) := by
    refine cut_eq_self fun c hc => ?_
    simp only [List.mem_cons] at hc
    rcases hc with rfl | rfl | rfl | hc
    · exact slash
    · exact slash
    · exact slash
    · simpa using hm c hc
  have noFragment := uncut '#' (by decide) fun c hc => (h c hc).noHash
  have noQuery := uncut '?' (by decide) fun c hc => (h c hc).noQuestion
  rw [parseChars?, cleaned, scheme]
  simp [noFragment, noQuery, body?_fallback h hd hdd]

/-- The suffixes of virtual documents are plain and hold nothing that a segment encodes or drops. -/
theorem suffix_kept {language : Language} {suffix : String} (h : language.suffix? = some suffix) :
    ∀ c ∈ suffix.toList, isPlain c = true ∧
      (c.val < 128 ∧ ∀ special, segmentSet special c = false) ∧ c ≠ '\t' ∧ c ≠ '\n' ∧ c ≠ '\r' := by
  cases language with
  | razor => cases h
  | html =>
    cases h
    exact @of_decide_eq_true _ (List.decidableBAll ..) (by decide)
  | csharp =>
    cases h
    exact @of_decide_eq_true _ (List.decidableBAll ..) (by decide)

theorem suffix_length {language : Language} {suffix : String} (h : language.suffix? = some suffix) :
    6 < suffix.toList.length := by
  cases language with
  | razor => cases h
  | html | csharp =>
    cases h
    decide

/-- The name under the fallback scheme is one segment: the whole text of the host, encoded, and the
suffix. -/
theorem fallback?_eq (host : Url) {language : Language} {suffix : String}
    (h : language.suffix? = some suffix) :
    fallback? host suffix.toList =
      some ⟨fallbackScheme.toList, some ⟨[], [], none⟩,
        .segments [encode nonAlphanumericSet host.chars ++ suffix.toList], none, none⟩ := by
  have inert : ∀ c ∈ encode nonAlphanumericSet host.chars ++ suffix.toList, Inert c := by
    intro c hc
    refine inert_of_isPlain ?_
    rcases List.mem_append.1 hc with hc | hc
    · rcases mem_encode_nonAlphanumericSet hc with hc | rfl
      · simp [isPlain, hc]
      · rfl
    · exact (suffix_kept h c hc).1
  have long : 6 < (encode nonAlphanumericSet host.chars ++ suffix.toList).length := by
    have := suffix_length h
    rw [List.length_append]
    omega
  unfold fallback?
  rw [List.append_assoc]
  refine parseChars?_fallback inert ?_ ?_
  · refine Bool.eq_false_iff.2 fun hdot => ?_
    have := length_le_of_isDot hdot
    omega
  · refine Bool.eq_false_iff.2 fun hdot => ?_
    have := length_le_of_isDotDot hdot
    omega

/-! ## Suffixes -/

/-- What a pushed segment writes in front of the suffix. -/
def stem (special : Bool) (name : List Char) : List Char :=
  encode (segmentSet special) (name.filter fun c => c != '\t' && c != '\n' && c != '\r')

/-- A segment is pushed with its suffix unchanged. -/
theorem pushSegment_append (special : Bool) (items : List (List Char)) (name : List Char)
    {language : Language} {suffix : String} (h : language.suffix? = some suffix) :
    pushSegment special items (name ++ suffix.toList) =
      (if items = [[]] then [] else items) ++ [stem special name ++ suffix.toList] := by
  have kept : (suffix.toList.filter fun c => c != '\t' && c != '\n' && c != '\r') =
      suffix.toList := by
    refine List.filter_eq_self.2 fun c hc => ?_
    obtain ⟨-, -, tab, lf, cr⟩ := suffix_kept h c hc
    simp [tab, lf, cr]
  have encoded : encode (segmentSet special) suffix.toList = suffix.toList :=
    encode_eq_self fun c hc => ⟨(suffix_kept h c hc).2.1.1, (suffix_kept h c hc).2.1.2 special⟩
  unfold pushSegment stem
  rw [List.filter_append, kept, encode_append, encoded]
  split <;> rfl

/-- What stands before the suffix depends neither on the suffix nor on the language. -/
theorem pushSegment_suffix (special : Bool) (items : List (List Char)) (name : List Char) :
    ∃ front stem, ∀ {language : Language} {suffix : String}, language.suffix? = some suffix →
      pushSegment special items (name ++ suffix.toList) = front ++ [stem ++ suffix.toList] :=
  ⟨_, _, pushSegment_append special items name⟩

theorem getLast?_pushSegment (special : Bool) (items : List (List Char)) (name : List Char)
    {language : Language} {suffix : String} (h : language.suffix? = some suffix) :
    ∃ stem, (pushSegment special items (name ++ suffix.toList)).getLast? =
      some (stem ++ suffix.toList) := by
  obtain ⟨front, stem, pushed⟩ := pushSegment_suffix special items name
  rw [pushed h]
  exact ⟨stem, List.getLast?_concat ..⟩

theorem suffix_of_urlOf? {host u : Url} {language : Language}
    (h : urlOf? host language = some u) :
    ∃ suffix stem, language.suffix? = some suffix ∧
      u.lastSegment? = some (stem ++ suffix.toList) := by
  simp only [urlOf?, Option.bind_eq_bind, Option.bind_eq_some_iff] at h
  obtain ⟨suffix, hs, h⟩ := h
  have other (h : fallback? host suffix.toList = some u) :
      ∃ stem, u.lastSegment? = some (stem ++ suffix.toList) := by
    rw [fallback?_eq host hs] at h
    cases h
    exact ⟨_, rfl⟩
  unfold derive? at h
  split at h
  · obtain ⟨stem, hstem⟩ := other h
    exact ⟨suffix, stem, hs, hstem⟩
  · next items _ =>
    split at h
    · obtain ⟨stem, hstem⟩ := other h
      exact ⟨suffix, stem, hs, hstem⟩
    · next name _ =>
      cases h
      obtain ⟨stem, hstem⟩ :=
        getLast?_pushSegment host.isSpecial (popSegment items) (decode name) hs
      exact ⟨suffix, stem, hs, hstem⟩

theorem isSome_urlOf? (host : Url) {language : Language} (h : language ∈ Language.embedded) :
    (urlOf? host language).isSome = true := by
  have embedded : ∀ l ∈ Language.embedded, l.suffix?.isSome = true := by decide
  obtain ⟨suffix, hs⟩ := Option.isSome_iff_exists.1 (embedded language h)
  simp only [urlOf?, hs, Option.bind_eq_bind, Option.bind_some, derive?]
  split
  · rw [fallback?_eq host hs]
    rfl
  · split
    · rw [fallback?_eq host hs]
      rfl
    · rfl

theorem of?_eq_some (v : VirtualUri) : of? v.host v.language = some v := by
  unfold of?
  split
  · next h => exact absurd (v.derived.symm.trans h) (by simp)
  · next u h =>
    obtain rfl : v.url = u := Option.some.inj (v.derived.symm.trans h)
    rfl

/-- Every host has a virtual document for each embedded language. -/
theorem exists_of? (host : Url) {language : Language} (h : language ∈ Language.embedded) :
    ∃ v, of? host language = some v ∧ v.host = host ∧ v.language = language := by
  obtain ⟨u, hu⟩ := Option.isSome_iff_exists.1 (isSome_urlOf? host h)
  exact ⟨⟨host, language, u, hu⟩, of?_eq_some ⟨host, language, u, hu⟩, rfl, rfl⟩

/-- The language can be read off the name. -/
theorem language_eq_of_url_eq {v v' : VirtualUri} (h : v.url = v'.url) :
    v.language = v'.language := by
  obtain ⟨suffix, stem, hs, hstem⟩ := suffix_of_urlOf? v.derived
  obtain ⟨suffix', stem', hs', hstem'⟩ := suffix_of_urlOf? v'.derived
  rw [h, hstem'] at hstem
  have segment : stem' ++ suffix'.toList = stem ++ suffix.toList := Option.some.inj hstem
  have last := congrArg List.getLast? segment
  -- the suffixes end in different letters
  have ends {s : String} {l : Language} (hl : l.suffix? = some s) (front : List Char) :
      (front ++ s.toList).getLast? = some (if l = .html then 'l' else 's') := by
    cases l with
    | razor => cases hl
    | html | csharp =>
      cases hl
      simp
  rw [ends hs, ends hs'] at last
  cases hl : v.language with
  | razor => simp [hl, Language.suffix?] at hs
  | html | csharp =>
    cases hl' : v'.language with
    | razor => simp [hl', Language.suffix?] at hs'
    | html | csharp => simp [hl, hl'] at last ⊢

/-! ## Texts -/

/-- Whether a path needs a dot in front does not depend on its last segment. -/
theorem needsDot_concat (front : List (List Char)) (last last' : List Char) :
    Path.needsDot (.segments (front ++ [last])) = Path.needsDot (.segments (front ++ [last'])) := by
  match front with
  | [] => cases last <;> cases last' <;> rfl
  | [first] => cases first <;> rfl
  | first :: second :: rest => cases first <;> rfl

/-- The names of a host's virtual documents are one text with the suffixes put in at one place. -/
theorem exists_chars_eq (host : Url) :
    ∃ before rest : List Char, ∀ {language : Language} {suffix : String} {u : Url},
      language.suffix? = some suffix → urlOf? host language = some u →
      u.chars = before ++ suffix.toList ++ rest := by
  have derived {language : Language} {suffix : String} {u : Url}
      (hs : language.suffix? = some suffix) (h : urlOf? host language = some u) :
      derive? host suffix.toList = some u := by
    simpa [urlOf?, hs] using h
  have other : ∃ before rest : List Char, ∀ {language : Language} {suffix : String} {u : Url},
      language.suffix? = some suffix → fallback? host suffix.toList = some u →
      u.chars = before ++ suffix.toList ++ rest := by
    refine ⟨fallbackScheme.toList ++ ":///".toList ++ encode nonAlphanumericSet host.chars, [], ?_⟩
    intro language suffix u hs h
    rw [fallback?_eq host hs] at h
    cases h
    simp [Url.chars, Authority.text, Path.text]
  cases hp : host.path with
  | opaqueText text =>
    obtain ⟨before, rest, name⟩ := other
    refine ⟨before, rest, fun hs h => name hs ?_⟩
    simpa [derive?, hp] using derived hs h
  | segments items =>
    cases hn : items.getLast? with
    | none =>
      obtain ⟨before, rest, name⟩ := other
      refine ⟨before, rest, fun hs h => name hs ?_⟩
      simpa [derive?, hp, hn] using derived hs h
    | some name =>
      obtain ⟨front, stem, pushed⟩ :=
        pushSegment_suffix host.isSpecial (popSegment items) (decode name)
      refine ⟨host.scheme ++ [':'] ++
        host.authority.elim
          (if Path.needsDot (.segments (front ++ [stem])) then ['/', '.'] else []) Authority.text ++
        front.flatMap ('/' :: ·) ++ '/' :: stem,
        host.query.elim [] ('?' :: ·) ++ host.fragment.elim [] ('#' :: ·), ?_⟩
      intro language suffix u hs h
      have named : some (sibling host items name suffix.toList) = some u := by
        rw [← derived hs h]
        simp [derive?, hp, hn]
      cases named
      have dot := needsDot_concat front (stem ++ suffix.toList) stem
      simp only [Url.chars, sibling, pushed hs, dot]
      cases host.authority <;> cases host.query <;> cases host.fragment <;> simp [Path.text]

theorem language_eq_of_suffix? {l l' : Language} {suffix : String} (h : l.suffix? = some suffix)
    (h' : l'.suffix? = some suffix) : l = l' := by
  cases l with
  | razor => cases h
  | html | csharp =>
    cases h
    cases l' with
    | razor => cases h'
    | html | csharp => simp [Language.suffix?] at h' ⊢

/-- The virtual documents of one host have names of different texts. -/
theorem language_eq_of_text_eq {v v' : VirtualUri} (hh : v.host = v'.host)
    (ht : v.url.text = v'.url.text) : v.language = v'.language := by
  obtain ⟨suffix, -, hs, -⟩ := suffix_of_urlOf? v.derived
  obtain ⟨suffix', -, hs', -⟩ := suffix_of_urlOf? v'.derived
  obtain ⟨before, rest, name⟩ := exists_chars_eq v.host
  have text := name hs v.derived
  have text' := name hs' (hh ▸ v'.derived)
  have chars : v.url.chars = v'.url.chars := by
    simpa [Url.text] using congrArg String.toList ht
  rw [text, text', List.append_left_inj, List.append_right_inj] at chars
  obtain rfl : suffix = suffix' := String.toList_inj.1 chars
  exact language_eq_of_suffix? hs hs'

end VirtualUri

end PolyglotLsp
