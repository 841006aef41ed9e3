import PolyglotLsp.Proofs.Url.Address

/-!
# Authorities are read back

An authority is written in one way: the user part is encoded, the host is a name in lower case or an
address in its one spelling, and the port is not the scheme's own. So an authority that was read
(`Authority.Normal`, `normal_of_authority?`) is read back from its text (`Authority.Normal.reads`).
-/

namespace PolyglotLsp.Url

/-! ## Names -/

/-- There are few enough ASCII characters to look at them all. -/
theorem forall_ascii {p : Char → Prop} (all : ∀ n : Fin 128, p (Char.ofNat n)) {c : Char}
    (h : c.val < 128) : p c := by
  have hc := all ⟨c.toNat, h⟩
  rwa [Char.ofNat_toNat] at hc

theorem toLower_toLower (c : Char) : c.toLower.toLower = c.toLower := by
  by_cases upper : c.val ≥ 'A'.val ∧ c.val ≤ 'Z'.val
  · have ascii : c.val < 128 := UInt32.lt_of_le_of_lt upper.2 (by decide)
    exact forall_ascii (p := fun c => c.toLower.toLower = c.toLower) (by decide) ascii
  · have same : c.toLower = c := dif_neg upper
    rw [same, same]

theorem decode_eq_self {cs : List Char} (h : ∀ c ∈ cs, c.val < 128 ∧ c ≠ '%') : decode cs = cs := by
  unfold decode
  induction cs with
  | nil => simp [decodeBytes, Text.decodeLossy]
  | cons c cs ih =>
    obtain ⟨ascii, noEscape⟩ := h c List.mem_cons_self
    have small : c.utf8Size = 1 := forall_ascii (p := fun c => c.utf8Size = 1) (by decide) ascii
    have byte : decodeBytes (c :: cs) = c.val.toUInt8 :: decodeBytes cs := by
      rw [decodeBytes, String.utf8EncodeChar_eq_singleton small]
      · rfl
      · intro a b rest hc
        exact absurd hc noEscape
    have first (rest : List UInt8) : Text.decodeFirst c.val.toUInt8 rest = (c, 0) := by
      have lead : c.val.toUInt8 < 0x80 ∧ Char.ofNat c.val.toUInt8.toNat = c :=
        forall_ascii (p := fun c => c.val.toUInt8 < 0x80 ∧ Char.ofNat c.val.toUInt8.toNat = c)
          (by decide) ascii
      rw [Text.decodeFirst, if_pos lead.1, lead.2]
    rw [byte, Text.decodeLossy, first]
    simp only [List.drop_zero]
    rw [ih fun d hd => h d (List.mem_cons_of_mem _ hd)]

/-- A character of an encoded text is one that the set leaves alone, or part of an escape. -/
theorem mem_encode {set : Char → Bool} {cs : List Char} {c : Char} (h : c ∈ encode set cs) :
    (c ∈ cs ∧ c.val < 128 ∧ set c = false) ∨ isPlain c = true := by
  obtain ⟨d, hd, hc⟩ := List.mem_flatMap.1 h
  unfold encodeChar at hc
  split at hc
  · next kept =>
    rw [List.mem_singleton.1 hc]
    simp only [Bool.and_eq_true, decide_eq_true_eq, Bool.not_eq_true'] at kept
    exact .inl ⟨hd, kept⟩
  · obtain ⟨b, -, hb⟩ := List.mem_flatMap.1 hc
    refine .inr ?_
    rcases mem_escapeByte hb with h | rfl
    · simp [isPlain, h]
    · rfl

theorem encodeChar_ne_nil (set : Char → Bool) (c : Char) : encodeChar set c ≠ [] := by
  unfold encodeChar
  split
  · exact List.cons_ne_nil _ _
  · intro h
    have bytes := List.flatMap_eq_nil_iff.1 h
    obtain ⟨b, rest, written⟩ := List.exists_cons_of_ne_nil
      (List.ne_nil_of_length_pos (String.length_utf8EncodeChar c ▸ c.utf8Size_pos))
    cases bytes b (written ▸ List.mem_cons_self)

theorem encode_eq_nil_iff {set : Char → Bool} {cs : List Char} : encode set cs = [] ↔ cs = [] := by
  cases cs with
  | nil => simp [encode]
  | cons c cs => simp [encode, encodeChar_ne_nil]

/-- The text of a host: a name, or an address in brackets. -/
inductive HostText : List Char → Prop
  | name {cs : List Char}
      (h : ∀ c ∈ cs, c.val < 128 ∧ 32 < c.val ∧ forbiddenHost c = false) : HostText cs
  | address {body : List Char} (h : ∀ c ∈ body, c.isAlphanum = true ∨ c = ':') :
      HostText ('[' :: body ++ [']'])

theorem ipv6Host?_ipv6Host? {cs host : List Char} (h : ipv6Host? cs = some host) :
    ∃ body, host = '[' :: (body ++ [']']) ∧ (∀ c ∈ body, c.isAlphanum = true ∨ c = ':') ∧
      ipv6Host? (body ++ [']']) = some host := by
  unfold ipv6Host? at h
  split at h
  · obtain ⟨ps, read, rfl⟩ := Option.map_eq_some_iff.1 h
    obtain ⟨pieces, eight⟩ := pieces_of_ipv6Address? read
    refine ⟨ipv6Body ps, by rw [ipv6Text_eq, List.cons_append], fun c => mem_ipv6Body, ?_⟩
    simp [ipv6Host?, ipv6Address?_ipv6Body pieces eight]
  · cases h

theorem lt_val_of_ne_blank {c : Char} (control : ¬ c.val < 32) (blank : c ≠ ' ') : 32 < c.val := by
  refine UInt32.lt_of_le_of_ne (UInt32.not_lt.1 control) fun h => blank ?_
  exact Char.ext h.symm

theorem ne_blank_of_not_forbiddenHost {c : Char} (h : forbiddenHost c = false) : c ≠ ' ' := by
  rintro rfl
  cases h

theorem not_forbiddenHost_of_domain {c : Char} (h : forbiddenDomain c = false) :
    32 < c.val ∧ forbiddenHost c = false ∧ c ≠ '%' := by
  simp only [forbiddenDomain, Bool.or_eq_false_iff, decide_eq_false_iff_not, beq_eq_false_iff_ne]
    at h
  obtain ⟨⟨⟨host, percent⟩, control⟩, -⟩ := h
  exact ⟨lt_val_of_ne_blank control (ne_blank_of_not_forbiddenHost host), host, percent⟩

theorem domainHost?_of_name {name : List Char} (written : name ≠ [])
    (h : ∀ c ∈ name, c.val < 128 ∧ forbiddenDomain c = false ∧ c.toLower = c) :
    domainHost? name = if endsInNumber name then ipv4Host? name else some name := by
  have decoded : decode name = name := decode_eq_self fun c hc =>
    ⟨(h c hc).1, (not_forbiddenHost_of_domain (h c hc).2.1).2.2⟩
  have lower : name.map Char.toLower = name :=
    (List.map_congr_left fun c hc => (h c hc).2.2).trans (List.map_id name)
  have allowed :
      ¬ (name.isEmpty || !name.all fun c => c.val < 128 && !forbiddenDomain c) = true := by
    have all : name.all (fun c => c.val < 128 && !forbiddenDomain c) = true :=
      List.all_eq_true.2 fun c hc => by simp [(h c hc).1, (h c hc).2.1]
    simp [all, written]
  unfold domainHost?
  split
  · next rest =>
    have bracket := (h '[' List.mem_cons_self).2.1
    cases bracket
  · simp only [decoded, lower, if_neg allowed]

theorem exists_eq_ipv4Text {cs host : List Char} (h : ipv4Host? cs = some host) :
    ∃ n, host = ipv4Text n := by
  unfold ipv4Host? at h
  dsimp only at h
  split at h
  · cases h
  · obtain ⟨numbers, -, h⟩ := Option.bind_eq_some_iff.1 h
    obtain ⟨n, -, rfl⟩ := Option.map_eq_some_iff.1 h
    exact ⟨n, rfl⟩

theorem domainHost?_ipv4Text (n : Nat) :
    HostText (ipv4Text n) ∧ ipv4Text n ≠ [] ∧ domainHost? (ipv4Text n) = some (ipv4Text n) := by
  have chars : ∀ c ∈ ipv4Text n, c.val < 128 ∧ forbiddenDomain c = false ∧ c.toLower = c := by
    intro c hc
    have plain : isPlain c = true := by
      rcases mem_ipv4Text hc with digit | rfl
      · simp [isPlain, Char.isAlphanum, digit]
      · rfl
    have ascii := (inert_of_isPlain plain).ascii
    have kept : c.isDigit = true ∨ c = '.' → forbiddenDomain c = false ∧ c.toLower = c :=
      forall_ascii (p := fun c => c.isDigit = true ∨ c = '.' → forbiddenDomain c = false ∧
        c.toLower = c) (by decide) ascii
    exact ⟨ascii, kept (mem_ipv4Text hc)⟩
  have written : ipv4Text n ≠ [] := by
    rw [ipv4Text_eq]
    exact List.append_ne_nil_of_left_ne_nil Nat.toDigits_ne_nil _
  refine ⟨.name fun c hc => ?_, written, ?_⟩
  · have visible := not_forbiddenHost_of_domain (chars c hc).2.1
    exact ⟨(chars c hc).1, visible.1, visible.2.1⟩
  · rw [domainHost?_of_name written chars, endsInNumber_ipv4Text, if_pos rfl, ipv4Host?_ipv4Text]

/-- A host with rules of its own is read back. -/
theorem domainHost?_domainHost? {cs host : List Char} (h : domainHost? cs = some host) :
    HostText host ∧ host ≠ [] ∧ domainHost? host = some host := by
  unfold domainHost? at h
  split at h
  · obtain ⟨body, rfl, chars, back⟩ := ipv6Host?_ipv6Host? h
    exact ⟨.address chars, List.cons_ne_nil _ _, back⟩
  · dsimp only at h
    split at h
    · cases h
    · next allowed =>
      simp only [Bool.or_eq_true, List.isEmpty_iff, Bool.not_eq_true', not_or, Bool.not_eq_false,
        List.all_eq_true, Bool.and_eq_true, decide_eq_true_eq] at allowed
      obtain ⟨written, permitted⟩ := allowed
      have chars : ∀ c ∈ (decode cs).map Char.toLower,
          c.val < 128 ∧ forbiddenDomain c = false ∧ c.toLower = c := by
        intro c hc
        obtain ⟨d, -, rfl⟩ := List.mem_map.1 hc
        exact ⟨(permitted _ hc).1, (permitted _ hc).2, toLower_toLower d⟩
      split at h
      · obtain ⟨n, rfl⟩ := exists_eq_ipv4Text h
        exact domainHost?_ipv4Text n
      · next name =>
        cases h
        refine ⟨.name fun c hc => ?_, written, ?_⟩
        · have visible := not_forbiddenHost_of_domain (chars c hc).2.1
          exact ⟨(chars c hc).1, visible.1, visible.2.1⟩
        · rw [domainHost?_of_name written chars, if_neg name]

/-- Any other host is read back. -/
theorem opaqueHost?_opaqueHost? {cs host : List Char} (h : opaqueHost? cs = some host) :
    HostText host ∧ (cs ≠ [] → host ≠ []) ∧ opaqueHost? host = some host := by
  unfold opaqueHost? at h
  split at h
  · obtain ⟨body, rfl, chars, back⟩ := ipv6Host?_ipv6Host? h
    exact ⟨.address chars, fun _ => List.cons_ne_nil _ _, back⟩
  · split at h
    · cases h
    · next allowed =>
      cases h
      simp only [List.any_eq_true, not_exists, not_and, Bool.not_eq_true] at allowed
      have chars : ∀ c ∈ encode isControl cs,
          c.val < 128 ∧ isControl c = false ∧ 32 < c.val ∧ forbiddenHost c = false := by
        intro c hc
        rcases mem_encode hc with ⟨mem, ascii, kept⟩ | plain
        · have control : ¬ c.val < 32 := fun h => by simp [isControl, h] at kept
          have blank := ne_blank_of_not_forbiddenHost (allowed c mem)
          exact ⟨ascii, kept, lt_val_of_ne_blank control blank, allowed c mem⟩
        · have ascii := (inert_of_isPlain plain).ascii
          exact ⟨ascii, forall_ascii (p := fun c => isPlain c = true →
            isControl c = false ∧ 32 < c.val ∧ forbiddenHost c = false) (by decide) ascii plain⟩
      have same : encode isControl (encode isControl cs) = encode isControl cs :=
        encode_eq_self fun c hc => ⟨(chars c hc).1, (chars c hc).2.1⟩
      refine ⟨.name fun c hc => ⟨(chars c hc).1, (chars c hc).2.2⟩, ?_, ?_⟩
      · exact fun written => mt encode_eq_nil_iff.1 written
      · have permitted : ¬ (encode isControl cs).any forbiddenHost = true := by
          simpa using fun c hc => (chars c hc).2.2.2
        unfold opaqueHost?
        split
        · next rest begins =>
          have bracket := (chars '[' (begins ▸ List.mem_cons_self)).2.2.2
          cases bracket
        · rw [if_neg permitted, same]

/-! ## Characters -/

/-- A character that ends neither an authority nor what stands before a query or a fragment. -/
structure Quiet (c : Char) : Prop where
  visible : 32 < c.val
  noSlash : c ≠ '/'
  noBackslash : c ≠ '\\'
  noQuestion : c ≠ '?'
  noHash : c ≠ '#'

theorem quiet_of_isPlain {c : Char} (h : isPlain c = true) : Quiet c := by
  have inert := inert_of_isPlain h
  refine ⟨UInt32.not_le.1 inert.visible, inert.noSlash, ?_, inert.noQuestion, inert.noHash⟩
  rintro rfl
  cases h

theorem quiet_of_not_forbiddenHost {c : Char} (visible : 32 < c.val)
    (h : forbiddenHost c = false) : Quiet c := by
  refine ⟨visible, ?_, ?_, ?_, ?_⟩ <;> rintro rfl <;> cases h

theorem HostText.nil : HostText [] := .name (by simp)

theorem HostText.quiet {host : List Char} (h : HostText host) : ∀ c ∈ host, Quiet c := by
  intro c hc
  cases h with
  | name h => exact quiet_of_not_forbiddenHost (h c hc).2.1 (h c hc).2.2
  | @address body h =>
    simp only [List.cons_append, List.mem_cons, List.mem_append, List.not_mem_nil, or_false] at hc
    rcases hc with rfl | hc | rfl
    · constructor <;> decide
    · rcases h c hc with h | rfl
      · exact quiet_of_isPlain (by simp [isPlain, h])
      · constructor <;> decide
    · constructor <;> decide

theorem lt_val_of_not_control {c : Char} (control : isControl c = false) (blank : c ≠ ' ') :
    32 < c.val :=
  lt_val_of_ne_blank (fun h => by simp [isControl, h] at control) blank

theorem not_control_of_fragmentSet {c : Char} (h : fragmentSet c = false) :
    isControl c = false ∧ c ≠ ' ' := by
  simp only [fragmentSet, Bool.or_eq_false_iff, beq_eq_false_iff_ne] at h
  exact ⟨h.1.1.1.1.1, h.1.1.1.1.2⟩

theorem fragmentSet_of_pathSet {c : Char} (h : pathSet c = false) :
    fragmentSet c = false ∧ c ≠ '#' ∧ c ≠ '?' := by
  simp only [pathSet, Bool.or_eq_false_iff, beq_eq_false_iff_ne] at h
  exact ⟨h.1.1.1.1, h.1.1.1.2, h.1.1.2⟩

theorem lt_val_of_fragmentSet {c : Char} (h : fragmentSet c = false) : 32 < c.val :=
  lt_val_of_not_control (not_control_of_fragmentSet h).1 (not_control_of_fragmentSet h).2

theorem querySet_of_isPlain {c : Char} (h : isPlain c = true) :
    querySet c = false ∧ specialQuerySet c = false ∧ fragmentSet c = false ∧
      userinfoSet c = false :=
  forall_ascii (p := fun c => isPlain c = true → querySet c = false ∧ specialQuerySet c = false ∧
    fragmentSet c = false ∧ userinfoSet c = false) (by decide) (inert_of_isPlain h).ascii h

/-- What is encoded needs no more encoding, if the set leaves escapes alone. -/
theorem not_mem_set_of_mem_encode {set : Char → Bool}
    (plain : ∀ c, isPlain c = true → set c = false) {cs : List Char} {c : Char}
    (h : c ∈ encode set cs) : c.val < 128 ∧ set c = false := by
  rcases mem_encode h with ⟨-, kept⟩ | h
  · exact kept
  · exact ⟨(inert_of_isPlain h).ascii, plain c h⟩

/-! ## Cutting -/

theorem cut_append {stop : Char → Bool} {cs rest : List Char} (h : ∀ c ∈ cs, stop c = false)
    (marked : ∀ c ∈ rest.head?, stop c = true) : cut stop (cs ++ rest) = (cs, rest) := by
  have keep : ∀ c ∈ cs, (!stop c) = true := fun c hc => by simp [h c hc]
  rw [cut, List.takeWhile_append_of_pos keep, List.dropWhile_append_of_pos keep]
  cases rest with
  | nil => simp
  | cons c rest => simp [marked c rfl]

/-! ## Ports -/

def portText : Option Nat → List Char
  | none => []
  | some p => ':' :: Nat.toDigits 10 p

theorem of_port?_eq_some {scheme cs : List Char} {port : Option Nat}
    (h : port? scheme cs = some port) {p : Nat} (hp : port = some p) :
    p ≤ 65535 ∧ defaultPort? scheme ≠ some p := by
  subst hp
  unfold port? at h
  dsimp only at h
  split at h
  · cases h
  · obtain ⟨n, -, h⟩ := Option.bind_eq_some_iff.1 h
    split at h
    · cases h
    · next small =>
      have value := Option.some.inj h
      split at value
      · cases value
      · next other =>
        cases value
        simp only [Bool.or_eq_true, beq_iff_eq, not_or] at other
        exact ⟨Nat.not_lt.1 small, other.2⟩

theorem port?_toDigits {scheme : List Char} {p : Nat} (small : p ≤ 65535)
    (other : defaultPort? scheme ≠ some p) : port? scheme (Nat.toDigits 10 p) = some (some p) := by
  have digits : (Nat.toDigits 10 p).all Char.isDigit = true :=
    List.all_eq_true.2 fun c hc => Nat.isDigit_of_mem_toDigits (by decide) (by decide) hc
  have fits : ¬ p > 65535 := by omega
  simp [port?, digits, digits?_toDigits, fits, other, Nat.toDigits_ne_nil]

/-! ## Hosts and ports -/

/-- The host of a URL that is not a file. -/
def host? (scheme cs : List Char) : Option (List Char) :=
  if isSpecialScheme scheme then domainHost? cs else opaqueHost? cs

def hostPort? (scheme cs : List Char) : Option (List Char × Option Nat) :=
  if (splitPort false cs).1.isEmpty &&
      (isSpecialScheme scheme || (splitPort false cs).2.isSome) then
    none
  else
    (host? scheme (splitPort false cs).1).bind fun host =>
      (port? scheme ((splitPort false cs).2.getD [])).map fun port => (host, port)

theorem authority?_eq (scheme cs : List Char) :
    authority? scheme cs =
      match splitUser cs with
      | none => (hostPort? scheme cs).map fun (host, port) => ⟨userinfoOf [], host, port⟩
      | some (user, rest) =>
        if rest.isEmpty then none
        else (hostPort? scheme rest).map fun (host, port) => ⟨userinfoOf user, host, port⟩ := by
  unfold authority? hostPort? host?
  cases splitUser cs with
  | none =>
    simp only [Option.getD_none, Option.isSome_none, Bool.false_and, Bool.false_eq_true, if_false]
    split
    · rfl
    · cases isSpecialScheme scheme <;>
        simp [Option.map_eq_bind, Option.bind_assoc]
  | some parts =>
    obtain ⟨user, rest⟩ := parts
    simp only [Option.getD_some, Option.isSome_some, Bool.true_and]
    split
    · rfl
    · split
      · rfl
      · cases isSpecialScheme scheme <;>
          simp [Option.map_eq_bind, Option.bind_assoc]

/-- A host and a port as they are read. -/
structure IsHostPort (scheme host : List Char) (port : Option Nat) : Prop where
  text : HostText host
  present : host = [] → isSpecialScheme scheme = false ∧ port = none
  reads : host? scheme host = some host
  range : ∀ p, port = some p → p ≤ 65535 ∧ defaultPort? scheme ≠ some p

theorem host?_host? {scheme cs host : List Char} (h : host? scheme cs = some host) :
    HostText host ∧ (cs ≠ [] → host ≠ []) ∧ host? scheme host = some host := by
  unfold host? at h ⊢
  split at h
  · next special =>
    obtain ⟨text, written, reads⟩ := domainHost?_domainHost? h
    exact ⟨text, fun _ => written, by rw [if_pos special, reads]⟩
  · next special =>
    obtain ⟨text, written, reads⟩ := opaqueHost?_opaqueHost? h
    exact ⟨text, written, by rw [if_neg special, reads]⟩

theorem eq_nil_of_splitPort {inBrackets : Bool} {cs : List Char}
    (h : splitPort inBrackets cs = ([], none)) : cs = [] := by
  cases cs with
  | nil => rfl
  | cons c cs =>
    rw [splitPort] at h
    split at h
    · cases h
    · cases h

theorem isHostPort_of_hostPort? {scheme cs host : List Char} {port : Option Nat}
    (h : hostPort? scheme cs = some (host, port)) :
    IsHostPort scheme host port ∧ (cs ≠ [] → host ≠ []) := by
  unfold hostPort? at h
  split at h
  · cases h
  · next accepted =>
    obtain ⟨host', hh, h⟩ := Option.bind_eq_some_iff.1 h
    obtain ⟨port', hp, h⟩ := Option.map_eq_some_iff.1 h
    cases h
    obtain ⟨text, written, reads⟩ := host?_host? hh
    -- no host is left only where nothing but a host can stand
    have absent (none : host = []) :
        isSpecialScheme scheme = false ∧ splitPort false cs = ([], Option.none) := by
      have empty : (splitPort false cs).1 = [] := by
        by_contra other
        exact written other none
      simp only [empty, List.isEmpty_nil, Bool.true_and, Bool.or_eq_true, not_or,
        Bool.not_eq_true, Option.isSome_eq_false_iff, Option.isNone_iff_eq_none] at accepted
      exact ⟨accepted.1, Prod.ext empty accepted.2⟩
    refine ⟨⟨text, fun none => ⟨(absent none).1, ?_⟩, reads, fun p => of_port?_eq_some hp⟩, ?_⟩
    · rw [(absent none).2] at hp
      have unread : port? scheme [] = some Option.none := rfl
      exact Option.some.inj (hp.symm.trans unread)
    · intro more none
      exact more (eq_nil_of_splitPort (absent none).2)

theorem splitPort_passed {inBrackets : Bool} {cs : List Char}
    (h : ∀ c ∈ cs, (c = ':' → inBrackets = true) ∧ c ≠ '[' ∧ c ≠ ']') (rest : List Char) :
    splitPort inBrackets (cs ++ rest) =
      (cs ++ (splitPort inBrackets rest).1, (splitPort inBrackets rest).2) := by
  induction cs with
  | nil => rfl
  | cons c cs ih =>
    obtain ⟨colon, noOpening, noClosing⟩ := h c List.mem_cons_self
    have passed : ¬ (c == ':' && !inBrackets) = true := by
      simpa using colon
    rw [List.cons_append, splitPort, if_neg passed]
    simp [noOpening, noClosing, ih fun d hd => h d (List.mem_cons_of_mem _ hd)]

theorem HostText.splitPort {host : List Char} (h : HostText host) (rest : List Char) :
    splitPort false (host ++ rest) =
      (host ++ (splitPort false rest).1, (splitPort false rest).2) := by
  cases h with
  | name h =>
    refine splitPort_passed (fun c hc => ?_) rest
    have permitted := (h c hc).2.2
    refine ⟨?_, ?_, ?_⟩ <;> rintro rfl <;> cases permitted
  | @address body h =>
    have inside : Url.splitPort true (body ++ ']' :: rest) =
        (body ++ ']' :: (Url.splitPort false rest).1, (Url.splitPort false rest).2) := by
      rw [splitPort_passed, Url.splitPort]
      · simp
      · intro c hc
        refine ⟨fun _ => rfl, ?_, ?_⟩
        · rintro rfl
          rcases h _ hc with h | h <;> cases h
        · rintro rfl
          rcases h _ hc with h | h <;> cases h
    rw [List.cons_append, List.cons_append, List.append_assoc, List.singleton_append, Url.splitPort]
    simp [inside]

theorem splitPort_portText (port : Option Nat) :
    splitPort false (portText port) = ([], port.map (Nat.toDigits 10)) := by
  cases port with
  | none => rfl
  | some p => simp [portText, splitPort]

theorem hostPort?_append {scheme host : List Char} {port : Option Nat}
    (h : IsHostPort scheme host port) :
    hostPort? scheme (host ++ portText port) = some (host, port) := by
  have parts : splitPort false (host ++ portText port) = (host, port.map (Nat.toDigits 10)) := by
    rw [h.text.splitPort, splitPort_portText, List.append_nil]
  have accepted : ¬ (host.isEmpty && (isSpecialScheme scheme ||
      (port.map (Nat.toDigits 10)).isSome)) = true := by
    intro refused
    simp only [Bool.and_eq_true, List.isEmpty_iff, Bool.or_eq_true, Option.isSome_map] at refused
    obtain ⟨special, none⟩ := h.present refused.1
    simp [special, none] at refused
  have read : port? scheme ((port.map (Nat.toDigits 10)).getD []) = some port := by
    cases hp : port with
    | none => rfl
    | some p => exact port?_toDigits (h.range p hp).1 (h.range p hp).2
  rw [hostPort?, parts, if_neg accepted, h.reads, read]
  rfl

/-! ## Users -/

/-- A user part as it is read. -/
inductive IsUserinfo : List Char → Prop
  | none : IsUserinfo []
  | some {body : List Char} (chars : ∀ c ∈ body, Quiet c ∧ c ≠ '@')
      (reads : userinfoOf body = body ++ ['@']) : IsUserinfo (body ++ ['@'])

theorem quiet_of_mem_encode_userinfoSet {cs : List Char} {c : Char}
    (h : c ∈ encode userinfoSet cs) : Quiet c ∧ c ≠ '@' ∧ c ≠ ':' := by
  have kept := (not_mem_set_of_mem_encode (fun c h => (querySet_of_isPlain h).2.2.2) h).2
  have path : pathSet c = false := by
    simp only [userinfoSet, Bool.or_eq_false_iff] at kept
    exact kept.1.1.1.1.1.1.1.1.1.1
  have visible := lt_val_of_fragmentSet (fragmentSet_of_pathSet path).1
  refine ⟨⟨visible, ?_, ?_, ?_, ?_⟩, ?_, ?_⟩ <;> rintro rfl <;> cases kept

theorem encode_encode_userinfoSet (cs : List Char) :
    encode userinfoSet (encode userinfoSet cs) = encode userinfoSet cs :=
  encode_eq_self fun _ => not_mem_set_of_mem_encode fun _ h => (querySet_of_isPlain h).2.2.2

/-- What a user part is written from: a name and a password, which may be empty. -/
def userText (name password : List Char) : List Char :=
  encode userinfoSet name ++
    (if password.isEmpty then [] else ':' :: encode userinfoSet password)

theorem userinfoOf_eq (cs : List Char) :
    userinfoOf cs =
      if (userText (cut (· == ':') cs).1 ((cut (· == ':') cs).2.drop 1)).isEmpty then []
      else userText (cut (· == ':') cs).1 ((cut (· == ':') cs).2.drop 1) ++ ['@'] := rfl

theorem cut_userText (name password : List Char) :
    cut (· == ':') (userText name password) =
      (encode userinfoSet name,
        if password.isEmpty then [] else ':' :: encode userinfoSet password) := by
  refine cut_append (fun c hc => ?_) (fun c hc => ?_)
  · exact beq_eq_false_iff_ne.2 (quiet_of_mem_encode_userinfoSet hc).2.2
  · split at hc
    · cases hc
    · cases hc
      rfl

theorem userText_cut_userText (name password : List Char) :
    userText (cut (· == ':') (userText name password)).1
      ((cut (· == ':') (userText name password)).2.drop 1) = userText name password := by
  rw [cut_userText]
  by_cases short : password.isEmpty = true
  · simp [userText, short, encode_encode_userinfoSet]
  · have kept : (encode userinfoSet password).isEmpty = false := by
      simpa [encode_eq_nil_iff] using short
    simp [userText, short, kept, encode_encode_userinfoSet]

theorem mem_userText {name password : List Char} {c : Char} (h : c ∈ userText name password) :
    Quiet c ∧ c ≠ '@' := by
  have encoded {cs : List Char} (h : c ∈ encode userinfoSet cs) : Quiet c ∧ c ≠ '@' :=
    ⟨(quiet_of_mem_encode_userinfoSet h).1, (quiet_of_mem_encode_userinfoSet h).2.1⟩
  rcases List.mem_append.1 h with h | h
  · exact encoded h
  · split at h
    · cases h
    · rcases List.mem_cons.1 h with rfl | h
      · exact ⟨by constructor <;> decide, by decide⟩
      · exact encoded h

theorem isUserinfo_userinfoOf (cs : List Char) : IsUserinfo (userinfoOf cs) := by
  rw [userinfoOf_eq]
  generalize (cut (· == ':') cs).1 = name
  generalize (cut (· == ':') cs).2.drop 1 = password
  split
  · exact .none
  · next written =>
    refine .some (fun c => mem_userText) ?_
    rw [userinfoOf_eq, userText_cut_userText, if_neg written]

/-! ## Authorities -/

/-- What stands between the slashes of an authority and its path. -/
def Authority.body (a : Authority) : List Char := a.userinfo ++ (a.host ++ portText a.port)

theorem Authority.text_eq (a : Authority) : a.text = '/' :: '/' :: a.body := by
  unfold Authority.text Authority.body portText
  cases a.port <;> simp

/-- An authority as it is read. -/
structure Authority.Normal (scheme : List Char) (a : Authority) : Prop where
  user : IsUserinfo a.userinfo
  hostPort : IsHostPort scheme a.host a.port
  present : a.userinfo ≠ [] → a.host ≠ []

theorem normal_of_authority? {scheme cs : List Char} {a : Authority}
    (h : authority? scheme cs = some a) : a.Normal scheme := by
  rw [authority?_eq] at h
  split at h
  · obtain ⟨⟨host, port⟩, hp, rfl⟩ := Option.map_eq_some_iff.1 h
    refine ⟨isUserinfo_userinfoOf [], (isHostPort_of_hostPort? hp).1, fun user => absurd rfl user⟩
  · split at h
    · cases h
    · next more =>
      obtain ⟨⟨host, port⟩, hp, rfl⟩ := Option.map_eq_some_iff.1 h
      obtain ⟨located, written⟩ := isHostPort_of_hostPort? hp
      exact ⟨isUserinfo_userinfoOf _, located, fun _ => written (by simpa using more)⟩

theorem mem_hostPort {scheme host : List Char} {port : Option Nat} (h : IsHostPort scheme host port)
    {c : Char} (hc : c ∈ host ++ portText port) : Quiet c ∧ c ≠ '@' := by
  rcases List.mem_append.1 hc with hc | hc
  · refine ⟨h.text.quiet c hc, ?_⟩
    rintro rfl
    cases h.text with
    | name chars => cases (chars _ hc).2.2
    | address chars =>
      simp only [List.cons_append, List.mem_cons, List.mem_append, List.not_mem_nil, or_false] at hc
      rcases hc with hc | hc | hc
      · cases hc
      · rcases chars _ hc with h | h <;> cases h
      · cases hc
  · cases port with
    | none => cases hc
    | some p =>
      rcases List.mem_cons.1 hc with rfl | hc
      · exact ⟨by constructor <;> decide, by decide⟩
      · have digit := Nat.isDigit_of_mem_toDigits (by decide) (by decide) hc
        refine ⟨quiet_of_isPlain (by simp [isPlain, Char.isAlphanum, digit]), ?_⟩
        rintro rfl
        cases digit

theorem splitUser_eq_none {cs : List Char} (h : ∀ c ∈ cs, c ≠ '@') : splitUser cs = none := by
  have absent : ¬ cs.contains '@' = true := fun found => h '@' (List.contains_iff_mem.1 found) rfl
  rw [splitUser, if_neg absent]

theorem splitUser_append {user rest : List Char} (h : ∀ c ∈ rest, c ≠ '@') :
    splitUser (user ++ '@' :: rest) = some (user, rest) := by
  have present : (user ++ '@' :: rest).contains '@' = true := by simp
  have back : (user ++ '@' :: rest).reverse = rest.reverse ++ '@' :: user.reverse := by simp
  have passed : ∀ c ∈ rest.reverse, (c != '@') = true := fun c hc => by
    simpa using h c (List.mem_reverse.1 hc)
  simp only [splitUser, present, if_true, back, List.dropWhile_append_of_pos passed,
    List.takeWhile_append_of_pos passed]
  simp

/-- An authority is read back. -/
theorem Authority.Normal.reads {scheme : List Char} {a : Authority} (h : a.Normal scheme) :
    authority? scheme a.body = some a := by
  obtain ⟨userinfo, host, port⟩ := a
  have noUser : ∀ c ∈ host ++ portText port, c ≠ '@' := fun c hc => (mem_hostPort h.hostPort hc).2
  have located := hostPort?_append h.hostPort
  rw [authority?_eq, Authority.body]
  cases h.user with
  | none =>
    rw [List.nil_append, splitUser_eq_none noUser]
    simp only [located]
    rfl
  | @some body chars reads =>
    have written : (host ++ portText port).isEmpty = false := by
      simpa using fun none => absurd none (h.present (by simp))
    have parts : splitUser (body ++ ['@'] ++ (host ++ portText port)) =
        some (body, host ++ portText port) := by
      rw [List.append_assoc, List.singleton_append, splitUser_append noUser]
    simp only [List.append_eq, parts, written, Bool.false_eq_true, if_false, located,
      Option.map_some, reads]

theorem Authority.Normal.quiet {scheme : List Char} {a : Authority} (h : a.Normal scheme) :
    ∀ c ∈ a.body, Quiet c := by
  intro c hc
  rcases List.mem_append.1 hc with hc | hc
  · obtain ⟨userinfo, host, port⟩ := a
    cases h.user with
    | none => cases hc
    | some chars =>
      rcases List.mem_append.1 hc with hc | hc
      · exact (chars c hc).1
      · rw [List.mem_singleton.1 hc]
        constructor <;> decide
  · exact (mem_hostPort h.hostPort hc).1

end PolyglotLsp.Url
