import Mathlib.Data.List.Basic
import PolyglotLsp.Proofs.Uri.Grammar

/-!
# Authorities of URIs

An authority of a URI falls into the same parts as that of a URL, since both are taken apart by the
same two splits (`isAuthority_iff`). So the user part of a URL that was read from a URI is one that
URIs have (`userSpelled_userinfoOf`), and so is its host, unless it is a domain name with one of the
four characters in it that domain names may hold and URIs refuse (`HostSpelled.isHost_iff`).
-/

namespace PolyglotLsp.Uri

open Url

variable {cs host : List Char} {c : Char}

/-! ## Addresses -/

theorem isPlain_of_digits? {base n : Nat} (h : digits? base cs = some n) :
    ∀ c ∈ cs, isPlain c = true := by
  induction cs using List.reverseRecOn generalizing n with
  | nil => exact nofun
  | append_singleton cs c ih =>
    rw [digits?_concat] at h
    obtain ⟨m, hm, h⟩ := Option.bind_eq_some_iff.1 h
    obtain ⟨d, hd, -⟩ := Option.bind_eq_some_iff.1 h
    have letter := isPlain_of_hexValue? (by rw [hd]; rfl)
    intro e he
    rcases List.mem_append.1 he with he | he
    · exact ih hm e he
    · rw [List.mem_singleton.1 he]
      exact letter

theorem mem_splitAll (sep : Char → Bool) (h : c ∈ cs) :
    sep c = true ∨ ∃ part ∈ splitAll sep cs, c ∈ part := by
  induction cs with
  | nil => cases h
  | cons d cs ih =>
    cases mark : sep d with
    | true =>
      rw [splitAll, if_pos mark]
      rcases List.mem_cons.1 h with rfl | h
      · exact .inl mark
      · refine (ih h).imp_right ?_
        rintro ⟨part, hp, hc⟩
        exact ⟨part, List.mem_cons_of_mem _ hp, hc⟩
    | false =>
      obtain ⟨first, more, parts, whole⟩ := splitAll_cons_of_not_sep mark cs
      rw [whole]
      rcases List.mem_cons.1 h with rfl | h
      · exact .inr ⟨_, List.mem_cons_self, List.mem_cons_self⟩
      · refine (ih h).imp_right ?_
        rintro ⟨part, hp, hc⟩
        rw [parts] at hp
        rcases List.mem_cons.1 hp with rfl | hp
        · exact ⟨_, List.mem_cons_self, List.mem_cons_of_mem _ hc⟩
        · exact ⟨part, List.mem_cons_of_mem _ hp, hc⟩

theorem exists_of_mapM_eq_some {α β : Type} {f : α → Option β} {items : List α} {values : List β}
    (h : items.mapM f = some values) : ∀ x ∈ items, ∃ y, f x = some y := by
  induction items generalizing values with
  | nil => exact nofun
  | cons x items ih =>
    rw [List.mapM_cons] at h
    obtain ⟨y, hy, h⟩ := Option.bind_eq_some_iff.1 h
    obtain ⟨ys, hys, -⟩ := Option.bind_eq_some_iff.1 h
    exact List.forall_mem_cons.2 ⟨⟨y, hy⟩, ih hys⟩

theorem isPlain_of_addPieces {count : Nat} {acc ps : List Nat} {entry : List Char × Nat}
    (h : addPieces count acc entry = some ps) : ∀ c ∈ entry.1, isPlain c = true := by
  intro c hc
  unfold addPieces at h
  split at h
  · split at h
    · cases h
    · obtain ⟨numbers, read, -⟩ := Option.bind_eq_some_iff.1 h
      rcases mem_splitAll (· == '.') hc with dot | ⟨part, hp, hc⟩
      · rw [beq_iff_eq.1 dot]
        rfl
      · obtain ⟨n, hn⟩ := exists_of_mapM_eq_some read part hp
        split at hn
        · cases hn
        · exact isPlain_of_digits? hn c hc
  · split at h
    · cases h
    · obtain ⟨n, hn, -⟩ := Option.bind_eq_some_iff.1 h
      exact isPlain_of_digits? hn c hc

theorem mem_of_ipv6Pieces? {ps : List Nat} (h : ipv6Pieces? cs = some ps) :
    ∀ c ∈ cs, isPlain c = true ∨ c = ':' := by
  have added (entries : List (List Char × Nat)) (count : Nat) (acc : List Nat)
      (h : entries.foldlM (addPieces count) acc = some ps) :
      ∀ entry ∈ entries, ∀ c ∈ entry.1, isPlain c = true := by
    induction entries generalizing acc with
    | nil => exact nofun
    | cons entry entries ih =>
      rw [List.foldlM_cons] at h
      obtain ⟨next, hn, h⟩ := Option.bind_eq_some_iff.1 h
      exact List.forall_mem_cons.2 ⟨isPlain_of_addPieces hn, ih next h⟩
  rw [ipv6Pieces?_eq] at h
  split at h
  · next empty =>
    rw [List.isEmpty_iff.1 empty]
    exact nofun
  · intro c hc
    rcases mem_splitAll (· == ':') hc with colon | ⟨part, hp, hc⟩
    · exact .inr (beq_iff_eq.1 colon)
    · obtain ⟨i, hi, rfl⟩ := List.getElem_of_mem hp
      have entry : (_, i) ∈ (splitAll (· == ':') cs).zipIdx :=
        List.mem_zipIdx_iff_getElem?.2 (List.getElem?_eq_getElem hi)
      exact .inl (added _ _ _ h _ entry c hc)

theorem eq_append_of_splitDoubleColon {left right : List Char}
    (h : splitDoubleColon cs = some (left, right)) : cs = left ++ ':' :: ':' :: right := by
  fun_induction splitDoubleColon cs generalizing left with
  | case1 rest =>
    cases h
    rfl
  | case2 c rest _ ih =>
    obtain ⟨⟨a, b⟩, split, h⟩ := Option.map_eq_some_iff.1 h
    cases h
    rw [ih split, List.cons_append]
  | case3 => cases h

theorem mem_of_ipv6Address? {ps : List Nat} (h : ipv6Address? cs = some ps) :
    ∀ c ∈ cs, isPlain c = true ∨ c = ':' := by
  unfold ipv6Address? at h
  split at h
  · obtain ⟨pieces, hp, -⟩ := Option.bind_eq_some_iff.1 h
    exact mem_of_ipv6Pieces? hp
  · next left right split =>
    obtain ⟨a, ha, h⟩ := Option.bind_eq_some_iff.1 h
    obtain ⟨b, hb, -⟩ := Option.bind_eq_some_iff.1 h
    rw [eq_append_of_splitDoubleColon split]
    intro c hc
    simp only [List.mem_append, List.mem_cons] at hc
    rcases hc with hc | hc | hc | hc
    · exact mem_of_ipv6Pieces? ha c hc
    · exact .inr hc
    · exact .inr hc
    · exact mem_of_ipv6Pieces? hb c hc

/-! ## Hosts -/

/-- What hosts of URIs consist of. -/
def isHostChar (c : Char) : Bool := isUserChar c || isPlain c || c == '[' || c == ']'

theorem isHostChar_of_isUserChar (h : isUserChar c = true) : isHostChar c = true := by
  simp [isHostChar, h]

theorem isHostChar_of_isPlain (h : isPlain c = true) : isHostChar c = true := by
  simp [isHostChar, h]

theorem mem_of_isFutureAddress (h : isFutureAddress cs = true) : ∀ c ∈ cs, isHostChar c = true := by
  unfold isFutureAddress at h
  split at h
  · next v rest =>
    simp only [Bool.and_eq_true] at h
    obtain ⟨letter, h⟩ := h
    have begins : isHostChar v = true := by
      simp only [Bool.or_eq_true, beq_iff_eq] at letter
      rcases letter with rfl | rfl <;> decide
    refine List.forall_mem_cons.2 ⟨begins, ?_⟩
    split at h
    · next version address parts =>
      simp only [Bool.and_eq_true, List.all_eq_true] at h
      have whole : version ++ '.' :: address = rest := by
        rw [← (Prod.mk.inj parts).1, ← (Prod.mk.inj parts).2, List.takeWhile_append_dropWhile]
      rw [← whole]
      intro c hc
      rcases List.mem_append.1 hc with hc | hc
      · exact isHostChar_of_isPlain (isPlain_of_hexValue? (h.1.1.2 c hc))
      · rcases List.mem_cons.1 hc with rfl | hc
        · decide
        · exact isHostChar_of_isUserChar (h.2 c hc)
    · cases h
  · cases h

theorem mem_of_isHost (h : isHost cs = true) : ∀ c ∈ cs, isHostChar c = true := by
  unfold isHost at h
  split at h
  · next rest =>
    simp only [Bool.and_eq_true, beq_iff_eq, Bool.or_eq_true] at h
    obtain ⟨closed, address⟩ := h
    have inside : ∀ c ∈ rest.dropLast, isHostChar c = true := by
      rcases address with address | address
      · obtain ⟨ps, read⟩ := Option.isSome_iff_exists.1 address
        intro c hc
        rcases mem_of_ipv6Address? read c hc with plain | rfl
        · exact isHostChar_of_isPlain plain
        · decide
      · exact mem_of_isFutureAddress address
    rw [← List.dropLast_append_getLast? _ closed]
    intro c hc
    simp only [List.mem_cons, List.mem_append, List.not_mem_nil, or_false] at hc
    rcases hc with rfl | hc | rfl
    · decide
    · exact inside c hc
    · decide
  · intro c hc
    rcases (allOf_iff.1 h).mem c hc with plain | known
    · exact isHostChar_of_isPlain plain
    · exact isHostChar_of_isUserChar (isUserChar_of_isNameChar known)

/-- What domain names may hold, although hosts of URIs may not. -/
def domainOnly (c : Char) : Bool := c == '"' || c.val == 96 || c.val == 123 || c.val == 125

theorem ascii_of_isHostChar (h : isHostChar c = true) : c.val < 128 := by
  simp only [isHostChar, Bool.or_eq_true, beq_iff_eq] at h
  rcases h with ((known | plain) | rfl) | rfl
  · exact ascii_of_isQueryChar (isQueryChar_of_isPathChar (isPathChar_of_isUserChar known))
  · exact (inert_of_isPlain plain).ascii
  · decide
  · decide

theorem not_domainOnly_of_isHostChar (h : isHostChar c = true) : domainOnly c = false :=
  forall_ascii (p := fun c => isHostChar c = true → domainOnly c = false) (by decide)
    (ascii_of_isHostChar h) h

theorem isNameChar_of_forbiddenDomain (ascii : c.val < 128) (permitted : forbiddenDomain c = false)
    (known : domainOnly c = false) : c ≠ '%' ∧ isNameChar c = true :=
  forall_ascii (p := fun c => forbiddenDomain c = false → domainOnly c = false →
    c ≠ '%' ∧ isNameChar c = true) (by decide) ascii permitted known

/-- A host that URIs have, or a domain name. -/
def HostSpelled (host : List Char) : Prop :=
  isHost host = true ∨ ∀ c ∈ host, c.val < 128 ∧ forbiddenDomain c = false

/-- Only four characters can be in the way. -/
theorem HostSpelled.isHost_iff (h : HostSpelled host) :
    isHost host = true ↔ ∀ c ∈ host, domainOnly c = false := by
  refine ⟨fun h c hc => not_domainOnly_of_isHostChar (mem_of_isHost h c hc), fun known => ?_⟩
  rcases h with h | domain
  · exact h
  · unfold isHost
    split
    · cases (domain '[' List.mem_cons_self).2
    · refine allOf_iff.2 (written_of_forall fun c hc => ?_)
      exact isNameChar_of_forbiddenDomain (domain c hc).1 (domain c hc).2 (known c hc)

theorem isHost_of_ipv6Host? (h : ipv6Host? cs = some host) : isHost host = true := by
  obtain ⟨body, rfl, -, read⟩ := ipv6Host?_ipv6Host? h
  have address : (ipv6Address? body).isSome = true := by
    rw [ipv6Host?, List.getLast?_concat] at read
    simp only [List.dropLast_concat] at read
    obtain ⟨ps, hp, -⟩ := Option.map_eq_some_iff.1 read
    rw [hp]
    rfl
  simp [isHost, address]

theorem hostSpelled_of_domainHost? (h : domainHost? cs = some host) : HostSpelled host := by
  unfold domainHost? at h
  split at h
  · exact .inl (isHost_of_ipv6Host? h)
  · dsimp only at h
    split at h
    · cases h
    · next allowed =>
      split at h
      · obtain ⟨n, rfl⟩ := exists_eq_ipv4Text h
        refine .inl ?_
        have plain : ∀ c ∈ ipv4Text n, c ≠ '%' ∧ isNameChar c = true := by
          intro c hc
          rcases mem_ipv4Text hc with digit | rfl
          · refine ⟨?_, by simp [isNameChar, isUnreserved, Char.isAlphanum, digit]⟩
            rintro rfl
            cases digit
          · decide
        unfold isHost
        split
        · next rest begins =>
          cases (plain '[' (begins ▸ List.mem_cons_self)).2
        · exact allOf_iff.2 (written_of_forall plain)
      · cases h
        refine .inr fun c hc => ?_
        simp only [Bool.or_eq_true, Bool.not_eq_true', not_or, Bool.not_eq_false,
          List.all_eq_true, Bool.and_eq_true, decide_eq_true_eq] at allowed
        simpa using allowed.2 c hc

/-- A host of a URI stays one where schemes have no rules of their own. -/
theorem isHost_of_opaqueHost? (h : opaqueHost? cs = some host) (known : isHost cs = true) :
    isHost host = true := by
  unfold opaqueHost? at h
  split at h
  · exact isHost_of_ipv6Host? h
  · next name =>
    split at h
    · cases h
    · cases h
      have written : Written isNameChar (encode isControl cs) := by
        rw [isHost] at known
        · exact (allOf_iff.1 known).encode (fun _ => isControl_of_isPlain) fun _ h _ => h
        · exact fun rest h => name rest h
      unfold isHost
      split
      · next rest begins =>
        rw [begins] at written
        cases (written.tail (by decide)).1
      · exact allOf_iff.2 written

/-! ## Parts -/

/-- The user part and what follows it. -/
def userParts (cs : List Char) : List Char × List Char := (splitUser cs).getD ([], cs)

theorem isAuthority_iff :
    isAuthority cs = true ↔ Written isUserChar (userParts cs).1 ∧
      isHost (splitPort false (userParts cs).2).1 = true ∧
      ∀ c ∈ (splitPort false (userParts cs).2).2.getD [], c.isDigit = true := by
  unfold isAuthority userParts
  cases splitUser cs <;> simp [Bool.and_eq_true, allOf_iff, List.all_eq_true, and_assoc]

theorem eq_append_of_splitUser {user rest : List Char} (h : splitUser cs = some (user, rest)) :
    cs = user ++ '@' :: rest := by
  unfold splitUser at h
  dsimp only at h
  split at h
  · next found =>
    have whole := List.takeWhile_append_dropWhile (p := (· != '@')) (l := cs.reverse)
    have first := List.head?_dropWhile_not (· != '@') cs.reverse
    cases split : cs.reverse.dropWhile (· != '@') with
    | nil =>
      have absent := List.dropWhile_eq_nil_iff.1 split '@'
        (List.mem_reverse.2 (List.contains_iff_mem.1 found))
      cases absent
    | cons c front =>
      rw [split] at whole h
      rw [split, List.head?_cons] at first
      obtain rfl : c = '@' := by simpa using first
      cases h
      have turned := congrArg List.reverse whole
      rw [List.reverse_reverse] at turned
      exact turned.symm.trans (by simp)
  · cases h

theorem eq_append_of_splitPort {inBrackets : Bool} {port : Option (List Char)}
    (h : splitPort inBrackets cs = (host, port)) : cs = host ++ port.elim [] (':' :: ·) := by
  induction cs generalizing inBrackets host with
  | nil =>
    cases h
    rfl
  | cons c cs ih =>
    rw [splitPort] at h
    split at h
    · next colon =>
      cases h
      simp only [Bool.and_eq_true, beq_iff_eq] at colon
      simp [colon.1]
    · cases h
      rw [List.cons_append, ← ih rfl]

theorem mem_of_isAuthority (h : isAuthority cs = true) :
    ∀ c ∈ cs, isHostChar c = true ∨ c = '@' := by
  obtain ⟨user, known, digits⟩ := isAuthority_iff.1 h
  have hostPort : ∀ c ∈ (userParts cs).2, isHostChar c = true := by
    intro c hc
    rcases located : splitPort false (userParts cs).2 with ⟨host, port⟩
    rw [located] at known digits
    rw [eq_append_of_splitPort located] at hc
    rcases List.mem_append.1 hc with hc | hc
    · exact mem_of_isHost known c hc
    · cases port with
      | none => cases hc
      | some p =>
        rcases List.mem_cons.1 hc with rfl | hc
        · decide
        · exact isHostChar_of_isPlain (by simp [isPlain, Char.isAlphanum, digits c hc])
  intro c hc
  cases split : splitUser cs with
  | none =>
    rw [userParts, split] at hostPort
    exact .inl (hostPort c hc)
  | some parts =>
    obtain ⟨name, rest⟩ := parts
    rw [userParts, split] at hostPort user
    rw [eq_append_of_splitUser split, List.mem_append, List.mem_cons] at hc
    rcases hc with hc | hc | hc
    · rcases user.mem c hc with plain | known
      · exact .inl (isHostChar_of_isPlain plain)
      · exact .inl (isHostChar_of_isUserChar known)
    · exact .inr hc
    · exact .inl (hostPort c hc)

/-- A user part of a URL, which ends in `@`, that URIs have. -/
def UserSpelled (user : List Char) : Prop :=
  user = [] ∨ ∃ body, user = body ++ ['@'] ∧ Written isUserChar body

theorem userSpelled_userinfoOf (h : Written isPathChar cs) : UserSpelled (userinfoOf cs) := by
  have encoded {ds : List Char} (h : Written isPathChar ds) :
      Written isUserChar (encode userinfoSet ds) := by
    refine h.encode (fun _ h => (querySet_of_isPlain h).2.2.2) fun c known kept => ?_
    exact forall_isQueryChar (p := fun c => userinfoSet c = false → isUserChar c = true)
      (by decide +kernel) (isQueryChar_of_isPathChar known) kept
  have sep (c : Char) (h : (c == ':') = true) : Separates c := by
    rw [beq_iff_eq.1 h]
    exact ⟨by decide, by decide⟩
  obtain ⟨name, password⟩ := h.cut sep
  have behind : Written isPathChar ((cut (· == ':') cs).2.drop 1) := by
    cases rest : (cut (· == ':') cs).2 with
    | nil => exact .nil
    | cons c rest' =>
      have mark := List.head?_dropWhile_not (! · == ':') cs
      have begins : cs.dropWhile (! · == ':') = c :: rest' := rest
      rw [begins, List.head?_cons] at mark
      rw [rest] at password
      exact (password.tail (sep c (by simpa using mark)).1).2
  rw [userinfoOf_eq]
  split
  · exact .inl rfl
  · refine .inr ⟨_, rfl, ?_⟩
    unfold userText
    split
    · exact (encoded name).append .nil
    · exact (encoded name).append (.char (by decide) (by decide) (encoded behind))

end PolyglotLsp.Uri
