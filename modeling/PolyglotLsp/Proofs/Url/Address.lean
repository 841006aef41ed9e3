import Mathlib.Data.List.Induction
import PolyglotLsp.Proofs.VirtualUri

/-!
# Addresses are read back

Addresses are made of numbers. What is written in some base is read as the number
(`digits?_toDigits`), an IPv4 address as its four bytes (`ipv4Host?_ipv4Text`), and an IPv6 address
as its eight pieces, wherever zeros were left out (`ipv6Address?_ipv6Body`).
-/

namespace PolyglotLsp.Url

/-! ## Numbers -/

theorem digits?_concat (base : Nat) (cs : List Char) (c : Char) :
    digits? base (cs ++ [c]) = (digits? base cs).bind fun n => (hexValue? c).bind fun d =>
      if d.toNat < base then some (n * base + d.toNat) else none := by
  simp only [digits?, List.foldlM_append, List.foldlM_cons, List.foldlM_nil]
  simp

theorem hexValue?_digitChar {d : Nat} (h : d < 16) :
    ∃ v, hexValue? (Nat.digitChar d) = some v ∧ v.toNat = d := by
  have all : ∀ k : Fin 16, hexValue? (Nat.digitChar k) = some (UInt8.ofNat k) := by decide
  exact ⟨_, all ⟨d, h⟩, Nat.mod_eq_of_lt (by omega)⟩

/-- A number is what its digits say. -/
theorem digits?_toDigits {base : Nat} (least : 1 < base) (most : base ≤ 16) (n : Nat) :
    digits? base (Nat.toDigits base n) = some n := by
  induction n using Nat.strongRecOn with
  | ind n ih =>
    by_cases small : n < base
    · obtain ⟨v, read, value⟩ := hexValue?_digitChar (Nat.lt_of_lt_of_le small most)
      rw [Nat.toDigits_of_lt_base small, ← List.nil_append [_], digits?_concat, read]
      simp [digits?, value, small]
    · have digit : n % base < base := Nat.mod_lt _ (by omega)
      obtain ⟨v, read, value⟩ := hexValue?_digitChar (Nat.lt_of_lt_of_le digit most)
      rw [Nat.toDigits_of_base_le least (by omega), digits?_concat,
        ih (n / base) (Nat.div_lt_self (by omega) least), read]
      simp only [Option.bind_some, value, if_pos digit, Option.some.injEq]
      rw [Nat.mul_comm]
      exact Nat.div_add_mod ..

theorem lt_of_digits? {base n : Nat} {cs : List Char} (h : digits? base cs = some n) :
    n < Nat.pow base cs.length := by
  induction cs using List.reverseRecOn generalizing n with
  | nil =>
    cases h
    exact Nat.one_pos
  | append_singleton cs c ih =>
    rw [digits?_concat] at h
    obtain ⟨m, hm, h⟩ := Option.bind_eq_some_iff.1 h
    obtain ⟨d, -, h⟩ := Option.bind_eq_some_iff.1 h
    split at h
    · next digit =>
      cases h
      have bound : (m + 1) * base ≤ Nat.pow base cs.length * base :=
        Nat.mul_le_mul_right base (ih hm)
      have power : Nat.pow base (cs ++ [c]).length = Nat.pow base cs.length * base := by
        rw [List.length_append, List.length_singleton]
        rfl
      rw [Nat.add_mul] at bound
      rw [power]
      omega
    · cases h

theorem exists_digit_of_mem_toDigits {base n : Nat} (least : 1 < base) {c : Char}
    (h : c ∈ Nat.toDigits base n) : ∃ d < base, c = Nat.digitChar d := by
  induction n using Nat.strongRecOn with
  | ind n ih =>
    by_cases small : n < base
    · rw [Nat.toDigits_of_lt_base small, List.mem_singleton] at h
      exact ⟨n, small, h⟩
    · rw [Nat.toDigits_of_base_le least (by omega), List.mem_append, List.mem_singleton] at h
      rcases h with h | rfl
      · exact ih (n / base) (Nat.div_lt_self (by omega) least) h
      · exact ⟨_, Nat.mod_lt _ (by omega), rfl⟩

/-! ## Parts between separators -/

theorem splitAll_append_cons {sep : Char → Bool} {cs : List Char} {mark : Char}
    (h : ∀ c ∈ cs, sep c = false) (hm : sep mark = true) (rest : List Char) :
    splitAll sep (cs ++ mark :: rest) = cs :: splitAll sep rest := by
  induction cs with
  | nil => simp [splitAll, hm]
  | cons c cs ih =>
    have hc := h c List.mem_cons_self
    rw [List.cons_append, splitAll, ih fun d hd => h d (List.mem_cons_of_mem _ hd)]
    simp [hc]

/-! ## IPv4 addresses -/

/-- One byte of an address. -/
def ipv4Part (n i : Nat) : Nat := n / Nat.pow 256 i % 256

theorem ipv4Text_eq (n : Nat) :
    ipv4Text n = Nat.toDigits 10 (ipv4Part n 3) ++ '.' :: (Nat.toDigits 10 (ipv4Part n 2) ++
      '.' :: (Nat.toDigits 10 (ipv4Part n 1) ++ '.' :: Nat.toDigits 10 (ipv4Part n 0))) := by
  simp [ipv4Text, ipv4Part]

theorem mem_ipv4Text {n : Nat} {c : Char} (h : c ∈ ipv4Text n) : c.isDigit = true ∨ c = '.' := by
  have digit {k : Nat} (h : c ∈ Nat.toDigits 10 k) : c.isDigit = true :=
    Nat.isDigit_of_mem_toDigits (by decide) (by decide) h
  simp only [ipv4Text_eq, List.mem_append, List.mem_cons] at h
  rcases h with h | h | h | h | h | h | h
  · exact .inl (digit h)
  · exact .inr h
  · exact .inl (digit h)
  · exact .inr h
  · exact .inl (digit h)
  · exact .inr h
  · exact .inl (digit h)

theorem hostLabels_ipv4Text (n : Nat) :
    hostLabels (ipv4Text n) = [3, 2, 1, 0].map fun i => Nat.toDigits 10 (ipv4Part n i) := by
  have plain (k : Nat) : ∀ c ∈ Nat.toDigits 10 k, (c == '.') = false := by
    intro c hc
    have digit := Nat.isDigit_of_mem_toDigits (by decide) (by decide) hc
    refine beq_eq_false_iff_ne.2 ?_
    rintro rfl
    cases digit
  have parts : splitAll (· == '.') (ipv4Text n) =
      [3, 2, 1, 0].map fun i => Nat.toDigits 10 (ipv4Part n i) := by
    rw [ipv4Text_eq, splitAll_append_cons (plain _) rfl, splitAll_append_cons (plain _) rfl,
      splitAll_append_cons (plain _) rfl, splitAll_eq_singleton (plain _)]
    rfl
  rw [hostLabels, parts]
  simp only [List.map_cons, List.map_nil, List.getLast?_cons_cons, List.getLast?_singleton]
  split
  · next h => exact absurd (Option.some.inj h) Nat.toDigits_ne_nil
  · rfl

theorem ipv4Number?_toDigits {k : Nat} (h : k < 256) :
    ipv4Number? (Nat.toDigits 10 k) = some k := by
  have all : ∀ k : Fin 256, ipv4Number? (Nat.toDigits 10 k.val) = some k.val := by decide +kernel
  exact all ⟨k, h⟩

/-- The bytes of an address do not depend on what overflows it. -/
theorem ipv4Text_mod (n : Nat) : ipv4Text (n % 4294967296) = ipv4Text n := by
  have bytes : ipv4Part (n % 4294967296) 3 = ipv4Part n 3 ∧
      ipv4Part (n % 4294967296) 2 = ipv4Part n 2 ∧ ipv4Part (n % 4294967296) 1 = ipv4Part n 1 ∧
      ipv4Part (n % 4294967296) 0 = ipv4Part n 0 := by
    simp only [ipv4Part, Nat.pow_eq, Nat.reducePow]
    omega
  obtain ⟨three, two, one, zero⟩ := bytes
  rw [ipv4Text_eq, ipv4Text_eq, three, two, one, zero]

theorem ipv4Value?_parts (n : Nat) :
    ipv4Value? [ipv4Part n 3, ipv4Part n 2, ipv4Part n 1, ipv4Part n 0] =
      some (n % 4294967296) := by
  have byte (i : Nat) : ipv4Part n i < 256 := Nat.mod_lt _ (by decide)
  have sum : ipv4Part n 0 + ipv4Part n 3 * 16777216 + ipv4Part n 2 * 65536 + ipv4Part n 1 * 256 =
      n % 4294967296 := by
    simp only [ipv4Part, Nat.pow_eq, Nat.reducePow]
    omega
  simpa [ipv4Value?, byte] using sum

/-- An address is read back from its four bytes. -/
theorem ipv4Host?_ipv4Text (n : Nat) : ipv4Host? (ipv4Text n) = some (ipv4Text n) := by
  have byte (i : Nat) : ipv4Part n i < 256 := Nat.mod_lt _ (by decide)
  have numbers : (hostLabels (ipv4Text n)).mapM ipv4Number? =
      some [ipv4Part n 3, ipv4Part n 2, ipv4Part n 1, ipv4Part n 0] := by
    simp [hostLabels_ipv4Text, ipv4Number?_toDigits, byte]
  have short : ¬ (hostLabels (ipv4Text n)).length > 4 := by simp [hostLabels_ipv4Text]
  simp only [ipv4Host?, if_neg short, numbers, Option.bind_eq_bind, Option.bind_some,
    ipv4Value?_parts, Option.map_eq_map, Option.map_some, ipv4Text_mod]

theorem endsInNumber_ipv4Text (n : Nat) : endsInNumber (ipv4Text n) = true := by
  have digits : (Nat.toDigits 10 (ipv4Part n 0)).all Char.isDigit = true :=
    List.all_eq_true.2 fun c hc => Nat.isDigit_of_mem_toDigits (by decide) (by decide) hc
  simp only [endsInNumber, hostLabels_ipv4Text, List.map_cons, List.map_nil,
    List.getLast?_cons_cons, List.getLast?_singleton]
  split
  · next h => cases h
  · next h => exact absurd (Option.some.inj h) Nat.toDigits_ne_nil
  · next last _ h =>
    cases h
    rw [digits, Bool.true_or]

/-! ## IPv6 addresses -/

/-- One item of an address adds one piece, or two. -/
def addPieces (count : Nat) (acc : List Nat) (entry : List Char × Nat) : Option (List Nat) :=
  if entry.1.contains '.' then
    if entry.2 + 1 ≠ count then none
    else do
      let numbers ← (splitAll (· == '.') entry.1).mapM fun p =>
        if p.isEmpty || !p.all Char.isDigit || (p.length > 1 && p.head? == some '0') then none
        else digits? 10 p
      match numbers with
      | [a, b, c, d] =>
        if [a, b, c, d].all (· < 256) then some (acc ++ [a * 256 + b, c * 256 + d]) else none
      | _ => none
  else if entry.1.isEmpty || entry.1.length > 4 then none
  else do
    let n ← digits? 16 entry.1
    some (acc ++ [n])

theorem ipv6Pieces?_eq (cs : List Char) :
    ipv6Pieces? cs =
      if cs.isEmpty then some []
      else (splitAll (· == ':') cs).zipIdx.foldlM
        (addPieces (splitAll (· == ':') cs).length) [] := rfl

/-- Pieces of sixteen bits. -/
def Pieces (ps : List Nat) : Prop := ∀ p ∈ ps, p < 65536

theorem Pieces.addPieces {count : Nat} {acc ps : List Nat} {entry : List Char × Nat}
    (h : Pieces acc) (added : addPieces count acc entry = some ps) : Pieces ps := by
  unfold Url.addPieces at added
  split at added
  · split at added
    · cases added
    · obtain ⟨numbers, -, added⟩ := Option.bind_eq_some_iff.1 added
      split at added
      · next a b c d =>
        split at added
        · next bytes =>
          cases added
          simp only [List.all_cons, List.all_nil, Bool.and_true, Bool.and_eq_true,
            decide_eq_true_eq] at bytes
          intro p hp
          simp only [List.mem_append, List.mem_cons, List.not_mem_nil, or_false] at hp
          rcases hp with hp | rfl | rfl
          · exact h p hp
          · omega
          · omega
        · cases added
      · cases added
  · split at added
    · cases added
    · next short =>
      obtain ⟨n, hn, added⟩ := Option.bind_eq_some_iff.1 added
      cases added
      simp only [Bool.or_eq_true, decide_eq_true_eq, not_or, Nat.not_lt, gt_iff_lt] at short
      intro p hp
      rcases List.mem_append.1 hp with hp | hp
      · exact h p hp
      · rw [List.mem_singleton.1 hp]
        calc
          n < Nat.pow 16 entry.1.length := lt_of_digits? hn
          _ ≤ Nat.pow 16 4 := Nat.pow_le_pow_right (by decide) short.2

theorem pieces_of_ipv6Pieces? {cs : List Char} {ps : List Nat} (h : ipv6Pieces? cs = some ps) :
    Pieces ps := by
  have added (entries : List (List Char × Nat)) (count : Nat) (acc : List Nat) (sound : Pieces acc)
      (h : entries.foldlM (addPieces count) acc = some ps) : Pieces ps := by
    induction entries generalizing acc with
    | nil =>
      cases h
      exact sound
    | cons entry entries ih =>
      rw [List.foldlM_cons] at h
      obtain ⟨next, hn, h⟩ := Option.bind_eq_some_iff.1 h
      exact ih next (sound.addPieces hn) h
  rw [ipv6Pieces?_eq] at h
  split at h
  · cases h
    exact nofun
  · exact added _ _ [] nofun h

/-- An address has eight pieces. -/
theorem pieces_of_ipv6Address? {cs : List Char} {ps : List Nat} (h : ipv6Address? cs = some ps) :
    Pieces ps ∧ ps.length = 8 := by
  unfold ipv6Address? at h
  split at h
  · obtain ⟨pieces, hp, h⟩ := Option.bind_eq_some_iff.1 h
    split at h
    · next eight =>
      cases h
      exact ⟨pieces_of_ipv6Pieces? hp, eight⟩
    · cases h
  · next left right _ =>
    obtain ⟨a, ha, h⟩ := Option.bind_eq_some_iff.1 h
    obtain ⟨b, hb, h⟩ := Option.bind_eq_some_iff.1 h
    dsimp only at h
    split at h
    · cases h
    · split at h
      · next fewer =>
        cases h
        refine ⟨fun p hp => ?_, ?_⟩
        · simp only [List.mem_append, List.mem_replicate] at hp
          rcases hp with (hp | ⟨-, rfl⟩) | hp
          · exact pieces_of_ipv6Pieces? ha p hp
          · decide
          · exact pieces_of_ipv6Pieces? hb p hp
        · simp only [List.length_append, List.length_replicate]
          omega
      · cases h

theorem colonJoin_cons_cons (p q : Nat) (ps : List Nat) :
    colonJoin (p :: q :: ps) = hexText p ++ ':' :: colonJoin (q :: ps) := by
  simp [colonJoin, List.intercalate]

@[simp] theorem colonJoin_singleton (p : Nat) : colonJoin [p] = hexText p := by
  simp [colonJoin, List.intercalate]

theorem mem_hexText {p : Nat} {c : Char} (h : c ∈ hexText p) :
    c.isAlphanum = true ∧ c ≠ ':' ∧ c ≠ '.' := by
  have all : ∀ d : Fin 16, (Nat.digitChar d).isAlphanum = true ∧ Nat.digitChar d ≠ ':' ∧
      Nat.digitChar d ≠ '.' := by decide
  obtain ⟨d, hd, rfl⟩ := exists_digit_of_mem_toDigits (by decide) h
  exact all ⟨d, hd⟩

theorem exists_colonJoin_eq_cons (p : Nat) (ps : List Nat) :
    ∃ c rest, colonJoin (p :: ps) = c :: rest ∧ c ≠ ':' := by
  obtain ⟨c, digits, written⟩ := List.exists_cons_of_ne_nil (@Nat.toDigits_ne_nil p 16)
  have noColon : c ≠ ':' := by
    have digit : c ∈ hexText p := by rw [hexText, written]; exact List.mem_cons_self
    exact (mem_hexText digit).2.1
  cases ps with
  | nil => exact ⟨c, digits, by rw [colonJoin_singleton, hexText, written], noColon⟩
  | cons q ps =>
    refine ⟨c, digits ++ ':' :: colonJoin (q :: ps), ?_, noColon⟩
    rw [colonJoin_cons_cons, hexText, written, List.cons_append]

theorem mem_colonJoin {ps : List Nat} {c : Char} (h : c ∈ colonJoin ps) :
    c.isAlphanum = true ∧ c ≠ '.' ∨ c = ':' := by
  induction ps with
  | nil => cases h
  | cons p ps ih =>
    cases ps with
    | nil =>
      rw [colonJoin_singleton] at h
      exact .inl ⟨(mem_hexText h).1, (mem_hexText h).2.2⟩
    | cons q ps =>
      rw [colonJoin_cons_cons, List.mem_append, List.mem_cons] at h
      rcases h with h | rfl | h
      · exact .inl ⟨(mem_hexText h).1, (mem_hexText h).2.2⟩
      · exact .inr rfl
      · exact ih h

theorem splitAll_colonJoin (p : Nat) (ps : List Nat) :
    splitAll (· == ':') (colonJoin (p :: ps)) = (p :: ps).map hexText := by
  have plain (p : Nat) : ∀ c ∈ hexText p, (c == ':') = false := fun c hc =>
    beq_eq_false_iff_ne.2 (mem_hexText hc).2.1
  induction ps generalizing p with
  | nil =>
    rw [colonJoin_singleton, splitAll_eq_singleton (plain p)]
    rfl
  | cons q ps ih =>
    rw [colonJoin_cons_cons, splitAll_append_cons (plain p) rfl, ih]
    rfl

/-- Pieces are read back. -/
theorem ipv6Pieces?_colonJoin {ps : List Nat} (h : Pieces ps) :
    ipv6Pieces? (colonJoin ps) = some ps := by
  have added (count start : Nat) (ps acc : List Nat) (h : Pieces ps) :
      ((ps.map hexText).zipIdx start).foldlM (addPieces count) acc = some (acc ++ ps) := by
    induction ps generalizing start acc with
    | nil => simp
    | cons p ps ih =>
      have noDot : (hexText p).contains '.' = false := by
        simpa using fun hc => (mem_hexText hc).2.2 rfl
      have short : (hexText p).length ≤ 4 :=
        (Nat.length_toDigits_le_iff (by decide) (by decide)).2 (h p List.mem_cons_self)
      have first : addPieces count acc (hexText p, start) = some (acc ++ [p]) := by
        have item : ¬ ((hexText p).isEmpty || decide ((hexText p).length > 4)) = true := by
          simpa [hexText, Nat.toDigits_ne_nil] using short
        simp only [addPieces, noDot, if_neg item, Bool.false_eq_true, if_false]
        rw [hexText, digits?_toDigits (by decide) (by decide)]
        rfl
      have later := ih (start + 1) (acc ++ [p]) fun q hq => h q (List.mem_cons_of_mem _ hq)
      rw [List.append_assoc, List.singleton_append] at later
      simpa [List.zipIdx_cons, first] using later
  cases ps with
  | nil => rfl
  | cons p ps =>
    have split := splitAll_colonJoin p ps
    have written : (colonJoin (p :: ps)).isEmpty = false := by
      refine Bool.eq_false_iff.2 fun empty => ?_
      rw [List.isEmpty_iff.1 empty] at split
      simp only [splitAll, List.map_cons, List.cons.injEq] at split
      exact Nat.toDigits_ne_nil split.1.symm
    rw [ipv6Pieces?_eq, written, if_neg Bool.false_ne_true, split]
    exact added _ 0 (p :: ps) [] h

/-- There are no two colons side by side in what is joined by colons. -/
theorem splitDoubleColon_colonJoin (ps : List Nat) (tail : List Char) :
    splitDoubleColon (colonJoin ps ++ tail) =
      (splitDoubleColon tail).map fun (a, b) => (colonJoin ps ++ a, b) := by
  have passed (cs tail : List Char) (h : ∀ c ∈ cs, c ≠ ':') :
      splitDoubleColon (cs ++ tail) =
        (splitDoubleColon tail).map fun (a, b) => (cs ++ a, b) := by
    induction cs with
    | nil => simp
    | cons c cs ih =>
      rw [List.cons_append, splitDoubleColon, ih fun d hd => h d (List.mem_cons_of_mem _ hd)]
      · simp
        rfl
      · rintro rest rfl
        exact absurd rfl (h ':' List.mem_cons_self)
  have hex (p : Nat) : ∀ c ∈ hexText p, c ≠ ':' := fun c hc => (mem_hexText hc).2.1
  induction ps with
  | nil => simp [colonJoin, List.intercalate]
  | cons p ps ih =>
    cases ps with
    | nil => rw [colonJoin_singleton, passed _ _ (hex p)]
    | cons q ps =>
      obtain ⟨c, rest, begins, noColon⟩ := exists_colonJoin_eq_cons q ps
      have colon : splitDoubleColon (':' :: (colonJoin (q :: ps) ++ tail)) =
          (splitDoubleColon (colonJoin (q :: ps) ++ tail)).map fun (a, b) => (':' :: a, b) := by
        rw [begins, List.cons_append, splitDoubleColon]
        intro rest' _ h
        exact noColon (List.cons.inj h).1
      rw [colonJoin_cons_cons, List.append_assoc, List.cons_append, passed _ _ (hex p), colon, ih]
      simp [Function.comp_def]

/-- The zeros from a place on, at least two of them. -/
def ZeroRun (ps : List Nat) (run : Nat × Nat) : Prop :=
  run.2 = ((ps.drop run.1).takeWhile (· == 0)).length ∧ 2 ≤ run.2

theorem zeroRun_of_longestZeros {ps : List Nat} {run : Nat × Nat}
    (h : longestZeros ps = some run) : ZeroRun ps run := by
  refine List.foldlRecOn (motive := fun best => ∀ run, best = some run → ZeroRun ps run)
    _ _ (fun run h => by cases h) ?_ run h
  intro best sound run hrun
  obtain ⟨start, -, rfl⟩ := List.mem_map.1 hrun
  split
  · exact sound
  · next long =>
    have this : ∀ run, some (start, ((ps.drop start).takeWhile (· == 0)).length) = some run →
        ZeroRun ps run := by
      intro run h
      cases h
      exact ⟨rfl, Nat.not_lt.1 long⟩
    split
    · exact this
    · split
      · exact this
      · exact sound

/-- What is left out of an address is zeros. -/
theorem ZeroRun.eq_append {ps : List Nat} {i n : Nat} (h : ZeroRun ps (i, n)) :
    ps = ps.take i ++ List.replicate n 0 ++ ps.drop (i + n) := by
  have zeros : (ps.drop i).takeWhile (· == 0) = List.replicate n 0 := by
    refine List.eq_replicate_iff.2 ⟨h.1.symm, fun p hp => ?_⟩
    simpa using List.mem_takeWhile_imp hp
  have rest : (ps.drop i).dropWhile (· == 0) = ps.drop (i + n) := by
    have whole := List.takeWhile_append_dropWhile (p := (· == 0)) (l := ps.drop i)
    have cut := congrArg (List.drop n) whole
    rwa [zeros, List.drop_left' List.length_replicate, List.drop_drop] at cut
  rw [← rest, ← zeros, List.append_assoc, List.takeWhile_append_dropWhile, List.take_append_drop]

/-- What stands between the brackets of an address. -/
def ipv6Body (ps : List Nat) : List Char :=
  match longestZeros ps with
  | none => colonJoin ps
  | some (i, n) => colonJoin (ps.take i) ++ ':' :: ':' :: colonJoin (ps.drop (i + n))

theorem ipv6Text_eq (ps : List Nat) : ipv6Text ps = '[' :: ipv6Body ps ++ [']'] := rfl

theorem mem_ipv6Body {ps : List Nat} {c : Char} (h : c ∈ ipv6Body ps) :
    c.isAlphanum = true ∨ c = ':' := by
  have joined {ps : List Nat} (h : c ∈ colonJoin ps) : c.isAlphanum = true ∨ c = ':' :=
    (mem_colonJoin h).imp_left And.left
  unfold ipv6Body at h
  split at h
  · exact joined h
  · simp only [List.mem_append, List.mem_cons] at h
    rcases h with h | h | h | h
    · exact joined h
    · exact .inr h
    · exact .inr h
    · exact joined h

/-- An address is read back from its eight pieces. -/
theorem ipv6Address?_ipv6Body {ps : List Nat} (h : Pieces ps) (eight : ps.length = 8) :
    ipv6Address? (ipv6Body ps) = some ps := by
  unfold ipv6Address? ipv6Body
  cases zeros : longestZeros ps with
  | none =>
    have whole : splitDoubleColon (colonJoin ps) = none := by
      rw [← List.append_nil (colonJoin ps), splitDoubleColon_colonJoin]
      rfl
    simp [whole, ipv6Pieces?_colonJoin h, eight]
  | some run =>
    obtain ⟨i, n⟩ := run
    have omitted := zeroRun_of_longestZeros zeros
    have gap : splitDoubleColon
        (colonJoin (ps.take i) ++ ':' :: ':' :: colonJoin (ps.drop (i + n))) =
          some (colonJoin (ps.take i), colonJoin (ps.drop (i + n))) := by
      rw [splitDoubleColon_colonJoin]
      simp [splitDoubleColon]
    have left : ipv6Pieces? (colonJoin (ps.take i)) = some (ps.take i) :=
      ipv6Pieces?_colonJoin fun p hp => h p (List.mem_of_mem_take hp)
    have right : ipv6Pieces? (colonJoin (ps.drop (i + n))) = some (ps.drop (i + n)) :=
      ipv6Pieces?_colonJoin fun p hp => h p (List.mem_of_mem_drop hp)
    have noDot : (colonJoin (ps.take i)).contains '.' = false := by
      refine Bool.eq_false_iff.2 fun found => ?_
      rcases mem_colonJoin (List.contains_iff_mem.1 found) with ⟨-, h⟩ | h
      · exact h rfl
      · cases h
    have lengths : (ps.take i).length + n + (ps.drop (i + n)).length = 8 := by
      have whole := congrArg List.length omitted.eq_append
      simp only [List.length_append, List.length_replicate] at whole
      omega
    have fewer : (ps.take i).length + (ps.drop (i + n)).length < 8 := by
      have := omitted.2
      omega
    have missing : 8 - (ps.take i).length - (ps.drop (i + n)).length = n := by omega
    simp only [gap, left, right, noDot, Option.bind_eq_bind, Option.bind_some, if_pos fewer,
      missing, Bool.false_eq_true, if_false]
    rw [← omitted.eq_append]

end PolyglotLsp.Url
