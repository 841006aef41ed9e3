import PolyglotLsp.Text.Utf8

/-!
# UTF-8 is read back

The bytes of a character begin with one that tells how many follow and how large the first of them
is (`leadShape_two`, `leadShape_three`, `leadShape_four`), so that reading takes exactly these and
puts the character's number together again (`decodeFirst_utf8EncodeChar`). Nothing in the bytes of a
text is replaced (`decodeLossy_utf8Bytes`).
-/

namespace PolyglotLsp.Text

/-! ## Followers -/

theorem continuations_append {more : List UInt8} (h : ∀ b ∈ more, isContinuation b = true)
    (rest : List UInt8) : continuations more.length (more ++ rest) = more := by
  induction more with
  | nil => rfl
  | cons b more ih =>
    rw [List.length_cons, List.cons_append, continuations, if_pos (h b List.mem_cons_self),
      ih fun d hd => h d (List.mem_cons_of_mem _ hd)]

/-- A lead byte takes the bytes that its shape asks for. -/
theorem decodeFirst_of_leadShape {lead lo hi first : UInt8} (more : List UInt8)
    (high : ¬ lead < 0x80) (shape : leadShape lead = some (more.length + 1, lo, hi))
    (bounds : lo ≤ first ∧ first ≤ hi) (h : ∀ b ∈ more, isContinuation b = true)
    (rest : List UInt8) :
    decodeFirst lead (first :: more ++ rest) =
      (Char.ofNat (codePoint lead (first :: more)), more.length + 1) := by
  have tail : followers (more.length + 1) lo hi (first :: more ++ rest) = first :: more := by
    rw [List.cons_append, followers, if_pos (by simpa using bounds), Nat.add_sub_cancel,
      continuations_append h]
  rw [decodeFirst, if_neg high, shape]
  simp only [tail, List.length_cons, if_true]

/-! ## Lead bytes -/

theorem leadShape_two {k : Nat} (least : 2 ≤ k) (most : k < 32) :
    leadShape (UInt8.ofNat (k + 192)) = some (1, 0x80, 0xBF) := by
  have all : ∀ k : Fin 32, 2 ≤ k.val →
      leadShape (UInt8.ofNat (k.val + 192)) = some (1, 0x80, 0xBF) := by decide
  exact all ⟨k, most⟩ least

theorem leadShape_three {k : Nat} (most : k < 16) :
    leadShape (UInt8.ofNat (k + 224)) =
      some (2, if k = 0 then 0xA0 else 0x80, if k = 13 then 0x9F else 0xBF) := by
  have all : ∀ k : Fin 16, leadShape (UInt8.ofNat (k.val + 224)) =
      some (2, if k.val = 0 then 0xA0 else 0x80, if k.val = 13 then 0x9F else 0xBF) := by decide
  exact all ⟨k, most⟩

theorem leadShape_four {k : Nat} (most : k < 5) :
    leadShape (UInt8.ofNat (k + 240)) =
      some (3, if k = 0 then 0x90 else 0x80, if k = 4 then 0x8F else 0xBF) := by
  have all : ∀ k : Fin 5, leadShape (UInt8.ofNat (k.val + 240)) =
      some (3, if k.val = 0 then 0x90 else 0x80, if k.val = 4 then 0x8F else 0xBF) := by decide
  exact all ⟨k, most⟩

/-! ## Characters -/

theorem toNat_ofNat_of_lt {n : Nat} (h : n < 256) : (UInt8.ofNat n).toNat = n := by
  rw [UInt8.toNat_ofNat', Nat.mod_eq_of_lt h]

theorem isContinuation_ofNat (n : Nat) : isContinuation (UInt8.ofNat (n % 64 + 128)) = true := by
  have all : ∀ k : Fin 64, isContinuation (UInt8.ofNat (k.val + 128)) = true := by decide
  exact all ⟨n % 64, Nat.mod_lt n (by decide)⟩

/-- Numbers of characters leave out the surrogates. -/
theorem toNat_cases (c : Char) : c.toNat < 0xD800 ∨ 0xDFFF < c.toNat ∧ c.toNat < 0x110000 :=
  c.valid

theorem not_ofNat_lt {n : Nat} (h : n < 64) : ¬ UInt8.ofNat (n + 192) < 0x80 := by
  rw [UInt8.lt_iff_toNat_lt, toNat_ofNat_of_lt (by omega)]
  exact Nat.not_lt.2 (Nat.le_trans (by decide) (Nat.le_add_left 192 n))

theorem decodeFirst_two {v : Nat} (large : 0x80 ≤ v) (small : v < 0x800) (rest : List UInt8) :
    decodeFirst (UInt8.ofNat (v / 64 % 32 + 192)) ([UInt8.ofNat (v % 64 + 128)] ++ rest) =
      (Char.ofNat v, 1) := by
  have lead := toNat_ofNat_of_lt (n := v / 64 % 32 + 192) (by omega)
  have first := toNat_ofNat_of_lt (n := v % 64 + 128) (by omega)
  have high := not_ofNat_lt (n := v / 64 % 32) (by omega)
  have bounds : 0x80 ≤ UInt8.ofNat (v % 64 + 128) ∧ UInt8.ofNat (v % 64 + 128) ≤ 0xBF := by
    rw [UInt8.le_iff_toNat_le, UInt8.le_iff_toNat_le, first]
    have least : UInt8.toNat 0x80 = 128 := rfl
    have most : UInt8.toNat 0xBF = 191 := rfl
    omega
  rw [decodeFirst_of_leadShape [] high (leadShape_two (by omega) (by omega)) bounds nofun]
  simp only [codePoint, List.length_cons, List.length_nil, List.foldl_cons, List.foldl_nil, lead,
    first]
  congr 2
  omega

theorem decodeFirst_three {v : Nat} (large : 0x800 ≤ v) (small : v < 0x10000)
    (range : v < 0xD800 ∨ 0xDFFF < v) (rest : List UInt8) :
    decodeFirst (UInt8.ofNat (v / 4096 % 16 + 224))
        ([UInt8.ofNat (v / 64 % 64 + 128), UInt8.ofNat (v % 64 + 128)] ++ rest) =
      (Char.ofNat v, 2) := by
  have lead := toNat_ofNat_of_lt (n := v / 4096 % 16 + 224) (by omega)
  have first := toNat_ofNat_of_lt (n := v / 64 % 64 + 128) (by omega)
  have second := toNat_ofNat_of_lt (n := v % 64 + 128) (by omega)
  have high := not_ofNat_lt (n := v / 4096 % 16 + 32) (by omega)
  have bounds :
      (if v / 4096 % 16 = 0 then 0xA0 else 0x80) ≤ UInt8.ofNat (v / 64 % 64 + 128) ∧
      UInt8.ofNat (v / 64 % 64 + 128) ≤ (if v / 4096 % 16 = 13 then 0x9F else 0xBF) := by
    rw [UInt8.le_iff_toNat_le, UInt8.le_iff_toNat_le, first]
    constructor <;> split <;> simp <;> omega
  rw [decodeFirst_of_leadShape [_] high (leadShape_three (by omega)) bounds
    (List.forall_mem_singleton.2 (isContinuation_ofNat v))]
  simp only [codePoint, List.length_cons, List.length_nil, List.foldl_cons, List.foldl_nil, lead,
    first, second]
  congr 2
  omega

theorem decodeFirst_four {v : Nat} (large : 0x10000 ≤ v) (small : v < 0x110000)
    (rest : List UInt8) :
    decodeFirst (UInt8.ofNat (v / 262144 % 8 + 240))
        ([UInt8.ofNat (v / 4096 % 64 + 128), UInt8.ofNat (v / 64 % 64 + 128),
          UInt8.ofNat (v % 64 + 128)] ++ rest) =
      (Char.ofNat v, 3) := by
  have lead := toNat_ofNat_of_lt (n := v / 262144 % 8 + 240) (by omega)
  have first := toNat_ofNat_of_lt (n := v / 4096 % 64 + 128) (by omega)
  have second := toNat_ofNat_of_lt (n := v / 64 % 64 + 128) (by omega)
  have third := toNat_ofNat_of_lt (n := v % 64 + 128) (by omega)
  have high := not_ofNat_lt (n := v / 262144 % 8 + 48) (by omega)
  have bounds :
      (if v / 262144 % 8 = 0 then 0x90 else 0x80) ≤ UInt8.ofNat (v / 4096 % 64 + 128) ∧
      UInt8.ofNat (v / 4096 % 64 + 128) ≤ (if v / 262144 % 8 = 4 then 0x8F else 0xBF) := by
    rw [UInt8.le_iff_toNat_le, UInt8.le_iff_toNat_le, first]
    constructor <;> split <;> simp <;> omega
  rw [decodeFirst_of_leadShape [_, _] high (leadShape_four (by omega)) bounds
    (List.forall_mem_cons.2 ⟨isContinuation_ofNat (v / 64),
      List.forall_mem_singleton.2 (isContinuation_ofNat v)⟩)]
  simp only [codePoint, List.length_cons, List.length_nil, List.foldl_cons, List.foldl_nil, lead,
    first, second, third]
  congr 2
  omega

/-- The first of the bytes tells which character they are and how many. -/
theorem decodeFirst_utf8EncodeChar (c : Char) (rest : List UInt8) :
    ∃ lead tail, String.utf8EncodeChar c = lead :: tail ∧
      decodeFirst lead (tail ++ rest) = (c, tail.length) := by
  have number : Char.ofNat c.toNat = c := Char.ofNat_toNat c
  have range := toNat_cases c
  have same : c.val.toNat = c.toNat := rfl
  unfold String.utf8EncodeChar
  rw [same]
  dsimp only
  split
  · next small =>
    have byte := toNat_ofNat_of_lt (n := c.toNat) (by omega)
    have low : UInt8.ofNat c.toNat < 0x80 := by
      rw [UInt8.lt_iff_toNat_lt, byte]
      exact Nat.lt_succ_of_le small
    refine ⟨_, [], rfl, ?_⟩
    rw [decodeFirst, if_pos low, byte, number]
    rfl
  · split
    · exact ⟨_, _, rfl, by rw [decodeFirst_two (by omega) (by omega), number]; rfl⟩
    · split
      · exact ⟨_, _, rfl, by rw [decodeFirst_three (by omega) (by omega) (by omega), number]; rfl⟩
      · exact ⟨_, _, rfl, by rw [decodeFirst_four (by omega) (by omega), number]; rfl⟩

theorem decodeLossy_append (c : Char) (rest : List UInt8) :
    decodeLossy (String.utf8EncodeChar c ++ rest) = c :: decodeLossy rest := by
  obtain ⟨lead, tail, bytes, first⟩ := decodeFirst_utf8EncodeChar c rest
  rw [bytes, List.cons_append, decodeLossy, first, List.drop_left]

/-- A text is read back from its bytes. -/
theorem decodeLossy_utf8Bytes (cs : List Char) : decodeLossy (utf8Bytes cs) = cs := by
  induction cs with
  | nil => rw [utf8Bytes, List.flatMap_nil, decodeLossy]
  | cons c cs ih => rw [utf8Bytes, List.flatMap_cons, decodeLossy_append, ← utf8Bytes, ih]

end PolyglotLsp.Text
