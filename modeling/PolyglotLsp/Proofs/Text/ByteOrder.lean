import PolyglotLsp.Proofs.Text.Utf8

/-!
# Texts in the order of their bytes

UTF-8 keeps the order of characters: the first bytes in which two characters differ are in the order
of the characters (`utf8EncodeChar_append_lt`), so that texts in the order of their characters have
their bytes in order too (`utf8Bytes_lt_utf8Bytes`).
-/

namespace PolyglotLsp.Text

theorem ofNat_lt_ofNat_iff {m n : Nat} (hm : m < 256) (hn : n < 256) :
    UInt8.ofNat m < UInt8.ofNat n ↔ m < n := by
  rw [UInt8.lt_iff_toNat_lt, toNat_ofNat_of_lt hm, toNat_ofNat_of_lt hn]

theorem ofNat_eq_ofNat_iff {m n : Nat} (hm : m < 256) (hn : n < 256) :
    UInt8.ofNat m = UInt8.ofNat n ↔ m = n := by
  rw [← UInt8.toNat_inj, toNat_ofNat_of_lt hm, toNat_ofNat_of_lt hn]

/-- The bytes of a character, by their number. -/
theorem utf8EncodeChar_cases (c : Char) :
    c.toNat < 0x80 ∧ String.utf8EncodeChar c = [UInt8.ofNat c.toNat] ∨
    (0x80 ≤ c.toNat ∧ c.toNat < 0x800) ∧ String.utf8EncodeChar c =
      [UInt8.ofNat (c.toNat / 64 % 32 + 192), UInt8.ofNat (c.toNat % 64 + 128)] ∨
    (0x800 ≤ c.toNat ∧ c.toNat < 0x10000) ∧ String.utf8EncodeChar c =
      [UInt8.ofNat (c.toNat / 4096 % 16 + 224), UInt8.ofNat (c.toNat / 64 % 64 + 128),
        UInt8.ofNat (c.toNat % 64 + 128)] ∨
    (0x10000 ≤ c.toNat ∧ c.toNat < 0x110000) ∧ String.utf8EncodeChar c =
      [UInt8.ofNat (c.toNat / 262144 % 8 + 240), UInt8.ofNat (c.toNat / 4096 % 64 + 128),
        UInt8.ofNat (c.toNat / 64 % 64 + 128), UInt8.ofNat (c.toNat % 64 + 128)] := by
  have range := toNat_cases c
  have same : c.val.toNat = c.toNat := rfl
  unfold String.utf8EncodeChar
  rw [same]
  dsimp only
  split
  · exact .inl ⟨by omega, rfl⟩
  · split
    · exact .inr (.inl ⟨by omega, rfl⟩)
    · split
      · exact .inr (.inr (.inl ⟨by omega, rfl⟩))
      · exact .inr (.inr (.inr ⟨by omega, rfl⟩))

/-- Numbers compare to the base 64 by their leading digits first. -/
theorem digits_lt {m n : Nat} (h : m < n) : m / 64 < n / 64 ∨ m / 64 = n / 64 ∧ m % 64 < n % 64 := by
  omega

/-- A smaller character has smaller bytes, whatever follows. -/
theorem utf8EncodeChar_append_lt {c d : Char} (h : c < d) (r s : List UInt8) :
    String.utf8EncodeChar c ++ r < String.utf8EncodeChar d ++ s := by
  have less : c.toNat < d.toNat := h
  have div₂ : ∀ n : Nat, n / 4096 = n / 64 / 64 := by omega
  have div₃ : ∀ n : Nat, n / 262144 = n / 64 / 64 / 64 := by omega
  rcases utf8EncodeChar_cases c with ⟨hc, bytes⟩ | ⟨hc, bytes⟩ | ⟨hc, bytes⟩ | ⟨hc, bytes⟩ <;>
    rcases utf8EncodeChar_cases d with ⟨hd, bytes'⟩ | ⟨hd, bytes'⟩ | ⟨hd, bytes'⟩ | ⟨hd, bytes'⟩ <;>
    -- the smaller character has no more bytes than the other
    first
    | omega
    | rw [bytes, bytes']
      clear h bytes bytes'
      simp only [List.cons_append, List.nil_append, List.cons_lt_cons_iff]
      simp (disch := omega) only [ofNat_lt_ofNat_iff, ofNat_eq_ofNat_iff, div₂, div₃]
      rcases digits_lt less with high | ⟨same, low⟩
      · rcases digits_lt high with high | ⟨same, low⟩
        · rcases digits_lt high with high | ⟨same, low⟩ <;> omega
        · omega
      · omega

/-- Texts in the order of their characters have their bytes in that order. -/
theorem utf8Bytes_lt_utf8Bytes {as bs : List Char} (h : as < bs) : utf8Bytes as < utf8Bytes bs := by
  induction as generalizing bs with
  | nil =>
    cases bs with
    | nil => exact absurd h (List.not_lt_nil _)
    | cons b bs =>
      obtain ⟨lead, tail, bytes, -⟩ := decodeFirst_utf8EncodeChar b []
      rw [utf8Bytes, utf8Bytes, List.flatMap_nil, List.flatMap_cons, bytes]
      exact List.nil_lt_cons ..
  | cons a as ih =>
    cases bs with
    | nil => exact absurd h (List.not_lt_nil _)
    | cons b bs =>
      rw [utf8Bytes, utf8Bytes, List.flatMap_cons, List.flatMap_cons]
      rcases List.cons_lt_cons_iff.1 h with less | ⟨rfl, later⟩
      · exact utf8EncodeChar_append_lt less _ _
      · exact List.append_left_lt (ih later)

end PolyglotLsp.Text
