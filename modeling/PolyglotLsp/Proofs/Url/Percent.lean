import PolyglotLsp.Proofs.Text.Utf8
import PolyglotLsp.Url.Percent

/-!
# Escapes are read back

An escape stands for the byte that it was written for (`decodeBytes_escapeByte`). A set that holds
the percent sign leaves none of them bare, so that every percent sign of an encoded text begins an
escape: encoding and decoding give back the text (`decode_encode`), and no two texts are encoded
alike (`encode_injective`).
-/

namespace PolyglotLsp.Url

variable {set : Char → Bool}

theorem hexValue?_upperHex {n : UInt8} (h : n.toNat < 16) : hexValue? (upperHex n) = some n := by
  have all : ∀ k : Fin 16, hexValue? (upperHex (UInt8.ofNat k.val)) = some (UInt8.ofNat k.val) := by
    decide
  simpa using all ⟨n.toNat, h⟩

theorem decodeBytes_escapeByte (b : UInt8) (rest : List Char) :
    decodeBytes (escapeByte b ++ rest) = b :: decodeBytes rest := by
  have byte := b.toNat_lt
  have sixteen : (16 : UInt8).toNat = 16 := rfl
  have high : (b / 16).toNat < 16 := by
    rw [UInt8.toNat_div, sixteen]
    omega
  have low : (b % 16).toNat < 16 := by
    rw [UInt8.toNat_mod, sixteen]
    omega
  have whole : b / 16 * 16 + b % 16 = b := by
    refine UInt8.toNat_inj.1 ?_
    simp only [UInt8.toNat_add, UInt8.toNat_mul, UInt8.toNat_div, UInt8.toNat_mod, sixteen]
    omega
  simp only [escapeByte, List.cons_append, List.nil_append, decodeBytes, hexValue?_upperHex high,
    hexValue?_upperHex low, whole]

theorem decodeBytes_escape (bytes : List UInt8) (rest : List Char) :
    decodeBytes (bytes.flatMap escapeByte ++ rest) = bytes ++ decodeBytes rest := by
  induction bytes with
  | nil => rfl
  | cons b bytes ih =>
    rw [List.flatMap_cons, List.append_assoc, decodeBytes_escapeByte, ih, List.cons_append]

/-- A character that begins no escape stands for itself. -/
theorem decodeBytes_cons {c : Char} (h : c ≠ '%') (rest : List Char) :
    decodeBytes (c :: rest) = String.utf8EncodeChar c ++ decodeBytes rest := by
  rw [decodeBytes]
  exact fun _ _ _ percent => absurd percent h

theorem decodeBytes_encodeChar (escapes : set '%' = true) (c : Char) (rest : List Char) :
    decodeBytes (encodeChar set c ++ rest) = String.utf8EncodeChar c ++ decodeBytes rest := by
  unfold encodeChar
  split
  · next kept =>
    refine decodeBytes_cons ?_ rest
    rintro rfl
    simp [escapes] at kept
  · exact decodeBytes_escape _ rest

theorem decodeBytes_encode (escapes : set '%' = true) (cs : List Char) :
    decodeBytes (encode set cs) = Text.utf8Bytes cs := by
  induction cs with
  | nil => rfl
  | cons c cs ih =>
    rw [encode, List.flatMap_cons, decodeBytes_encodeChar escapes, ← encode, ih, Text.utf8Bytes,
      Text.utf8Bytes, List.flatMap_cons]

/-- Decoding undoes encoding. -/
theorem decode_encode (escapes : set '%' = true) (cs : List Char) :
    decode (encode set cs) = cs := by
  rw [decode, decodeBytes_encode escapes, Text.decodeLossy_utf8Bytes]

theorem encode_injective (escapes : set '%' = true) {cs ds : List Char}
    (h : encode set cs = encode set ds) : cs = ds := by
  rw [← decode_encode escapes cs, h, decode_encode escapes]

end PolyglotLsp.Url
