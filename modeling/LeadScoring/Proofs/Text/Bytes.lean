import LeadScoring.Text
import Mathlib.Data.List.Lex
import Mathlib.Data.String.Basic

/-!
# UTF-8 bytes of texts

A text is stored as the bytes of its characters, one character after the other.  Small characters
are single bytes and all bytes of the others have their highest bit set, so a control character
stands in the bytes only where it stands in the text.  The bytes of two texts compare as the texts
do, which makes the order by code points an order by bytes.

Main results:

- Definition `Text.bytes`: the bytes of a text.
- Theorem `Text.ofNat_mem_bytesOf_iff`: small characters stand in the bytes as they do in the text.
- Theorem `Text.bytes_lt_bytes`: texts in order have their bytes in order.
-/

namespace LeadScoring.Text

/-- The UTF-8 bytes of a text. -/
def bytes (s : String) : List UInt8 :=
  s.toUTF8.data.toList

/-- The bytes of characters, one after the other. -/
def bytesOf (cs : List Char) : List UInt8 :=
  cs.flatMap String.utf8EncodeChar

theorem bytes_eq (s : String) : bytes s = bytesOf s.toList := by
  have hencode : s.toByteArray = (bytesOf s.toList).toByteArray := by
    rw [← String.utf8Encode_toList]
    rfl
  rw [bytes, String.toUTF8_eq_toByteArray, hencode, List.data_toByteArray]

theorem bytes_ofList (cs : List Char) : bytes (String.ofList cs) = bytesOf cs := by
  rw [bytes_eq, String.toList_ofList]

theorem bytesOf_append (cs ds : List Char) : bytesOf (cs ++ ds) = bytesOf cs ++ bytesOf ds :=
  List.flatMap_append

theorem bytes_append (s t : String) : bytes (s ++ t) = bytes s ++ bytes t := by
  rw [bytes_eq, bytes_eq, bytes_eq, String.toList_append, bytesOf_append]

/-! ## Single bytes -/

theorem toNat_ofNat {n : ℕ} (h : n < 0x100) : (UInt8.ofNat n).toNat = n :=
  UInt8.toNat_ofNat_of_lt' h

/-- The bytes of a character that is no single byte have their highest bit set. -/
theorem le_of_mem_utf8EncodeChar {c : Char} (h : 0x80 ≤ c.toNat) {b : UInt8}
    (hb : b ∈ String.utf8EncodeChar c) : 0x80 ≤ b.toNat := by
  have hhigh : ∀ n k : ℕ, 0x80 ≤ k → n < 0x100 - k → 0x80 ≤ (UInt8.ofNat (n + k)).toNat := by
    intro n k hk hn
    rw [toNat_ofNat (by omega)]
    omega
  change 0x80 ≤ c.val.toNat at h
  unfold String.utf8EncodeChar at hb
  dsimp only at hb
  rw [if_neg (by omega)] at hb
  split_ifs at hb
  all_goals
    simp only [List.mem_cons, List.not_mem_nil, or_false] at hb
    revert hb
    first
    | rintro (rfl | rfl)
    | rintro (rfl | rfl | rfl)
    | rintro (rfl | rfl | rfl | rfl)
    all_goals exact hhigh _ _ (by omega) (by omega)

/-- A small character is its own byte, which is no byte of another character. -/
theorem ofNat_mem_utf8EncodeChar_iff {c d : Char} (h : c.toNat < 0x80) :
    UInt8.ofNat c.toNat ∈ String.utf8EncodeChar d ↔ c = d := by
  have hc : (UInt8.ofNat c.toNat).toNat = c.toNat := toNat_ofNat (by omega)
  by_cases hd : 0x80 ≤ d.toNat
  · constructor
    · intro hmem
      have hhigh := le_of_mem_utf8EncodeChar hd hmem
      omega
    · rintro rfl
      omega
  · have hsingle : String.utf8EncodeChar d = [UInt8.ofNat d.toNat] := by
      unfold String.utf8EncodeChar
      exact if_pos (show d.toNat ≤ 0x7f by omega)
    have hd' : (UInt8.ofNat d.toNat).toNat = d.toNat := toNat_ofNat (by omega)
    rw [hsingle, List.mem_singleton, ← UInt8.toNat_inj, hc, hd', Char.toNat_inj]

/-- A small character stands in the bytes of a text exactly where it stands in the text. -/
theorem ofNat_mem_bytesOf_iff {cs : List Char} {c : Char} (h : c.toNat < 0x80) :
    UInt8.ofNat c.toNat ∈ bytesOf cs ↔ c ∈ cs := by
  rw [bytesOf, List.mem_flatMap]
  simp [ofNat_mem_utf8EncodeChar_iff h]

/-! ## Order -/

/-- The bytes of a smaller character come first, whatever follows the two characters. -/
theorem utf8EncodeChar_append_lt {c d : Char} (h : c < d) (xs ys : List UInt8) :
    String.utf8EncodeChar c ++ xs < String.utf8EncodeChar d ++ ys := by
  have hlt : c.val.toNat < d.val.toNat := h
  have hbound : d.val.toNat < 0x110000 := by
    have hvalid := d.valid
    simp only [UInt32.isValidChar, Nat.isValidChar] at hvalid
    omega
  -- numbers compare as their digits in base 64
  have hdigits : c.val.toNat / 262144 < d.val.toNat / 262144 ∨
      c.val.toNat / 262144 = d.val.toNat / 262144 ∧
        (c.val.toNat / 4096 % 64 < d.val.toNat / 4096 % 64 ∨
          c.val.toNat / 4096 % 64 = d.val.toNat / 4096 % 64 ∧
            (c.val.toNat / 64 % 64 < d.val.toNat / 64 % 64 ∨
              c.val.toNat / 64 % 64 = d.val.toNat / 64 % 64 ∧
                (c.val.toNat % 64 < d.val.toNat % 64 ∨
                  c.val.toNat % 64 = d.val.toNat % 64 ∧ xs < ys))) := by
    omega
  have hc : c.val.toNat / 262144 % 8 = c.val.toNat / 262144 := by omega
  have hd : d.val.toNat / 262144 % 8 = d.val.toNat / 262144 := by omega
  unfold String.utf8EncodeChar
  dsimp only
  split_ifs <;>
    simp (disch := omega) only [List.cons_append, List.nil_append, List.cons_lt_cons_iff,
      UInt8.lt_iff_toNat_lt, ← UInt8.toNat_inj, toNat_ofNat, hc, hd, Nat.add_lt_add_iff_right,
      Nat.add_right_cancel_iff] <;>
    first
    | exact hdigits
    | omega

/-- The order of characters is that of their bytes. -/
theorem bytesOf_lt_bytesOf {cs ds : List Char} (h : cs < ds) : bytesOf cs < bytesOf ds := by
  induction h with
  | @nil d ds =>
    have hnonempty : bytesOf (d :: ds) ≠ [] := by
      simp [bytesOf, String.utf8EncodeChar_ne_nil]
    obtain ⟨b, bs, hcons⟩ := List.exists_cons_of_ne_nil hnonempty
    rw [hcons]
    exact List.Lex.nil
  | cons _ ih => exact List.append_left_lt ih
  | rel h => exact utf8EncodeChar_append_lt h _ _

/-- Texts in order have their bytes in order. -/
theorem bytes_lt_bytes {s t : String} (h : s < t) : bytes s < bytes t := by
  rw [bytes_eq, bytes_eq]
  exact bytesOf_lt_bytesOf (String.lt_iff_toList_lt.1 h)

end LeadScoring.Text
