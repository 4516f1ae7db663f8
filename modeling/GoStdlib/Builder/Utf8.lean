import GoStdlib.Builder.Model

/-!
`unicode/utf8.EncodeRune`, which `WriteRune` calls past `RuneSelf`, is not part
of the package; the bytes it writes are modelled from its documentation.
-/

namespace GoStdlib.StringsBuilder

/-- Modelled from the spec: the bytes `utf8.EncodeRune(p, r)` writes, the
UTF-8 encoding of `r` when `r` is a valid code point, and that of U+FFFD
(`EF BF BD`) for a negative value, a surrogate or a value past U+10FFFF. -/
def encodeRune (r : Int) : List UInt8 :=
  if r < 0 ∨ 0x10FFFF < r ∨ (0xD800 ≤ r ∧ r ≤ 0xDFFF) then [0xEF, 0xBF, 0xBD]
  else if r < 0x80 then [UInt8.ofNat r.toNat]
  else if r < 0x800 then [UInt8.ofNat (0xC0 + r.toNat / 0x40), UInt8.ofNat (0x80 + r.toNat % 0x40)]
  else if r < 0x10000 then
    [UInt8.ofNat (0xE0 + r.toNat / 0x1000), UInt8.ofNat (0x80 + r.toNat / 0x40 % 0x40),
      UInt8.ofNat (0x80 + r.toNat % 0x40)]
  else
    [UInt8.ofNat (0xF0 + r.toNat / 0x40000), UInt8.ofNat (0x80 + r.toNat / 0x1000 % 0x40),
      UInt8.ofNat (0x80 + r.toNat / 0x40 % 0x40), UInt8.ofNat (0x80 + r.toNat % 0x40)]

theorem encodeRune_length_le (r : Int) : (encodeRune r).length ≤ 4 := by
  unfold encodeRune
  split_ifs <;> simp

theorem encodeRune_of_neg {r : Int} (h : r < 0) : encodeRune r = [0xEF, 0xBF, 0xBD] := by
  simp [encodeRune, h]

theorem encodeRune_of_lt_runeSelf {r : Int} (h0 : 0 ≤ r) (h : r < 0x80) :
    encodeRune r = [byteOf r] := by
  have hvalid : ¬(r < 0 ∨ 0x10FFFF < r ∨ (0xD800 ≤ r ∧ r ≤ 0xDFFF)) := by omega
  rw [encodeRune, if_neg hvalid, if_pos h, byteOf, Int.emod_eq_of_lt h0 (by omega)]

end GoStdlib.StringsBuilder
