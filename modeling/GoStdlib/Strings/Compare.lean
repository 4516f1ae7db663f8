import Mathlib.Data.List.Lex

/-!
`strings.Compare`, over Go's `==` and `<` on strings. The language defines `<`
on strings as byte-wise lexical order; the runtime's `cmpstring` that computes
it is not in the sources, so the order is `List.Lex` on the bytes.
-/

namespace GoStdlib.Strings

instance uint8IsStrictTotalOrder : IsStrictTotalOrder UInt8 (· < ·) where
  trichotomous a b := by
    rcases Nat.lt_trichotomy a.toNat b.toNat with h | h | h
    · exact .inl h
    · exact .inr (.inl (UInt8.toNat.inj h))
    · exact .inr (.inr h)
  irrefl := UInt8.lt_irrefl
  trans _ _ _ := UInt8.lt_trans

end GoStdlib.Strings
