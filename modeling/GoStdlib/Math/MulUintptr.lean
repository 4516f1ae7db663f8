import Mathlib.Data.Nat.Bitwise

/-!
`runtime/internal/math.MulUintptr`: a `uintptr` product and whether it
overflowed. A `uintptr` has `8 * sys.PtrSize` bits; `sys.PtrSize` is not part of
the package, so it is a parameter. Values are naturals below `2 ^ (8 * ptrSize)`
and the product wraps explicitly.
-/

namespace GoStdlib.RuntimeMath

def maxUintptr (ptrSize : Nat) : Nat := 2 ^ (8 * ptrSize) - 1

/-- `MulUintptr(a, b)`: the fast path when both operands are below
`1<<(4*sys.PtrSize)` or `a == 0`, otherwise the test `b > MaxUintptr/a`. -/
def MulUintptr (ptrSize a b : Nat) : Nat × Bool :=
  if a ||| b < 2 ^ (4 * ptrSize) ∨ a = 0 then (a * b % 2 ^ (8 * ptrSize), false)
  else (a * b % 2 ^ (8 * ptrSize), decide (b > maxUintptr ptrSize / a))

theorem lt_of_or_lt {a b k : Nat} (h : a ||| b < 2 ^ k) : a < 2 ^ k ∧ b < 2 ^ k := by
  have hbit : ∀ i ≥ k, a.testBit i = false ∧ b.testBit i = false := fun i hi => by
    have := Nat.testBit_lt_two_pow (Nat.lt_of_lt_of_le h (Nat.pow_le_pow_right (by decide) hi))
    simpa only [Nat.testBit_or, Bool.or_eq_false_iff] using this
  exact ⟨Nat.lt_pow_two_of_testBit a fun i hi => (hbit i hi).1,
    Nat.lt_pow_two_of_testBit b fun i hi => (hbit i hi).2⟩

theorem mul_lt_of_fast {ptrSize a b : Nat} (h : a ||| b < 2 ^ (4 * ptrSize) ∨ a = 0) :
    a * b < 2 ^ (8 * ptrSize) := by
  rcases h with h | rfl
  · obtain ⟨ha, hb⟩ := lt_of_or_lt h
    calc a * b < 2 ^ (4 * ptrSize) * 2 ^ (4 * ptrSize) := Nat.mul_lt_mul'' ha hb
      _ = 2 ^ (8 * ptrSize) := by rw [← Nat.pow_add]; congr 1; omega
  · rw [Nat.zero_mul]
    exact Nat.two_pow_pos _

/-- The slow path's test: `b > MaxUintptr/a` exactly when `a * b > MaxUintptr`. -/
theorem div_lt_iff_overflow {ptrSize a b : Nat} (ha : a ≠ 0) :
    maxUintptr ptrSize / a < b ↔ maxUintptr ptrSize < a * b := by
  rw [Nat.div_lt_iff_lt_mul (Nat.pos_of_ne_zero ha), Nat.mul_comm]

/-- `MulUintptr` returns the wrapped product and whether the exact product
reaches `2 ^ (8 * ptrSize)`; the fast path reports no overflow only for
products that fit, and the slow path's test is the overflow test. -/
theorem mulUintptr_spec (ptrSize a b : Nat) :
    MulUintptr ptrSize a b = (a * b % 2 ^ (8 * ptrSize), decide (2 ^ (8 * ptrSize) ≤ a * b)) ∧
    (a ||| b < 2 ^ (4 * ptrSize) ∨ a = 0 → a * b < 2 ^ (8 * ptrSize)) ∧
    (a ≠ 0 → (maxUintptr ptrSize / a < b ↔ maxUintptr ptrSize < a * b)) := by
  refine ⟨?_, mul_lt_of_fast, div_lt_iff_overflow⟩
  have hpos := Nat.two_pow_pos (8 * ptrSize)
  unfold MulUintptr
  split
  · rename_i hfast
    have := mul_lt_of_fast hfast
    simp only [Prod.mk.injEq, true_and]
    exact (decide_eq_false (by omega)).symm
  · rename_i hslow
    have ha : a ≠ 0 := fun h => hslow (.inr h)
    simp only [Prod.mk.injEq, true_and, gt_iff_lt, div_lt_iff_overflow ha]
    exact decide_eq_decide.mpr (by unfold maxUintptr; omega)

theorem mulUintptr_two_pow_32 :
    MulUintptr 8 (2 ^ 32) (2 ^ 32) = (0, true) ∧
      (maxUintptr 8 / 2 ^ 32 < 2 ^ 32 ↔ maxUintptr 8 < 2 ^ 32 * 2 ^ 32) :=
  ⟨(mulUintptr_spec 8 _ _).1.trans (by decide), (mulUintptr_spec 8 _ _).2.2 (by decide)⟩

end GoStdlib.RuntimeMath
