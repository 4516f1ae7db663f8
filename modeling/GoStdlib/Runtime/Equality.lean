import GoStdlib.Runtime.Alg

/-!
Go's `==` on map keys, as the runtime computes it, is symmetric. Each of the
routines of `alg.go` compares its two operands the same way round: bytes and
lengths with `==`, floats by IEEE equality, interfaces by their type word and
then their data. So `x == y` and `y == x` give the same answer for every type,
nested to any depth, and when one of them panics the other panics with the
same text.
-/

namespace GoStdlib.Alg

theorem FloatFormat.eq_comm (fmt : FloatFormat) (a b : Nat) : fmt.eq a b = fmt.eq b a := by
  unfold FloatFormat.eq
  cases fmt.isNaN a <;> cases fmt.isNaN b <;> cases fmt.isZero a <;> cases fmt.isZero b <;>
    simp [Bool.beq_comm]

namespace Runtime

variable (rt : Runtime)

theorem memequal_comm (size p q : Nat) : rt.memequal size p q = rt.memequal size q p :=
  Bool.beq_comm

theorem floatEqual_comm (fmt : FloatFormat) (p q : Nat) :
    rt.floatEqual fmt p q = rt.floatEqual fmt q p :=
  fmt.eq_comm _ _

theorem complexEqual_comm (fmt : FloatFormat) (p q : Nat) :
    rt.complexEqual fmt p q = rt.complexEqual fmt q p := by
  simp only [complexEqual, floatEqual_comm]

theorem strequal_comm (p q : Nat) : rt.strequal p q = rt.strequal q p := by
  simp only [strequal, Bool.beq_comm]

section Interfaces

variable {typeAt : Nat → Option GoType} {equal : GoType → Nat → Nat → Except String Bool}
  (hequal : ∀ t x y, equal t x y = equal t y x)
include hequal

/-- `efaceeq` and `ifaceeq` are symmetric in the data words, panics included. -/
theorem dataEq_comm (tw x y : Nat) : dataEq typeAt equal tw x y = dataEq typeAt equal tw y x := by
  unfold dataEq
  split_ifs
  · rfl
  · cases typeAt tw with
    | none => rfl
    | some t =>
        dsimp only
        split_ifs
        · rfl
        · rw [Bool.beq_comm]
        · exact hequal t x y

theorem ifaceEqual_comm (p q : Nat) :
    rt.ifaceEqual typeAt equal p q = rt.ifaceEqual typeAt equal q p := by
  unfold ifaceEqual
  by_cases hw : rt.word p = rt.word q
  · rw [if_pos hw, if_pos hw.symm, hw, dataEq_comm hequal]
  · rw [if_neg hw, if_neg (Ne.symm hw)]

end Interfaces

end Runtime

/-- Go's `==` on values of every type is symmetric: for every type, nested to
any depth, and every stack depth, comparing `x` with `y` gives what comparing
`y` with `x` gives, the same `true` or `false` or a panic with the same text.
This holds for `memequal`, the float and complex equalities with their NaNs
and signed zeros, `strequal`, and the interface equalities. -/
theorem equal_comm (rt : Runtime) :
    ∀ fuel t p q, rt.equal fuel t p q = rt.equal fuel t q p
  | 0, _, _, _ => rfl
  | fuel + 1, t, p, q => by
      have ih : ∀ t p q, rt.equal fuel t p q = rt.equal fuel t q p := equal_comm rt fuel
      by_cases hreg : t.regularMemory = true
      · simp only [Runtime.equal, hreg, if_true, rt.memequal_comm]
      · simp only [Bool.not_eq_true] at hreg
        simp only [Runtime.equal, hreg, Bool.false_eq_true, if_false]
        cases t.kind with
        | float32 | float64 => simp only [Runtime.f32equal, Runtime.f64equal, rt.floatEqual_comm]
        | complex64 | complex128 =>
            simp only [Runtime.c64equal, Runtime.c128equal, rt.complexEqual_comm]
        | string => rw [rt.strequal_comm]
        | interface methods =>
            dsimp only
            split_ifs <;> exact rt.ifaceEqual_comm ih p q
        | array len elem =>
            dsimp only
            congr 1
            funext i
            exact ih _ _ _
        | struct fields =>
            dsimp only
            congr 1
            funext f
            exact ih _ _ _
        | other => rfl

end GoStdlib.Alg
