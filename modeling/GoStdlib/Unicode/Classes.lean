import Mathlib.Data.Int.Defs
import Mathlib.Data.Nat.Bitwise

/-!
The character classes of package `unicode`. Below `MaxLatin1` each classifier
reads one bit of the `properties` table, one byte per Latin-1 code point; above
it, the range tables of its category. The tables are generated from the Unicode
database and are not part of the sources: a classifier is modelled over any
`properties` table and any range tables. What the sources fix is which bit and
which tables each classifier reads, and how a rune is converted first:
`uint32(r)` in all of them but `IsDigit`, which compares `r` itself, so a
negative rune is a Latin-1 rune to `IsDigit` and to no other classifier.
-/

namespace GoStdlib.Unicode

/-- The range tables the classifiers read, by their names in package `unicode`. -/
inductive RangeTable
  | L | M | N | P | S | Zs
  | Letter | Mark | Number | Punct | Symbol | White_Space | Digit
  deriving DecidableEq, Repr

/-- The generated tables: `properties`, one byte per Latin-1 code point, and
the two lookups into a range table, `Is` and `isExcludingLatin`. -/
structure Tables where
  properties : UInt8 → UInt8
  Is : RangeTable → Int → Bool
  isExcludingLatin : RangeTable → Int → Bool

/-- `'ÿ'`, the last Latin-1 code point. -/
def MaxLatin1 : Int := 255

def pC : UInt8 := 1
def pP : UInt8 := 2
def pN : UInt8 := 4
def pS : UInt8 := 8
def pZ : UInt8 := 16
def pLu : UInt8 := 32
def pLl : UInt8 := 64
def pp : UInt8 := 128
def pg : UInt8 := pp ||| pZ
def pLo : UInt8 := pLl ||| pLu
def pLmask : UInt8 := pLo

/-- `GraphicRanges`: the categories `L, M, N, P, S, Zs`. -/
def GraphicRanges : List RangeTable := [.L, .M, .N, .P, .S, .Zs]

/-- `PrintRanges`: the categories `L, M, N, P, S`; ASCII space is handled apart. -/
def PrintRanges : List RangeTable := [.L, .M, .N, .P, .S]

def uint32 (r : Int) : Int := r % 4294967296

def uint8 (r : Int) : UInt8 := UInt8.ofNat (r % 256).toNat

variable (T : Tables)

/-- `IsOneOf(ranges, r)`: the loop over `ranges` that returns at the first hit. -/
def IsOneOf : List RangeTable → Int → Bool
  | [], _ => false
  | inside :: ranges, r => if T.Is inside r then true else IsOneOf ranges r

/-- `In(r, ranges...)`, the same loop as `IsOneOf` with its arguments the other way. -/
def In (r : Int) (ranges : List RangeTable) : Bool :=
  IsOneOf T ranges r

/-- The shape of most classifiers: the bits `mask` of the rune's `properties`
byte below `MaxLatin1`, and `slow` above it. -/
def latin1Or (mask : UInt8) (slow : Int → Bool) (r : Int) : Bool :=
  if uint32 r ≤ MaxLatin1 then T.properties (uint8 r) &&& mask != 0 else slow r

def IsGraphic (r : Int) : Bool := latin1Or T pg (fun r => In T r GraphicRanges) r

def IsPrint (r : Int) : Bool := latin1Or T pp (fun r => In T r PrintRanges) r

/-- `IsControl(r)`: all control characters are in Latin-1. -/
def IsControl (r : Int) : Bool := latin1Or T pC (fun _ => false) r

def IsLetter (r : Int) : Bool := latin1Or T pLmask (T.isExcludingLatin .Letter) r

/-- `IsMark(r)`: there are no marks in Latin-1, so there is no fast path. -/
def IsMark (r : Int) : Bool := T.isExcludingLatin .Mark r

def IsNumber (r : Int) : Bool := latin1Or T pN (T.isExcludingLatin .Number) r

/-- `IsPunct(r)`: above Latin-1 it asks `Is`, not `isExcludingLatin`. -/
def IsPunct (r : Int) : Bool := latin1Or T pP (T.Is .Punct) r

/-- `IsSpace(r)`: the White_Space property, listed by hand in Latin-1. -/
def IsSpace (r : Int) : Bool :=
  if uint32 r ≤ MaxLatin1 then
    r = 0x09 || r = 0x0A || r = 0x0B || r = 0x0C || r = 0x0D || r = 0x20 || r = 0x85 || r = 0xA0
  else T.isExcludingLatin .White_Space r

def IsSymbol (r : Int) : Bool := latin1Or T pS (T.isExcludingLatin .Symbol) r

/-- `IsDigit(r)`: the test is `r <= MaxLatin1` on the rune itself, not on
`uint32(r)`. -/
def IsDigit (r : Int) : Bool :=
  if r ≤ MaxLatin1 then 0x30 ≤ r && r ≤ 0x39 else T.isExcludingLatin .Digit r

theorem IsOneOf_append (r : Int) :
    ∀ a b : List RangeTable, IsOneOf T (a ++ b) r = (IsOneOf T a r || IsOneOf T b r)
  | [], _ => by simp [IsOneOf]
  | inside :: a, b => by
      by_cases h : T.Is inside r = true <;> simp [IsOneOf, h, IsOneOf_append r a b]

theorem lor_eq_zero {a b : Nat} : a ||| b = 0 ↔ a = 0 ∧ b = 0 := by
  refine ⟨fun h => ?_, fun ⟨ha, hb⟩ => by rw [ha, hb]; rfl⟩
  have hb : ∀ i, a.testBit i = false ∧ b.testBit i = false := fun i => by
    simpa [Nat.testBit_or] using congrArg (Nat.testBit · i) h
  exact ⟨Nat.eq_of_testBit_eq fun i => by simp [(hb i).1],
    Nat.eq_of_testBit_eq fun i => by simp [(hb i).2]⟩

theorem ne_zero_iff_toNat (y : UInt8) : y ≠ 0 ↔ y.toNat ≠ 0 :=
  not_congr ⟨fun h => h ▸ rfl, fun h => UInt8.toNat.inj h⟩

theorem and_or_ne_zero (x a b : UInt8) :
    (x &&& (a ||| b) != 0) = ((x &&& a != 0) || (x &&& b != 0)) := by
  have h : (x &&& (a ||| b)).toNat = (x &&& a).toNat ||| (x &&& b).toNat := by
    simp only [UInt8.and_toNat, show (a ||| b).toNat = a.toNat ||| b.toNat from rfl,
      Nat.and_or_distrib_left]
  rw [Bool.eq_iff_iff]
  simp only [bne_iff_ne, Bool.or_eq_true, ne_zero_iff_toNat, h, ne_eq, lor_eq_zero]
  tauto

theorem latin1Or_or (a b : UInt8) (f g : Int → Bool) (r : Int) :
    latin1Or T (a ||| b) (fun r => f r || g r) r = (latin1Or T a f r || latin1Or T b g r) := by
  unfold latin1Or
  split_ifs
  · exact and_or_ne_zero _ a b
  · rfl

/-- What makes a rune graphic but not printable: `IsGraphic` is `IsPrint`, or
the space bit `pZ` of the rune's `properties` byte in Latin-1, or the `Zs`
table above it. This holds for every `properties` table and every range table,
since `pg` is `pp | pZ` and `GraphicRanges` is `PrintRanges` followed by `Zs`. -/
theorem isGraphic_eq_isPrint_or_space (r : Int) :
    IsGraphic T r = (IsPrint T r || latin1Or T pZ (T.Is .Zs) r) := by
  have hranges : ∀ r, In T r GraphicRanges = (In T r PrintRanges || T.Is .Zs r) := fun r => by
    simp only [In, GraphicRanges, PrintRanges,
      show [RangeTable.L, .M, .N, .P, .S, .Zs] = [.L, .M, .N, .P, .S] ++ [.Zs] from rfl,
      IsOneOf_append, IsOneOf]
    cases T.Is .Zs r <;> simp
  simp only [IsGraphic, IsPrint, pg, hranges, latin1Or_or]

end GoStdlib.Unicode
