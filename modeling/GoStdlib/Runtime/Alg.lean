import Mathlib

/-!
The runtime's generic hash and equality of map keys (`alg.go`). Memory maps
addresses to bytes, and a type descriptor carries what `typehash` reads: its
`size`, `tflagRegularMemory`, `kindDirectIface`, whether `equal` is set, and
its kind with the element or fields. `memhash`, `memhash32`, `memhash64` and
`strhash` are assembly and `fastrand` is a generator, so all of them are
parameters; the calls of `fastrand` so far are the state of a hash. The
recursion of `typehash` runs on the goroutine's stack, whose depth is the fuel.
-/

namespace GoStdlib.Alg

/-- `sys.PtrSize` on a 64-bit target. -/
def ptrSize : Nat := 8

def c0 : UInt64 :=
  UInt64.ofNat ((8 - ptrSize) / 4 * 2860486313 + (ptrSize - 4) / 4 * 33054211828000289)

def c1 : UInt64 :=
  UInt64.ofNat ((8 - ptrSize) / 4 * 3267000013 + (ptrSize - 4) / 4 * 23344194077549503)

structure StructField (τ : Type) where
  blank : Bool
  offset : Nat
  typ : τ

/-- `t.kind & kindMask`, with the `len(mhdr)` of an `interfacetype`, the length
and element of an `arraytype` and the fields of a `structtype`. -/
inductive Kind (τ : Type) where
  | float32
  | float64
  | complex64
  | complex128
  | string
  | interface (methods : Nat)
  | array (len : Nat) (elem : τ)
  | struct (fields : List (StructField τ))
  | other

/-- `_type`: `t.string()`, `size`, `tflagRegularMemory`, `kindDirectIface`,
whether `equal` is set, and the kind. -/
inductive GoType where
  | mk (name : String) (size : Nat) (regularMemory directIface hasEqual : Bool)
      (kind : Kind GoType)

namespace GoType

def name : GoType → String
  | mk name .. => name

def size : GoType → Nat
  | mk _ size .. => size

def regularMemory : GoType → Bool
  | mk _ _ r .. => r

def directIface : GoType → Bool
  | mk _ _ _ d .. => d

def hasEqual : GoType → Bool
  | mk _ _ _ _ e _ => e

def kind : GoType → Kind GoType
  | mk _ _ _ _ _ k => k

end GoType

/-- A float format of IEEE 754 by its widths. -/
structure FloatFormat where
  bytes : Nat
  fracBits : Nat
  expBits : Nat

def binary32 : FloatFormat := ⟨4, 23, 8⟩

def binary64 : FloatFormat := ⟨8, 52, 11⟩

namespace FloatFormat

/-- `f == 0`: `+0` or `-0`. -/
def isZero (fmt : FloatFormat) (f : Nat) : Bool :=
  f % 2 ^ (fmt.fracBits + fmt.expBits) == 0

/-- `f != f`: every exponent bit set and a nonzero fraction. -/
def isNaN (fmt : FloatFormat) (f : Nat) : Bool :=
  f / 2 ^ fmt.fracBits % 2 ^ fmt.expBits == 2 ^ fmt.expBits - 1 && f % 2 ^ fmt.fracBits != 0

/-- IEEE `==` on the bits of two floats. -/
def eq (fmt : FloatFormat) (a b : Nat) : Bool :=
  !fmt.isNaN a && !fmt.isNaN b && (a == b || fmt.isZero a && fmt.isZero b)

end FloatFormat

def ofLE : List UInt8 → Nat
  | [] => 0
  | b :: bs => b.toNat + 256 * ofLE bs

/-- Memory, the types that type words and itab words point to, and the
routines in assembly. -/
structure Runtime where
  mem : Nat → UInt8
  typeOf : Nat → Option GoType
  itabType : Nat → Option GoType
  memhash : List UInt8 → UInt64 → Nat → UInt64
  memhash32 : List UInt8 → UInt64 → UInt64
  memhash64 : List UInt8 → UInt64 → UInt64
  strhash : List UInt8 → UInt64 → Nat → UInt64
  rand : Nat → UInt32

/-- A hash: it may panic, and it counts the calls of `fastrand`. -/
abbrev HashM := StateT Nat (Except String)

def stackOverflow : String := "stack overflow"

def nilDeref : String := "invalid memory address or nil pointer dereference"

namespace Runtime

variable (rt : Runtime)

def read (p n : Nat) : List UInt8 :=
  (List.range n).map fun i => rt.mem (p + i)

def word (p : Nat) : Nat :=
  ofLE (rt.read p ptrSize)

/-- `fastrand()`: the next outcome of the generator. -/
def fastrand : HashM UInt32 :=
  fun n => .ok (rt.rand n, n + 1)

/-- `f32hash` and `f64hash`. -/
def floatHash (fmt : FloatFormat) (p : Nat) (h : UInt64) : HashM UInt64 :=
  let f := ofLE (rt.read p fmt.bytes)
  if fmt.isZero f then pure (c1 * (c0 ^^^ h))
  else if fmt.isNaN f then do
    let r ← rt.fastrand
    pure (c1 * (c0 ^^^ h ^^^ r.toUInt64))
  else pure (rt.memhash (rt.read p fmt.bytes) h fmt.bytes)

def f32hash : Nat → UInt64 → HashM UInt64 := rt.floatHash binary32

def f64hash : Nat → UInt64 → HashM UInt64 := rt.floatHash binary64

/-- `c64hash` and `c128hash`: the real part, then the imaginary part. -/
def complexHash (fmt : FloatFormat) (p : Nat) (h : UInt64) : HashM UInt64 := do
  let h ← rt.floatHash fmt p h
  rt.floatHash fmt (p + fmt.bytes) h

def c64hash : Nat → UInt64 → HashM UInt64 := rt.complexHash binary32

def c128hash : Nat → UInt64 → HashM UInt64 := rt.complexHash binary64

/-- `strhash` of the string header at `p`. -/
def strhashAt (p : Nat) (h : UInt64) : UInt64 :=
  rt.strhash (rt.read (rt.word p) (rt.word (p + ptrSize))) h (rt.word (p + ptrSize))

/-- `interhash` and `nilinterhash`, which differ in how the type word leads to
the dynamic type: through `tab._type`, or directly. -/
def ifaceHash (typeAt : Nat → Option GoType) (typehash : GoType → Nat → UInt64 → HashM UInt64)
    (p : Nat) (h : UInt64) : HashM UInt64 :=
  if rt.word p = 0 then pure h
  else match typeAt (rt.word p) with
    | none => throw nilDeref
    | some t =>
        if !t.hasEqual then throw ("hash of unhashable type " ++ t.name)
        else if t.directIface then do
          let r ← typehash t (p + ptrSize) (h ^^^ c0)
          pure (c1 * r)
        else do
          let r ← typehash t (rt.word (p + ptrSize)) (h ^^^ c0)
          pure (c1 * r)

def interhash : (GoType → Nat → UInt64 → HashM UInt64) → Nat → UInt64 → HashM UInt64 :=
  rt.ifaceHash rt.itabType

def nilinterhash : (GoType → Nat → UInt64 → HashM UInt64) → Nat → UInt64 → HashM UInt64 :=
  rt.ifaceHash rt.typeOf

/-- The loop of `typehash` over the elements of an array, at the indices `is`. -/
def arrayHash (typehash : GoType → Nat → UInt64 → HashM UInt64) (elem : GoType) (p : Nat) :
    List Nat → UInt64 → HashM UInt64
  | [], h => pure h
  | i :: is, h => do
    let h ← typehash elem (p + i * elem.size) h
    arrayHash typehash elem p is h

def flush (p : Nat) (h : UInt64) (memStart memEnd : Nat) : UInt64 :=
  rt.memhash (rt.read (p + memStart) (memEnd - memStart)) h (memEnd - memStart)

/-- The loop of `typehash` over the fields of a struct: runs of regular memory
from `memStart` to `memEnd` are hashed as one. -/
def structHash (typehash : GoType → Nat → UInt64 → HashM UInt64) (p : Nat) :
    List (StructField GoType) → UInt64 → Nat → Nat → HashM UInt64
  | [], h, memStart, memEnd =>
      pure (if memEnd > memStart then rt.flush p h memStart memEnd else h)
  | f :: fs, h, memStart, memEnd =>
      let pending := decide (memEnd > memStart) &&
        (f.blank || f.offset != memEnd || !f.typ.regularMemory)
      let h := if pending then rt.flush p h memStart memEnd else h
      let memStart := if pending then memEnd else memStart
      if f.blank then structHash typehash p fs h memStart memEnd
      else if !f.typ.regularMemory then do
        let h ← typehash f.typ (p + f.offset) h
        structHash typehash p fs h memStart memEnd
      else
        structHash typehash p fs h (if memStart = memEnd then f.offset else memStart)
          (f.offset + f.typ.size)

/-- `typehash(t, p, h)`, with `fuel` frames of stack left. -/
def typehash : Nat → GoType → Nat → UInt64 → HashM UInt64
  | 0, _, _, _ => throw stackOverflow
  | fuel + 1, t, p, h =>
      if t.regularMemory then
        pure (match t.size with
          | 4 => rt.memhash32 (rt.read p 4) h
          | 8 => rt.memhash64 (rt.read p 8) h
          | size => rt.memhash (rt.read p size) h size)
      else match t.kind with
        | .float32 => rt.f32hash p h
        | .float64 => rt.f64hash p h
        | .complex64 => rt.c64hash p h
        | .complex128 => rt.c128hash p h
        | .string => pure (rt.strhashAt p h)
        | .interface methods =>
            if methods = 0 then rt.nilinterhash (typehash fuel) p h
            else rt.interhash (typehash fuel) p h
        | .array len elem => Runtime.arrayHash (typehash fuel) elem p (List.range len) h
        | .struct fields => rt.structHash (typehash fuel) p fields h 0 0
        | .other => throw ("hash of unhashable type " ++ t.name)

/-- `memequal` of `size` bytes. -/
def memequal (size p q : Nat) : Bool :=
  rt.read p size == rt.read q size

/-- `f32equal` and `f64equal`. -/
def floatEqual (fmt : FloatFormat) (p q : Nat) : Bool :=
  fmt.eq (ofLE (rt.read p fmt.bytes)) (ofLE (rt.read q fmt.bytes))

def f32equal : Nat → Nat → Bool := rt.floatEqual binary32

def f64equal : Nat → Nat → Bool := rt.floatEqual binary64

/-- `c64equal` and `c128equal`: both parts equal. -/
def complexEqual (fmt : FloatFormat) (p q : Nat) : Bool :=
  rt.floatEqual fmt p q && rt.floatEqual fmt (p + fmt.bytes) (q + fmt.bytes)

def c64equal : Nat → Nat → Bool := rt.complexEqual binary32

def c128equal : Nat → Nat → Bool := rt.complexEqual binary64

/-- `strequal`: equal lengths and equal bytes. -/
def strequal (p q : Nat) : Bool :=
  rt.word (p + ptrSize) == rt.word (q + ptrSize) &&
    rt.read (rt.word p) (rt.word (p + ptrSize)) == rt.read (rt.word q) (rt.word (q + ptrSize))

/-- `efaceeq` and `ifaceeq` of the data words `x` and `y` under the type word
`tw`, which lead to the dynamic type directly or through `tab._type`. -/
def dataEq (typeAt : Nat → Option GoType) (equal : GoType → Nat → Nat → Except String Bool)
    (tw x y : Nat) : Except String Bool :=
  if tw = 0 then pure true
  else match typeAt tw with
    | none => throw nilDeref
    | some t =>
        if !t.hasEqual then throw ("comparing uncomparable type " ++ t.name)
        else if t.directIface then pure (x == y)
        else equal t x y

def efaceeq : (GoType → Nat → Nat → Except String Bool) → Nat → Nat → Nat → Except String Bool :=
  dataEq rt.typeOf

def ifaceeq : (GoType → Nat → Nat → Except String Bool) → Nat → Nat → Nat → Except String Bool :=
  dataEq rt.itabType

/-- `interequal` and `nilinterequal`: the same type word, and equal data. -/
def ifaceEqual (typeAt : Nat → Option GoType) (equal : GoType → Nat → Nat → Except String Bool)
    (p q : Nat) : Except String Bool :=
  if rt.word p = rt.word q then
    dataEq typeAt equal (rt.word p) (rt.word (p + ptrSize)) (rt.word (q + ptrSize))
  else pure false

def interequal : (GoType → Nat → Nat → Except String Bool) → Nat → Nat → Except String Bool :=
  rt.ifaceEqual rt.itabType

def nilinterequal : (GoType → Nat → Nat → Except String Bool) → Nat → Nat → Except String Bool :=
  rt.ifaceEqual rt.typeOf

/-- Modelled from the spec: `t.equal`, Go's `==` on values of type `t`. The
compiler generates it, and src/ holds only the routines it calls: `memequal`
for regular memory, the float, string and interface equalities, and for arrays
and structs the equality of every element and of every field whose name is not
blank, padding ignored. -/
def equal : Nat → GoType → Nat → Nat → Except String Bool
  | 0, _, _, _ => throw stackOverflow
  | fuel + 1, t, p, q =>
      if t.regularMemory then pure (rt.memequal t.size p q)
      else match t.kind with
        | .float32 => pure (rt.f32equal p q)
        | .float64 => pure (rt.f64equal p q)
        | .complex64 => pure (rt.c64equal p q)
        | .complex128 => pure (rt.c128equal p q)
        | .string => pure (rt.strequal p q)
        | .interface methods =>
            if methods = 0 then rt.nilinterequal (equal fuel) p q
            else rt.interequal (equal fuel) p q
        | .array len elem =>
            (List.range len).allM fun i => equal fuel elem (p + i * elem.size) (q + i * elem.size)
        | .struct fields =>
            (fields.filter fun f => !f.blank).allM fun f =>
              equal fuel f.typ (p + f.offset) (q + f.offset)
        | .other => throw ("comparing uncomparable type " ++ t.name)

end Runtime

end GoStdlib.Alg
