import Mathlib.Logic.Function.Basic

/-!
`strings.Builder` over an explicit heap of byte arrays. A `[]byte` is its
array (`none` for a nil slice), `len` and `cap`, from index 0 of the array as
every slice of a `Builder` is; an array's bytes are a list as long as its
capacity. What the package takes from `unicode/utf8` and from the runtime's
`append` is a parameter that carries the guarantees the package relies on.
A method that panics returns the panic's text.
-/

namespace GoStdlib.StringsBuilder

/-- What `strings.Builder` uses from elsewhere: `utf8.UTFMax`, `utf8.RuneSelf`,
the bytes `utf8.EncodeRune` writes (it returns their count), never more than
`UTFMax`, and the capacity `growslice` gives `append` from the old capacity and
the length needed, at least that length. -/
structure Env where
  utfMax : Nat
  runeSelf : Int
  encodeRune : Int → List UInt8
  growCap : Nat → Nat → Nat
  encodeRune_length_le : ∀ r, (encodeRune r).length ≤ utfMax
  le_growCap : ∀ c m, c < m → m ≤ growCap c m

/-- A `[]byte` from index 0 of array `arr` (`none`: a nil slice). -/
structure Slice where
  arr : Option Nat
  len : Nat
  cap : Nat

/-- A `string` header: `len` bytes from index 0 of array `arr`. -/
structure Header where
  arr : Option Nat
  len : Nat

/-- The heap's byte arrays, of which `0, ..., next - 1` are allocated, and one
`Builder`: its `addr` (`none` for nil) and `buf`. -/
structure State where
  mem : Nat → List UInt8
  next : Nat
  addr : Option Nat
  buf : Slice

abbrev Panic := String

def sliceBoundsOutOfRange : Panic := "runtime error: slice bounds out of range"

def indexOutOfRange : Panic := "runtime error: index out of range"

def Slice.nil : Slice := ⟨none, 0, 0⟩

def setBytes (xs : List UInt8) (i : Nat) (src : List UInt8) : List UInt8 :=
  xs.take i ++ src ++ xs.drop (i + src.length)

/-- `byte(r)`: the low eight bits of a rune. -/
def byteOf (r : Int) : UInt8 := UInt8.ofNat (r % 256).toNat

namespace State

def init (mem : Nat → List UInt8) (next : Nat) : State := ⟨mem, next, none, Slice.nil⟩

def view (s : State) (h : Header) : List UInt8 :=
  match h.arr with
  | some a => (s.mem a).take h.len
  | none => []

/-- `make([]byte, len, n)`: a fresh zeroed array of `n` bytes. -/
def make (s : State) (len n : Nat) : State × Slice :=
  ({ s with mem := Function.update s.mem s.next (List.replicate n 0), next := s.next + 1 },
    ⟨some s.next, len, n⟩)

def copyTo (s : State) (dst : Slice) (i : Nat) (src : List UInt8) : State :=
  match dst.arr with
  | some a => { s with mem := Function.update s.mem a (setBytes (s.mem a) i src) }
  | none => s

@[simp] theorem copyTo_next (s : State) (dst : Slice) (i : Nat) (src : List UInt8) :
    (s.copyTo dst i src).next = s.next := by
  unfold copyTo; split <;> rfl

@[simp] theorem copyTo_addr (s : State) (dst : Slice) (i : Nat) (src : List UInt8) :
    (s.copyTo dst i src).addr = s.addr := by
  unfold copyTo; split <;> rfl

@[simp] theorem copyTo_buf (s : State) (dst : Slice) (i : Nat) (src : List UInt8) :
    (s.copyTo dst i src).buf = s.buf := by
  unfold copyTo; split <;> rfl

theorem copyTo_mem_of_ne {s : State} {dst : Slice} {a : Nat} (i : Nat) (src : List UInt8)
    (h : dst.arr ≠ some a) : (s.copyTo dst i src).mem a = s.mem a := by
  unfold copyTo
  split
  · exact Function.update_noteq (by rintro rfl; simp_all) _ _
  · rfl

theorem copyTo_mem_self {s : State} {dst : Slice} {a : Nat} (i : Nat) (src : List UInt8)
    (h : dst.arr = some a) : (s.copyTo dst i src).mem a = setBytes (s.mem a) i src := by
  simp only [copyTo, h, Function.update_same]

/-- `b.copyCheck()` on the `Builder` at address `recv`. -/
def copyCheck (s : State) (recv : Nat) : Except Panic State :=
  match s.addr with
  | none => pure { s with addr := some recv }
  | some a =>
      if a ≠ recv then throw "strings: illegal use of non-zero Builder copied by value" else pure s

def Len (s : State) : Nat := s.buf.len

def Cap (s : State) : Nat := s.buf.cap

def Reset (s : State) : State := { s with addr := none, buf := Slice.nil }

/-- `b.String()`: `b.buf`'s array and length read as a string header. -/
def String (s : State) : Header := ⟨s.buf.arr, s.buf.len⟩

def realloc (s : State) (c : Nat) : State :=
  let t := s.make s.buf.len c
  { t.1.copyTo t.2 0 (s.view s.String) with buf := t.2 }

@[simp] theorem realloc_buf (s : State) (c : Nat) :
    (s.realloc c).buf = ⟨some s.next, s.buf.len, c⟩ := rfl

@[simp] theorem realloc_next (s : State) (c : Nat) : (s.realloc c).next = s.next + 1 := rfl

@[simp] theorem realloc_addr (s : State) (c : Nat) : (s.realloc c).addr = s.addr := rfl

theorem realloc_mem (s : State) (c : Nat) :
    (s.realloc c).mem =
      Function.update s.mem s.next (setBytes (List.replicate c 0) 0 (s.view s.String)) := by
  simp only [realloc, make, copyTo, Function.update_same, Function.update_idem]

def grow (s : State) (n : Nat) : State := s.realloc (2 * s.buf.cap + n)

/-- `p` copied from index `len(b.buf)` of `b.buf`'s array, and `b.buf` resliced
over it. -/
def extend (s : State) (p : List UInt8) : State :=
  { s.copyTo s.buf s.buf.len p with buf := { s.buf with len := s.buf.len + p.length } }

@[simp] theorem extend_buf (s : State) (p : List UInt8) :
    (s.extend p).buf = { s.buf with len := s.buf.len + p.length } := rfl

@[simp] theorem extend_next (s : State) (p : List UInt8) : (s.extend p).next = s.next :=
  copyTo_next ..

@[simp] theorem extend_addr (s : State) (p : List UInt8) : (s.extend p).addr = s.addr :=
  copyTo_addr ..

theorem extend_of_len {s : State} {l : Nat} (h : s.buf.len = l) (p : List UInt8) :
    { s.copyTo s.buf l p with buf := { s.buf with len := l + p.length } } = s.extend p := by
  subst h; rfl

/-- `b.buf = append(b.buf, p...)`: in place when `p` fits in the capacity,
otherwise after `growslice` has copied `b.buf` into a new array. -/
def appendBuf (s : State) (env : Env) (p : List UInt8) : State :=
  if s.buf.len + p.length ≤ s.buf.cap then s.extend p
  else (s.realloc (env.growCap s.buf.cap (s.buf.len + p.length))).extend p

def Grow (s : State) (recv : Nat) (n : Int) : Except Panic State := do
  let s ← s.copyCheck recv
  if n < 0 then throw "strings.Builder.Grow: negative count"
  else if (s.buf.cap : Int) - s.buf.len < n then pure (s.grow n.toNat)
  else pure s

/-- `b.Write(p)`: the count it returns (its error is always nil). -/
def Write (s : State) (env : Env) (recv : Nat) (p : List UInt8) : Except Panic (State × Nat) := do
  let s ← s.copyCheck recv
  pure (s.appendBuf env p, p.length)

/-- `b.WriteByte(c)` (its error is always nil). -/
def WriteByte (s : State) (env : Env) (recv : Nat) (c : UInt8) : Except Panic State := do
  let s ← s.copyCheck recv
  pure (s.appendBuf env [c])

/-- The conditional grow of `WriteRune`:
`if cap(b.buf)-l < utf8.UTFMax { b.grow(utf8.UTFMax) }`. -/
def runeRoom (s : State) (env : Env) : State :=
  if (s.buf.cap : Int) - s.buf.len < env.utfMax then s.grow env.utfMax else s

/-- `b.WriteRune(r)`: the count it returns (its error is always nil). Past
`RuneSelf`, `EncodeRune` writes its bytes to `b.buf[l:l+utf8.UTFMax]`, then
`b.buf = b.buf[:l+n]`. -/
def WriteRune (s : State) (env : Env) (recv : Nat) (r : Int) : Except Panic (State × Nat) := do
  let s ← s.copyCheck recv
  if r < env.runeSelf then pure (s.appendBuf env [byteOf r], 1)
  else
    let l := s.buf.len
    let s := s.runeRoom env
    if s.buf.cap < l + env.utfMax then throw sliceBoundsOutOfRange
    else
      let p := env.encodeRune r
      if env.utfMax < p.length then throw indexOutOfRange
      else if s.buf.cap < l + p.length then throw sliceBoundsOutOfRange
      else pure ({ s.copyTo s.buf l p with buf := { s.buf with len := l + p.length } }, p.length)

/-- `b.WriteString(str)`: the count it returns (its error is always nil). -/
def WriteString (s : State) (env : Env) (recv : Nat) (str : List UInt8) :
    Except Panic (State × Nat) := do
  let s ← s.copyCheck recv
  pure (s.appendBuf env str, str.length)

end State

/-- The calls a program makes on a `Builder` that change it. -/
inductive Op
  | write (p : List UInt8)
  | writeByte (c : UInt8)
  | writeRune (r : Int)
  | writeString (str : List UInt8)
  | grow (n : Nat)
  | reset

/-- One call on the `Builder` at address `recv`, and the count it returns. -/
def Op.step (env : Env) (recv : Nat) (s : State) : Op → Except Panic (State × Option Nat)
  | .write p => (s.Write env recv p).map fun r => (r.1, some r.2)
  | .writeByte c => (s.WriteByte env recv c).map (·, none)
  | .writeRune r => (s.WriteRune env recv r).map fun r => (r.1, some r.2)
  | .writeString str => (s.WriteString env recv str).map fun r => (r.1, some r.2)
  | .grow n => (s.Grow recv n).map (·, none)
  | .reset => pure (s.Reset, none)

/-- A sequence of calls, and what each returns; the first panic stops it. -/
def run (env : Env) (recv : Nat) : State → List Op → Except Panic (State × List (Option Nat))
  | s, [] => pure (s, [])
  | s, op :: ops => do
    let r ← op.step env recv s
    let rs ← run env recv r.1 ops
    pure (rs.1, r.2 :: rs.2)

/-- The states a `Builder` that is never copied goes through: from a zero
`Builder`, calls on it at its own address. -/
inductive Reachable (env : Env) (recv : Nat) : State → Prop
  | init (mem : Nat → List UInt8) (next : Nat) : Reachable env recv (State.init mem next)
  | step {s s' : State} {op : Op} {r : Option Nat} :
      Reachable env recv s → op.step env recv s = .ok (s', r) → Reachable env recv s'

end GoStdlib.StringsBuilder
