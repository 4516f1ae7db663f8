import Mathlib.Logic.Equiv.Basic

/-!
`container/heap`: the heap operations over any type that implements
`heap.Interface`. Such a value is modelled by the contract its methods keep: its
elements at `0, ..., Len() - 1`, `Less(i, j)` comparing elements `i` and `j`,
`Swap` exchanging two of them, `Push` adding one as element `Len()` and `Pop`
removing element `Len() - 1`. Indices are `int` in Go; no slice is long enough
for `2*i + 1` to overflow, so they are naturals here.
-/

namespace GoStdlib.ContainerHeap

/-- A value that implements `heap.Interface`: its elements and its `Len()`. -/
structure Heap (α : Type) where
  data : Nat → α
  len : Nat

variable {α : Type}

namespace Heap

def swap (h : Heap α) (i j : Nat) : Heap α :=
  ⟨fun k => h.data (Equiv.swap i j k), h.len⟩

/-- `h.Push(x)`: `x` becomes element `Len()`. -/
def append (h : Heap α) (x : α) : Heap α :=
  ⟨Function.update h.data h.len x, h.len + 1⟩

/-- `h.Pop()`: removes and returns element `Len() - 1`. -/
def removeLast (h : Heap α) : Heap α × α :=
  (⟨h.data, h.len - 1⟩, h.data (h.len - 1))

@[simp] theorem swap_len (h : Heap α) (i j : Nat) : (h.swap i j).len = h.len := rfl

@[simp] theorem swap_data (h : Heap α) (i j k : Nat) :
    (h.swap i j).data k = h.data (Equiv.swap i j k) := rfl

end Heap

variable (less : α → α → Bool)

/-- `up(h, j)`: swap element `j` with its parent while it is less. -/
def up (h : Heap α) (j : Nat) : Heap α :=
  if (j - 1) / 2 = j || !less (h.data j) (h.data ((j - 1) / 2)) then h
  else up (h.swap ((j - 1) / 2) j) ((j - 1) / 2)
termination_by j
decreasing_by
  rename_i hc
  simp only [Bool.or_eq_true, decide_eq_true_eq, not_or] at hc
  omega

/-- `j` in `down`: the left child of `i`, or the right one when it is below `n`
and less than the left one. -/
def lesserChild (h : Heap α) (i n : Nat) : Nat :=
  if 2 * i + 2 < n && less (h.data (2 * i + 2)) (h.data (2 * i + 1)) then 2 * i + 2 else 2 * i + 1

/-- The loop of `down(h, i0, n)` from element `i`: swap it with its lesser child
while that child is less; the final `i`. -/
def downLoop (h : Heap α) (i n : Nat) : Heap α × Nat :=
  if n ≤ 2 * i + 1 then (h, i)
  else if !less (h.data (lesserChild less h i n)) (h.data i) then (h, i)
  else downLoop (h.swap i (lesserChild less h i n)) (lesserChild less h i n) n
termination_by n - i
decreasing_by
  unfold lesserChild
  split <;> omega

/-- `down(h, i0, n)`: the heap, and whether element `i0` moved. -/
def down (h : Heap α) (i0 n : Nat) : Heap α × Bool :=
  let r := downLoop less h i0 n
  (r.1, decide (r.2 > i0))

def init (h : Heap α) : Heap α :=
  (List.range (h.len / 2)).reverse.foldl (fun h i => (down less h i h.len).1) h

def push (h : Heap α) (x : α) : Heap α :=
  up less (h.append x) h.len

def pop (h : Heap α) : Heap α × α :=
  (down less (h.swap 0 (h.len - 1)) 0 (h.len - 1)).1.removeLast

/-- `if !down(h, i, n) { up(h, i) }`: the tail that `Remove` and `Fix` share. -/
def downUp (h : Heap α) (i n : Nat) : Heap α :=
  let r := down less h i n
  if !r.2 then up less r.1 i else r.1

def remove (h : Heap α) (i : Nat) : Heap α × α :=
  let n := h.len - 1
  (if n ≠ i then downUp less (h.swap i n) i n else h).removeLast

def fix (h : Heap α) (i : Nat) : Heap α :=
  downUp less h i h.len

end GoStdlib.ContainerHeap
