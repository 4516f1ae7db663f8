import Mathlib.Logic.Function.Basic

/-!
`container/list`: a doubly linked list kept as a ring through the sentinel
element `root` of the `List`. The heap holds every `Element` allocated so far,
one map per field; a `List` is named by the address of its `root`, and its `len`
is kept beside the elements. A nil pointer is `none`, and an operation that
dereferences one fails. Exported methods keep their capital: the source tells
`Remove` from `remove`, and `Next` from the field `next`, by it.
-/

namespace GoStdlib.ContainerList

/-- The heap: the fields of every `Element` at addresses `0, ..., size - 1`, the
`len` of each `List` (a Go `int`), and the addresses that hold a `List` (its
`root`). -/
structure State (α : Type) where
  next : Nat → Option Nat
  prev : Nat → Option Nat
  list : Nat → Option Nat
  value : Nat → α
  len : Nat → Int
  size : Nat
  lists : List Nat

variable {α : Type}

namespace State

/-- `p.next = v`. -/
@[simps]
def setNext (s : State α) (p : Nat) (v : Option Nat) : State α :=
  { s with next := Function.update s.next p v }

/-- `p.prev = v`. -/
@[simps]
def setPrev (s : State α) (p : Nat) (v : Option Nat) : State α :=
  { s with prev := Function.update s.prev p v }

/-- `p.list = v`. -/
@[simps]
def setList (s : State α) (p : Nat) (v : Option Nat) : State α :=
  { s with list := Function.update s.list p v }

/-- `l.len = n`. -/
@[simps]
def setLen (s : State α) (l : Nat) (n : Int) : State α :=
  { s with len := Function.update s.len l n }

/-- `&Element{Value: v}`: a fresh element in no list. -/
@[simps]
def alloc (s : State α) (v : α) : State α :=
  { s with
    next := Function.update s.next s.size none
    prev := Function.update s.prev s.size none
    list := Function.update s.list s.size none
    value := Function.update s.value s.size v
    size := s.size + 1 }

def writeNext (s : State α) (p v : Option Nat) : Option (State α) :=
  p.map (s.setNext · v)

def writePrev (s : State α) (p v : Option Nat) : Option (State α) :=
  p.map (s.setPrev · v)

def readNext (s : State α) (p : Option Nat) : Option (Option Nat) :=
  p.map s.next

def Init (s : State α) (l : Nat) : State α :=
  ((s.setNext l (some l)).setPrev l (some l)).setLen l 0

def lazyInit (s : State α) (l : Nat) : State α :=
  if s.next l = none then s.Init l else s

/-- The statements `insert` and `move` share:
`e.prev = at; e.next = at.next; e.prev.next = e; e.next.prev = e`. -/
def link (s : State α) (e : Nat) (at' : Option Nat) : Option (State α) := do
  let s := s.setPrev e at'
  let n ← s.readNext at'
  let s := s.setNext e n
  let s ← s.writeNext (s.prev e) (some e)
  s.writePrev (s.next e) (some e)

/-- The statements `remove` and `move` share:
`e.prev.next = e.next; e.next.prev = e.prev`. -/
def unlink (s : State α) (e : Nat) : Option (State α) := do
  let s ← s.writeNext (s.prev e) (s.next e)
  s.writePrev (s.next e) (s.prev e)

def insert (s : State α) (l e : Nat) (at' : Option Nat) : Option (State α) := do
  let s ← s.link e at'
  pure ((s.setList e (some l)).setLen l (s.len l + 1))

/-- `l.insertValue(v, at)`: the new state and the new element. -/
def insertValue (s : State α) (l : Nat) (v : α) (at' : Option Nat) : Option (State α × Nat) :=
  ((s.alloc v).insert l s.size at').map (·, s.size)

def remove (s : State α) (l e : Nat) : Option (State α) := do
  let s ← s.unlink e
  pure ((((s.setNext e none).setPrev e none).setList e none).setLen l (s.len l - 1))

def move (s : State α) (e : Nat) (at' : Option Nat) : Option (State α) :=
  if some e = at' then some s
  else do
    let s ← s.unlink e
    s.link e at'

def Next (s : State α) (e : Nat) : Option Nat :=
  match s.list e with
  | some l => if s.next e ≠ some l then s.next e else none
  | none => none

def Prev (s : State α) (e : Nat) : Option Nat :=
  match s.list e with
  | some l => if s.prev e ≠ some l then s.prev e else none
  | none => none

def Len (s : State α) (l : Nat) : Int :=
  s.len l

def Front (s : State α) (l : Nat) : Option Nat :=
  if s.len l = 0 then none else s.next l

def Back (s : State α) (l : Nat) : Option Nat :=
  if s.len l = 0 then none else s.prev l

/-- `l.Remove(e)`: the new state and `e.Value`. -/
def Remove (s : State α) (l e : Nat) : Option (State α × α) :=
  let r := if s.list e = some l then s.remove l e else some s
  r.map fun s => (s, s.value e)

def PushFront (s : State α) (l : Nat) (v : α) : Option (State α × Nat) :=
  let s := s.lazyInit l
  s.insertValue l v (some l)

def PushBack (s : State α) (l : Nat) (v : α) : Option (State α × Nat) :=
  let s := s.lazyInit l
  s.insertValue l v (s.prev l)

def InsertBefore (s : State α) (l : Nat) (v : α) (mark : Nat) : Option (State α × Option Nat) :=
  if s.list mark ≠ some l then some (s, none)
  else (s.insertValue l v (s.prev mark)).map fun r => (r.1, some r.2)

def InsertAfter (s : State α) (l : Nat) (v : α) (mark : Nat) : Option (State α × Option Nat) :=
  if s.list mark ≠ some l then some (s, none)
  else (s.insertValue l v (some mark)).map fun r => (r.1, some r.2)

def MoveToFront (s : State α) (l e : Nat) : Option (State α) :=
  if s.list e ≠ some l ∨ s.next l = some e then some s
  else s.move e (some l)

def MoveToBack (s : State α) (l e : Nat) : Option (State α) :=
  if s.list e ≠ some l ∨ s.prev l = some e then some s
  else s.move e (s.prev l)

def MoveBefore (s : State α) (l e mark : Nat) : Option (State α) :=
  if s.list e ≠ some l ∨ e = mark ∨ s.list mark ≠ some l then some s
  else s.move e (s.prev mark)

def MoveAfter (s : State α) (l e mark : Nat) : Option (State α) :=
  if s.list e ≠ some l ∨ e = mark ∨ s.list mark ≠ some l then some s
  else s.move e (some mark)

/-- The loop of `l.PushBackList(other)` with `i` copies left and `e` the element
to copy next. -/
def pushBackLoop (l : Nat) : Nat → Option Nat → State α → Option (State α)
  | 0, _, s => some s
  | i + 1, e, s => do
    let p ← e
    let r ← s.insertValue l (s.value p) (s.prev l)
    pushBackLoop l i (r.1.Next p) r.1

/-- The loop of `l.PushFrontList(other)`. -/
def pushFrontLoop (l : Nat) : Nat → Option Nat → State α → Option (State α)
  | 0, _, s => some s
  | i + 1, e, s => do
    let p ← e
    let r ← s.insertValue l (s.value p) (some l)
    pushFrontLoop l i (r.1.Prev p) r.1

/-- `l.PushBackList(other)`: the loop `for i := other.Len(); i > 0; i--` runs
`other.Len()` times, and none when that is negative. -/
def PushBackList (s : State α) (l other : Nat) : Option (State α) :=
  let s := s.lazyInit l
  pushBackLoop l (s.Len other).toNat (s.Front other) s

def PushFrontList (s : State α) (l other : Nat) : Option (State α) :=
  let s := s.lazyInit l
  pushFrontLoop l (s.Len other).toNat (s.Back other) s

variable [Inhabited α]

/-- `new(List)`: a zero `List`, whose `root` is a zero `Element`. -/
def newList (s : State α) : State α :=
  { (s.alloc default).setLen s.size 0 with lists := s.lists ++ [s.size] }

def New (s : State α) : State α :=
  s.newList.Init s.size

end State

def State.empty [Inhabited α] : State α :=
  ⟨fun _ => none, fun _ => none, fun _ => none, fun _ => default, fun _ => 0, 0, []⟩

/-- A call a program can make: allocating a `List` or an `Element`, or a method
of a `List` with its arguments. -/
inductive Op (α : Type) where
  | newList
  | new
  | newElement (v : α)
  | init (l : Nat)
  | remove (l e : Nat)
  | pushFront (l : Nat) (v : α)
  | pushBack (l : Nat) (v : α)
  | insertBefore (l : Nat) (v : α) (mark : Nat)
  | insertAfter (l : Nat) (v : α) (mark : Nat)
  | moveToFront (l e : Nat)
  | moveToBack (l e : Nat)
  | moveBefore (l e mark : Nat)
  | moveAfter (l e mark : Nat)
  | pushBackList (l other : Nat)
  | pushFrontList (l other : Nat)

/-- The state after a call, or `none` when it dereferences nil. -/
def step [Inhabited α] (s : State α) : Op α → Option (State α)
  | .newList => some s.newList
  | .new => some s.New
  | .newElement v => some (s.alloc v)
  | .init l => some (s.Init l)
  | .remove l e => (s.Remove l e).map (·.1)
  | .pushFront l v => (s.PushFront l v).map (·.1)
  | .pushBack l v => (s.PushBack l v).map (·.1)
  | .insertBefore l v mark => (s.InsertBefore l v mark).map (·.1)
  | .insertAfter l v mark => (s.InsertAfter l v mark).map (·.1)
  | .moveToFront l e => s.MoveToFront l e
  | .moveToBack l e => s.MoveToBack l e
  | .moveBefore l e mark => s.MoveBefore l e mark
  | .moveAfter l e mark => s.MoveAfter l e mark
  | .pushBackList l other => s.PushBackList l other
  | .pushFrontList l other => s.PushFrontList l other

def Op.target : Op α → Option Nat
  | .newList | .new | .newElement _ => none
  | .init l | .remove l _ | .pushFront l _ | .pushBack l _ | .insertBefore l _ _
  | .insertAfter l _ _ | .moveToFront l _ | .moveToBack l _ | .moveBefore l _ _
  | .moveAfter l _ _ | .pushBackList l _ | .pushFrontList l _ => some l

namespace State

def IsList (s : State α) (l : Nat) : Prop :=
  l ∈ s.lists

/-- `e` is an `Element` a program can hold: allocated, and not a `List`'s root. -/
def IsElement (s : State α) (e : Nat) : Prop :=
  e < s.size ∧ e ∉ s.lists

instance (s : State α) (l : Nat) : Decidable (s.IsList l) :=
  inferInstanceAs (Decidable (l ∈ s.lists))

instance (s : State α) (e : Nat) : Decidable (s.IsElement e) :=
  inferInstanceAs (Decidable (e < s.size ∧ e ∉ s.lists))

end State

/-- The arguments the package documents: `List`s and `Element`s that are not nil,
and `Init` only on a list that holds no elements. -/
def Op.Valid (s : State α) : Op α → Prop
  | .newList | .new | .newElement _ => True
  | .init l => s.IsList l ∧ s.len l = 0
  | .remove l e | .moveToFront l e | .moveToBack l e => s.IsList l ∧ s.IsElement e
  | .pushFront l _ | .pushBack l _ => s.IsList l
  | .insertBefore l _ mark | .insertAfter l _ mark => s.IsList l ∧ s.IsElement mark
  | .moveBefore l e mark | .moveAfter l e mark => s.IsList l ∧ s.IsElement e ∧ s.IsElement mark
  | .pushBackList l other | .pushFrontList l other => s.IsList l ∧ s.IsList other

instance (s : State α) : (op : Op α) → Decidable (op.Valid s)
  | .newList | .new | .newElement _ => instDecidableTrue
  | .init _ | .remove _ _ | .moveToFront _ _ | .moveToBack _ _ | .insertBefore _ _ _
  | .insertAfter _ _ _ | .moveBefore _ _ _ | .moveAfter _ _ _ | .pushBackList _ _
  | .pushFrontList _ _ => instDecidableAnd
  | .pushFront l _ | .pushBack l _ => inferInstanceAs (Decidable (s.IsList l))

/-- The heaps a program can reach by valid calls. -/
inductive Reachable [Inhabited α] : State α → Prop
  | empty : Reachable State.empty
  | step {s s' : State α} {op : Op α} : Reachable s → op.Valid s → step s op = some s' →
      Reachable s'

end GoStdlib.ContainerList
