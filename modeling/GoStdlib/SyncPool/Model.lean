import Mathlib.Data.List.Basic

/-!
`sync.Pool` as a state machine. The heap holds every `[P]poolLocal` array that
`pinSlow` ever made; a pool points into it with `local` and `victim`, and a P
that is inside `Put` or `Get` keeps its place in `Phase`. Each constructor of
`Phase` ends at one load or store of shared state, so that the steps of
different P's interleave at every point where the code can be preempted by
another P. The chain `poolChain` is a deque whose head is the head of a list;
`popTail` may also report empty while the chain holds items.
-/

namespace GoStdlib.SyncPool

/-- `poolLocalInternal`: the `private` slot and the `shared` chain. -/
structure PoolLocal (α : Type) where
  priv : Option α
  shared : List α
  deriving DecidableEq, Repr

def PoolLocal.empty {α : Type} : PoolLocal α := ⟨none, []⟩

/-- One `[P]poolLocal` array, and the pool whose `pinSlow` allocated it. -/
structure Table (α : Type) where
  owner : Nat
  locals : List (PoolLocal α)

/-- The fields of `Pool`; `local` and `victim` index the heap of tables, and
`New` is the value the optional `New` function returns. -/
structure Pool (α : Type) where
  localPtr : Option Nat
  localSize : Nat
  victimPtr : Option Nat
  victimSize : Nat
  New : Option α

/-- Where a P is inside `Put` or `Get` on pool `p`. Pointers to a `poolLocal`
are a table and an index; `none` is pointer arithmetic on a nil table. -/
inductive Phase (α : Type)
  | idle
  | putPinned (p : Nat) (l : Option (Nat × Nat)) (x : α)
  | getPinned (p : Nat) (l : Option (Nat × Nat))
  | slowLoadSize (p : Nat)
  | slowLoadLocal (p size : Nat)
  | steal (p size : Nat) (locals : Option Nat) (i : Nat)
  | victimPrivate (p size : Nat)
  | victimSteal (p size : Nat) (locals : Option Nat) (i : Nat)

def Phase.isIdle {α : Type} : Phase α → Bool
  | .idle => true
  | _ => false

/-- The whole system: pools, the heap of tables, the two registries, one phase
per P (their number is `GOMAXPROCS`), and the history of completed `Put`s, of
the items `Get` handed out from storage, and of what each `Get` that found
storage empty returned instead: `New()`, or nil. -/
structure State (α : Type) where
  pools : List (Pool α)
  tables : List (Table α)
  allPools : List Nat
  oldPools : List Nat
  units : List (Phase α)
  puts : List (Nat × α)
  gets : List (Nat × α)
  news : List (Nat × Option α)

/-- The result of one step: a new state, not enabled, or a memory fault. -/
inductive Outcome (σ : Type)
  | ok (s : σ)
  | blocked
  | fault

namespace Outcome

def map {σ τ : Type} (f : σ → τ) : Outcome σ → Outcome τ
  | .ok s => .ok (f s)
  | .blocked => .blocked
  | .fault => .fault

def ofOption {σ : Type} : Option σ → Outcome σ
  | some s => .ok s
  | none => .fault

end Outcome

variable {α : Type}

namespace PoolLocal

/-- The body of `Put` on the pinned shard: fill `private`, else `pushHead`. -/
def put (l : PoolLocal α) (x : α) : PoolLocal α :=
  match l.priv with
  | none => { l with priv := some x }
  | some _ => { l with shared := x :: l.shared }

/-- The local part of `Get`: take `private`, else `popHead`. -/
def getLocal (l : PoolLocal α) : Option α × PoolLocal α :=
  match l.priv, l.shared with
  | some x, _ => (some x, { l with priv := none })
  | none, x :: rest => (some x, { l with shared := rest })
  | none, [] => (none, l)

/-- `popTail` on the shared chain. -/
def popTail (l : PoolLocal α) : Option α × PoolLocal α :=
  match l.shared.getLast? with
  | some x => (some x, { l with shared := l.shared.dropLast })
  | none => (none, l)

/-- The victim's `x := l.private; l.private = nil`. -/
def takePrivate (l : PoolLocal α) : Option α × PoolLocal α :=
  (l.priv, { l with priv := none })

end PoolLocal

namespace State

def tableLen (s : State α) (r : Nat) : Nat :=
  (s.tables[r]?.map fun t => t.locals.length).getD 0

def ptrLen (s : State α) : Option Nat → Nat
  | none => 0
  | some r => s.tableLen r

def shard (s : State α) (l : Nat × Nat) : Option (PoolLocal α) :=
  s.tables[l.1]?.bind fun t => t.locals[l.2]?

def setShard (s : State α) (l : Nat × Nat) (v : PoolLocal α) : State α :=
  { s with tables := s.tables.modify (fun t => { t with locals := t.locals.set l.2 v }) l.1 }

def withShard {β : Type} (s : State α) (l : Option (Nat × Nat))
    (f : PoolLocal α → β × PoolLocal α) : Option (β × State α) :=
  l.bind fun l => (s.shard l).map fun loc => ((f loc).1, s.setShard l (f loc).2)

def setUnit (s : State α) (pid : Nat) (ph : Phase α) : State α :=
  { s with units := s.units.set pid ph }

/-- `Get` by `pid` on `p` returns `x` from storage and unpins. -/
def returnGet (s : State α) (pid p : Nat) (x : α) : State α :=
  { s.setUnit pid .idle with gets := s.gets ++ [(p, x)] }

/-- `Get` by `pid` on `p` found storage empty: it unpins, and
`if x == nil && p.New != nil { x = p.New() }` returns `New()`, or nil. -/
def returnNew (s : State α) (pid p : Nat) : State α :=
  { s.setUnit pid .idle with news := s.news ++ [(p, s.pools[p]?.bind Pool.New)] }

/-- `Put` by `pid` on `p` has stored `x` and unpins. -/
def finishPut (s : State α) (pid p : Nat) (x : α) : State α :=
  { s.setUnit pid .idle with puts := s.puts ++ [(p, x)] }

/-- A new zero `Pool` with the given `New`. -/
def addPool (s : State α) (New : Option α) : State α :=
  { s with pools := s.pools ++ [⟨none, 0, none, 0, New⟩] }

def clearVictimSize (s : State α) (p : Nat) : State α :=
  { s with pools := s.pools.modify (fun q => { q with victimSize := 0 }) p }

/-- The P's after `GOMAXPROCS(n)` has restarted the world. -/
def setProcs (s : State α) (n : Nat) : State α :=
  { s with units := List.replicate n .idle }

/-- Hand the answer of a take to `Get`, or go on with phase `next`. -/
def answer (s : State α) (pid p : Nat) (next : Phase α) : Option α → State α
  | some x => s.returnGet pid p x
  | none => s.setUnit pid next

end State

/-- `indexLocal(l, i)`: pointer arithmetic, with no check against the array. -/
def indexLocal (l : Option Nat) (i : Nat) : Option (Nat × Nat) :=
  l.map fun r => (r, i)

/-- Go's `%` on `int`, which panics on a zero divisor. -/
def goMod (a b : Nat) : Option Nat :=
  if b = 0 then none else some (a % b)

/-- The end of `pinSlow`: register `p` in `allPools` when it has no `local`
table, then install a new table of `size` zero shards as `local`. -/
def State.install (s : State α) (p : Nat) (pool : Pool α) (size : Nat) : State α :=
  { s with
    allPools := if pool.localPtr.isNone then s.allPools ++ [p] else s.allPools
    tables := s.tables ++ [⟨p, List.replicate size .empty⟩]
    pools := s.pools.set p { pool with localPtr := some s.tables.length, localSize := size } }

/-- `pinSlow` under `allPoolsMu`, for P `pid`: reuse the table when it has
grown meanwhile, else install one of `GOMAXPROCS` shards; `&local[pid]` is
bounds checked. -/
def pinSlow (s : State α) (pid p : Nat) (pool : Pool α) :
    Outcome (State α × Option (Nat × Nat)) :=
  if pid < pool.localSize then .ok (s, indexLocal pool.localPtr pid)
  else if pid < s.units.length then
    .ok (s.install p pool s.units.length, some (s.tables.length, pid))
  else .fault

/-- `pin`: the fast path when `pid < localSize`, else `pinSlow`. -/
def pin (s : State α) (pid p : Nat) : Outcome (State α × Option (Nat × Nat)) :=
  match s.pools[p]? with
  | none => .blocked
  | some pool =>
      if pid < pool.localSize then .ok (s, indexLocal pool.localPtr pid)
      else pinSlow s pid p pool

/-- One `popTail` of the steal loops at shard `k` of `locals`, or the exit of
the loop after its last index. -/
def stealAt (s : State α) (pid p : Nat) (locals : Option Nat) (k : Option Nat)
    (next : Phase α) : Outcome (State α) :=
  match k with
  | none => .fault
  | some k =>
      (Outcome.ofOption (s.withShard (indexLocal locals k) PoolLocal.popTail)).map
        fun (x, s') => s'.answer pid p next x

/-- The next atomic step of P `pid` in phase `ph`. -/
def advance (s : State α) (pid : Nat) : Phase α → Outcome (State α)
  | .idle => .blocked
  | .putPinned p l x =>
      (Outcome.ofOption (s.withShard l fun loc => ((), loc.put x))).map
        fun (_, s') => s'.finishPut pid p x
  | .getPinned p l =>
      (Outcome.ofOption (s.withShard l PoolLocal.getLocal)).map
        fun (x, s') => s'.answer pid p (.slowLoadSize p) x
  | .slowLoadSize p =>
      match s.pools[p]? with
      | none => .blocked
      | some pool => .ok (s.setUnit pid (.slowLoadLocal p pool.localSize))
  | .slowLoadLocal p size =>
      match s.pools[p]? with
      | none => .blocked
      | some pool => .ok (s.setUnit pid (.steal p size pool.localPtr 0))
  | .steal p size locals i =>
      if i < size then
        stealAt s pid p locals (goMod (pid + i + 1) size) (.steal p size locals (i + 1))
      else
        match s.pools[p]? with
        | none => .blocked
        | some pool =>
            if pid < pool.victimSize then .ok (s.setUnit pid (.victimPrivate p pool.victimSize))
            else .ok (s.returnNew pid p)
  | .victimPrivate p size =>
      match s.pools[p]? with
      | none => .blocked
      | some pool =>
          (Outcome.ofOption (s.withShard (indexLocal pool.victimPtr pid) PoolLocal.takePrivate)).map
            fun (x, s') => s'.answer pid p (.victimSteal p size pool.victimPtr 0) x
  | .victimSteal p size locals i =>
      if i < size then
        stealAt s pid p locals (goMod (pid + i) size) (.victimSteal p size locals (i + 1))
      else
        .ok ((s.clearVictimSize p).returnNew pid p)

/-- A `popTail` of a steal loop that reports empty under contention. -/
def missTail (s : State α) (pid : Nat) : Phase α → Outcome (State α)
  | .steal p size locals i =>
      if i < size then
        stealAt s pid p locals (goMod (pid + i + 1) size) (.steal p size locals (i + 1)) |>.map
          fun _ => s.setUnit pid (.steal p size locals (i + 1))
      else .blocked
  | .victimSteal p size locals i =>
      if i < size then
        stealAt s pid p locals (goMod (pid + i) size) (.victimSteal p size locals (i + 1)) |>.map
          fun _ => s.setUnit pid (.victimSteal p size locals (i + 1))
      else .blocked
  | _ => .blocked

def dropVictim (q : Pool α) : Pool α :=
  { q with victimPtr := none, victimSize := 0 }

def moveToVictim (q : Pool α) : Pool α :=
  { q with victimPtr := q.localPtr, victimSize := q.localSize, localPtr := none, localSize := 0 }

/-- `for _, p := range ids { f(p) }` over a list of pools. -/
def forEachPool (f : Pool α → Pool α) (ids : List Nat) (pools : List (Pool α)) : List (Pool α) :=
  ids.foldl (fun ps p => ps.modify f p) pools

/-- `poolCleanup`, run with the world stopped. -/
def poolCleanup (s : State α) : State α :=
  { s with
    pools := forEachPool moveToVictim s.allPools (forEachPool dropVictim s.oldPools s.pools)
    oldPools := s.allPools
    allPools := [] }

/-- What can happen next: a new zero `Pool`, a call of `Put` or `Get` by a P,
the next step of a P's call in flight, a spurious empty `popTail`, a call of
`GOMAXPROCS`, or `poolCleanup` at the start of a collection. -/
inductive Action (α : Type)
  | newPool (New : Option α)
  | put (pid p : Nat) (x : Option α)
  | get (pid p : Nat)
  | next (pid : Nat)
  | popTailMiss (pid : Nat)
  | gomaxprocs (n : Nat)
  | poolCleanup

/-- Every P is outside a pinned section: the world can be stopped. -/
def State.quiescent (s : State α) : Bool :=
  s.units.all Phase.isIdle

/-- One step of the system. -/
def step (s : State α) : Action α → Outcome (State α)
  | .newPool New => .ok (s.addPool New)
  | .put pid p x =>
      match s.units[pid]?, x with
      | some .idle, none => .ok s
      | some .idle, some v => (pin s pid p).map fun (s', l) => s'.setUnit pid (.putPinned p l v)
      | _, _ => .blocked
  | .get pid p =>
      match s.units[pid]? with
      | some .idle => (pin s pid p).map fun (s', l) => s'.setUnit pid (.getPinned p l)
      | _ => .blocked
  | .next pid =>
      match s.units[pid]? with
      | some ph => advance s pid ph
      | none => .blocked
  | .popTailMiss pid =>
      match s.units[pid]? with
      | some ph => missTail s pid ph
      | none => .blocked
  | .gomaxprocs n =>
      if n = 0 ∨ n = s.units.length then .ok s
      else if s.quiescent then .ok (s.setProcs n)
      else .blocked
  | .poolCleanup => if s.quiescent then .ok (poolCleanup s) else .blocked

def init (n : Nat) : State α :=
  ⟨[], [], [], [], List.replicate n .idle, [], [], []⟩

/-- The states reachable by any interleaving of steps. -/
inductive Reachable : State α → Prop
  | init (n : Nat) : Reachable (init n)
  | step {s s' : State α} (a : Action α) : Reachable s → step s a = .ok s' → Reachable s'

end GoStdlib.SyncPool
