import GoStdlib.Heap.GoInt
import GoStdlib.Heap.Queue

/-!
The exported functions of `container/heap` with Go's `int`: `Init`, `Push`,
`Pop`, `Remove` and `Fix`, over a `heap.Interface` that has `Len`, `Push` and
`Pop` besides `Less` and `Swap`. On a `Heap` of at most `2^63 - 1` elements and
with the arguments the package documents, each of them ends, gives what the
`Nat` model gives, and passes the user's `Less` and `Swap` only indices in
`[0, Len())`.
-/

namespace GoStdlib.ContainerHeap.GoInt

/-- The whole `heap.Interface`: `Len`, `Push` and `Pop` besides `Less` and `Swap`. -/
structure Full (σ α : Type) extends Iface σ where
  len : σ → Int
  push : σ → α → σ
  pop : σ → σ × α

variable {σ α : Type}

section Operations

variable (I : Iface σ)

/-- `if !down(h, i, n) { up(h, i) }`, the tail of `Remove` and `Fix`. -/
def downUp (h : σ) (i n : Int) (fuel : Nat) : Option (σ × List Call) :=
  (down I h i n fuel).bind fun r =>
    if !r.2.1 then (up I fuel r.1 i).map fun u => (u.1, r.2.2 ++ u.2) else some (r.1, r.2.2)

/-- The loop of `Init`, `for i := n/2 - 1; i >= 0; i-- { down(h, i, n) }`, with
`count` passes left and `fuel` passes for each `down`. -/
def initLoop (n : Int) (fuel : Nat) : Nat → σ → Int → Option (σ × List Call)
  | 0, _, _ => none
  | count + 1, h, i =>
      if i ≥ 0 then
        (down I h i n fuel).bind fun r =>
          (initLoop n fuel count r.1 (wrap (i - 1))).map fun t => (t.1, r.2.2 ++ t.2)
      else some (h, [])

end Operations

variable (H : Full σ α)

def init (h : σ) (fuel : Nat) : Option (σ × List Call) :=
  initLoop H.toIface (H.len h) fuel fuel h (wrap ((H.len h).tdiv 2 - 1))

/-- `heap.Push(h, x)`: `h.Push(x)`, then `up(h, h.Len()-1)`. -/
def push (h : σ) (x : α) (fuel : Nat) : Option (σ × List Call) :=
  up H.toIface fuel (H.push h x) (wrap (H.len (H.push h x) - 1))

/-- `heap.Pop(h)`: with `n := h.Len() - 1`, `h.Swap(0, n)`, `down(h, 0, n)`,
then `h.Pop()`. -/
def pop (h : σ) (fuel : Nat) : Option ((σ × α) × List Call) :=
  let n := wrap (H.len h - 1)
  (down H.toIface (H.swap h 0 n) 0 n fuel).map fun r => (H.pop r.1, .swap 0 n :: r.2.2)

def remove (h : σ) (i : Int) (fuel : Nat) : Option ((σ × α) × List Call) :=
  let n := wrap (H.len h - 1)
  if n ≠ i then (downUp H.toIface (H.swap h i n) i n fuel).map fun r => (H.pop r.1, .swap i n :: r.2)
  else some (H.pop h, [])

def fix (h : σ) (i : Int) (fuel : Nat) : Option (σ × List Call) :=
  downUp H.toIface h i (H.len h) fuel

/-- A `Heap` as a whole `heap.Interface`: `Push` appends, `Pop` removes the last. -/
def heapFull (less : α → α → Bool) : Full (Heap α) α :=
  { heapIface less with len := fun h => h.len, push := Heap.append, pop := Heap.removeLast }

theorem down_stop (I : Iface σ) (h : σ) (i0 n : Int)
    (hstop : wrap (2 * i0 + 1) ≥ n ∨ wrap (2 * i0 + 1) < 0) (fuel : Nat) (hf : 0 < fuel) :
    down I h i0 n fuel = some (h, false, []) := by
  obtain ⟨fuel, rfl⟩ : ∃ k, fuel = k + 1 := ⟨fuel - 1, by omega⟩
  have hnext : downNext I n h i0 = .inl (h, i0, []) := by
    unfold downNext
    dsimp only
    rw [if_pos hstop]
  rw [down, downLoop, hnext]
  simp

theorem up_root (I : Iface σ) (h : σ) (fuel : Nat) (hf : 0 < fuel) : up I fuel h 0 = some (h, []) := by
  obtain ⟨fuel, rfl⟩ : ∃ k, fuel = k + 1 := ⟨fuel - 1, by omega⟩
  rw [up, upNext_eq I h le_rfl (by decide), if_pos rfl]

theorem downUp_root (I : Iface σ) (h : σ) (n : Int) (fuel : Nat) :
    downUp I h 0 n fuel = (down I h 0 n fuel).map fun r => (r.1, r.2.2) := by
  cases hd : down I h 0 n fuel with
  | none => simp [downUp, hd]
  | some r =>
      have hf : 0 < fuel := by
        cases fuel
        · simp [down, downLoop] at hd
        · omega
      cases hm : r.2.1 <;> simp [downUp, hd, hm, up_root I r.1 fuel hf]

/-- `Pop` is `Remove(h, 0)`, as the package says, for every `heap.Interface`
value, state and number of passes. When `Len() ≠ 1` the two make the same calls,
leave the same state and return the same element, or both run out of passes:
the `up(h, 0)` of `Remove` does nothing. When `Len() = 1`, `Pop` calls
`Swap(0, 0)` where `Remove` calls nothing, so they agree on every `Interface`
whose `Swap(0, 0)` changes nothing. -/
theorem pop_eq_remove_zero (H : Full σ α) (h : σ) :
    (wrap (H.len h - 1) ≠ 0 → ∀ fuel, pop H h fuel = remove H h 0 fuel) ∧
    (H.swap h 0 0 = h → ∀ fuel, 0 < fuel →
      (pop H h fuel).map Prod.fst = (remove H h 0 fuel).map Prod.fst) := by
  have hne : wrap (H.len h - 1) ≠ 0 → ∀ fuel, pop H h fuel = remove H h 0 fuel := by
    intro hn fuel
    simp only [pop, remove, if_pos hn, downUp_root, Option.map_map]
    rfl
  refine ⟨hne, fun hswap fuel hf => ?_⟩
  by_cases hn : wrap (H.len h - 1) = 0
  · have hd := down_stop H.toIface h 0 0 (Or.inl (by rw [wrap_of_le (by decide) (by decide)]; decide))
      fuel hf
    simp only [pop, remove, hn, hswap, hd, ne_eq, not_true_eq_false, if_false, Option.map_some']
  · rw [hne hn]

variable (less : α → α → Bool)

def CallsWithin (n : Int) (calls : List Call) : Prop :=
  ∀ c ∈ calls, c.Within 0 n

theorem CallsWithin.append {n : Int} {a b : List Call} (ha : CallsWithin n a) (hb : CallsWithin n b) :
    CallsWithin n (a ++ b) := fun c hc => (List.mem_append.mp hc).elim (ha c) (hb c)

theorem CallsWithin.mono {n m : Int} {a : List Call} (ha : CallsWithin n a) (hle : n ≤ m) :
    CallsWithin m a := fun c hc => (ha c hc).mono hle

theorem down_nat (h : Heap α) (i0 n : Nat) (hi : i0 < n) (hn : n ≤ 9223372036854775807)
    (fuel : Nat) (hf : n < fuel) :
    ∃ calls, down (heapIface less) h i0 n fuel =
      some ((ContainerHeap.down less h i0 n).1, (ContainerHeap.down less h i0 n).2, calls) ∧
      CallsWithin n calls := by
  obtain ⟨calls, hd⟩ := down_heap less h (Int.natCast_nonneg i0)
    (show (i0 : Int) < n by omega) (show (n : Int) ≤ 9223372036854775807 by omega) fuel
    (show ((n : Int) - i0).toNat < fuel by omega)
  obtain ⟨h', i', calls', hl, -, hw, -⟩ := downLoop_spec (heapIface less)
    (show (n : Int) ≤ 9223372036854775807 by omega) fuel h i0 (by omega) (by omega) (by omega)
  simp only [Int.toNat_ofNat] at hd
  have : calls = calls' := by
    rw [down, hl, Option.map_some', Option.some.injEq] at hd
    exact (Prod.mk.inj (Prod.mk.inj hd).2).2.symm
  exact ⟨calls, hd, this ▸ hw⟩

theorem down_at_end (h : Heap α) (i0 n : Nat) (hle : n ≤ i0) (hi : i0 < 9223372036854775807)
    (fuel : Nat) (hf : 0 < fuel) :
    down (heapIface less) h i0 n fuel = some (h, false, []) ∧
      ContainerHeap.down less h i0 n = (h, false) := by
  refine ⟨down_stop _ h i0 n ?_ fuel hf, ?_⟩
  · rcases wrap_two_mul_add_one (Int.natCast_nonneg i0) (by omega) with h' | h' <;> omega
  · rw [ContainerHeap.down, ContainerHeap.downLoop, if_pos (by omega)]
    simp

theorem up_nat (h : Heap α) (j : Nat) (hj : j ≤ 9223372036854775807) (fuel : Nat) (hf : j < fuel) :
    ∃ calls, up (heapIface less) fuel h j = some (ContainerHeap.up less h j, calls) ∧
      CallsWithin (j + 1) calls := by
  obtain ⟨calls, hu⟩ := up_heap less fuel h j (Int.natCast_nonneg j) (by omega) (by omega)
  obtain ⟨h', calls', hu', hw⟩ := up_spec (heapIface less) fuel h j (Int.natCast_nonneg j) (by omega)
    (by omega)
  simp only [Int.toNat_ofNat] at hu
  rw [hu, Option.some.injEq, Prod.mk.injEq] at hu'
  exact ⟨calls, hu, hu'.2 ▸ hw⟩

theorem downUp_nat (h : Heap α) (i n : Nat) (hi : i < n) (hn : n ≤ 9223372036854775807)
    (fuel : Nat) (hf : n < fuel) :
    ∃ calls, downUp (heapIface less) h i n fuel = some (ContainerHeap.downUp less h i n, calls) ∧
      CallsWithin n calls := by
  obtain ⟨c₁, hd, hw₁⟩ := down_nat less h i n hi hn fuel hf
  simp only [downUp, hd, Option.some_bind, ContainerHeap.downUp]
  split
  · obtain ⟨c₂, hu, hw₂⟩ := up_nat less (ContainerHeap.down less h i n).1 i (by omega) fuel
      (by omega)
    exact ⟨c₁ ++ c₂, by simp [hu], hw₁.append (hw₂.mono (by omega))⟩
  · exact ⟨c₁, rfl, hw₁⟩

theorem downLoop_len (h : Heap α) (i n : Nat) : (ContainerHeap.downLoop less h i n).1.len = h.len := by
  induction h, i, n using ContainerHeap.downLoop.induct less with
  | case1 h i n hle => rw [ContainerHeap.downLoop, if_pos hle]
  | case2 h i n hlt hstop => rw [ContainerHeap.downLoop, if_neg hlt, if_pos hstop]
  | case3 h i n hlt hmove ih => rw [ContainerHeap.downLoop, if_neg hlt, if_neg hmove, ih, Heap.swap_len]

variable (h : Heap α)

theorem push_nat (x : α) (hn : h.len < 9223372036854775807) (fuel : Nat) (hf : h.len < fuel) :
    ∃ calls, push (heapFull less) h x fuel = some (ContainerHeap.push less h x, calls) ∧
      CallsWithin (h.len + 1) calls := by
  have hlen : wrap (((h.append x).len : Int) - 1) = h.len := by
    rw [show ((h.append x).len : Int) - 1 = h.len by simp [Heap.append]]
    exact wrap_of_le (by omega) (by omega)
  obtain ⟨calls, hu, hw⟩ := up_nat less (h.append x) h.len (by omega) fuel hf
  exact ⟨calls, by simpa [push, heapFull, hlen, ContainerHeap.push] using hu, by exact_mod_cast hw⟩

theorem wrap_len_sub_one {n : Nat} (h0 : 0 < n) (hn : n ≤ 9223372036854775807) :
    wrap ((n : Int) - 1) = ((n - 1 : Nat) : Int) := by
  rw [wrap_of_le (by omega) (by omega)]
  omega

theorem pop_nat (h0 : 0 < h.len) (hn : h.len ≤ 9223372036854775807) (fuel : Nat)
    (hf : h.len < fuel) :
    ∃ calls, pop (heapFull less) h fuel = some (ContainerHeap.pop less h, calls) ∧
      CallsWithin h.len calls := by
  have hlen := wrap_len_sub_one h0 hn
  have hswap : (heapIface less).swap h 0 ((h.len - 1 : Nat) : Int) = h.swap 0 (h.len - 1) := by
    simp [heapIface]
  have hcall : (Call.swap 0 ((h.len - 1 : Nat) : Int)).Within 0 h.len := by
    simp only [Call.Within]
    omega
  rcases Nat.lt_or_ge 0 (h.len - 1) with hpos | hone
  · obtain ⟨calls, hd, hw⟩ := down_nat less (h.swap 0 (h.len - 1)) 0 (h.len - 1) hpos (by omega)
      fuel (by omega)
    rw [Nat.cast_zero] at hd
    refine ⟨.swap 0 (h.len - 1 : Nat) :: calls, by simp [pop, heapFull, hlen, hswap, hd, ContainerHeap.pop], ?_⟩
    exact fun c hc => (List.mem_cons.mp hc).elim (· ▸ hcall) fun hc => (hw c hc).mono (by omega)
  · obtain ⟨hd, hnat⟩ := down_at_end less (h.swap 0 (h.len - 1)) 0 (h.len - 1) hone (by decide)
      fuel (by omega)
    rw [Nat.cast_zero] at hd
    refine ⟨[.swap 0 (h.len - 1 : Nat)], by simp [pop, heapFull, hlen, hswap, hd, ContainerHeap.pop, hnat],
      fun c hc => List.mem_singleton.mp hc ▸ hcall⟩

theorem remove_nat {i : Nat} (hi : i < h.len) (hn : h.len ≤ 9223372036854775807) (fuel : Nat)
    (hf : h.len < fuel) :
    ∃ calls, remove (heapFull less) h i fuel = some (ContainerHeap.remove less h i, calls) ∧
      CallsWithin h.len calls := by
  have hlen := wrap_len_sub_one (Nat.zero_lt_of_lt hi) hn
  by_cases hni : h.len - 1 = i
  · refine ⟨[], ?_, fun _ h => nomatch h⟩
    simp [remove, heapFull, hlen, hni, ContainerHeap.remove]
  · have hlt : i < h.len - 1 := by omega
    obtain ⟨calls, hd, hw⟩ := downUp_nat less (h.swap i (h.len - 1)) i (h.len - 1) hlt (by omega)
      fuel (by omega)
    have hswap : (heapIface less).swap h i ((h.len - 1 : Nat) : Int) = h.swap i (h.len - 1) := by
      simp [heapIface]
    refine ⟨.swap i (h.len - 1 : Nat) :: calls, by simp [remove, heapFull, hlen, hswap, hd, ContainerHeap.remove,
      show ((h.len - 1 : Nat) : Int) ≠ i by omega, hni], fun c hc => ?_⟩
    rcases List.mem_cons.mp hc with rfl | hc
    · simp only [Call.Within]
      omega
    · exact (hw c hc).mono (by omega)

theorem fix_nat {i : Nat} (hi : i < h.len) (hn : h.len ≤ 9223372036854775807) (fuel : Nat)
    (hf : h.len < fuel) :
    ∃ calls, fix (heapFull less) h i fuel = some (ContainerHeap.fix less h i, calls) ∧
      CallsWithin h.len calls :=
  downUp_nat less h i h.len hi hn fuel hf

theorem initLoop_nat {n : Nat} (hn : n ≤ 9223372036854775807) (fuel : Nat) (hf : n < fuel) :
    ∀ k count (h : Heap α), h.len = n → k ≤ n → k < count →
      ∃ calls, initLoop (heapIface less) n fuel count h (k - 1 : Int) =
        some ((List.range k).reverse.foldl (fun h i => (ContainerHeap.down less h i h.len).1) h, calls) ∧
        CallsWithin n calls
  | 0, count + 1, h, _, _, _ => ⟨[], by simp [initLoop], fun _ h => nomatch h⟩
  | k + 1, count + 1, h, hlen, hk, hc => by
      obtain ⟨c₁, hd, hw₁⟩ := down_nat less h k n (by omega) hn fuel hf
      obtain ⟨c₂, hl, hw₂⟩ := initLoop_nat hn fuel hf k count (ContainerHeap.down less h k n).1
        ((downLoop_len less h k n).trans hlen) (by omega) (by omega)
      refine ⟨c₁ ++ c₂, ?_, hw₁.append hw₂⟩
      simp only [initLoop, show ((k + 1 : Nat) - 1 : Int) = k by omega, ge_iff_le, Int.natCast_nonneg,
        if_true, hd, Option.some_bind]
      rw [show wrap ((k : Int) - 1) = (k : Int) - 1 from wrap_of_le (by omega) (by omega), hl]
      simp [List.range_succ, hlen]

theorem init_nat (hn : h.len ≤ 9223372036854775807) (fuel : Nat) (hf : h.len < fuel) :
    ∃ calls, init (heapFull less) h fuel = some (ContainerHeap.init less h, calls) ∧
      CallsWithin h.len calls := by
  have hi : wrap (((h.len : Int)).tdiv 2 - 1) = ((h.len / 2 : Nat) : Int) - 1 := by
    rw [Int.tdiv_eq_ediv (by omega) (by decide), wrap_of_le (by omega) (by omega)]
    omega
  obtain ⟨calls, hl, hw⟩ := initLoop_nat less hn fuel hf (h.len / 2) fuel h rfl (by omega) (by omega)
  exact ⟨calls, by simpa [init, heapFull, hi, ContainerHeap.init] using hl, hw⟩

@[simp] theorem push_len (x : α) : (ContainerHeap.push less h x).len = h.len + 1 := by
  simp [ContainerHeap.push, Heap.append]

@[simp] theorem pop_len : (ContainerHeap.pop less h).1.len = h.len - 1 := by
  simp [ContainerHeap.pop, ContainerHeap.down, downLoop_len, Heap.removeLast]

theorem downUp_len (i n : Nat) : (ContainerHeap.downUp less h i n).len = h.len := by
  unfold ContainerHeap.downUp
  dsimp only
  split <;> simp [ContainerHeap.down, downLoop_len]

@[simp] theorem remove_len (i : Nat) : (ContainerHeap.remove less h i).1.len = h.len - 1 := by
  unfold ContainerHeap.remove
  dsimp only
  split_ifs <;> simp [downUp_len, Heap.removeLast]

@[simp] theorem fix_len (i : Nat) : (ContainerHeap.fix less h i).len = h.len :=
  downUp_len less h i h.len

theorem run_len_le (op : Op α) : (op.run less h).1.len ≤ h.len + 1 := by
  cases op <;> simp [Op.run] <;> omega

def lenAtCalls : Op α → Nat → Nat
  | .push _, n => n + 1
  | _, n => n

/-- One operation through the `int` functions, with `Len() + 1` passes for each
loop: the heap, what the operation returns, and the calls it makes. `Fix` is
called after the element at `i` is set to `x`. -/
def runOpInt : Op α → Heap α → Option ((Heap α × Option α) × List Call)
  | .push x, h => (push (heapFull less) h x (h.len + 1)).map fun r => ((r.1, none), r.2)
  | .pop, h => (pop (heapFull less) h (h.len + 1)).map fun r => ((r.1.1, some r.1.2), r.2)
  | .remove i, h => (remove (heapFull less) h i (h.len + 1)).map fun r => ((r.1.1, some r.1.2), r.2)
  | .fix i x, h =>
      (fix (heapFull less) ⟨Function.update h.data i x, h.len⟩ i (h.len + 1)).map fun r => ((r.1, none), r.2)

/-- A run of operations through the `int` functions: the final heap, what each
operation returns, and the calls each makes. -/
def runOpsInt : List (Op α) → Heap α → Option (Heap α × List (Option α) × List (List Call))
  | [], h => some (h, [], [])
  | op :: ops, h => (runOpInt less op h).bind fun r =>
      (runOpsInt ops r.1.1).map fun t => (t.1, r.1.2 :: t.2.1, r.2 :: t.2.2)

def RunCallsWithin : List (Op α) → Heap α → List (List Call) → Prop
  | [], _, [] => True
  | op :: ops, h, c :: cs => CallsWithin (lenAtCalls op h.len) c ∧ RunCallsWithin ops (op.run less h).1 cs
  | _, _, _ => False

theorem runOpInt_eq {op : Op α} (hv : op.Valid h.len) (hn : h.len < 9223372036854775807) :
    ∃ calls, runOpInt less op h = some (op.run less h, calls) ∧
      CallsWithin (lenAtCalls op h.len) calls := by
  cases op with
  | push x =>
      obtain ⟨calls, hp, hw⟩ := push_nat less h x hn (h.len + 1) (by omega)
      exact ⟨calls, by simp [runOpInt, hp, Op.run], by exact_mod_cast hw⟩
  | pop =>
      obtain ⟨calls, hp, hw⟩ := pop_nat less h hv (by omega) (h.len + 1) (by omega)
      exact ⟨calls, by simp [runOpInt, hp, Op.run], hw⟩
  | remove i =>
      obtain ⟨calls, hp, hw⟩ := remove_nat less h hv (by omega) (h.len + 1) (by omega)
      exact ⟨calls, by simp [runOpInt, hp, Op.run], hw⟩
  | fix i x =>
      obtain ⟨calls, hp, hw⟩ := fix_nat less ⟨Function.update h.data i x, h.len⟩ (i := i) hv hn.le
        (h.len + 1) (Nat.lt_succ_self _)
      exact ⟨calls, by simp [runOpInt, hp, Op.run], hw⟩

/-- A run of operations with the arguments the package documents, on a heap
that stays below `2^63 - 1` elements, through the `int` functions: what the
`Nat` model does, with every call's indices below the `Len()` it sees. -/
theorem runOpsInt_eq : ∀ (ops : List (Op α)) (h : Heap α), ValidRun less ops h →
    h.len + ops.length ≤ 9223372036854775807 →
    ∃ calls, runOpsInt less ops h = some ((runOps less ops h).1, (runOps less ops h).2, calls) ∧
      RunCallsWithin less ops h calls
  | [], _, _, _ => ⟨[], rfl, trivial⟩
  | op :: ops, h, ⟨hv, hvs⟩, hn => by
      simp only [List.length_cons] at hn
      obtain ⟨c, hc, hw⟩ := runOpInt_eq less h hv (by omega)
      obtain ⟨cs, hcs, hws⟩ := runOpsInt_eq ops (op.run less h).1 hvs
        (by have := run_len_le less h op; omega)
      exact ⟨c :: cs, by simp [runOpsInt, hc, hcs, runOps], hw, hws⟩

/-- The package with Go's `int`, over whole runs: `Init` of any `Heap` and then
every run of `Push`, `Pop`, `Remove` and `Fix` with the arguments the package
documents, on a heap that stays below `2^63 - 1` elements, ends within
`Len() + 1` passes of each loop, passes the user's `Less` and `Swap` only
indices below the `Len()` each call sees, and returns what a min-priority
queue of the initial elements returns. -/
theorem heap_runs_int64 [IsStrictWeakOrder α fun a b => less a b = true] (ops : List (Op α))
    (hn : h.len + ops.length ≤ 9223372036854775807) (hv : ValidRun less ops (ContainerHeap.init less h)) :
    ∃ c₀ calls, init (heapFull less) h (h.len + 1) = some (ContainerHeap.init less h, c₀) ∧
      CallsWithin h.len c₀ ∧
      runOpsInt less ops (ContainerHeap.init less h) = some ((runOps less ops (ContainerHeap.init less h)).1,
        (runOps less ops (ContainerHeap.init less h)).2, calls) ∧
      RunCallsWithin less ops (ContainerHeap.init less h) calls ∧
      QueueRun less h.elems ops (runOps less ops (ContainerHeap.init less h)).2
        (runOps less ops (ContainerHeap.init less h)).1.elems := by
  obtain ⟨hh, he, hl⟩ := @init_spec _ less _ h
  obtain ⟨c₀, hi, hw₀⟩ := init_nat less h (by omega) (h.len + 1) (by omega)
  obtain ⟨calls, hr, hw⟩ := runOpsInt_eq less ops _ hv (by omega)
  exact ⟨c₀, calls, hi, hw₀, hr, hw, he ▸ (runOps_spec ops _ hh hv).2⟩

/-- `Pop`, `Push(4)`, `Remove(1)`, and `Fix(0)` after element `0` is set to `7`. -/
def sampleOps : List (Op Nat) := [.pop, .push 4, .remove 1, .fix 0 7]

theorem sample_runs_int64 :
    ∃ c₀ calls, init (heapFull natLess) sample (sample.len + 1) =
        some (ContainerHeap.init natLess sample, c₀) ∧
      CallsWithin sample.len c₀ ∧
      runOpsInt natLess sampleOps (ContainerHeap.init natLess sample) =
        some ((runOps natLess sampleOps (ContainerHeap.init natLess sample)).1,
          (runOps natLess sampleOps (ContainerHeap.init natLess sample)).2, calls) ∧
      RunCallsWithin natLess sampleOps (ContainerHeap.init natLess sample) calls ∧
      QueueRun natLess sample.elems sampleOps (runOps natLess sampleOps (ContainerHeap.init natLess sample)).2
        (runOps natLess sampleOps (ContainerHeap.init natLess sample)).1.elems :=
  heap_runs_int64 natLess sample sampleOps (by decide) (by
    have hl : (ContainerHeap.init natLess sample).len = 6 := (@init_spec _ natLess _ sample).2.2
    simp [sampleOps, ValidRun, Op.Valid, Op.run, hl])

end GoStdlib.ContainerHeap.GoInt
