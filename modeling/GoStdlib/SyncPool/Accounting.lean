import GoStdlib.SyncPool.Invariant
import Mathlib

/-!
No item is handed out twice. Every copy a `Put` stores sits in one shard of the
heap; the only steps that change the copies of an item are the store of `Put`,
which adds one, and a take of `Get`, which removes the one it returns. So the
copies in the heap and the items `Get` returned from storage add up to the
items put, in every state of every interleaving, and the copies held by the
pools' `local` and `victim` tables are among those of the heap.
-/

namespace GoStdlib.SyncPool

open Finset

variable {α : Type} [DecidableEq α]

def PoolLocal.count (x : α) (l : PoolLocal α) : Nat :=
  (if l.priv = some x then 1 else 0) + l.shared.count x

def Table.count (x : α) (t : Table α) : Nat :=
  (t.locals.map (PoolLocal.count x)).sum

namespace State

def tableCount (s : State α) (x : α) (r : Nat) : Nat :=
  (s.tables[r]?.map (Table.count x)).getD 0

def shardCount (s : State α) (x : α) (ri : Nat × Nat) : Nat :=
  ((s.shard ri).map (PoolLocal.count x)).getD 0

def heapCount (s : State α) (x : α) : Nat :=
  ∑ r ∈ range s.tables.length, s.tableCount x r

def isPoolTable (s : State α) (r : Nat) : Bool :=
  s.pools.any fun q => decide (q.localPtr = some r ∨ q.victimPtr = some r)

/-- The copies of `x` stored in any current or victim table of any pool. -/
def storedCount (s : State α) (x : α) : Nat :=
  ∑ r ∈ range s.tables.length, if s.isPoolTable r then s.tableCount x r else 0

/-- The number of `Put(x)` calls that stored their item. -/
def putCount (s : State α) (x : α) : Nat :=
  (s.puts.map Prod.snd).count x

/-- The number of `Get` calls that returned `x` from storage. -/
def gotCount (s : State α) (x : α) : Nat :=
  (s.gets.map Prod.snd).count x

end State

namespace PoolLocal

theorem count_put (l : PoolLocal α) (y x : α) :
    (l.put y).count x = l.count x + if y = x then 1 else 0 := by
  unfold put count
  cases l.priv <;> simp [List.count_cons] <;> omega

/-- A take removes exactly the copy it answers. -/
def Conserves (f : PoolLocal α → Option α × PoolLocal α) : Prop :=
  ∀ l x, (f l).2.count x + (if (f l).1 = some x then 1 else 0) = l.count x

theorem conserves_getLocal : Conserves (getLocal (α := α)) := by
  intro l x
  unfold getLocal count
  rcases l with ⟨_ | y, _ | ⟨z, rest⟩⟩ <;> simp [List.count_cons]; omega

theorem conserves_takePrivate : Conserves (takePrivate (α := α)) := by
  intro l x
  simp [takePrivate, count]
  omega

theorem conserves_popTail : Conserves (popTail (α := α)) := by
  intro l x
  unfold popTail count
  cases h : l.shared.getLast? with
  | none => simp
  | some y =>
      obtain ⟨ys, hys⟩ := List.getLast?_eq_some_iff.mp h
      simp [hys, List.dropLast_concat, List.count_append, List.count_singleton]
      omega

end PoolLocal

theorem Takes.conserves {s : State α} {pid p : Nat} {ph next : Phase α} {ri : Nat × Nat}
    {f : PoolLocal α → Option α × PoolLocal α} (ht : Takes s pid ph p ri f next) :
    PoolLocal.Conserves f := by
  cases ht
  · exact PoolLocal.conserves_getLocal
  · exact PoolLocal.conserves_popTail
  · exact PoolLocal.conserves_takePrivate
  · exact PoolLocal.conserves_popTail

private theorem sum_map_set_add {β : Type} (g : β → Nat) :
    ∀ (l : List β) (n : Nat) (b : β) (hn : n < l.length),
      ((l.set n b).map g).sum + g l[n] = (l.map g).sum + g b
  | _ :: _, 0, _, _ => by simp; omega
  | a :: l, n + 1, b, hn => by
      have := sum_map_set_add g l n b (by simpa using hn)
      simp only [List.set_cons_succ, List.map_cons, List.sum_cons, List.getElem_cons_succ]
      omega

namespace State

variable (s : State α) (x : α)

theorem heapCount_congr {s' : State α} (h : s'.tables = s.tables) :
    s'.heapCount x = s.heapCount x := by
  simp [heapCount, tableCount, h]

theorem tableCount_setShard {ri : Nat × Nat} {loc : PoolLocal α} (h : s.shard ri = some loc)
    (v : PoolLocal α) (r : Nat) :
    (s.setShard ri v).tableCount x r + (if r = ri.1 then loc.count x else 0) =
      s.tableCount x r + (if r = ri.1 then v.count x else 0) := by
  unfold shard at h
  by_cases hr : r = ri.1
  · subst hr
    obtain ⟨t, ht, hloc⟩ := Option.bind_eq_some.mp h
    obtain ⟨hi, rfl⟩ := List.getElem?_eq_some_iff.mp hloc
    simp only [tableCount, setShard, List.getElem?_modify, ht, if_true, Option.map_some',
      Option.getD_some, Table.count, Option.map_eq_map, Option.map_some']
    exact sum_map_set_add _ _ _ _ hi
  · simp [tableCount, setShard, List.getElem?_modify, hr, Ne.symm hr]

theorem heapCount_setShard {ri : Nat × Nat} {loc : PoolLocal α} (h : s.shard ri = some loc)
    (v : PoolLocal α) : (s.setShard ri v).heapCount x + loc.count x = s.heapCount x + v.count x := by
  have hr : ri.1 ∈ range s.tables.length := by
    unfold shard at h
    obtain ⟨t, ht, -⟩ := Option.bind_eq_some.mp h
    exact mem_range.mpr (List.getElem?_eq_some_iff.mp ht).1
  have hsum := sum_congr rfl fun r (_ : r ∈ range s.tables.length) =>
    tableCount_setShard s x h v r
  rw [sum_add_distrib, sum_add_distrib, sum_ite_eq' _ _ (fun _ => loc.count x),
    sum_ite_eq' _ _ (fun _ => v.count x), if_pos hr, if_pos hr] at hsum
  simpa [heapCount] using hsum

theorem tableCount_congr {s' : State α} (h : s'.tables = s.tables) (r : Nat) :
    s'.tableCount x r = s.tableCount x r := by
  simp [tableCount, h]

theorem tableCount_length : s.tableCount x s.tables.length = 0 := by
  simp [tableCount]

theorem tableCount_install (p : Nat) (q : Pool α) (size r : Nat) :
    (s.install p q size).tableCount x r = s.tableCount x r := by
  simp only [tableCount, install_tables, List.getElem?_append]
  split_ifs with h₁
  · rfl
  · rw [List.getElem?_eq_none_iff.mpr (Nat.le_of_not_lt h₁)]
    by_cases h₂ : r = s.tables.length
    · simp [h₂, Table.count, PoolLocal.count, PoolLocal.empty, List.map_replicate]
    · rw [List.getElem?_eq_none_iff.mpr (by simp; omega)]

theorem heapCount_install (p : Nat) (q : Pool α) (size : Nat) :
    (s.install p q size).heapCount x = s.heapCount x := by
  simp only [heapCount, install_tables, List.length_append, List.length_singleton,
    sum_range_succ, tableCount_install, tableCount_length, add_zero]

theorem count_le_tableCount {ri : Nat × Nat} {loc : PoolLocal α} (h : s.shard ri = some loc) :
    loc.count x ≤ s.tableCount x ri.1 := by
  have := s.tableCount_setShard x h .empty ri.1
  simp only [if_true] at this
  have h0 : PoolLocal.empty.count x = 0 := by simp [PoolLocal.count, PoolLocal.empty]
  omega

omit [DecidableEq α] in
@[simp] theorem shard_setUnit (pid : Nat) (ph : Phase α) (ri : Nat × Nat) :
    (s.setUnit pid ph).shard ri = s.shard ri := rfl

omit [DecidableEq α] in
@[simp] theorem shard_finishPut (pid p : Nat) (y : α) (ri : Nat × Nat) :
    (s.finishPut pid p y).shard ri = s.shard ri := rfl

omit [DecidableEq α] in
@[simp] theorem shard_answer (pid p : Nat) (next : Phase α) (o : Option α) (ri : Nat × Nat) :
    (s.answer pid p next o).shard ri = s.shard ri := by
  cases o <;> rfl

omit [DecidableEq α] in
theorem shard_setShard {ri ri' : Nat × Nat} {loc : PoolLocal α} (h : s.shard ri = some loc)
    (v : PoolLocal α) : (s.setShard ri v).shard ri' = if ri' = ri then some v else s.shard ri' := by
  unfold shard at h ⊢
  obtain ⟨t, ht, hloc⟩ := Option.bind_eq_some.mp h
  have hi := (List.getElem?_eq_some_iff.mp hloc).1
  obtain ⟨r', i'⟩ := ri'
  obtain ⟨r, i⟩ := ri
  simp only [setShard, List.getElem?_modify, Prod.mk.injEq] at ht hi ⊢
  by_cases hr : r = r'
  · subst hr
    simp only [ht, if_true, Option.map_eq_map, Option.map_some', Option.some_bind,
      List.getElem?_set]
    by_cases hi' : i' = i
    · subst hi'
      simp [hi]
    · simp [hi', Ne.symm hi']
  · simp [hr, Ne.symm hr]

@[simp] theorem gotCount_answer (pid p : Nat) (next : Phase α) (o : Option α) :
    (s.answer pid p next o).gotCount x = s.gotCount x + if o = some x then 1 else 0 := by
  cases o <;> simp [answer, returnGet, gotCount, List.count_singleton]

end State

variable {s s' : State α}

/-- The copies of `x` a move changes: none, one added by the store of `Put`
to the shard it pinned, or one removed by the take that `Get` returns. -/
theorem Moves.copies (hm : Moves s s') (x : α) :
    (s'.puts = s.puts ∧ s'.gets = s.gets ∧ s'.heapCount x = s.heapCount x) ∨
    (∃ (pid p : Nat) (ri : Nat × Nat) (y : α), s.units[pid]? = some (.putPinned p (some ri) y) ∧
      s'.puts = s.puts ++ [(p, y)] ∧ s'.gets = s.gets ∧
      s'.shardCount x ri = s.shardCount x ri + (if y = x then 1 else 0) ∧
      (∀ ri', ri' ≠ ri → s'.shard ri' = s.shard ri') ∧
      s'.heapCount x = s.heapCount x + (if y = x then 1 else 0)) ∨
    (∃ (p : Nat) (y : α) (ri : Nat × Nat), s'.puts = s.puts ∧ s'.gets = s.gets ++ [(p, y)] ∧
      s'.shardCount x ri + (if y = x then 1 else 0) = s.shardCount x ri ∧
      (∀ ri', ri' ≠ ri → s'.shard ri' = s.shard ri') ∧
      s'.heapCount x + (if y = x then 1 else 0) = s.heapCount x) := by
  cases hm with
  | newPool | stutter | load | noVictim | clearVictim | gomaxprocs =>
      exact .inl ⟨rfl, rfl, State.heapCount_congr _ _ rfl⟩
  | pin _ hpin _ =>
      obtain ⟨q, -, ⟨-, rfl, -⟩ | ⟨-, -, rfl, -⟩⟩ := pin_eq_ok.mp hpin
      · exact .inl ⟨rfl, rfl, State.heapCount_congr _ _ rfl⟩
      · exact .inl ⟨rfl, rfl, (State.heapCount_congr _ _ rfl).trans (s.heapCount_install x _ q _)⟩
  | @write pid p ri y loc hu hloc =>
      have hheap := s.heapCount_setShard x hloc (loc.put y)
      rw [PoolLocal.count_put] at hheap
      refine .inr (.inl ⟨pid, p, ri, y, hu, rfl, rfl, ?_, fun ri' h => ?_, by
        change (s.setShard ri (loc.put y)).heapCount x = _; omega⟩)
      · simp [State.shardCount, State.shard_setShard _ hloc, hloc, PoolLocal.count_put]
      · simp [State.shard_setShard _ hloc, h]
  | @take pid p ph next ri f loc hu ht hloc =>
      have hheap := s.heapCount_setShard x hloc (f loc).2
      have hcons := ht.conserves loc x
      cases hf : (f loc).1 with
      | none =>
          refine .inl ⟨by simp, by simp, ?_⟩
          change (s.setShard ri (f loc).2).heapCount x = _
          simp [hf] at hcons
          omega
      | some y =>
          simp only [hf, Option.some.injEq] at hcons
          refine .inr (.inr ⟨p, y, ri, by simp, by simp, ?_, fun ri' h => ?_, ?_⟩)
          · simp [State.shardCount, State.shard_setShard _ hloc, hloc, ← hcons]
          · simp [State.shard_setShard _ hloc, h]
          · change (s.setShard ri (f loc).2).heapCount x + _ = _
            omega

private theorem count_snd_append (l : List (Nat × α)) (p : Nat) (y x : α) :
    ((l ++ [(p, y)]).map Prod.snd).count x = (l.map Prod.snd).count x + if y = x then 1 else 0 := by
  simp [List.count_singleton]

/-- Copies in the heap and items returned from storage add up to the items put. -/
theorem Reachable.balance (hs : Reachable s) (x : α) :
    s.heapCount x + s.gotCount x = s.putCount x := by
  induction hs with
  | init n => simp [State.heapCount, State.gotCount, State.putCount, GoStdlib.SyncPool.init]
  | step a _ h ih =>
      rcases step_moves h with ⟨-, -, rfl⟩ | hm
      · exact ih
      · rcases hm.copies x with ⟨hp, hg, hh⟩ | ⟨_, _, _, _, _, hp, hg, -, -, hh⟩ |
            ⟨_, _, _, hp, hg, -, -, hh⟩ <;>
          simp only [State.gotCount, State.putCount, hp, hg, count_snd_append] at ih ⊢ <;> omega

theorem State.storedCount_le_heapCount (s : State α) (x : α) : s.storedCount x ≤ s.heapCount x :=
  sum_le_sum fun r _ => by split_ifs <;> simp

/-- No duplication: in every state of every interleaving, the copies of `x`
held by the pools' current and victim tables and the `Get`s that returned `x`
from storage are at most the `Put(x)` calls. A step either leaves the copies
of `x`, the `Put`s and the `Get`s alone, or is the store of a `Put(y)` that adds
one copy of `y` to the shard that `pin` returned and to nothing else, or is a
take that `Get` returns, which removes that one copy from the shard it read. -/
theorem no_duplication (hs : Reachable s) (x : α) :
    s.storedCount x + s.gotCount x ≤ s.putCount x ∧
    ∀ (a : Action α) (s' : State α), step s a = .ok s' →
      (s'.puts = s.puts ∧ s'.gets = s.gets ∧ s'.heapCount x = s.heapCount x) ∨
      (∃ (pid p : Nat) (ri : Nat × Nat) (y : α),
        s.units[pid]? = some (.putPinned p (some ri) y) ∧
        s'.puts = s.puts ++ [(p, y)] ∧ s'.gets = s.gets ∧
        s'.shardCount x ri = s.shardCount x ri + (if y = x then 1 else 0) ∧
        (∀ ri', ri' ≠ ri → s'.shard ri' = s.shard ri') ∧
        s'.heapCount x = s.heapCount x + (if y = x then 1 else 0)) ∨
      (∃ (p : Nat) (y : α) (ri : Nat × Nat), s'.puts = s.puts ∧ s'.gets = s.gets ++ [(p, y)] ∧
        s'.shardCount x ri + (if y = x then 1 else 0) = s.shardCount x ri ∧
        (∀ ri', ri' ≠ ri → s'.shard ri' = s.shard ri') ∧
        s'.heapCount x + (if y = x then 1 else 0) = s.heapCount x) := by
  refine ⟨?_, fun a s' h => ?_⟩
  · have := hs.balance x
    have := s.storedCount_le_heapCount x
    omega
  · rcases step_moves h with ⟨-, -, rfl⟩ | hm
    · exact .inl ⟨rfl, rfl, rfl⟩
    · exact hm.copies x

theorem putRotatePut_no_duplication :
    putRotatePut.storedCount 7 + putRotatePut.gotCount 7 ≤ putRotatePut.putCount 7 :=
  (no_duplication putRotatePut_reachable 7).1

end GoStdlib.SyncPool
