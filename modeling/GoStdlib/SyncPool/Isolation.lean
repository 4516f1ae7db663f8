import GoStdlib.SyncPool.Rotation

/-!
Pools do not share items. Every table belongs to the pool whose `pinSlow`
allocated it; the store of a `Put` writes a table of the pool it was called
on, and a take of `Get` reads one. So for each pool the copies of an item in
the tables it allocated, reachable from it or dropped by a rotation or a
`GOMAXPROCS` change, and the items `Get` on it returned, add up to the items
`Put` into it. No item moves from one pool to another, and no `Get` on a pool
returns an item that was not put into that pool.
-/

namespace GoStdlib.SyncPool

open Finset

variable {α : Type} [DecidableEq α] {s s' : State α}

namespace State

def ownedCount (s : State α) (p : Nat) (x : α) : Nat :=
  ∑ r ∈ range s.tables.length, if s.ownerOf r = some p then s.tableCount x r else 0

variable (p : Nat) (x : α)

theorem ownedCount_congr (h : s'.tables = s.tables) : s'.ownedCount p x = s.ownedCount p x := by
  simp [ownedCount, ownerOf, tableCount, h]

theorem ownedCount_setShard {ri : Nat × Nat} {loc : PoolLocal α} (h : s.shard ri = some loc)
    (v : PoolLocal α) :
    (s.setShard ri v).ownedCount p x + (if s.ownerOf ri.1 = some p then loc.count x else 0) =
      s.ownedCount p x + (if s.ownerOf ri.1 = some p then v.count x else 0) := by
  have hr : ri.1 ∈ range s.tables.length := by
    unfold shard at h
    obtain ⟨t, ht, -⟩ := Option.bind_eq_some.mp h
    exact mem_range.mpr (List.getElem?_eq_some_iff.mp ht).1
  have hsum := sum_congr rfl fun r (_ : r ∈ range s.tables.length) =>
    show (if (s.setShard ri v).ownerOf r = some p then (s.setShard ri v).tableCount x r else 0) +
        (if r = ri.1 then (if s.ownerOf ri.1 = some p then loc.count x else 0) else 0) =
      (if s.ownerOf r = some p then s.tableCount x r else 0) +
        (if r = ri.1 then (if s.ownerOf ri.1 = some p then v.count x else 0) else 0) by
    have := s.tableCount_setShard x h v r
    rw [ownerOf_setShard]
    by_cases hri : r = ri.1
    · subst hri
      split_ifs at this ⊢ <;> omega
    · simp only [hri, if_false] at this ⊢
      split_ifs <;> omega
  rw [sum_add_distrib, sum_add_distrib, sum_ite_eq' _ _ (fun _ => _),
    sum_ite_eq' _ _ (fun _ => _), if_pos hr, if_pos hr] at hsum
  simpa [ownedCount] using hsum

theorem ownedCount_install (p' : Nat) (q : Pool α) (size : Nat) :
    (s.install p' q size).ownedCount p x = s.ownedCount p x := by
  simp only [ownedCount, install_tables, List.length_append, List.length_singleton,
    sum_range_succ, tableCount_install, tableCount_length, ite_self, add_zero]
  refine sum_congr rfl fun r hr => ?_
  rw [ownerOf_install, if_neg (Nat.ne_of_lt (mem_range.mp hr))]

@[simp] theorem ownedCount_setUnit (pid : Nat) (ph : Phase α) :
    (s.setUnit pid ph).ownedCount p x = s.ownedCount p x :=
  ownedCount_congr p x rfl

@[simp] theorem ownedCount_answer (pid p' : Nat) (next : Phase α) (o : Option α) :
    (s.answer pid p' next o).ownedCount p x = s.ownedCount p x :=
  ownedCount_congr p x (answer_tables _ _ _ _ _)

theorem tableCount_le_ownedCount {r : Nat} (h : s.ownerOf r = some p) :
    s.tableCount x r ≤ s.ownedCount p x := by
  have hr := mem_range.mpr (s.lt_length_of_ownerOf h)
  simpa [h] using single_le_sum (f := fun r => if s.ownerOf r = some p then s.tableCount x r else 0)
    (fun _ _ => Nat.zero_le _) hr

theorem tableCount_add_le_ownedCount {r₁ r₂ : Nat} (hne : r₁ ≠ r₂) (h₁ : s.ownerOf r₁ = some p)
    (h₂ : s.ownerOf r₂ = some p) : s.tableCount x r₁ + s.tableCount x r₂ ≤ s.ownedCount p x := by
  have hsub : ({r₁, r₂} : Finset Nat) ⊆ range s.tables.length := by
    simp [insert_subset_iff, s.lt_length_of_ownerOf h₁, s.lt_length_of_ownerOf h₂]
  simpa [sum_pair hne, h₁, h₂] using sum_le_sum_of_subset
    (f := fun r => if s.ownerOf r = some p then s.tableCount x r else 0) hsub

end State

theorem Inv.poolCount_le_ownedCount (hi : Inv s) (p : Nat) (x : α) :
    s.poolCount p x ≤ s.ownedCount p x := by
  cases hq : s.pools[p]? with
  | none => simp [State.poolCount, hq]
  | some q =>
      have hok := hi.pools p q hq
      simp only [State.poolCount, hq, Option.map_some', Option.getD_some]
      cases hl : q.localPtr with
      | none =>
          cases hv : q.victimPtr with
          | none => simp [State.ptrCount]
          | some r => simpa [State.ptrCount] using s.tableCount_le_ownedCount p x (hok.victim_owned r hv)
      | some r₁ =>
          cases hv : q.victimPtr with
          | none => simpa [State.ptrCount] using s.tableCount_le_ownedCount p x (hok.local_owned r₁ hl)
          | some r₂ =>
              have hne : r₁ ≠ r₂ := fun h => hok.local_ne_victim r₁ hl (h ▸ hv)
              exact s.tableCount_add_le_ownedCount p x hne (hok.local_owned r₁ hl) (hok.victim_owned r₂ hv)

/-- Every move keeps, for each pool, the copies in its tables plus the items
`Get` on it returned, against the items `Put` into it. -/
theorem Moves.pool_balance (hi : Inv s) (hm : Moves s s') (p : Nat) (x : α) :
    s'.ownedCount p x + s'.gotFrom p x + s.putsInto p x =
      s.ownedCount p x + s.gotFrom p x + s'.putsInto p x := by
  cases hm with
  | newPool | stutter | load | noVictim | clearVictim | gomaxprocs => rfl
  | pin _ hpin _ =>
      obtain ⟨q, -, ⟨-, rfl, -⟩ | ⟨-, -, rfl, -⟩⟩ := pin_eq_ok.mp hpin
      · rfl
      · simp [State.ownedCount_install, State.gotFrom, State.putsInto]
  | @write pid p' ri y loc hu hloc =>
      obtain ⟨r, hri, -, ho⟩ := hi.units pid _ hu
      cases hri
      have hown := s.ownedCount_setShard p x hloc (loc.put y)
      rw [PoolLocal.count_put, ho] at hown
      change (s.setShard (r, pid) (loc.put y)).ownedCount p x + s.gotFrom p x + s.putsInto p x =
        s.ownedCount p x + s.gotFrom p x + (s.puts ++ [(p', y)]).count (p, x)
      by_cases hp : p' = p <;> simp [hp, State.putsInto, List.count_cons] at hown ⊢ <;> omega
  | @take pid p' ph next ri f loc hu ht hloc =>
      have hown := s.ownedCount_setShard p x hloc (f loc).2
      rw [hi.reads_owned (ht.reads hu), ← ht.conserves loc x] at hown
      cases hf : (f loc).1 <;> by_cases hp : p' = p <;>
        simp [hp, hf, State.gotFrom, State.putsInto, List.count_cons] at hown ⊢ <;> omega

/-- Pools do not share items: in every state of every interleaving, for every
pool `p` and item `x`, the copies of `x` in the tables `p` allocated and the
`Get`s on `p` that returned `x` from storage add up exactly to the `Put(x)`
calls on `p` that stored their item. So what `p` holds in its `local` and
`victim` tables, with what `Get` on `p` returned, is at most what was put
into `p`: a `Get` never returns an item put only into another pool. -/
theorem pool_isolation (hs : Reachable s) (p : Nat) (x : α) :
    s.ownedCount p x + s.gotFrom p x = s.putsInto p x ∧
      s.poolCount p x + s.gotFrom p x ≤ s.putsInto p x := by
  have hbal : s.ownedCount p x + s.gotFrom p x = s.putsInto p x := by
    induction hs with
    | init n => simp [State.ownedCount, State.gotFrom, State.putsInto, init]
    | step a hs h ih =>
        rcases step_moves h with ⟨-, -, rfl⟩ | hm
        · exact ih
        · have := hm.pool_balance hs.inv p x
          omega
  exact ⟨hbal, by have := hs.inv.poolCount_le_ownedCount p x; omega⟩

theorem putRotatePut_pool_isolation :
    putRotatePut.ownedCount 0 7 + putRotatePut.gotFrom 0 7 = putRotatePut.putsInto 0 7 ∧
      putRotatePut.poolCount 0 7 + putRotatePut.gotFrom 0 7 ≤ putRotatePut.putsInto 0 7 :=
  pool_isolation putRotatePut_reachable 0 7

end GoStdlib.SyncPool
