import GoStdlib.SyncPool.Model
import Mathlib.Data.List.Nodup

/-!
The invariant of every reachable state of the pool model. It ties each pool to
the registries (`allPools` holds exactly the pools with a `local` table, once
each; `oldPools` every pool with a `victim`), the sizes to the tables, every
table to the one pool that allocated it, and every pinned P to a pointer that
is inside its table. Index safety is then the statement that no step faults.
-/

namespace GoStdlib.SyncPool

variable {α : Type}

namespace State

def ownerOf (s : State α) (r : Nat) : Option Nat :=
  s.tables[r]?.map (·.owner)

variable (s : State α)

@[simp] theorem setShard_pools (l : Nat × Nat) (v : PoolLocal α) :
    (s.setShard l v).pools = s.pools := rfl
@[simp] theorem setShard_allPools (l : Nat × Nat) (v : PoolLocal α) :
    (s.setShard l v).allPools = s.allPools := rfl
@[simp] theorem setShard_oldPools (l : Nat × Nat) (v : PoolLocal α) :
    (s.setShard l v).oldPools = s.oldPools := rfl
@[simp] theorem setShard_units (l : Nat × Nat) (v : PoolLocal α) :
    (s.setShard l v).units = s.units := rfl
@[simp] theorem setShard_puts (l : Nat × Nat) (v : PoolLocal α) :
    (s.setShard l v).puts = s.puts := rfl
@[simp] theorem setShard_gets (l : Nat × Nat) (v : PoolLocal α) :
    (s.setShard l v).gets = s.gets := rfl
@[simp] theorem setShard_news (l : Nat × Nat) (v : PoolLocal α) :
    (s.setShard l v).news = s.news := rfl
@[simp] theorem setShard_tables_length (l : Nat × Nat) (v : PoolLocal α) :
    (s.setShard l v).tables.length = s.tables.length := by
  simp [setShard]

@[simp] theorem tableLen_setShard (l : Nat × Nat) (v : PoolLocal α) (r : Nat) :
    (s.setShard l v).tableLen r = s.tableLen r := by
  simp only [tableLen, setShard, List.getElem?_modify]
  cases s.tables[r]? <;> simp
  split <;> simp

@[simp] theorem ownerOf_setShard (l : Nat × Nat) (v : PoolLocal α) (r : Nat) :
    (s.setShard l v).ownerOf r = s.ownerOf r := by
  simp only [ownerOf, setShard, List.getElem?_modify]
  cases s.tables[r]? <;> simp
  split <;> rfl

@[simp] theorem setUnit_pools (pid : Nat) (ph : Phase α) : (s.setUnit pid ph).pools = s.pools := rfl
@[simp] theorem setUnit_tables (pid : Nat) (ph : Phase α) :
    (s.setUnit pid ph).tables = s.tables := rfl
@[simp] theorem setUnit_allPools (pid : Nat) (ph : Phase α) :
    (s.setUnit pid ph).allPools = s.allPools := rfl
@[simp] theorem setUnit_oldPools (pid : Nat) (ph : Phase α) :
    (s.setUnit pid ph).oldPools = s.oldPools := rfl
@[simp] theorem setUnit_units (pid : Nat) (ph : Phase α) :
    (s.setUnit pid ph).units = s.units.set pid ph := rfl
@[simp] theorem setUnit_puts (pid : Nat) (ph : Phase α) : (s.setUnit pid ph).puts = s.puts := rfl
@[simp] theorem setUnit_gets (pid : Nat) (ph : Phase α) : (s.setUnit pid ph).gets = s.gets := rfl
@[simp] theorem setUnit_news (pid : Nat) (ph : Phase α) : (s.setUnit pid ph).news = s.news := rfl

@[simp] theorem returnNew_pools (pid p : Nat) : (s.returnNew pid p).pools = s.pools := rfl
@[simp] theorem returnNew_tables (pid p : Nat) : (s.returnNew pid p).tables = s.tables := rfl
@[simp] theorem returnNew_allPools (pid p : Nat) : (s.returnNew pid p).allPools = s.allPools := rfl
@[simp] theorem returnNew_oldPools (pid p : Nat) : (s.returnNew pid p).oldPools = s.oldPools := rfl
@[simp] theorem returnNew_units (pid p : Nat) :
    (s.returnNew pid p).units = s.units.set pid .idle := rfl
@[simp] theorem returnNew_puts (pid p : Nat) : (s.returnNew pid p).puts = s.puts := rfl
@[simp] theorem returnNew_gets (pid p : Nat) : (s.returnNew pid p).gets = s.gets := rfl
@[simp] theorem returnNew_news (pid p : Nat) :
    (s.returnNew pid p).news = s.news ++ [(p, s.pools[p]?.bind Pool.New)] := rfl

@[simp] theorem finishPut_pools (pid p : Nat) (x : α) : (s.finishPut pid p x).pools = s.pools := rfl
@[simp] theorem finishPut_tables (pid p : Nat) (x : α) :
    (s.finishPut pid p x).tables = s.tables := rfl
@[simp] theorem finishPut_allPools (pid p : Nat) (x : α) :
    (s.finishPut pid p x).allPools = s.allPools := rfl
@[simp] theorem finishPut_oldPools (pid p : Nat) (x : α) :
    (s.finishPut pid p x).oldPools = s.oldPools := rfl
@[simp] theorem finishPut_units (pid p : Nat) (x : α) :
    (s.finishPut pid p x).units = s.units.set pid .idle := rfl
@[simp] theorem finishPut_puts (pid p : Nat) (x : α) :
    (s.finishPut pid p x).puts = s.puts ++ [(p, x)] := rfl
@[simp] theorem finishPut_gets (pid p : Nat) (x : α) : (s.finishPut pid p x).gets = s.gets := rfl

@[simp] theorem addPool_pools (New : Option α) :
    (s.addPool New).pools = s.pools ++ [⟨none, 0, none, 0, New⟩] := rfl
@[simp] theorem addPool_tables (New : Option α) : (s.addPool New).tables = s.tables := rfl
@[simp] theorem addPool_allPools (New : Option α) : (s.addPool New).allPools = s.allPools := rfl
@[simp] theorem addPool_oldPools (New : Option α) : (s.addPool New).oldPools = s.oldPools := rfl
@[simp] theorem addPool_units (New : Option α) : (s.addPool New).units = s.units := rfl
@[simp] theorem addPool_puts (New : Option α) : (s.addPool New).puts = s.puts := rfl
@[simp] theorem addPool_gets (New : Option α) : (s.addPool New).gets = s.gets := rfl

@[simp] theorem clearVictimSize_pools (p : Nat) :
    (s.clearVictimSize p).pools = s.pools.modify (fun q => { q with victimSize := 0 }) p := rfl
@[simp] theorem clearVictimSize_tables (p : Nat) : (s.clearVictimSize p).tables = s.tables := rfl
@[simp] theorem clearVictimSize_allPools (p : Nat) :
    (s.clearVictimSize p).allPools = s.allPools := rfl
@[simp] theorem clearVictimSize_oldPools (p : Nat) :
    (s.clearVictimSize p).oldPools = s.oldPools := rfl
@[simp] theorem clearVictimSize_units (p : Nat) : (s.clearVictimSize p).units = s.units := rfl
@[simp] theorem clearVictimSize_puts (p : Nat) : (s.clearVictimSize p).puts = s.puts := rfl
@[simp] theorem clearVictimSize_gets (p : Nat) : (s.clearVictimSize p).gets = s.gets := rfl
@[simp] theorem clearVictimSize_news (p : Nat) : (s.clearVictimSize p).news = s.news := rfl

@[simp] theorem setProcs_pools (n : Nat) : (s.setProcs n).pools = s.pools := rfl
@[simp] theorem setProcs_tables (n : Nat) : (s.setProcs n).tables = s.tables := rfl
@[simp] theorem setProcs_allPools (n : Nat) : (s.setProcs n).allPools = s.allPools := rfl
@[simp] theorem setProcs_oldPools (n : Nat) : (s.setProcs n).oldPools = s.oldPools := rfl
@[simp] theorem setProcs_units (n : Nat) : (s.setProcs n).units = List.replicate n .idle := rfl
@[simp] theorem setProcs_puts (n : Nat) : (s.setProcs n).puts = s.puts := rfl
@[simp] theorem setProcs_gets (n : Nat) : (s.setProcs n).gets = s.gets := rfl

@[simp] theorem answer_gets (pid p : Nat) (next : Phase α) (x : Option α) :
    (s.answer pid p next x).gets = s.gets ++ (x.map fun v => (p, v)).toList := by
  cases x <;> simp [answer, returnGet]
@[simp] theorem answer_pools (pid p : Nat) (next : Phase α) (x : Option α) :
    (s.answer pid p next x).pools = s.pools := by cases x <;> rfl
@[simp] theorem answer_tables (pid p : Nat) (next : Phase α) (x : Option α) :
    (s.answer pid p next x).tables = s.tables := by cases x <;> rfl
@[simp] theorem answer_allPools (pid p : Nat) (next : Phase α) (x : Option α) :
    (s.answer pid p next x).allPools = s.allPools := by cases x <;> rfl
@[simp] theorem answer_oldPools (pid p : Nat) (next : Phase α) (x : Option α) :
    (s.answer pid p next x).oldPools = s.oldPools := by cases x <;> rfl
@[simp] theorem answer_puts (pid p : Nat) (next : Phase α) (x : Option α) :
    (s.answer pid p next x).puts = s.puts := by cases x <;> rfl
@[simp] theorem answer_news (pid p : Nat) (next : Phase α) (x : Option α) :
    (s.answer pid p next x).news = s.news := by cases x <;> rfl

@[simp] theorem answer_units (pid p : Nat) (next : Phase α) (x : Option α) :
    (s.answer pid p next x).units = s.units.set pid (x.elim next fun _ => .idle) := by
  cases x <;> rfl

theorem tableLen_of_length_le {r : Nat} (h : s.tables.length ≤ r) : s.tableLen r = 0 := by
  simp [tableLen, List.getElem?_eq_none_iff.mpr h]

theorem lt_length_of_ownerOf {r p : Nat} (h : s.ownerOf r = some p) : r < s.tables.length := by
  by_contra hr
  simp [ownerOf, List.getElem?_eq_none_iff.mpr (Nat.le_of_not_lt hr)] at h

@[simp] theorem install_tables (p : Nat) (q : Pool α) (size : Nat) :
    (s.install p q size).tables = s.tables ++ [⟨p, List.replicate size .empty⟩] := rfl
@[simp] theorem install_pools (p : Nat) (q : Pool α) (size : Nat) :
    (s.install p q size).pools =
      s.pools.set p { q with localPtr := some s.tables.length, localSize := size } := rfl
@[simp] theorem install_oldPools (p : Nat) (q : Pool α) (size : Nat) :
    (s.install p q size).oldPools = s.oldPools := rfl
@[simp] theorem install_units (p : Nat) (q : Pool α) (size : Nat) :
    (s.install p q size).units = s.units := rfl
@[simp] theorem install_puts (p : Nat) (q : Pool α) (size : Nat) :
    (s.install p q size).puts = s.puts := rfl
@[simp] theorem install_gets (p : Nat) (q : Pool α) (size : Nat) :
    (s.install p q size).gets = s.gets := rfl
@[simp] theorem install_news (p : Nat) (q : Pool α) (size : Nat) :
    (s.install p q size).news = s.news := rfl

theorem tableLen_install (p : Nat) (q : Pool α) (size r : Nat) :
    (s.install p q size).tableLen r = if r = s.tables.length then size else s.tableLen r := by
  simp only [tableLen, install_tables, List.getElem?_append]
  split_ifs with h₁ h₂ h₂
  · omega
  · rfl
  · simp [h₂]
  · rw [List.getElem?_eq_none_iff.mpr (by simp; omega),
      List.getElem?_eq_none_iff.mpr (by omega)]

theorem ownerOf_install (p : Nat) (q : Pool α) (size r : Nat) :
    (s.install p q size).ownerOf r = if r = s.tables.length then some p else s.ownerOf r := by
  simp only [ownerOf, install_tables, List.getElem?_append]
  split_ifs with h₁ h₂ h₂
  · omega
  · rfl
  · simp [h₂]
  · rw [List.getElem?_eq_none_iff.mpr (by simp; omega),
      List.getElem?_eq_none_iff.mpr (by omega)]

end State

/-- What every step but `poolCleanup` keeps: each table its owner and size,
and each pool its `victim`, with a `localSize` that does not shrink. -/
structure Grows (s s' : State α) : Prop where
  length_le : s.tables.length ≤ s'.tables.length
  tableLen_eq : ∀ r, r < s.tables.length → s'.tableLen r = s.tableLen r
  ownerOf_eq : ∀ r, r < s.tables.length → s'.ownerOf r = s.ownerOf r
  pools : ∀ (p : Nat) (q : Pool α), s.pools[p]? = some q →
    ∃ q' : Pool α, s'.pools[p]? = some q' ∧ q.localSize ≤ q'.localSize ∧ q'.victimPtr = q.victimPtr

namespace Grows

variable {s s' s'' : State α}

theorem refl (s : State α) : Grows s s :=
  ⟨le_rfl, fun _ _ => rfl, fun _ _ => rfl, fun _ q h => ⟨q, h, le_rfl, rfl⟩⟩

theorem trans (h₁ : Grows s s') (h₂ : Grows s' s'') : Grows s s'' where
  length_le := h₁.length_le.trans h₂.length_le
  tableLen_eq r hr := (h₂.tableLen_eq r (by have := h₁.length_le; omega)).trans (h₁.tableLen_eq r hr)
  ownerOf_eq r hr := (h₂.ownerOf_eq r (by have := h₁.length_le; omega)).trans (h₁.ownerOf_eq r hr)
  pools p q hq := by
    obtain ⟨q', hq', hle, hv⟩ := h₁.pools p q hq
    obtain ⟨q'', hq'', hle', hv'⟩ := h₂.pools p q' hq'
    exact ⟨q'', hq'', hle.trans hle', hv'.trans hv⟩

theorem of_eq (ht : s'.tables = s.tables) (hp : s'.pools = s.pools) : Grows s s' where
  length_le := by rw [ht]
  tableLen_eq r _ := by simp [State.tableLen, ht]
  ownerOf_eq r _ := by simp [State.ownerOf, ht]
  pools p q hq := ⟨q, by rw [hp, hq], le_rfl, rfl⟩

theorem tableLen_le (h : Grows s s') (r : Nat) : s.tableLen r ≤ s'.tableLen r := by
  by_cases hr : r < s.tables.length
  · exact (h.tableLen_eq r hr).ge
  · rw [s.tableLen_of_length_le (Nat.le_of_not_lt hr)]
    exact Nat.zero_le _

theorem ownerOf_some (h : Grows s s') {r p : Nat} (ho : s.ownerOf r = some p) :
    s'.ownerOf r = some p :=
  (h.ownerOf_eq r (s.lt_length_of_ownerOf ho)).trans ho

end Grows

theorem grows_setShard (s : State α) (l : Nat × Nat) (v : PoolLocal α) : Grows s (s.setShard l v) where
  length_le := by simp
  tableLen_eq r _ := by simp
  ownerOf_eq r _ := by simp
  pools p q hq := ⟨q, hq, le_rfl, rfl⟩

theorem grows_install {s : State α} {p size : Nat} {q : Pool α} (hq : s.pools[p]? = some q)
    (hle : q.localSize ≤ size) : Grows s (s.install p q size) where
  length_le := by simp
  tableLen_eq r hr := by rw [State.tableLen_install, if_neg (by omega)]
  ownerOf_eq r hr := by rw [State.ownerOf_install, if_neg (by omega)]
  pools p' q' hq' := by
    by_cases hp : p = p'
    · subst hp
      rw [hq] at hq'
      cases hq'
      exact ⟨{ q with localPtr := some s.tables.length, localSize := size },
        by simp [List.getElem?_set, (List.getElem?_eq_some_iff.mp hq).1], hle, rfl⟩
    · exact ⟨q', by simp [List.getElem?_set_ne hp, hq'], le_rfl, rfl⟩

theorem grows_clearVictimSize (s : State α) (p : Nat) : Grows s (s.clearVictimSize p) where
  length_le := le_rfl
  tableLen_eq _ _ := rfl
  ownerOf_eq _ _ := rfl
  pools p' q hq := by
    refine ⟨if p = p' then { q with victimSize := 0 } else q, by simp [List.getElem?_modify, hq], ?_⟩
    split_ifs <;> exact ⟨le_rfl, rfl⟩

/-- What the phase of a pinned P guarantees: its pointer is its own shard of a
table of its pool, its snapshot of `localSize` is not above the pool's, a
snapshot of a table and its size fits that table, and the victim it reads is
the pool's. -/
def PhaseOk (s : State α) (pid : Nat) : Phase α → Prop
  | .idle | .slowLoadSize _ => True
  | .putPinned p l _ | .getPinned p l =>
      ∃ r, l = some (r, pid) ∧ pid < s.tableLen r ∧ s.ownerOf r = some p
  | .slowLoadLocal p size => ∃ q : Pool α, s.pools[p]? = some q ∧ size ≤ q.localSize
  | .steal p size locals _ =>
      (locals = none ∧ size = 0) ∨ ∃ r, locals = some r ∧ size ≤ s.tableLen r ∧ s.ownerOf r = some p
  | .victimPrivate p size =>
      ∃ (q : Pool α) (r : Nat), s.pools[p]? = some q ∧ q.victimPtr = some r ∧ pid < size ∧
        size ≤ s.tableLen r
  | .victimSteal p size locals _ =>
      ∃ (q : Pool α) (r : Nat), s.pools[p]? = some q ∧ q.victimPtr = some r ∧ locals = some r ∧
        size ≤ s.tableLen r

/-- What holds of pool `p`, with fields `q`. -/
structure PoolOk (s : State α) (p : Nat) (q : Pool α) : Prop where
  registered : q.localPtr.isSome ↔ p ∈ s.allPools
  victim_old : q.victimPtr.isSome → p ∈ s.oldPools
  localSize_eq : q.localSize = s.ptrLen q.localPtr
  victimSize_le : q.victimSize ≤ s.ptrLen q.victimPtr
  local_owned : ∀ r, q.localPtr = some r → s.ownerOf r = some p
  victim_owned : ∀ r, q.victimPtr = some r → s.ownerOf r = some p
  local_ne_victim : ∀ r, q.localPtr = some r → q.victimPtr ≠ some r

/-- The invariant of every reachable state. -/
structure Inv (s : State α) : Prop where
  allPools_nodup : s.allPools.Nodup
  oldPools_nodup : s.oldPools.Nodup
  allPools_lt : ∀ p ∈ s.allPools, p < s.pools.length
  pools : ∀ p q, s.pools[p]? = some q → PoolOk s p q
  units : ∀ pid ph, s.units[pid]? = some ph → PhaseOk s pid ph

variable {s s' : State α}

theorem PhaseOk.mono {pid : Nat} {ph : Phase α} (h : Grows s s') (hph : PhaseOk s pid ph) :
    PhaseOk s' pid ph := by
  cases ph with
  | idle | slowLoadSize => trivial
  | putPinned p l x | getPinned p l =>
      obtain ⟨r, rfl, hlt, ho⟩ := hph
      exact ⟨r, rfl, hlt.trans_le (h.tableLen_le r), h.ownerOf_some ho⟩
  | slowLoadLocal p size =>
      obtain ⟨q, hq, hle⟩ := hph
      obtain ⟨q', hq', hle', -⟩ := h.pools p q hq
      exact ⟨q', hq', hle.trans hle'⟩
  | steal p size locals i =>
      refine hph.imp id ?_
      rintro ⟨r, rfl, hle, ho⟩
      exact ⟨r, rfl, hle.trans (h.tableLen_le r), h.ownerOf_some ho⟩
  | victimPrivate p size =>
      obtain ⟨q, r, hq, hv, hlt, hle⟩ := hph
      obtain ⟨q', hq', -, hv'⟩ := h.pools p q hq
      exact ⟨q', r, hq', hv'.trans hv, hlt, hle.trans (h.tableLen_le r)⟩
  | victimSteal p size locals i =>
      obtain ⟨q, r, hq, hv, rfl, hle⟩ := hph
      obtain ⟨q', hq', -, hv'⟩ := h.pools p q hq
      exact ⟨q', r, hq', hv'.trans hv, rfl, hle.trans (h.tableLen_le r)⟩

theorem Grows.ptrLen_eq (h : Grows s s') {l : Option Nat} {p : Nat}
    (ho : ∀ r, l = some r → s.ownerOf r = some p) : s'.ptrLen l = s.ptrLen l := by
  cases l with
  | none => rfl
  | some r => exact h.tableLen_eq r (s.lt_length_of_ownerOf (ho r rfl))

theorem PoolOk.of_grows {p : Nat} {q : Pool α} (h : Grows s s')
    (ha : p ∈ s'.allPools ↔ p ∈ s.allPools) (ho : p ∈ s.oldPools → p ∈ s'.oldPools)
    (hq : PoolOk s p q) : PoolOk s' p q where
  registered := hq.registered.trans ha.symm
  victim_old hv := ho (hq.victim_old hv)
  localSize_eq := (hq.localSize_eq).trans (h.ptrLen_eq hq.local_owned).symm
  victimSize_le := (h.ptrLen_eq hq.victim_owned).symm ▸ hq.victimSize_le
  local_owned r hr := h.ownerOf_some (hq.local_owned r hr)
  victim_owned r hr := h.ownerOf_some (hq.victim_owned r hr)
  local_ne_victim := hq.local_ne_victim

theorem PoolOk.indexLocal_lt {p pid : Nat} {q : Pool α} (hq : PoolOk s p q)
    (hpid : pid < q.localSize) :
    ∃ r, indexLocal q.localPtr pid = some (r, pid) ∧ pid < s.tableLen r ∧ s.ownerOf r = some p := by
  rw [hq.localSize_eq] at hpid
  cases hl : q.localPtr with
  | none => simp [hl, State.ptrLen] at hpid
  | some r =>
      rw [hl] at hpid
      exact ⟨r, rfl, hpid, hq.local_owned r hl⟩

theorem Outcome.map_eq_ok {σ τ : Type} {o : Outcome σ} {f : σ → τ} {t : τ} :
    o.map f = .ok t ↔ ∃ x, o = .ok x ∧ f x = t := by
  cases o <;> simp [Outcome.map]

@[simp] theorem map_withShard_some_eq_ok {β γ : Type} (ri : Nat × Nat) (f : PoolLocal α → β × PoolLocal α)
    (g : β × State α → γ) (t : γ) :
    (Outcome.ofOption (s.withShard (some ri) f)).map g = .ok t ↔
      ∃ loc, s.shard ri = some loc ∧ g ((f loc).1, s.setShard ri (f loc).2) = t := by
  simp only [State.withShard, Option.some_bind]
  cases s.shard ri <;> simp [Outcome.ofOption, Outcome.map]

@[simp] theorem map_withShard_none_ne_ok {β γ : Type} (f : PoolLocal α → β × PoolLocal α)
    (g : β × State α → γ) (t : γ) : (Outcome.ofOption (s.withShard none f)).map g ≠ .ok t := by
  simp [State.withShard, Outcome.ofOption, Outcome.map]

theorem stealAt_eq_ok {pid p : Nat} {locals : Option Nat} {k : Option Nat} {next : Phase α} :
    stealAt s pid p locals k next = .ok s' ↔
      ∃ r i loc, k = some i ∧ locals = some r ∧ s.shard (r, i) = some loc ∧
        (s.setShard (r, i) loc.popTail.2).answer pid p next loc.popTail.1 = s' := by
  cases k <;> cases locals <;>
    simp [stealAt, indexLocal, map_withShard_some_eq_ok, map_withShard_none_ne_ok]

theorem pin_eq_ok {pid p : Nat} {l : Option (Nat × Nat)} :
    pin s pid p = .ok (s', l) ↔
      ∃ q, s.pools[p]? = some q ∧
        ((pid < q.localSize ∧ s' = s ∧ l = indexLocal q.localPtr pid) ∨
          (q.localSize ≤ pid ∧ pid < s.units.length ∧ s' = s.install p q s.units.length ∧
            l = some (s.tables.length, pid))) := by
  unfold pin pinSlow
  cases s.pools[p]? with
  | none => simp
  | some q =>
      by_cases h₁ : pid < q.localSize
      · simp [h₁, eq_comm]
      · by_cases h₂ : pid < s.units.length <;> simp [h₁, h₂, eq_comm, Nat.le_of_not_lt h₁]

theorem Inv.of_pinned (hi : Inv s) (hg : Grows s s') (hp : s'.pools = s.pools)
    (ha : s'.allPools = s.allPools) (ho : s'.oldPools = s.oldPools) {pid : Nat} {ph : Phase α}
    (hu : s'.units = s.units.set pid ph) (hph : PhaseOk s' pid ph) : Inv s' where
  allPools_nodup := ha ▸ hi.allPools_nodup
  oldPools_nodup := ho ▸ hi.oldPools_nodup
  allPools_lt p h := hp ▸ hi.allPools_lt p (ha ▸ h)
  pools p q hq := (hi.pools p q (hp ▸ hq)).of_grows hg (by rw [ha]) (by rw [ho]; exact id)
  units pid' ph' h := by
    rw [hu] at h
    by_cases h₁ : pid = pid'
    · subst h₁
      simp only [List.getElem?_set, if_true] at h
      split_ifs at h
      obtain rfl := Option.some.inj h
      exact hph
    · exact (hi.units pid' ph' (by rwa [List.getElem?_set_ne h₁] at h)).mono hg

theorem Inv.setUnit (hi : Inv s) {pid : Nat} {ph : Phase α} (hph : PhaseOk s pid ph) :
    Inv (s.setUnit pid ph) :=
  hi.of_pinned (Grows.of_eq rfl rfl) rfl rfl rfl rfl hph

theorem Inv.returnNew (hi : Inv s) (pid p : Nat) : Inv (s.returnNew pid p) :=
  hi.of_pinned (Grows.of_eq rfl rfl) rfl rfl rfl rfl trivial

theorem State.mem_install_allPools {p size p' : Nat} {q : Pool α} (hi : Inv s)
    (hq : s.pools[p]? = some q) :
    p' ∈ (s.install p q size).allPools ↔ p' ∈ s.allPools ∨ p' = p := by
  have hreg := (hi.pools p q hq).registered
  cases hl : q.localPtr with
  | none => simp [State.install, hl]
  | some r =>
      have hp : p ∈ s.allPools := hreg.mp (by simp [hl])
      simp only [State.install, hl, Option.isNone_some, if_false]
      exact ⟨Or.inl, fun h => h.elim id (· ▸ hp)⟩

theorem PoolOk.install {p size : Nat} {q : Pool α} (hi : Inv s) (hq : s.pools[p]? = some q)
    (hle : q.localSize ≤ size) :
    PoolOk (s.install p q size) p { q with localPtr := some s.tables.length, localSize := size } := by
  have hok := hi.pools p q hq
  have hg := grows_install hq hle
  exact {
    registered := by simp [State.mem_install_allPools hi hq]
    victim_old := hok.victim_old
    localSize_eq := by simp [State.ptrLen, State.tableLen_install]
    victimSize_le := (hg.ptrLen_eq hok.victim_owned).symm ▸ hok.victimSize_le
    local_owned := fun r hr => by
      cases hr
      simp [State.ownerOf_install]
    victim_owned := fun r hr => hg.ownerOf_some (hok.victim_owned r hr)
    local_ne_victim := fun r hr hv => by
      cases hr
      exact Nat.lt_irrefl _ (s.lt_length_of_ownerOf (hok.victim_owned _ hv)) }

theorem Inv.install (hi : Inv s) {p size : Nat} {q : Pool α} (hq : s.pools[p]? = some q)
    (hle : q.localSize ≤ size) : Inv (s.install p q size) := by
  have hok := hi.pools p q hq
  have hp : p < s.pools.length := (List.getElem?_eq_some_iff.mp hq).1
  have hg := grows_install hq hle
  refine ⟨?_, hi.oldPools_nodup, ?_, ?_, ?_⟩
  · cases hl : q.localPtr with
    | none =>
        have : p ∉ s.allPools := fun h => by simpa [hl] using hok.registered.mpr h
        simpa [State.install, hl, List.nodup_append] using ⟨hi.allPools_nodup, this⟩
    | some r => simpa [State.install, hl] using hi.allPools_nodup
  · intro p' hp'
    rcases (State.mem_install_allPools hi hq).mp hp' with h | rfl
    · simpa using hi.allPools_lt p' h
    · simpa using hp
  · intro p' q' hq'
    by_cases hpp : p = p'
    · subst hpp
      simp only [State.install_pools, List.getElem?_set_self hp, Option.some.injEq] at hq'
      exact hq' ▸ PoolOk.install hi hq hle
    · rw [State.install_pools, List.getElem?_set_ne hpp] at hq'
      refine (hi.pools p' q' hq').of_grows hg ?_ id
      rw [State.mem_install_allPools hi hq]
      exact ⟨fun h => h.resolve_right (Ne.symm hpp), Or.inl⟩
  · intro pid ph h
    exact (hi.units pid ph h).mono hg

/-- What `pin` hands P `pid`: a state that keeps the invariant and only grows,
and a pointer to shard `pid` of a table of pool `p`. -/
theorem pin_spec (hi : Inv s) {pid p : Nat} {l : Option (Nat × Nat)}
    (hpin : pin s pid p = .ok (s', l)) :
    Inv s' ∧ Grows s s' ∧ s'.units = s.units ∧ s'.puts = s.puts ∧ s'.gets = s.gets ∧
      ∃ r, l = some (r, pid) ∧ pid < s'.tableLen r ∧ s'.ownerOf r = some p := by
  obtain ⟨q, hq, ⟨hlt, rfl, rfl⟩ | ⟨hle, hlt, rfl, rfl⟩⟩ := pin_eq_ok.mp hpin
  · exact ⟨hi, Grows.refl _, rfl, rfl, rfl, (hi.pools p q hq).indexLocal_lt hlt⟩
  · have hle' : q.localSize ≤ s.units.length := by omega
    exact ⟨hi.install hq hle', grows_install hq hle', rfl, rfl, rfl, s.tables.length, rfl,
      by simp [State.tableLen_install, hlt], by simp [State.ownerOf_install]⟩

theorem Inv.zeroVictimSize (hi : Inv s) (p : Nat) : Inv (s.clearVictimSize p) := by
  have hg := grows_clearVictimSize s p
  refine ⟨hi.allPools_nodup, hi.oldPools_nodup, fun p' h => by simpa using hi.allPools_lt p' h,
    fun p' q' hq' => ?_, fun pid ph h => (hi.units pid ph h).mono hg⟩
  rw [State.clearVictimSize_pools, List.getElem?_modify] at hq'
  obtain ⟨q, hq, rfl⟩ : ∃ q, s.pools[p']? = some q ∧ (if p = p' then { q with victimSize := 0 } else q) = q' := by
    cases h : s.pools[p']? <;> simp_all
  have hok := (hi.pools p' q hq).of_grows hg Iff.rfl id
  split_ifs
  · exact { hok with victimSize_le := Nat.zero_le _ }
  · exact hok

theorem forEachPool_getElem? (f : Pool α → Pool α) {ids : List Nat} (hids : ids.Nodup)
    (ps : List (Pool α)) (p : Nat) :
    (forEachPool f ids ps)[p]? = if p ∈ ids then ps[p]?.map f else ps[p]? := by
  induction ids generalizing ps with
  | nil => simp [forEachPool]
  | cons i ids ih =>
      rw [List.nodup_cons] at hids
      change (forEachPool f ids (ps.modify f i))[p]? = _
      rw [ih hids.2, List.getElem?_modify]
      by_cases hp : p = i
      · subst hp
        simp [hids.1]
      · simp [hp, Ne.symm hp]

/-- With the registries consistent, `poolCleanup` moves every pool's `local`
table to its `victim`, whichever of the two lists the pool is in. -/
theorem poolCleanup_pools (hi : Inv s) (p : Nat) :
    (poolCleanup s).pools[p]? = s.pools[p]?.map moveToVictim := by
  simp only [poolCleanup, forEachPool_getElem? _ hi.allPools_nodup,
    forEachPool_getElem? _ hi.oldPools_nodup]
  cases hq : s.pools[p]? with
  | none => split_ifs <;> rfl
  | some q =>
      have hok := hi.pools p q hq
      by_cases ha : p ∈ s.allPools
      · split_ifs <;> rfl
      · have hl : q.localPtr = none := by simpa [ha] using hok.registered
        have hls : q.localSize = 0 := by simpa [hl, State.ptrLen] using hok.localSize_eq
        by_cases ho : p ∈ s.oldPools
        · simp [ha, ho, dropVictim, moveToVictim, hl, hls]
        · have hv : q.victimPtr = none := by simpa [ho] using mt hok.victim_old
          have hvs : q.victimSize = 0 := by simpa [hv, State.ptrLen] using hok.victimSize_le
          cases q
          simp_all [moveToVictim]

theorem State.quiescent_units (h : s.quiescent = true) {pid : Nat} {ph : Phase α}
    (hph : s.units[pid]? = some ph) : ph = .idle := by
  have := List.all_eq_true.mp h ph (List.getElem?_mem hph)
  cases ph <;> simp_all [Phase.isIdle]

theorem Inv.poolCleanup (hi : Inv s) (hq : s.quiescent = true) : Inv (poolCleanup s) where
  allPools_nodup := List.nodup_nil
  oldPools_nodup := hi.allPools_nodup
  allPools_lt _ h := absurd h (List.not_mem_nil _)
  pools p q' hq' := by
    rw [poolCleanup_pools hi] at hq'
    obtain ⟨q, hq, rfl⟩ := Option.map_eq_some'.mp hq'
    have hok := hi.pools p q hq
    exact {
      registered := by simp [moveToVictim, GoStdlib.SyncPool.poolCleanup]
      victim_old := fun h => hok.registered.mp h
      localSize_eq := rfl
      victimSize_le := hok.localSize_eq.le
      local_owned := fun r h => by simp [moveToVictim] at h
      victim_owned := hok.local_owned
      local_ne_victim := fun r h => by simp [moveToVictim] at h }
  units pid ph h := by
    rw [s.quiescent_units hq h]
    trivial

theorem Inv.newPool (hi : Inv s) (New : Option α) : Inv (s.addPool New) := by
  have hg : Grows s (s.addPool New) :=
    ⟨le_rfl, fun _ _ => rfl, fun _ _ => rfl, fun p q hq =>
      ⟨q, by simp [List.getElem?_append_left (List.getElem?_eq_some_iff.mp hq).1, hq], le_rfl, rfl⟩⟩
  refine ⟨hi.allPools_nodup, hi.oldPools_nodup,
    fun p h => by simpa using Nat.lt_succ_of_lt (hi.allPools_lt p h), fun p q hq => ?_,
    fun pid ph h => (hi.units pid ph h).mono hg⟩
  rw [State.addPool_pools, List.getElem?_append] at hq
  split_ifs at hq with hp
  · exact (hi.pools p q hq).of_grows hg Iff.rfl id
  · have hp' : p = s.pools.length := by
      by_contra hne
      rw [List.getElem?_eq_none_iff.mpr (by simp; omega)] at hq
      cases hq
    subst hp'
    simp only [Nat.sub_self, List.getElem?_cons_zero, Option.some.injEq] at hq
    subst hq
    exact {
      registered := by simpa using fun h => Nat.lt_irrefl _ (hi.allPools_lt _ h)
      victim_old := nofun
      localSize_eq := rfl
      victimSize_le := le_rfl
      local_owned := nofun
      victim_owned := nofun
      local_ne_victim := nofun }

theorem Inv.answer (hi : Inv s) {pid p : Nat} {ri : Nat × Nat} {v : PoolLocal α}
    {next : Phase α} (x : Option α) (hnext : PhaseOk s pid next) :
    Inv ((s.setShard ri v).answer pid p next x) := by
  have hg : Grows s ((s.setShard ri v).answer pid p next x) :=
    (grows_setShard s ri v).trans (Grows.of_eq (by simp) (by simp))
  have hu : ((s.setShard ri v).answer pid p next x).units =
      s.units.set pid (x.elim next fun _ => .idle) := by simp
  refine hi.of_pinned hg (by simp) (by simp) (by simp) hu ?_
  cases x
  · exact hnext.mono hg
  · trivial

/-- The moves of a pinned P that only load shared state or go on. -/
inductive Loads (s : State α) (pid : Nat) : Phase α → Phase α → Prop
  | loadSize {p : Nat} {q : Pool α} : s.pools[p]? = some q →
      Loads s pid (.slowLoadSize p) (.slowLoadLocal p q.localSize)
  | loadLocal {p size : Nat} {q : Pool α} : s.pools[p]? = some q →
      Loads s pid (.slowLoadLocal p size) (.steal p size q.localPtr 0)
  | toVictim {p size i : Nat} {locals : Option Nat} {q : Pool α} : ¬ i < size →
      s.pools[p]? = some q → pid < q.victimSize →
      Loads s pid (.steal p size locals i) (.victimPrivate p q.victimSize)
  | missSteal {p size i : Nat} {locals : Option Nat} : i < size →
      Loads s pid (.steal p size locals i) (.steal p size locals (i + 1))
  | missVictim {p size i : Nat} {locals : Option Nat} : i < size →
      Loads s pid (.victimSteal p size locals i) (.victimSteal p size locals (i + 1))

/-- The takes from a shard, each with the phase it leaves on a miss: the local
part of `Get`, a steal, the victim's `private`, a steal from the victim. -/
inductive Takes (s : State α) (pid : Nat) :
    Phase α → Nat → Nat × Nat → (PoolLocal α → Option α × PoolLocal α) → Phase α → Prop
  | getLocal {p : Nat} {ri : Nat × Nat} :
      Takes s pid (.getPinned p (some ri)) p ri PoolLocal.getLocal (.slowLoadSize p)
  | steal {p size r i k : Nat} : i < size → goMod (pid + i + 1) size = some k →
      Takes s pid (.steal p size (some r) i) p (r, k) PoolLocal.popTail
        (.steal p size (some r) (i + 1))
  | victimPrivate {p size r : Nat} {q : Pool α} : s.pools[p]? = some q → q.victimPtr = some r →
      Takes s pid (.victimPrivate p size) p (r, pid) PoolLocal.takePrivate
        (.victimSteal p size (some r) 0)
  | victimSteal {p size r i k : Nat} : i < size → goMod (pid + i) size = some k →
      Takes s pid (.victimSteal p size (some r) i) p (r, k) PoolLocal.popTail
        (.victimSteal p size (some r) (i + 1))

/-- Every step but `poolCleanup`: a new pool, a step that changes nothing, a
`pin`, the store of `Put`, a take of `Get`, a load, the two ends of a `Get`
that found storage empty (with no victim to search, and after the victim with
the reset of `victimSize`), and `GOMAXPROCS` with the world stopped. -/
inductive Moves (s : State α) : State α → Prop
  | newPool (New : Option α) : Moves s (s.addPool New)
  | stutter : Moves s s
  | pin {pid p : Nat} {s₁ : State α} {l : Option (Nat × Nat)} {ph : Phase α} :
      s.units[pid]? = some .idle → pin s pid p = .ok (s₁, l) →
      (ph = .getPinned p l ∨ ∃ x, ph = .putPinned p l x) → Moves s (s₁.setUnit pid ph)
  | write {pid p : Nat} {ri : Nat × Nat} {x : α} {loc : PoolLocal α} :
      s.units[pid]? = some (.putPinned p (some ri) x) → s.shard ri = some loc →
      Moves s ((s.setShard ri (loc.put x)).finishPut pid p x)
  | take {pid p : Nat} {ph next : Phase α} {ri : Nat × Nat}
      {f : PoolLocal α → Option α × PoolLocal α} {loc : PoolLocal α} :
      s.units[pid]? = some ph → Takes s pid ph p ri f next → s.shard ri = some loc →
      Moves s ((s.setShard ri (f loc).2).answer pid p next (f loc).1)
  | load {pid : Nat} {ph ph' : Phase α} : s.units[pid]? = some ph → Loads s pid ph ph' →
      Moves s (s.setUnit pid ph')
  | noVictim {pid p size i : Nat} {locals : Option Nat} {q : Pool α} :
      s.units[pid]? = some (.steal p size locals i) → ¬ i < size → s.pools[p]? = some q →
      ¬ pid < q.victimSize → Moves s (s.returnNew pid p)
  | clearVictim {pid p size i : Nat} {locals : Option Nat} :
      s.units[pid]? = some (.victimSteal p size locals i) → ¬ i < size →
      Moves s ((s.clearVictimSize p).returnNew pid p)
  | gomaxprocs (n : Nat) : s.quiescent = true → Moves s (s.setProcs n)

theorem advance_moves {pid : Nat} {ph : Phase α} (hu : s.units[pid]? = some ph)
    (h : advance s pid ph = .ok s') : Moves s s' := by
  cases ph with
  | idle => cases h
  | putPinned p l x =>
      cases l with
      | none => simp [GoStdlib.SyncPool.advance] at h
      | some ri =>
          obtain ⟨loc, hloc, rfl⟩ := (map_withShard_some_eq_ok _ _ _ _).mp h
          exact .write hu hloc
  | getPinned p l =>
      cases l with
      | none => simp [GoStdlib.SyncPool.advance] at h
      | some ri =>
          obtain ⟨loc, hloc, rfl⟩ := (map_withShard_some_eq_ok _ _ _ _).mp h
          exact .take hu .getLocal hloc
  | slowLoadSize p =>
      simp only [GoStdlib.SyncPool.advance] at h
      split at h
      · cases h
      · cases h
        exact .load hu (.loadSize ‹_›)
  | slowLoadLocal p size =>
      simp only [GoStdlib.SyncPool.advance] at h
      split at h
      · cases h
      · cases h
        exact .load hu (.loadLocal ‹_›)
  | steal p size locals i =>
      simp only [GoStdlib.SyncPool.advance] at h
      split_ifs at h with hi
      · obtain ⟨r, k, loc, hk, rfl, hloc, rfl⟩ := stealAt_eq_ok.mp h
        exact .take hu (.steal hi hk) hloc
      · split at h
        · cases h
        · split_ifs at h with hv <;> cases h
          · exact .load hu (.toVictim hi ‹_› hv)
          · exact .noVictim hu hi ‹_› hv
  | victimPrivate p size =>
      simp only [GoStdlib.SyncPool.advance] at h
      split at h
      · cases h
      · rename_i q hq
        cases hv : q.victimPtr with
        | none =>
            simp [hv, indexLocal] at h
        | some r =>
            rw [hv] at h
            obtain ⟨loc, hloc, rfl⟩ := (map_withShard_some_eq_ok _ _ _ _).mp h
            exact .take hu (.victimPrivate hq hv) hloc
  | victimSteal p size locals i =>
      simp only [GoStdlib.SyncPool.advance] at h
      split_ifs at h with hi
      · obtain ⟨r, k, loc, hk, rfl, hloc, rfl⟩ := stealAt_eq_ok.mp h
        exact .take hu (.victimSteal hi hk) hloc
      · cases h
        exact .clearVictim hu hi

theorem missTail_moves {pid : Nat} {ph : Phase α} (hu : s.units[pid]? = some ph)
    (h : missTail s pid ph = .ok s') : Moves s s' := by
  cases ph <;> simp only [GoStdlib.SyncPool.missTail] at h <;> try cases h
  all_goals
    split_ifs at h with hi
    obtain ⟨_, -, rfl⟩ := Outcome.map_eq_ok.mp h
  · exact .load hu (.missSteal hi)
  · exact .load hu (.missVictim hi)

/-- A successful step is `poolCleanup` with the world stopped, or one of the
`Moves`. -/
theorem step_moves {a : Action α} (h : step s a = .ok s') :
    (a = .poolCleanup ∧ s.quiescent = true ∧ s' = poolCleanup s) ∨ Moves s s' := by
  cases a with
  | newPool New =>
      cases h
      exact .inr (.newPool New)
  | put pid p x =>
      simp only [GoStdlib.SyncPool.step] at h
      split at h
      · cases h
        exact .inr .stutter
      · obtain ⟨⟨s₁, l⟩, hpin, rfl⟩ := Outcome.map_eq_ok.mp h
        exact .inr (.pin ‹_› hpin (.inr ⟨_, rfl⟩))
      · cases h
  | get pid p =>
      simp only [GoStdlib.SyncPool.step] at h
      split at h
      · obtain ⟨⟨s₁, l⟩, hpin, rfl⟩ := Outcome.map_eq_ok.mp h
        exact .inr (.pin ‹_› hpin (.inl rfl))
      · cases h
  | next pid =>
      simp only [GoStdlib.SyncPool.step] at h
      split at h
      · exact .inr (advance_moves ‹_› h)
      · cases h
  | popTailMiss pid =>
      simp only [GoStdlib.SyncPool.step] at h
      split at h
      · exact .inr (missTail_moves ‹_› h)
      · cases h
  | gomaxprocs n =>
      simp only [GoStdlib.SyncPool.step] at h
      split_ifs at h with h₁ h₂ <;> cases h
      · exact .inr .stutter
      · exact .inr (.gomaxprocs n h₂)
  | poolCleanup =>
      simp only [GoStdlib.SyncPool.step] at h
      split_ifs at h with hq
      cases h
      exact .inl ⟨rfl, hq, rfl⟩

theorem Takes.next_ok {pid p : Nat} {ph next : Phase α} {ri : Nat × Nat}
    {f : PoolLocal α → Option α × PoolLocal α} (ht : Takes s pid ph p ri f next)
    (hph : PhaseOk s pid ph) : PhaseOk s pid next := by
  cases ht with
  | getLocal => trivial
  | steal | victimSteal => exact hph
  | victimPrivate hq hv =>
      obtain ⟨q', r', hq', hv', -, hle⟩ := hph
      obtain rfl := Option.some.inj (hq'.symm.trans hq)
      obtain rfl := Option.some.inj (hv'.symm.trans hv)
      exact ⟨q', r', hq', hv', rfl, hle⟩

theorem Loads.next_ok (hi : Inv s) {pid : Nat} {ph ph' : Phase α} (hl : Loads s pid ph ph')
    (hph : PhaseOk s pid ph) : PhaseOk s pid ph' := by
  cases hl with
  | loadSize hq => exact ⟨_, hq, le_rfl⟩
  | @loadLocal p size q hq =>
      obtain ⟨q', hq', hle⟩ := hph
      obtain rfl := Option.some.inj (hq'.symm.trans hq)
      have hok := hi.pools p q' hq
      rw [hok.localSize_eq] at hle
      cases hl : q'.localPtr with
      | none => exact Or.inl ⟨rfl, by simpa [hl, State.ptrLen] using hle⟩
      | some r => exact Or.inr ⟨r, rfl, by simpa [hl, State.ptrLen] using hle, hok.local_owned r hl⟩
  | @toVictim p size i locals q _ hq hv =>
      have hle := (hi.pools p q hq).victimSize_le
      cases hvp : q.victimPtr with
      | none => simp [hvp, State.ptrLen] at hle; omega
      | some r => exact ⟨q, r, hq, hvp, hv, by simpa [hvp, State.ptrLen] using hle⟩
  | missSteal | missVictim => exact hph

theorem Inv.moves (hi : Inv s) (h : Moves s s') : Inv s' := by
  cases h with
  | newPool New => exact hi.newPool New
  | stutter => exact hi
  | pin _ hpin hph =>
      obtain ⟨hi₁, -, -, -, -, r, rfl, hlt, ho⟩ := pin_spec hi hpin
      rcases hph with rfl | ⟨x, rfl⟩ <;> exact hi₁.setUnit ⟨r, rfl, hlt, ho⟩
  | write =>
      exact hi.of_pinned ((grows_setShard s _ _).trans (Grows.of_eq rfl rfl)) rfl rfl rfl rfl trivial
  | take hu ht _ => exact hi.answer _ (ht.next_ok (hi.units _ _ hu))
  | load hu hl => exact hi.setUnit (hl.next_ok hi (hi.units _ _ hu))
  | noVictim => exact hi.returnNew _ _
  | clearVictim => exact (hi.zeroVictimSize _).returnNew _ _
  | gomaxprocs n =>
      refine ⟨hi.allPools_nodup, hi.oldPools_nodup, hi.allPools_lt,
        fun p q hq => (hi.pools p q hq).of_grows (Grows.of_eq (s := s) rfl rfl) Iff.rfl id,
        fun pid ph h => ?_⟩
      rw [State.setProcs_units, List.getElem?_replicate] at h
      split_ifs at h
      cases h
      trivial

theorem Inv.step (hi : Inv s) {a : Action α} (h : step s a = .ok s') : Inv s' := by
  rcases step_moves h with ⟨-, hq, rfl⟩ | hm
  · exact hi.poolCleanup hq
  · exact hi.moves hm

theorem Inv.init (n : Nat) : Inv (init n : State α) where
  allPools_nodup := List.nodup_nil
  oldPools_nodup := List.nodup_nil
  allPools_lt _ h := absurd h (List.not_mem_nil _)
  pools p q h := by simp [GoStdlib.SyncPool.init] at h
  units pid ph h := by
    simp only [GoStdlib.SyncPool.init, List.getElem?_replicate] at h
    split_ifs at h
    cases h
    trivial

theorem Reachable.inv {s : State α} (h : Reachable s) : Inv s := by
  induction h with
  | init n => exact Inv.init n
  | step a _ hs ih => exact ih.step hs

/-- One P puts `7` into a new pool, the pools rotate, and it puts `7` again:
the pool's `local` and `victim` tables hold a copy each. -/
def putRotatePut : State Nat :=
  ⟨[⟨some 1, 1, some 0, 1, none⟩], [⟨0, [⟨some 7, []⟩]⟩, ⟨0, [⟨some 7, []⟩]⟩], [0], [0], [.idle],
    [(0, 7), (0, 7)], [], []⟩

theorem putRotatePut_reachable : Reachable putRotatePut :=
  .step (.next 0) (.step (.put 0 0 (some 7)) (.step .poolCleanup (.step (.next 0)
    (.step (.put 0 0 (some 7)) (.step (.newPool none) (.init 1) rfl) rfl) rfl) rfl) rfl) rfl

end GoStdlib.SyncPool
