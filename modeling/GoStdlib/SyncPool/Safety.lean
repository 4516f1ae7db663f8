import GoStdlib.SyncPool.Invariant

/-!
Consequences of the invariant. No step of a reachable state faults: every
pointer `pin` and `getSlow` compute with `indexLocal` is inside its table,
every `%` in `getSlow` has a positive divisor, and `&local[pid]` in `pinSlow`
is in bounds. The registries and sizes keep their documented relations, and
between two collections a pool's `localSize` only grows, by `pinSlow`.
-/

namespace GoStdlib.SyncPool

variable {α : Type} {s s' : State α}

theorem State.shard_of_lt_tableLen {r i : Nat} (h : i < s.tableLen r) :
    ∃ loc, s.shard (r, i) = some loc := by
  unfold State.tableLen at h
  unfold State.shard
  cases ht : s.tables[r]? with
  | none => simp [ht] at h
  | some t =>
      simp only [ht, Option.map_some', Option.getD_some] at h
      exact ⟨t.locals[i], by simp [List.getElem?_eq_getElem h]⟩

theorem Outcome.map_ne_fault {σ τ : Type} {o : Outcome σ} (f : σ → τ) (h : o ≠ .fault) :
    o.map f ≠ .fault := by
  cases o <;> simp_all [Outcome.map]

theorem pin_ne_fault {pid p : Nat} (hpid : pid < s.units.length) : pin s pid p ≠ .fault := by
  unfold pin pinSlow
  split
  · nofun
  · split_ifs <;> nofun

theorem stealAt_ne_fault {pid p r i : Nat} {k : Option Nat} {next : Phase α}
    (hk : k = some i) (hlt : i < s.tableLen r) : stealAt s pid p (some r) k next ≠ .fault := by
  obtain ⟨loc, hloc⟩ := s.shard_of_lt_tableLen hlt
  subst hk
  simp [stealAt, indexLocal, State.withShard, hloc, Outcome.ofOption, Outcome.map]

theorem goMod_lt_tableLen {a size r : Nat} (hi : 0 < size) (hle : size ≤ s.tableLen r) :
    goMod a size = some (a % size) ∧ a % size < s.tableLen r :=
  ⟨by simp [goMod, Nat.pos_iff_ne_zero.mp hi], (Nat.mod_lt a hi).trans_le hle⟩

theorem advance_ne_fault {pid : Nat} {ph : Phase α} (hph : PhaseOk s pid ph) :
    advance s pid ph ≠ .fault := by
  cases ph with
  | idle => nofun
  | putPinned p l x | getPinned p l =>
      obtain ⟨r, rfl, hlt, -⟩ := hph
      obtain ⟨loc, hloc⟩ := s.shard_of_lt_tableLen hlt
      simp [advance, State.withShard, hloc, Outcome.ofOption, Outcome.map]
  | slowLoadSize p | slowLoadLocal p size =>
      simp only [advance]
      split <;> nofun
  | steal p size locals i =>
      simp only [advance]
      split_ifs with hi
      · obtain ⟨r, rfl, hle, -⟩ := hph.resolve_left (by rintro ⟨-, h⟩; omega)
        obtain ⟨hk, hlt⟩ := goMod_lt_tableLen (a := pid + i + 1) (by omega) hle
        exact stealAt_ne_fault hk hlt
      · split
        · nofun
        · split_ifs <;> nofun
  | victimPrivate p size =>
      obtain ⟨q, r, hq, hv, hlt, hle⟩ := hph
      obtain ⟨loc, hloc⟩ := s.shard_of_lt_tableLen (hlt.trans_le hle)
      simp [advance, hq, hv, indexLocal, State.withShard, hloc, Outcome.ofOption, Outcome.map]
  | victimSteal p size locals i =>
      obtain ⟨q, r, -, -, rfl, hle⟩ := hph
      simp only [advance]
      split_ifs with hi
      · obtain ⟨hk, hlt⟩ := goMod_lt_tableLen (a := pid + i) (by omega) hle
        exact stealAt_ne_fault hk hlt
      · nofun

theorem missTail_ne_fault {pid : Nat} {ph : Phase α} (hph : PhaseOk s pid ph) :
    missTail s pid ph ≠ .fault := by
  cases ph with
  | steal p size locals i =>
      simp only [missTail]
      split_ifs with hi
      · obtain ⟨r, rfl, hle, -⟩ := hph.resolve_left (by rintro ⟨-, h⟩; omega)
        obtain ⟨hk, hlt⟩ := goMod_lt_tableLen (a := pid + i + 1) (by omega) hle
        exact Outcome.map_ne_fault _ (stealAt_ne_fault hk hlt)
      · nofun
  | victimSteal p size locals i =>
      obtain ⟨q, r, -, -, rfl, hle⟩ := hph
      simp only [missTail]
      split_ifs with hi
      · obtain ⟨hk, hlt⟩ := goMod_lt_tableLen (a := pid + i) (by omega) hle
        exact Outcome.map_ne_fault _ (stealAt_ne_fault hk hlt)
      · nofun
  | _ => nofun

theorem Inv.step_ne_fault (hi : Inv s) (a : Action α) : GoStdlib.SyncPool.step s a ≠ .fault := by
  cases a with
  | newPool | poolCleanup | gomaxprocs =>
      simp only [GoStdlib.SyncPool.step]
      try split_ifs
      all_goals nofun
  | put pid p x =>
      simp only [GoStdlib.SyncPool.step]
      split
      · nofun
      · exact Outcome.map_ne_fault _ (pin_ne_fault (List.getElem?_eq_some_iff.mp ‹_›).1)
      · nofun
  | get pid p =>
      simp only [GoStdlib.SyncPool.step]
      split
      · exact Outcome.map_ne_fault _ (pin_ne_fault (List.getElem?_eq_some_iff.mp ‹_›).1)
      · nofun
  | next pid | popTailMiss pid =>
      simp only [GoStdlib.SyncPool.step]
      split
      · first
          | exact advance_ne_fault (hi.units _ _ ‹_›)
          | exact missTail_ne_fault (hi.units _ _ ‹_›)
      · nofun

/-- Index safety of the pool: from every reachable state no step faults, so
every `poolLocal` that `pin` and `getSlow` compute with `indexLocal` is inside
its table when it is dereferenced, every divisor of `getSlow`'s `%` is
positive, and `&local[pid]` in `pinSlow` is in bounds. A pinned P holds its own
shard of a table, and it reads the victim's shard `pid` only when `pid` is
below the `victimSize` it loaded, which is at most the victim's length. -/
theorem index_safety (hs : Reachable s) :
    (∀ a : Action α, step s a ≠ .fault) ∧
    (∀ pid p l, ((∃ x, s.units[pid]? = some (.putPinned p l x)) ∨
        s.units[pid]? = some (.getPinned p l)) → ∃ r, l = some (r, pid) ∧ pid < s.tableLen r) ∧
    (∀ pid p size, s.units[pid]? = some (.victimPrivate p size) →
      ∃ (q : Pool α) (r : Nat), s.pools[p]? = some q ∧ q.victimPtr = some r ∧ pid < size ∧
        size ≤ s.tableLen r) := by
  have hi := hs.inv
  refine ⟨hi.step_ne_fault, fun pid p l h => ?_, fun pid p size h => hi.units _ _ h⟩
  rcases h with ⟨x, h⟩ | h <;>
  · obtain ⟨r, hl, hlt, -⟩ := hi.units _ _ h
    exact ⟨r, hl, hlt⟩

theorem putRotatePut_get_ne_fault : step putRotatePut (.get 0 0) ≠ .fault :=
  (index_safety putRotatePut_reachable).1 _

/-- What a move does to a pool: `localSize` does not shrink, and `local` is
replaced only by the `pinSlow` of an idle P whose id is at least the old
`localSize`, with a table of `GOMAXPROCS` shards. -/
theorem Moves.pool (hm : Moves s s') {p : Nat} {q : Pool α} (hq : s.pools[p]? = some q) :
    ∃ q' : Pool α, s'.pools[p]? = some q' ∧ q.localSize ≤ q'.localSize ∧
      (q'.localPtr ≠ q.localPtr → ∃ pid, s.units[pid]? = some .idle ∧ q.localSize ≤ pid ∧
        pid < s.units.length ∧ q'.localSize = s.units.length) := by
  have hp : p < s.pools.length := (List.getElem?_eq_some_iff.mp hq).1
  cases hm with
  | newPool New => exact ⟨q, by simp [List.getElem?_append_left hp, hq], le_rfl, by simp⟩
  | @pin pid p₀ s₁ l ph hu hpin _ =>
      obtain ⟨q₀, hq₀, ⟨-, rfl, -⟩ | ⟨hle, hlt, rfl, -⟩⟩ := pin_eq_ok.mp hpin
      · exact ⟨q, by simpa using hq, le_rfl, by simp⟩
      · by_cases hpp : p₀ = p
        · subst hpp
          obtain rfl := Option.some.inj (hq₀.symm.trans hq)
          exact ⟨{ q₀ with localPtr := some s.tables.length, localSize := s.units.length },
            by simp [List.getElem?_set_self hp], by simp; omega, fun _ => ⟨pid, hu, hle, hlt, rfl⟩⟩
        · exact ⟨q, by simpa [List.getElem?_set_ne hpp] using hq, le_rfl, by simp⟩
  | @clearVictim pid p₀ =>
      refine ⟨if p₀ = p then { q with victimSize := 0 } else q, by simp [List.getElem?_modify, hq],
        ?_, ?_⟩ <;> split_ifs <;> simp
  | stutter | write | take | load | noVictim | gomaxprocs =>
      exact ⟨q, by simpa using hq, le_rfl, by simp⟩

theorem Inv.tables_disjoint (hi : Inv s) {p p' r : Nat} {q q' : Pool α}
    (hq : s.pools[p]? = some q) (hq' : s.pools[p']? = some q')
    (hr : q.localPtr = some r ∨ q.victimPtr = some r)
    (hr' : q'.localPtr = some r ∨ q'.victimPtr = some r) : p = p' := by
  have hok := hi.pools p q hq
  have hok' := hi.pools p' q' hq'
  have h₁ : s.ownerOf r = some p := hr.elim (hok.local_owned r) (hok.victim_owned r)
  have h₂ : s.ownerOf r = some p' := hr'.elim (hok'.local_owned r) (hok'.victim_owned r)
  exact Option.some.inj (h₁.symm.trans h₂)

/-- The registry invariants of `sync.Pool` in every reachable state:
(a) a pool has a `local` table exactly when it is in `allPools`, where it
occurs once; (b) a pool with a `victim` table is in `oldPools`; (c)
`localSize` is the length of `local` and `victimSize` at most that of
`victim` (both `0` for `nil`); (d) `local` and `victim` are different tables,
and no table is held by two pools; (e) every step but `poolCleanup` keeps each
`localSize` or grows it, and replaces `local` only in the `pinSlow` of a P whose
id is at least the old `localSize`, with the `GOMAXPROCS` it reads, which is
larger than that id. -/
theorem registry_invariants (hs : Reachable s) :
    (s.allPools.Nodup ∧
      ∀ (p : Nat) (q : Pool α), s.pools[p]? = some q → (q.localPtr.isSome ↔ p ∈ s.allPools)) ∧
    (∀ (p : Nat) (q : Pool α), s.pools[p]? = some q → q.victimPtr.isSome → p ∈ s.oldPools) ∧
    (∀ (p : Nat) (q : Pool α), s.pools[p]? = some q →
      q.localSize = s.ptrLen q.localPtr ∧ q.victimSize ≤ s.ptrLen q.victimPtr) ∧
    ((∀ (p : Nat) (q : Pool α) (r : Nat), s.pools[p]? = some q → q.localPtr = some r →
        q.victimPtr ≠ some r) ∧
      ∀ (p p' : Nat) (q q' : Pool α) (r : Nat), p ≠ p' → s.pools[p]? = some q →
        s.pools[p']? = some q' → (q.localPtr = some r ∨ q.victimPtr = some r) →
        ¬ (q'.localPtr = some r ∨ q'.victimPtr = some r)) ∧
    (∀ (a : Action α) (s' : State α), step s a = .ok s' → a ≠ .poolCleanup →
      ∀ (p : Nat) (q : Pool α), s.pools[p]? = some q →
      ∃ q' : Pool α, s'.pools[p]? = some q' ∧ q.localSize ≤ q'.localSize ∧
        (q'.localPtr ≠ q.localPtr → ∃ pid, s.units[pid]? = some .idle ∧ q.localSize ≤ pid ∧
          pid < q'.localSize ∧ q'.localSize = s.units.length)) := by
  have hi := hs.inv
  refine ⟨⟨hi.allPools_nodup, fun p q hq => (hi.pools p q hq).registered⟩,
    fun p q hq => (hi.pools p q hq).victim_old,
    fun p q hq => ⟨(hi.pools p q hq).localSize_eq, (hi.pools p q hq).victimSize_le⟩,
    ⟨fun p q r hq => (hi.pools p q hq).local_ne_victim r,
      fun p p' q q' r hne hq hq' hr hr' => hne (hi.tables_disjoint hq hq' hr hr')⟩,
    fun a s' h ha p q hq => ?_⟩
  rcases step_moves h with ⟨rfl, -⟩ | hm
  · exact absurd rfl ha
  · obtain ⟨q', hq', hle, hrep⟩ := hm.pool hq
    refine ⟨q', hq', hle, fun hne => ?_⟩
    obtain ⟨pid, hu, hpid, hlt, heq⟩ := hrep hne
    exact ⟨pid, hu, hpid, heq ▸ hlt, heq⟩

theorem putRotatePut_registries : putRotatePut.allPools.Nodup ∧ 0 ∈ putRotatePut.oldPools :=
  ⟨(registry_invariants putRotatePut_reachable).1.1,
    (registry_invariants putRotatePut_reachable).2.1 0 _ rfl rfl⟩

end GoStdlib.SyncPool
