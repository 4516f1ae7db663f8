import GoStdlib.SyncPool.Accounting
import Mathlib.Logic.Relation

/-!
The two generations of `poolCleanup`. One rotation makes every pool's `local`
table its `victim`, unchanged, and drops the old victim with every copy it
held. Twice rotated, a pool can reach no copy of an item that was not put
into it since the first rotation, so no later `Get` on it returns that item
from storage.
-/

namespace GoStdlib.SyncPool

variable {α : Type} [DecidableEq α] {s s' : State α}

def Step (s s' : State α) : Prop :=
  ∃ a, step s a = .ok s'

namespace State

def ptrCount (s : State α) (x : α) : Option Nat → Nat
  | none => 0
  | some r => s.tableCount x r

def poolCount (s : State α) (p : Nat) (x : α) : Nat :=
  (s.pools[p]?.map fun q => s.ptrCount x q.localPtr + s.ptrCount x q.victimPtr).getD 0

def putsInto (s : State α) (p : Nat) (x : α) : Nat :=
  s.puts.count (p, x)

def gotFrom (s : State α) (p : Nat) (x : α) : Nat :=
  s.gets.count (p, x)

end State

omit [DecidableEq α] in
theorem step_poolCleanup (h : step s .poolCleanup = .ok s') :
    s.quiescent = true ∧ s' = poolCleanup s := by
  simp only [GoStdlib.SyncPool.step] at h
  split_ifs at h with hq
  exact ⟨hq, (Outcome.ok.inj h).symm⟩

theorem poolCount_poolCleanup (hi : Inv s) {p : Nat} {q : Pool α} (hq : s.pools[p]? = some q)
    (x : α) : (poolCleanup s).poolCount p x = s.ptrCount x q.localPtr := by
  simp [State.poolCount, poolCleanup_pools hi, hq, moveToVictim, State.ptrCount]
  rfl

def Phase.holds (withVictim : Bool) : Phase α → Option (Nat × Nat)
  | .putPinned p l _ | .getPinned p l => l.map fun ri => (p, ri.1)
  | .steal p _ locals _ => locals.map fun r => (p, r)
  | .victimSteal p _ locals _ => if withVictim then locals.map fun r => (p, r) else none
  | _ => none

omit [DecidableEq α] in
theorem Phase.holds_of_false {ph : Phase α} {b : Bool} {x : Nat × Nat}
    (h : ph.holds false = some x) : ph.holds b = some x := by
  cases ph <;> simp only [Phase.holds, if_false, reduceCtorEq] at h ⊢ <;> exact h

def Pool.reads (withVictim : Bool) (q : Pool α) (r : Nat) : Prop :=
  q.localPtr = some r ∨ (withVictim = true ∧ q.victimPtr = some r)

/-- Table `r` is one that pool `p` can still read: through its own fields, or
through a P pinned on it. -/
def Reads (s : State α) (withVictim : Bool) (p r : Nat) : Prop :=
  (∃ q : Pool α, s.pools[p]? = some q ∧ q.reads withVictim r) ∨
  ∃ (pid : Nat) (ph : Phase α), s.units[pid]? = some ph ∧ ph.holds withVictim = some (p, r)

def Clean (s : State α) (withVictim : Bool) (p : Nat) (x : α) : Prop :=
  ∀ r, Reads s withVictim p r → s.tableCount x r = 0

variable {b : Bool} {p r : Nat} {x : α}

omit [DecidableEq α] in
theorem Reads.of_false (h : Reads s false p r) : Reads s b p r := by
  rcases h with ⟨q, hq, hl | ⟨h, -⟩⟩ | ⟨pid, ph, hu, hh⟩
  · exact .inl ⟨q, hq, .inl hl⟩
  · cases h
  · exact .inr ⟨pid, ph, hu, Phase.holds_of_false hh⟩

theorem Clean.to_false (hc : Clean s b p x) : Clean s false p x :=
  fun r hr => hc r hr.of_false

omit [DecidableEq α] in
theorem Inv.reads_owned (hi : Inv s) (h : Reads s b p r) : s.ownerOf r = some p := by
  rcases h with ⟨q, hq, hl | ⟨-, hv⟩⟩ | ⟨pid, ph, hu, hh⟩
  · exact (hi.pools p q hq).local_owned r hl
  · exact (hi.pools p q hq).victim_owned r hv
  · have hph := hi.units pid ph hu
    cases ph with
    | putPinned p' l y | getPinned p' l =>
        obtain ⟨r', rfl, -, ho⟩ := hph
        simp only [Phase.holds, Option.map_some', Option.some.injEq, Prod.mk.injEq] at hh
        obtain ⟨rfl, rfl⟩ := hh
        exact ho
    | steal p' size locals i =>
        rcases hph with ⟨rfl, -⟩ | ⟨r', rfl, -, ho⟩
        · cases hh
        · simp only [Phase.holds, Option.map_some', Option.some.injEq, Prod.mk.injEq] at hh
          obtain ⟨rfl, rfl⟩ := hh
          exact ho
    | victimSteal p' size locals i =>
        obtain ⟨q, r', hq, hv, rfl, -⟩ := hph
        cases b <;> simp only [Phase.holds, Option.map_some', Option.some.injEq, Prod.mk.injEq,
          if_true, if_false, reduceCtorEq] at hh
        obtain ⟨rfl, rfl⟩ := hh
        exact (hi.pools _ q hq).victim_owned _ hv
    | _ => cases hh

omit [DecidableEq α] in
theorem Reads.of_setUnit {s₀ : State α} {pid : Nat} {ph : Phase α} (h : Reads s b p r)
    (hu : s.units = s₀.units.set pid ph) (hp : s.pools = s₀.pools) :
    Reads s₀ b p r ∨ ph.holds b = some (p, r) := by
  rcases h with ⟨q, hq, hr⟩ | ⟨j, ph', hj, hh⟩
  · exact .inl (.inl ⟨q, hp ▸ hq, hr⟩)
  · rw [hu, List.getElem?_set'] at hj
    split_ifs at hj with hj'
    · obtain ⟨_, -, rfl⟩ := Option.map_eq_some'.mp hj
      exact .inr hh
    · exact .inl (.inr ⟨j, ph', hj, hh⟩)

omit [DecidableEq α] in
theorem Reads.of_idle {s₀ : State α} {pid : Nat} (h : Reads s b p r)
    (hu : s.units = s₀.units.set pid .idle) (hp : s.pools = s₀.pools) : Reads s₀ b p r :=
  (h.of_setUnit hu hp).resolve_right nofun

omit [DecidableEq α] in
theorem Reads.of_install {p' size : Nat} {q : Pool α} (hq : s.pools[p']? = some q)
    (h : Reads (s.install p' q size) b p r) : Reads s b p r ∨ r = s.tables.length := by
  rcases h with ⟨q', hq', hr⟩ | hu
  · rw [State.install_pools, List.getElem?_set'] at hq'
    split_ifs at hq' with hp
    · subst hp
      rw [hq] at hq'
      cases hq'
      rcases hr with h | h
      · exact .inr (Option.some.inj h).symm
      · exact .inl (.inl ⟨q, hq, .inr h⟩)
    · exact .inl (.inl ⟨q', hq', hr⟩)
  · exact .inl (.inr hu)

omit [DecidableEq α] in
theorem Reads.of_clearVictimSize {p' : Nat} (h : Reads (s.clearVictimSize p') b p r) :
    Reads s b p r := by
  rcases h with ⟨q', hq', hr⟩ | hu
  · rw [State.clearVictimSize_pools, List.getElem?_modify] at hq'
    obtain ⟨q, hq, rfl⟩ := Option.map_eq_some'.mp hq'
    refine .inl ⟨q, hq, ?_⟩
    split_ifs at hr <;> exact hr
  · exact .inr hu

omit [DecidableEq α] in
theorem Loads.reads_next {pid : Nat} {ph ph' : Phase α} (hu : s.units[pid]? = some ph)
    (hl : Loads s pid ph ph') (h : ph'.holds b = some (p, r)) : Reads s b p r := by
  cases hl with
  | loadSize | toVictim => cases h
  | @loadLocal p' size q hq =>
      obtain ⟨r', hr', h'⟩ := Option.map_eq_some'.mp h
      cases h'
      exact .inl ⟨q, hq, .inl hr'⟩
  | missSteal | missVictim => exact .inr ⟨pid, _, hu, h⟩

omit [DecidableEq α] in
theorem Takes.reads_next {pid p' : Nat} {ph next : Phase α} {ri : Nat × Nat}
    {f : PoolLocal α → Option α × PoolLocal α} (hu : s.units[pid]? = some ph)
    (ht : Takes s pid ph p' ri f next) (h : next.holds b = some (p, r)) : Reads s b p r := by
  cases ht with
  | getLocal => cases h
  | steal | victimSteal => exact .inr ⟨pid, _, hu, h⟩
  | victimPrivate hq hv =>
      cases b
      · cases h
      · cases h
        exact .inl ⟨_, hq, .inr ⟨rfl, hv⟩⟩

omit [DecidableEq α] in
/-- Every table a move lets pool `p` read, it could read before, or it is the
table the move allocated. -/
theorem Moves.reads (hm : Moves s s') (h : Reads s' b p r) :
    Reads s b p r ∨ r = s.tables.length := by
  cases hm with
  | newPool New =>
      rcases h with ⟨q, hq, hr⟩ | hu
      · simp only [State.addPool, List.getElem?_append] at hq
        split_ifs at hq
        · exact .inl (.inl ⟨q, hq, hr⟩)
        · obtain ⟨_, rfl⟩ := List.getElem?_eq_some_iff.mp hq
          simp [Pool.reads] at hr
      · exact .inl (.inr hu)
  | stutter => exact .inl h
  | @pin pid p' s₁ l ph hu hpin hph =>
      have hholds : ph.holds b = l.map fun ri => (p', ri.1) := by
        rcases hph with rfl | ⟨y, rfl⟩ <;> rfl
      obtain ⟨q, hq, ⟨-, rfl, rfl⟩ | ⟨-, -, rfl, rfl⟩⟩ := pin_eq_ok.mp hpin
      · refine .inl ((h.of_setUnit rfl rfl).elim id fun hh => ?_)
        rw [hholds, indexLocal, Option.map_map] at hh
        obtain ⟨r', hr', h'⟩ := Option.map_eq_some'.mp hh
        cases h'
        exact .inl ⟨q, hq, .inl hr'⟩
      · refine (h.of_setUnit rfl rfl).elim (Reads.of_install hq) fun hh => ?_
        rw [hholds] at hh
        cases hh
        exact .inr rfl
  | write => exact .inl (h.of_idle rfl rfl)
  | @take pid p' ph next ri f loc hu ht hloc =>
      cases hf : (f loc).1 with
      | some y =>
          rw [hf] at h
          exact .inl (h.of_idle rfl rfl)
      | none =>
          rw [hf] at h
          exact .inl ((h.of_setUnit rfl rfl).elim id (ht.reads_next hu))
  | load hu hl => exact .inl ((h.of_setUnit rfl rfl).elim id (hl.reads_next hu))
  | noVictim => exact .inl (h.of_idle rfl rfl)
  | clearVictim => exact .inl (h.of_idle rfl rfl).of_clearVictimSize
  | gomaxprocs n =>
      rcases h with ⟨q, hq, hr⟩ | ⟨j, ph, hj, hh⟩
      · exact .inl (.inl ⟨q, hq, hr⟩)
      · rw [State.setProcs_units, List.getElem?_replicate] at hj
        split_ifs at hj
        cases hj
        cases hh

omit [DecidableEq α] in
theorem Reads.of_poolCleanup (hi : Inv s) (hq : s.quiescent = true)
    (h : Reads (poolCleanup s) b p r) : b = true ∧ Reads s false p r := by
  rcases h with ⟨q', hq', hr⟩ | ⟨pid, ph, hu, hh⟩
  · rw [poolCleanup_pools hi] at hq'
    obtain ⟨q, hq, rfl⟩ := Option.map_eq_some'.mp hq'
    rcases hr with h | ⟨hb, h⟩
    · cases h
    · exact ⟨hb, .inl ⟨q, hq, .inl h⟩⟩
  · obtain rfl := s.quiescent_units hq hu
    cases hh

omit [DecidableEq α] in
theorem Takes.reads {pid p : Nat} {ph next : Phase α} {ri : Nat × Nat}
    {f : PoolLocal α → Option α × PoolLocal α} (hu : s.units[pid]? = some ph)
    (ht : Takes s pid ph p ri f next) : Reads s true p ri.1 := by
  cases ht with
  | getLocal | steal | victimSteal => exact .inr ⟨pid, _, hu, rfl⟩
  | victimPrivate hq hv => exact .inl ⟨_, hq, .inr ⟨rfl, hv⟩⟩

theorem Moves.tableCount_le (hm : Moves s s') (x : α) (r : Nat) :
    s'.tableCount x r ≤ s.tableCount x r ∨
      ∃ (pid p : Nat) (ri : Nat × Nat), s.units[pid]? = some (.putPinned p (some ri) x) ∧
        r = ri.1 ∧
        s'.puts = s.puts ++ [(p, x)] := by
  cases hm with
  | newPool | stutter | load | noVictim | clearVictim | gomaxprocs =>
      exact .inl (State.tableCount_congr _ _ rfl r).le
  | pin _ hpin _ =>
      obtain ⟨q, -, ⟨-, rfl, -⟩ | ⟨-, -, rfl, -⟩⟩ := pin_eq_ok.mp hpin
      · exact .inl le_rfl
      · exact .inl (s.tableCount_install x _ q _ r).le
  | @write pid p ri y loc hu hloc =>
      have h := s.tableCount_setShard x hloc (loc.put y) r
      rw [PoolLocal.count_put] at h
      by_cases hr : r = ri.1 ∧ y = x
      · obtain ⟨rfl, rfl⟩ := hr
        exact .inr ⟨pid, p, ri, hu, rfl, rfl⟩
      · refine .inl ?_
        change (s.setShard ri (loc.put y)).tableCount x r ≤ _
        by_cases h₁ : r = ri.1
        · simp only [h₁, if_true, show ¬ y = x from fun h₂ => hr ⟨h₁, h₂⟩, if_false] at h ⊢
          omega
        · simp only [h₁, if_false] at h
          omega
  | @take pid p ph next ri f loc hu ht hloc =>
      have h := s.tableCount_setShard x hloc (f loc).2 r
      have hc := ht.conserves loc x
      refine .inl ?_
      rw [State.tableCount_congr (s.setShard ri (f loc).2) x (State.answer_tables _ _ _ _ _)]
      split_ifs at h <;> omega

/-- A move returns `x` from pool `p`'s storage only by a take from a table `p`
reads that holds a copy of `x`. -/
theorem Moves.gotFrom (hm : Moves s s') (p : Nat) (x : α) :
    s'.gotFrom p x = s.gotFrom p x ∨ ∃ r, Reads s true p r ∧ 0 < s.tableCount x r := by
  cases hm with
  | @take pid p' ph next ri f loc hu ht hloc =>
      cases hf : (f loc).1 with
      | none => exact .inl (by simp [State.gotFrom, hf])
      | some y =>
          by_cases he : (p', y) = (p, x)
          · obtain ⟨rfl, rfl⟩ := Prod.mk.inj he
            have hc := ht.conserves loc y
            simp only [hf, if_true] at hc
            exact .inr ⟨ri.1, ht.reads hu, by have := s.count_le_tableCount y hloc; omega⟩
          · refine .inl ?_
            simp [State.gotFrom, hf, State.answer, State.returnGet, List.count_singleton, Ne.symm he]
  | pin _ hpin _ =>
      obtain ⟨q, -, ⟨-, rfl, -⟩ | ⟨-, -, rfl, -⟩⟩ := pin_eq_ok.mp hpin <;>
        exact .inl (by simp [State.gotFrom])
  | _ => exact .inl (by simp [State.gotFrom])

omit [DecidableEq α] in
theorem Moves.puts_prefix (hm : Moves s s') : s.puts <+: s'.puts := by
  cases hm with
  | write => exact List.prefix_append _ _
  | pin _ hpin _ =>
      obtain ⟨q, -, ⟨-, rfl, -⟩ | ⟨-, -, rfl, -⟩⟩ := pin_eq_ok.mp hpin <;> simp
  | _ => simp

omit [DecidableEq α] in
theorem Step.puts_prefix (h : Step s s') : s.puts <+: s'.puts := by
  obtain ⟨a, h⟩ := h
  rcases step_moves h with ⟨-, -, rfl⟩ | hm
  · exact List.prefix_refl _
  · exact hm.puts_prefix

omit [DecidableEq α] in
theorem Steps.puts_prefix (h : Relation.ReflTransGen Step s s') : s.puts <+: s'.puts := by
  induction h with
  | refl => exact List.prefix_refl _
  | tail _ h ih => exact ih.trans h.puts_prefix

theorem Steps.putsInto_le (h : Relation.ReflTransGen Step s s') (p : Nat) (x : α) :
    s.putsInto p x ≤ s'.putsInto p x :=
  (Steps.puts_prefix h).sublist.count_le _

omit [DecidableEq α] in
theorem Reachable.of_steps (hs : Reachable s) (h : Relation.ReflTransGen Step s s') :
    Reachable s' := by
  induction h with
  | refl => exact hs
  | tail _ h ih => exact .step _ ih h.choose_spec

theorem Clean.moves (hi : Inv s) (hm : Moves s s') (hput : s'.putsInto p x = s.putsInto p x)
    (hc : Clean s b p x) : Clean s' b p x := by
  intro r hr
  rcases hm.tableCount_le x r with hle | ⟨pid, p', ri, hu, rfl, hputs⟩
  · rcases hm.reads hr with hr | rfl
    · exact Nat.eq_zero_of_le_zero (hc r hr ▸ hle)
    · exact Nat.eq_zero_of_le_zero (s.tableCount_length x ▸ hle)
  · exfalso
    obtain ⟨r', hri, -, ho⟩ := hi.units pid _ hu
    cases hri
    rcases hm.reads hr with hr | hr
    · obtain rfl : p' = p := Option.some.inj (ho.symm.trans (hi.reads_owned hr))
      simp [State.putsInto, hputs] at hput
    · exact (s.lt_length_of_ownerOf ho).ne hr

/-- Every step keeps `p` clean of `x` while no `Put(x)` into `p` is stored;
`poolCleanup` also makes a pool clean of its old victim's copies. -/
theorem Clean.step (hi : Inv s) (h : Step s s') (hput : s'.putsInto p x = s.putsInto p x)
    (hc : Clean s b p x) : Clean s' b p x := by
  obtain ⟨a, h⟩ := h
  rcases step_moves h with ⟨-, hq, rfl⟩ | hm
  · exact fun r hr => hc.to_false r (Reads.of_poolCleanup hi hq hr).2
  · exact hc.moves hi hm hput

theorem Clean.gotFrom_step (h : Step s s') (hc : Clean s true p x) :
    s'.gotFrom p x = s.gotFrom p x := by
  obtain ⟨a, h⟩ := h
  rcases step_moves h with ⟨-, -, rfl⟩ | hm
  · rfl
  · rcases hm.gotFrom p x with h | ⟨r, hr, hpos⟩
    · exact h
    · exact absurd (hc r hr) hpos.ne'

theorem Clean.steps (hs : Reachable s) (hrun : Relation.ReflTransGen Step s s')
    (hput : s'.putsInto p x = s.putsInto p x) (hc : Clean s b p x) :
    Clean s' b p x ∧ (b = true → s'.gotFrom p x = s.gotFrom p x) := by
  induction hrun with
  | refl => exact ⟨hc, fun _ => rfl⟩
  | @tail s₁ s₂ h₁ h₂ ih =>
      have hle₁ := Steps.putsInto_le h₁ p x
      have hle₂ := Steps.putsInto_le (.single h₂) p x
      obtain ⟨hc₁, hg₁⟩ := ih (by omega)
      have hi₁ := (hs.of_steps h₁).inv
      refine ⟨hc₁.step hi₁ h₂ (by omega), fun hb => ?_⟩
      subst hb
      rw [hc₁.gotFrom_step h₂, hg₁ rfl]

/-- The two generations of `poolCleanup`. One rotation keeps the heap, makes
each pool's `local` table its `victim`, with its size, and leaves the pool no
`local` table, so the copies a pool stores afterwards are those its `local`
table held. Once two rotations have followed the last `Put(x)` stored into
`p`, no `Get` on `p` returns `x` from storage. -/
theorem poolCleanup_two_generations (hs : Reachable s) :
    (∀ s₁, step s .poolCleanup = .ok s₁ → s₁.tables = s.tables ∧
      ∀ p q, s.pools[p]? = some q →
        s₁.pools[p]? = some (moveToVictim q) ∧ ∀ x, s₁.poolCount p x = s.ptrCount x q.localPtr) ∧
    (∀ (s₁ s₂ s₃ s₄ : State α) (p : Nat) (x : α), step s .poolCleanup = .ok s₁ →
      Relation.ReflTransGen Step s₁ s₂ → step s₂ .poolCleanup = .ok s₃ →
      Relation.ReflTransGen Step s₃ s₄ → s₄.putsInto p x = s.putsInto p x →
      s₄.gotFrom p x = s₃.gotFrom p x) := by
  have hi := hs.inv
  refine ⟨fun s₁ h₁ => ?_, fun s₁ s₂ s₃ s₄ p x h₁ h₁₂ h₂ h₃₄ hput => ?_⟩
  · obtain ⟨-, rfl⟩ := step_poolCleanup h₁
    exact ⟨rfl, fun p q hq => ⟨by rw [poolCleanup_pools hi, hq]; rfl, poolCount_poolCleanup hi hq⟩⟩
  · have hs₁ : Reachable s₁ := .step _ hs h₁
    have hs₂ := hs₁.of_steps h₁₂
    have hle₁ := Steps.putsInto_le (.single ⟨_, h₁⟩ : Relation.ReflTransGen Step s s₁) p x
    have hle₂ := Steps.putsInto_le h₁₂ p x
    have hle₃ := Steps.putsInto_le (.single ⟨_, h₂⟩ : Relation.ReflTransGen Step s₂ s₃) p x
    have hle₄ := Steps.putsInto_le h₃₄ p x
    obtain ⟨hq₁, rfl⟩ := step_poolCleanup h₁
    obtain ⟨hq₂, rfl⟩ := step_poolCleanup h₂
    have hc₁ : Clean (poolCleanup s) false p x := fun r hr =>
      absurd (Reads.of_poolCleanup hi hq₁ hr).1 Bool.false_ne_true
    have hc₂ := (Clean.steps hs₁ h₁₂ (by omega) hc₁).1
    have hc₃ : Clean (poolCleanup s₂) true p x := fun r hr =>
      hc₂ r (Reads.of_poolCleanup hs₂.inv hq₂ hr).2
    exact (Clean.steps (.step _ hs₂ h₂) h₃₄ (by omega) hc₃).2 rfl

theorem putRotatePut_rotated :
    (poolCleanup putRotatePut).poolCount 0 7 = putRotatePut.ptrCount 7 (some 1) :=
  (((poolCleanup_two_generations putRotatePut_reachable).1 _ rfl).2 0 _ rfl).2 7

/-- A rotation can leave an item of the old victim stored: put twice, it has a
copy in each table, and the copy in `local` survives. -/
theorem poolCleanup_keeps_item_of_victim :
    ¬ ∀ (s s' : State Nat) (p : Nat) (q : Pool Nat) (x : Nat), Reachable s →
      step s .poolCleanup = .ok s' → s.pools[p]? = some q → 0 < s.ptrCount x q.victimPtr →
      s'.poolCount p x = 0 := fun h =>
  absurd (h putRotatePut _ 0 _ 7 putRotatePut_reachable rfl rfl (by decide)) (by decide)

end GoStdlib.SyncPool
