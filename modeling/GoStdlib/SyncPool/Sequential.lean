import GoStdlib.SyncPool.Safety
import GoStdlib.SyncPool.Accounting

/-!
`Put` and `Get` by one P that no other P interleaves with: the steps of that P
alone, from its call to its return, with no `popTail` that misses. A step is a
function of the state, so such a run is unique; it ends, and what it returns
follows the code's order of preference.
-/

namespace GoStdlib.SyncPool

variable {α : Type} {s t : State α} {pid p : Nat}

def SoloStep (pid : Nat) (s s' : State α) : Prop :=
  step s (.next pid) = .ok s'

def SoloRun (pid : Nat) : State α → State α → Prop :=
  Relation.ReflTransGen (SoloStep pid)

theorem SoloStep.deterministic {a b : State α} (ha : SoloStep pid s a) (hb : SoloStep pid s b) :
    a = b := by
  unfold SoloStep at ha hb
  rw [ha] at hb
  cases hb
  rfl

theorem SoloStep.not_idle (hu : s.units[pid]? = some .idle) : ¬SoloStep pid s t := by
  simp [SoloStep, step, hu, advance]

theorem soloStep_iff {ph : Phase α} (hu : s.units[pid]? = some ph) :
    SoloStep pid s t ↔ advance s pid ph = .ok t := by
  simp [SoloStep, step, hu]

theorem SoloRun.unique {a b : State α} (ha : SoloRun pid s a) (hb : SoloRun pid s b)
    (hia : a.units[pid]? = some .idle) (hib : b.units[pid]? = some .idle) : a = b := by
  induction ha using Relation.ReflTransGen.head_induction_on generalizing b with
  | refl =>
      rcases hb.cases_head with rfl | ⟨c, hc, -⟩
      · rfl
      · exact absurd hc (SoloStep.not_idle hia)
  | head hsc _ ih =>
      rcases hb.cases_head with rfl | ⟨c, hc, hcb⟩
      · exact absurd hsc (SoloStep.not_idle hib)
      · exact ih ((SoloStep.deterministic hc hsc) ▸ hcb) hib

namespace State

@[simp] theorem setUnit_setUnit (s : State α) (pid : Nat) (a b : Phase α) :
    (s.setUnit pid a).setUnit pid b = s.setUnit pid b := by
  simp [setUnit, List.set_set]

theorem setUnit_self (hpid : pid < s.units.length) (ph : Phase α) :
    (s.setUnit pid ph).units[pid]? = some ph := by
  simp [hpid]

theorem setShard_self {ri : Nat × Nat} {loc : PoolLocal α} (h : s.shard ri = some loc) :
    s.setShard ri loc = s := by
  unfold shard at h
  obtain ⟨tb, ht, hloc⟩ := Option.bind_eq_some.mp h
  have hlocals : tb.locals.set ri.2 loc = tb.locals := List.ext_getElem? fun j => by
    rw [List.getElem?_set]
    split_ifs with hj hlt <;> simp_all [List.getElem?_eq_none]
  suffices hx : s.tables.modify (fun t => { t with locals := t.locals.set ri.2 loc }) ri.1 =
      s.tables by
    simp only [setShard, hx]
  refine List.ext_getElem? fun m => ?_
  rw [List.getElem?_modify]
  split_ifs with hm
  · subst hm
    simp [ht, hlocals]
  · simp

def chainTail (s : State α) (locals : Option Nat) (k : Nat) : Option α :=
  ((indexLocal locals k).bind s.shard).bind fun loc => loc.shared.getLast?

@[simp] theorem chainTail_setUnit (s : State α) (pid : Nat) (ph : Phase α) :
    (s.setUnit pid ph).chainTail = s.chainTail := rfl

end State

theorem State.answer_miss {ri : Nat × Nat} {loc : PoolLocal α} (h : s.shard ri = some loc)
    (next : Phase α) : (s.setShard ri loc).answer pid p next none = s.setUnit pid next := by
  rw [State.setShard_self h]
  rfl

theorem pin_pool {s' : State α} {l : Option (Nat × Nat)} (hpin : pin s pid p = .ok (s', l)) :
    ∃ q, s'.pools[p]? = some q ∧ pid < q.localSize ∧ indexLocal q.localPtr pid = l := by
  obtain ⟨q, hq, ⟨hlt, rfl, rfl⟩ | ⟨-, hlt, rfl, rfl⟩⟩ := pin_eq_ok.mp hpin
  · exact ⟨q, hq, hlt, rfl⟩
  · have hp : p < s.pools.length := (List.getElem?_eq_some_iff.mp hq).1
    exact ⟨{ q with localPtr := some s.tables.length, localSize := s.units.length },
      by simp [State.install, hp], hlt, rfl⟩

theorem pin_of_pool {q : Pool α} (hq : s.pools[p]? = some q) (hlt : pid < q.localSize) :
    pin s pid p = .ok (s, indexLocal q.localPtr pid) := by
  simp [pin, hq, hlt]

theorem pin_local (hi : Inv s) (hpid : pid < s.units.length) (hp : p < s.pools.length) :
    ∃ s' r q loc, pin s pid p = .ok (s', some (r, pid)) ∧ Inv s' ∧ s'.units = s.units ∧
      s'.puts = s.puts ∧ s'.gets = s.gets ∧ s'.news = s.news ∧ s'.pools[p]? = some q ∧
      q.localPtr = some r ∧ pid < q.localSize ∧ s'.shard (r, pid) = some loc := by
  obtain ⟨q₀, hq₀⟩ : ∃ q, s.pools[p]? = some q := ⟨_, List.getElem?_eq_getElem hp⟩
  obtain ⟨⟨s', l⟩, hpin⟩ : ∃ r, pin s pid p = .ok r := by
    cases h : pin s pid p with
    | ok r => exact ⟨r, rfl⟩
    | blocked => simp [pin, hq₀, pinSlow] at h; split_ifs at h
    | fault => exact absurd h (pin_ne_fault hpid)
  obtain ⟨hi', -, hu, hputs, hgets, r, rfl, hlt, -⟩ := pin_spec hi hpin
  have hnews : s'.news = s.news := by
    obtain ⟨q, -, ⟨-, rfl, -⟩ | ⟨-, -, rfl, -⟩⟩ := pin_eq_ok.mp hpin <;> rfl
  obtain ⟨q, hq, hlq, hl⟩ := pin_pool hpin
  obtain ⟨loc, hloc⟩ := s'.shard_of_lt_tableLen hlt
  cases hr : q.localPtr with
  | none => simp [hr, indexLocal] at hl
  | some r' =>
      simp only [hr, indexLocal, Option.map_some', Option.some.injEq, Prod.mk.injEq] at hl
      exact ⟨s', r, q, loc, hpin, hi', hu, hputs, hgets, hnews, hq, hl.1 ▸ hr, hlq, hloc⟩

theorem PoolLocal.getLocal_put (loc : PoolLocal α) (A : α) :
    (loc.put A).getLocal = (some (loc.priv.getD A),
      if loc.priv.isNone then loc else { loc with priv := none, shared := A :: loc.shared }) := by
  obtain ⟨_ | B, shared⟩ := loc <;> rfl

/-- `Put(A)` then `Get()` by P `pid` on pool `p`, with no step of another P in
between, from any reachable state where `pid` is idle: all four steps run, and
`Get` returns the item that shard `pid`'s `private` held when `Put` pinned it,
or `A` when that slot was empty; a displaced `A` is left at the head of the
shard's chain. -/
theorem put_then_get (hs : Reachable s) (hu : s.units[pid]? = some .idle)
    (hp : p < s.pools.length) (A : α) :
    ∃ s₁ s₂ s₃ s₄ r loc, step s (.put pid p (some A)) = .ok s₁ ∧ step s₁ (.next pid) = .ok s₂ ∧
      step s₂ (.get pid p) = .ok s₃ ∧ step s₃ (.next pid) = .ok s₄ ∧
      s₁.units[pid]? = some (.putPinned p (some (r, pid)) A) ∧ s₁.shard (r, pid) = some loc ∧
      s₄.units[pid]? = some .idle ∧ s₄.puts = s.puts ++ [(p, A)] ∧
      s₄.gets = s.gets ++ [(p, loc.priv.getD A)] ∧
      s₄.shard (r, pid) =
        some (if loc.priv.isNone then loc else { loc with priv := none, shared := A :: loc.shared }) := by
  have hpid : pid < s.units.length := (List.getElem?_eq_some_iff.mp hu).1
  obtain ⟨s', r, q, loc, hpin, -, hus, hputs, hgets, -, hq, hr, hlt, hloc⟩ := pin_local hs.inv hpid hp
  have hpid' : pid < s'.units.length := hus ▸ hpid
  set s₁ := s'.setUnit pid (.putPinned p (some (r, pid)) A)
  set s₂ := (s₁.setShard (r, pid) (loc.put A)).finishPut pid p A
  set s₃ := s₂.setUnit pid (.getPinned p (some (r, pid)))
  set s₄ := (s₃.setShard (r, pid) (loc.put A).getLocal.2).answer pid p (.slowLoadSize p)
    (loc.put A).getLocal.1
  have hloc₂ : s₂.shard (r, pid) = some (loc.put A) := by
    simp [s₂, State.shard_setShard (s := s₁) hloc]
  have hpin₂ : pin s₂ pid p = .ok (s₂, some (r, pid)) := by
    rw [pin_of_pool (by simpa [s₂, s₁] using hq) hlt, hr]
    rfl
  refine ⟨s₁, s₂, s₃, s₄, r, loc, by simp [step, hu, hpin, Outcome.map, s₁],
    (soloStep_iff (State.setUnit_self hpid' _)).mpr ?_, by simp [step, s₂, s₁, hpid', hpin₂, Outcome.map],
    (soloStep_iff (State.setUnit_self (by simpa [s₂, s₁] using hpid') _)).mpr ?_,
    State.setUnit_self hpid' _, hloc, ?_⟩
  · rw [advance, map_withShard_some_eq_ok]
    exact ⟨loc, hloc, rfl⟩
  · rw [advance, map_withShard_some_eq_ok]
    exact ⟨_, hloc₂, rfl⟩
  · simp only [s₄, PoolLocal.getLocal_put]
    refine ⟨by simp [State.answer, State.returnGet, s₃, s₂, s₁, hpid'], by simp [s₃, s₂, s₁, hputs],
      by simp [State.answer, State.returnGet, s₃, s₂, s₁, hgets], ?_⟩
    rw [State.shard_answer, State.shard_setShard (s := s₃) hloc₂, if_pos rfl]

/-- In `putRotatePut` shard `0` of the pool's `local` table holds `7` in
`private`, so `Put(8); Get()` by P `0` returns `7`, not `8`. -/
theorem putRotatePut_put_get :
    Reachable putRotatePut ∧ ∃ s₁ s₂ s₃ s₄, step putRotatePut (.put 0 0 (some 8)) = .ok s₁ ∧
      step s₁ (.next 0) = .ok s₂ ∧ step s₂ (.get 0 0) = .ok s₃ ∧ step s₃ (.next 0) = .ok s₄ ∧
      s₄.gets = [(0, 7)] :=
  ⟨putRotatePut_reachable, _, _, _, _, rfl, rfl, rfl, rfl, rfl⟩

theorem putRotatePut_put_then_get :
    ∃ s₁ s₂ s₃ s₄ r loc, step putRotatePut (.put 0 0 (some 8)) = .ok s₁ ∧
      step s₁ (.next 0) = .ok s₂ ∧ step s₂ (.get 0 0) = .ok s₃ ∧ step s₃ (.next 0) = .ok s₄ ∧
      s₁.units[0]? = some (.putPinned 0 (some (r, 0)) 8) ∧ s₁.shard (r, 0) = some loc ∧
      s₄.units[0]? = some .idle ∧ s₄.puts = putRotatePut.puts ++ [(0, 8)] ∧
      s₄.gets = putRotatePut.gets ++ [(0, loc.priv.getD 8)] ∧
      s₄.shard (r, 0) =
        some (if loc.priv.isNone then loc else { loc with priv := none, shared := 8 :: loc.shared }) :=
  put_then_get putRotatePut_reachable rfl (by decide) 8

/-- The shards `getSlow` steals from in a table of `n` shards, in order:
`(pid+i+1) % n` for `i < n`. -/
def stealOrder (pid n : Nat) : List Nat :=
  (List.range n).map fun i => (pid + i + 1) % n

/-- The shards of the victim `getSlow` steals from, in order: `(pid+i) % n`. -/
def victimOrder (pid n : Nat) : List Nat :=
  (List.range n).map fun i => (pid + i) % n

/-- The victim part of `getSlow`, when `pid < victimSize`: the victim's shard
`pid`'s `private`, else the tail of the first non-empty victim chain. -/
def victimTake (s : State α) (pid : Nat) (q : Pool α) : Option α :=
  if pid < q.victimSize then
    (((indexLocal q.victimPtr pid).bind s.shard).bind PoolLocal.priv).or
      ((victimOrder pid q.victimSize).findSome? (s.chainTail q.victimPtr))
  else none

/-- What `Get` by `pid` on a pool `q` returns from storage, by the order of
preference of the package: the `private` of its shard `loc`, the head of that
shard's chain, the tail of the first non-empty chain of the `local` table in
`stealOrder`, then the victim. -/
def getOrder (s : State α) (pid : Nat) (q : Pool α) (loc : PoolLocal α) : Option α :=
  loc.priv.or <| loc.shared.head?.or <|
    ((stealOrder pid q.localSize).findSome? (s.chainTail q.localPtr)).or (victimTake s pid q)

theorem map_add_mod_perm (c n : Nat) :
    ((List.range n).map fun i => (c + i) % n).Perm (List.range n) := by
  refine List.Subperm.perm_of_length_le (List.Nodup.subperm ?_ fun k hk => ?_) (by simp)
  · refine (List.nodup_range n).map_on fun i hi j hj h => ?_
    rw [List.mem_range] at hi hj
    have hij : i % n = j % n := Nat.ModEq.add_left_cancel' c h
    rwa [Nat.mod_eq_of_lt hi, Nat.mod_eq_of_lt hj] at hij
  · obtain ⟨i, hi, rfl⟩ := List.mem_map.mp hk
    exact List.mem_range.mpr (Nat.mod_lt _ (by simp at hi; omega))

theorem stealOrder_perm (pid n : Nat) : (stealOrder pid n).Perm (List.range n) := by
  have := map_add_mod_perm (pid + 1) n
  rwa [List.map_congr_left fun i _ => by rw [Nat.add_right_comm]] at this

theorem victimOrder_perm (pid n : Nat) : (victimOrder pid n).Perm (List.range n) :=
  map_add_mod_perm pid n

/-- The run of P `pid` alone from `t` ends at `t'` with `pid` idle, having
returned `o` from storage, or, when `o` is `none`, the pool's `New()`, which is
`new`. -/
def Returns (pid p : Nat) (new : Option α) (t : State α) (o : Option α) (t' : State α) : Prop :=
  SoloRun pid t t' ∧ t'.units[pid]? = some .idle ∧ t'.gets = t.gets ++ (o.map fun x => (p, x)).toList ∧
    t'.news = t.news ++ o.elim [(p, new)] fun _ => []

theorem Returns.of_take {new : Option α} {next : Phase α} {ri : Nat × Nat} {x : α}
    {v : PoolLocal α} (hpid : pid < t.units.length)
    (h : SoloStep pid t ((t.setShard ri v).answer pid p next (some x))) :
    Returns pid p new t (some x) ((t.setShard ri v).answer pid p next (some x)) :=
  ⟨.single h, by simp [State.answer, State.returnGet, hpid], by simp, by simp⟩

theorem Returns.of_run {new : Option α} {t₁ t' : State α} {o : Option α} (h : SoloRun pid t t₁)
    (hg : t₁.gets = t.gets) (hn : t₁.news = t.news) (hr : Returns pid p new t₁ o t') :
    Returns pid p new t o t' :=
  ⟨h.trans hr.1, hr.2.1, by rw [hr.2.2.1, hg], by rw [hr.2.2.2, hn]⟩

theorem Returns.head {new : Option α} {t₁ t' : State α} {o : Option α} (h : SoloStep pid t t₁)
    (hg : t₁.gets = t.gets) (hn : t₁.news = t.news) (hr : Returns pid p new t₁ o t') :
    Returns pid p new t o t' :=
  hr.of_run (.single h) hg hn

variable {u : State α} {new : Option α}

/-- The steal loops of `getSlow`: from pass `i`, with nothing taken yet, the
loop ends with the tail of the first non-empty chain in its order, or, when all
are empty, reaches pass `n` with the state as it was. -/
theorem scan_run (hpid : pid < u.units.length) (mk : Nat → Phase α) (a : Nat → Nat) {n r : Nat}
    (hn : n ≤ u.tableLen r)
    (hadv : ∀ i < n, ∀ t : State α,
      advance t pid (mk i) = stealAt t pid p (some r) (goMod (a i) n) (mk (i + 1))) :
    ∀ j i, i + j = n →
      (((List.range' i j).map fun k => a k % n).findSome? (u.chainTail (some r)) = none ∧
        SoloRun pid (u.setUnit pid (mk i)) (u.setUnit pid (mk n))) ∨
      ∃ x t', ((List.range' i j).map fun k => a k % n).findSome? (u.chainTail (some r)) = some x ∧
        Returns pid p new (u.setUnit pid (mk i)) (some x) t'
  | 0, i, h => .inl ⟨rfl, by rw [← h]; exact .refl⟩
  | j + 1, i, h => by
      have hk : a i % n < u.tableLen r := (Nat.mod_lt _ (by omega)).trans_le hn
      obtain ⟨loc, hloc⟩ := u.shard_of_lt_tableLen hk
      have hstep : SoloStep pid (u.setUnit pid (mk i))
          (((u.setUnit pid (mk i)).setShard (r, a i % n) loc.popTail.2).answer pid p (mk (i + 1))
            loc.popTail.1) := by
        rw [soloStep_iff (State.setUnit_self hpid _), hadv i (by omega), goMod, if_neg (by omega)]
        simp [stealAt, indexLocal, State.withShard, hloc, Outcome.ofOption, Outcome.map]
      have htail : u.chainTail (some r) (a i % n) = loc.shared.getLast? := by
        simp [State.chainTail, indexLocal, hloc]
      rw [List.range'_succ, List.map_cons, List.findSome?_cons, htail]
      cases hx : loc.shared.getLast? with
      | some x =>
          simp only [PoolLocal.popTail, hx] at hstep
          exact .inr ⟨x, _, rfl, Returns.of_take (by simpa using hpid) hstep⟩
      | none =>
          simp only [PoolLocal.popTail, hx, State.answer_miss (s := u.setUnit pid (mk i)) hloc,
            State.setUnit_setUnit] at hstep
          rcases scan_run hpid mk a hn hadv j (i + 1) (by omega) with ⟨hnone, hrun⟩ | ⟨y, t', hy, hret⟩
          · exact .inl ⟨hnone, .head hstep hrun⟩
          · exact .inr ⟨y, t', hy, hret.head hstep rfl rfl⟩

/-- The victim part of `getSlow`, with `pid < victimSize`: the victim's
`private`, then its chains in `victimOrder`, and `victimSize = 0` when all are
empty. -/
theorem victim_run (hi : Inv u) (hpid : pid < u.units.length) {q : Pool α}
    (hq : u.pools[p]? = some q) (hv : pid < q.victimSize) :
    ∃ t', Returns pid p q.New (u.setUnit pid (.victimPrivate p q.victimSize)) (victimTake u pid q) t' ∧
      (victimTake u pid q = none → ∃ q', t'.pools[p]? = some q' ∧ q'.victimSize = 0) := by
  have hok := hi.pools p q hq
  obtain ⟨rv, hrv⟩ : ∃ rv, q.victimPtr = some rv := by
    cases h : q.victimPtr with
    | none =>
        have := hok.victimSize_le
        simp only [h, State.ptrLen] at this
        omega
    | some rv => exact ⟨rv, rfl⟩
  have hle : q.victimSize ≤ u.tableLen rv := by simpa [hrv, State.ptrLen] using hok.victimSize_le
  obtain ⟨vloc, hvloc⟩ := u.shard_of_lt_tableLen (Nat.lt_of_lt_of_le hv hle)
  have hstep : SoloStep pid (u.setUnit pid (.victimPrivate p q.victimSize))
      (((u.setUnit pid (.victimPrivate p q.victimSize)).setShard (rv, pid) vloc.takePrivate.2).answer
        pid p (.victimSteal p q.victimSize (some rv) 0) vloc.takePrivate.1) := by
    rw [soloStep_iff (State.setUnit_self hpid _)]
    simp [advance, hq, hrv, indexLocal, State.withShard, hvloc, Outcome.ofOption, Outcome.map]
  have htake : victimTake u pid q =
      vloc.priv.or ((victimOrder pid q.victimSize).findSome? (u.chainTail (some rv))) := by
    simp [victimTake, hv, hrv, indexLocal, hvloc]
  rw [htake]
  cases hx : vloc.priv with
  | some x =>
      simp only [PoolLocal.takePrivate, hx] at hstep
      exact ⟨_, Returns.of_take (by simpa using hpid) hstep, by simp⟩
  | none =>
      have hvloc' : { vloc with priv := none } = vloc := by
        cases vloc
        simp_all
      simp only [PoolLocal.takePrivate, hx, hvloc', State.answer_miss (s := u.setUnit pid _) hvloc,
        State.setUnit_setUnit] at hstep
      rw [Option.none_or, victimOrder, List.range_eq_range']
      rcases scan_run hpid (fun i => .victimSteal p q.victimSize (some rv) i) (fun i => pid + i) hle
          (fun i hi t => by rw [advance, if_pos hi]) q.victimSize 0 (by omega) with
        ⟨hnone, hrun⟩ | ⟨x, t', hx', hret⟩
      · have hend : SoloStep pid (u.setUnit pid (.victimSteal p q.victimSize (some rv) q.victimSize))
            (((u.setUnit pid (.victimSteal p q.victimSize (some rv) q.victimSize)).clearVictimSize
              p).returnNew pid p) := by
          rw [soloStep_iff (State.setUnit_self hpid _)]
          simp [advance]
        refine ⟨_, ⟨.head hstep (hrun.tail hend), by simp [hpid], by simp [hnone],
          by simp [hnone, List.getElem?_modify, hq]⟩, fun _ => ⟨{ q with victimSize := 0 }, ?_, rfl⟩⟩
        simp [List.getElem?_modify, hq]
      · rw [hx']
        exact ⟨t', hret.head hstep rfl rfl, by simp⟩

theorem slow_run (hi : Inv u) (hpid : pid < u.units.length) {q : Pool α} {r : Nat}
    (hq : u.pools[p]? = some q) (hr : q.localPtr = some r) :
    ∃ t', Returns pid p q.New (u.setUnit pid (.slowLoadSize p))
        (((stealOrder pid q.localSize).findSome? (u.chainTail q.localPtr)).or (victimTake u pid q)) t' ∧
      (((stealOrder pid q.localSize).findSome? (u.chainTail q.localPtr)).or (victimTake u pid q) =
          none → pid < q.victimSize → ∃ q', t'.pools[p]? = some q' ∧ q'.victimSize = 0) := by
  have hn : q.localSize ≤ u.tableLen r := by
    simpa [hr, State.ptrLen] using (hi.pools p q hq).localSize_eq.le
  have h₁ : SoloStep pid (u.setUnit pid (.slowLoadSize p))
      (u.setUnit pid (.slowLoadLocal p q.localSize)) := by
    rw [soloStep_iff (State.setUnit_self hpid _)]
    simp [advance, hq]
  have h₂ : SoloStep pid (u.setUnit pid (.slowLoadLocal p q.localSize))
      (u.setUnit pid (.steal p q.localSize (some r) 0)) := by
    rw [soloStep_iff (State.setUnit_self hpid _)]
    simp [advance, hq, hr]
  have hload : SoloRun pid (u.setUnit pid (.slowLoadSize p))
      (u.setUnit pid (.steal p q.localSize (some r) 0)) := .head h₁ (.single h₂)
  rw [hr, stealOrder, List.range_eq_range']
  rcases scan_run hpid (fun i => .steal p q.localSize (some r) i) (fun i => pid + i + 1) hn
      (fun i hi t => by rw [advance, if_pos hi]) q.localSize 0 (by omega) with
    ⟨hnone, hrun⟩ | ⟨x, t', hx, hret⟩
  · rw [hnone, Option.none_or]
    by_cases hv : pid < q.victimSize
    · have h₃ : SoloStep pid (u.setUnit pid (.steal p q.localSize (some r) q.localSize))
          (u.setUnit pid (.victimPrivate p q.victimSize)) := by
        rw [soloStep_iff (State.setUnit_self hpid _)]
        simp [advance, hq, hv]
      obtain ⟨t', hret, hclr⟩ := victim_run hi hpid hq hv
      exact ⟨t', hret.of_run (hload.trans (hrun.tail h₃)) rfl rfl, fun h _ => hclr h⟩
    · have h₃ : SoloStep pid (u.setUnit pid (.steal p q.localSize (some r) q.localSize))
          ((u.setUnit pid (.steal p q.localSize (some r) q.localSize)).returnNew pid p) := by
        rw [soloStep_iff (State.setUnit_self hpid _)]
        simp [advance, hq, hv]
      refine ⟨_, ⟨hload.trans (hrun.tail h₃), by simp [hpid], by simp [victimTake, hv],
        by simp [victimTake, hv, hq]⟩, fun _ h => absurd h hv⟩
  · rw [hx]
    exact ⟨t', hret.of_run hload rfl rfl, by simp⟩

theorem get_run (hi : Inv u) (hpid : pid < u.units.length) {q : Pool α} {r : Nat}
    {loc : PoolLocal α} (hq : u.pools[p]? = some q) (hr : q.localPtr = some r)
    (hloc : u.shard (r, pid) = some loc) :
    ∃ t', Returns pid p q.New (u.setUnit pid (.getPinned p (some (r, pid)))) (getOrder u pid q loc) t' ∧
      (getOrder u pid q loc = none → pid < q.victimSize →
        ∃ q', t'.pools[p]? = some q' ∧ q'.victimSize = 0) := by
  have hstep : SoloStep pid (u.setUnit pid (.getPinned p (some (r, pid))))
      (((u.setUnit pid (.getPinned p (some (r, pid)))).setShard (r, pid) loc.getLocal.2).answer pid p
        (.slowLoadSize p) loc.getLocal.1) := by
    rw [soloStep_iff (State.setUnit_self hpid _), advance, map_withShard_some_eq_ok]
    exact ⟨loc, hloc, rfl⟩
  have hpid' : pid < (u.setUnit pid (.getPinned p (some (r, pid)))).units.length := by simpa using hpid
  obtain ⟨_ | x, _ | ⟨y, rest⟩⟩ := loc
  · simp only [PoolLocal.getLocal, State.answer_miss (s := u.setUnit pid _) hloc,
      State.setUnit_setUnit] at hstep
    obtain ⟨t', hret, hclr⟩ := slow_run hi hpid hq hr
    exact ⟨t', hret.head hstep rfl rfl, hclr⟩
  all_goals exact ⟨_, Returns.of_take hpid' hstep, fun h => Option.noConfusion h⟩

/-- `Get()` by P `pid` on pool `p`, with no step of another P and no `popTail`
that misses, from any reachable state where `pid` is idle. Its `pin` gives
shard `pid` of the pool's `local` table, and from there the steps of `pid`
alone run to a unique end where `pid` is idle, having returned from storage
what `getOrder` prefers: the shard's `private`, the head of its chain, the tail
of the first non-empty chain in `stealOrder`, and, when `pid < victimSize`, the
victim's shard-`pid` `private` and the tail of the first non-empty victim chain
in `victimOrder`. Only when all are empty does it return the pool's `New()`
(nil when the pool has no `New`), and then a victim that was searched has
`victimSize = 0`. Each scan visits each of its indices once. -/
theorem get_preference_order (hs : Reachable s) (hu : s.units[pid]? = some .idle)
    (hp : p < s.pools.length) :
    (∃ s₁ q r loc, step s (.get pid p) = .ok s₁ ∧
      s₁.units[pid]? = some (.getPinned p (some (r, pid))) ∧ s₁.pools[p]? = some q ∧
      q.localPtr = some r ∧ pid < q.localSize ∧ s₁.shard (r, pid) = some loc ∧
      ∃ s', SoloRun pid s₁ s' ∧ s'.units[pid]? = some .idle ∧
        (∀ s'', SoloRun pid s₁ s'' → s''.units[pid]? = some .idle → s'' = s') ∧
        s'.gets = s.gets ++ ((getOrder s₁ pid q loc).map fun x => (p, x)).toList ∧
        s'.news = s.news ++ (getOrder s₁ pid q loc).elim [(p, q.New)] (fun _ => []) ∧
        (getOrder s₁ pid q loc = none → pid < q.victimSize →
          ∃ q', s'.pools[p]? = some q' ∧ q'.victimSize = 0)) ∧
    ∀ n, (stealOrder pid n).Perm (List.range n) ∧ (victimOrder pid n).Perm (List.range n) := by
  have hpid : pid < s.units.length := (List.getElem?_eq_some_iff.mp hu).1
  obtain ⟨u, r, q, loc, hpin, hi, hus, -, hgets, hnews, hq, hr, hlt, hloc⟩ :=
    pin_local hs.inv hpid hp
  have hpid' : pid < u.units.length := hus ▸ hpid
  obtain ⟨t', ⟨hrun, hidle, hg, hn⟩, hclr⟩ := get_run hi hpid' hq hr hloc
  refine ⟨⟨_, q, r, loc, by simp [step, hu, hpin, Outcome.map], State.setUnit_self hpid' _, hq, hr,
    hlt, hloc, t', hrun, hidle, fun s'' h h' => SoloRun.unique h hrun h' hidle, ?_, ?_, hclr⟩,
    fun n => ⟨stealOrder_perm pid n, victimOrder_perm pid n⟩⟩
  · rw [hg, State.setUnit_gets, hgets]
    rfl
  · rw [hn, State.setUnit_news, hnews]
    rfl

theorem putRotatePut_get_order :
    (∃ s₁ q r loc, step putRotatePut (.get 0 0) = .ok s₁ ∧
      s₁.units[0]? = some (.getPinned 0 (some (r, 0))) ∧ s₁.pools[0]? = some q ∧
      q.localPtr = some r ∧ 0 < q.localSize ∧ s₁.shard (r, 0) = some loc ∧
      ∃ s', SoloRun 0 s₁ s' ∧ s'.units[0]? = some .idle ∧
        (∀ s'', SoloRun 0 s₁ s'' → s''.units[0]? = some .idle → s'' = s') ∧
        s'.gets = putRotatePut.gets ++ ((getOrder s₁ 0 q loc).map fun x => (0, x)).toList ∧
        s'.news = putRotatePut.news ++ (getOrder s₁ 0 q loc).elim [(0, q.New)] (fun _ => []) ∧
        (getOrder s₁ 0 q loc = none → 0 < q.victimSize →
          ∃ q', s'.pools[0]? = some q' ∧ q'.victimSize = 0)) ∧
    ∀ n, (stealOrder 0 n).Perm (List.range n) ∧ (victimOrder 0 n).Perm (List.range n) :=
  get_preference_order putRotatePut_reachable rfl (by decide)

end GoStdlib.SyncPool
