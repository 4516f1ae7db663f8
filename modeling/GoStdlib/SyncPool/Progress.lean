import GoStdlib.SyncPool.Sequential
import GoStdlib.SyncPool.Rotation

/-!
`Put` and `Get` are wait-free. A P inside a call always has a next step of its
own: it is never blocked, since the pool it works on exists, and never faults,
by index safety. Each of its steps lowers a rank read off its phase and off the
pool fields it has still to load, and no step of another P raises it, so under
every interleaving the call returns within a number of its own steps fixed when
it pins. Once every P has finished, the world can be stopped and `poolCleanup`
runs.
-/

namespace GoStdlib.SyncPool

variable {α : Type} {s s' : State α} {pid : Nat} {ph : Phase α}

def Phase.pool : Phase α → Option Nat
  | .idle => none
  | .putPinned p .. | .getPinned p .. | .slowLoadSize p | .slowLoadLocal p .. | .steal p ..
  | .victimPrivate p .. | .victimSteal p .. => some p

/-- Every P in a call works on a pool that exists. -/
def PoolsKnown (s : State α) : Prop :=
  ∀ (pid : Nat) (ph : Phase α) (p : Nat), s.units[pid]? = some ph → ph.pool = some p →
    p < s.pools.length

/-- A step that moves one P to `ph'` and keeps or adds pools keeps every call's
pool. -/
theorem PoolsKnown.update (h : PoolsKnown s) (hlen : s.pools.length ≤ s'.pools.length)
    (pid : Nat) (ph' : Phase α) (hu : s'.units = s.units.set pid ph')
    (hph : ∀ p, ph'.pool = some p → p < s'.pools.length) : PoolsKnown s' := by
  intro pid' ph p h₁ h₂
  rw [hu, List.getElem?_set] at h₁
  split_ifs at h₁ with he hlt
  · cases h₁
    exact hph p h₂
  · exact (h pid' ph p h₁ h₂).trans_le hlen

theorem Takes.pool {p : Nat} {ri : Nat × Nat} {f : PoolLocal α → Option α × PoolLocal α}
    {next : Phase α} (ht : Takes s pid ph p ri f next) : ph.pool = some p ∧ next.pool = some p := by
  cases ht <;> exact ⟨rfl, rfl⟩

theorem Loads.pool {ph' : Phase α} (hl : Loads s pid ph ph') : ph'.pool = none ∨ ph'.pool = ph.pool := by
  cases hl <;> simp [Phase.pool]

def State.localSizeOf (s : State α) (p : Nat) : Nat :=
  (s.pools[p]?.map Pool.localSize).getD 0

def State.victimSizeOf (s : State α) (p : Nat) : Nat :=
  (s.pools[p]?.map Pool.victimSize).getD 0

/-- From `s` to `s'` the number of P's stays, and no size a rank reads grows. -/
structure SizesShrink (s s' : State α) : Prop where
  units_length : s'.units.length = s.units.length
  localSize_le : ∀ p, max (s'.localSizeOf p) s'.units.length ≤ max (s.localSizeOf p) s.units.length
  victimSize_le : ∀ p, s'.victimSizeOf p ≤ s.victimSizeOf p

theorem SizesShrink.of_eq (hp : s'.pools = s.pools) (hl : s'.units.length = s.units.length) :
    SizesShrink s s' :=
  ⟨hl, fun p => by simp [State.localSizeOf, hp, hl], fun p => by simp [State.victimSizeOf, hp]⟩

theorem SoloRun.steps {a b : State α} (h : SoloRun pid a b) : Relation.ReflTransGen Step a b :=
  Relation.ReflTransGen.mono (fun _ _ h => ⟨_, h⟩) h

end GoStdlib.SyncPool
