import GoStdlib.Heap.Sift

/-!
`up` and `down` with Go's `int` on a 64-bit target: every sum and product wraps
onto `[-2^63, 2^63)` and `/` truncates toward zero. The `heap.Interface` is any
state with `Less` and `Swap`, and each call of them is recorded, so that the
indices the loops pass are part of their result. The loops are given fuel:
that they end is a theorem, not an assumption.
-/

namespace GoStdlib.ContainerHeap.GoInt

/-- A Go `int`: `x` wrapped onto `[-2^63, 2^63)`. -/
def wrap (x : Int) : Int :=
  (x + 9223372036854775808) % 18446744073709551616 - 9223372036854775808

theorem wrap_of_le {x : Int} (h₁ : -9223372036854775808 ≤ x) (h₂ : x ≤ 9223372036854775807) :
    wrap x = x := by
  unfold wrap
  omega

structure Iface (σ : Type) where
  less : σ → Int → Int → Bool
  swap : σ → Int → Int → σ

inductive Call
  | less (i j : Int)
  | swap (i j : Int)

def Call.Within (lo hi : Int) : Call → Prop
  | .less i j | .swap i j => lo ≤ i ∧ i < hi ∧ lo ≤ j ∧ j < hi

def Call.isSwap : Call → Bool
  | .less .. => false
  | .swap .. => true

variable {σ : Type} (I : Iface σ)

/-- `j2 < n && h.Less(j2, j1)`: `Less` is called only when `j2 < n`. -/
def rightLess (h : σ) (j1 j2 n : Int) : Bool × List Call :=
  if j2 < n then (I.less h j2 j1, [.less j2 j1]) else (false, [])

/-- One pass of the body of `down`'s loop from `i`: it breaks (`inl`) with the
state, `i` and its calls, or goes on (`inr`) from the swapped state at `j`. -/
def downNext (n : Int) (h : σ) (i : Int) : (σ × Int × List Call) ⊕ (σ × Int × List Call) :=
  let j1 := wrap (2 * i + 1)
  if j1 ≥ n ∨ j1 < 0 then .inl (h, i, [])
  else
    let r := rightLess I h j1 (wrap (j1 + 1)) n
    let j := if r.1 then wrap (j1 + 1) else j1
    if !I.less h j i then .inl (h, i, r.2 ++ [.less j i])
    else .inr (I.swap h i j, j, r.2 ++ [.less j i, .swap i j])

/-- The loop of `down` from `i` with `fuel` passes: the state, the final `i` and
the calls made; `none` when the fuel runs out. -/
def downLoop (n : Int) : Nat → σ → Int → Option (σ × Int × List Call)
  | 0, _, _ => none
  | fuel + 1, h, i =>
      match downNext I n h i with
      | .inl r => some r
      | .inr (h', j, calls) => (downLoop n fuel h' j).map fun t => (t.1, t.2.1, calls ++ t.2.2)

/-- `down(h, i0, n)`: the state, `i > i0`, and the calls made. -/
def down (h : σ) (i0 n : Int) (fuel : Nat) : Option (σ × Bool × List Call) :=
  (downLoop I n fuel h i0).map fun t => (t.1, decide (t.2.1 > i0), t.2.2)

/-- One pass of the body of `up`'s loop at `j`, with the parent `i := (j - 1) / 2`. -/
def upNext (h : σ) (j : Int) : (σ × List Call) ⊕ (σ × Int × List Call) :=
  let i := (wrap (j - 1)).tdiv 2
  if i = j then .inl (h, [])
  else if !I.less h j i then .inl (h, [.less j i])
  else .inr (I.swap h i j, i, [.less j i, .swap i j])

/-- `up(h, j)` with `fuel` passes: the state and the calls made. -/
def up : Nat → σ → Int → Option (σ × List Call)
  | 0, _, _ => none
  | fuel + 1, h, j =>
      match upNext I h j with
      | .inl r => some r
      | .inr (h', i, calls) => (up fuel h' i).map fun t => (t.1, calls ++ t.2)

theorem downLoop_succ {n : Int} :
    ∀ {fuel h i r}, downLoop I n fuel h i = some r → downLoop I n (fuel + 1) h i = some r
  | 0, _, _, _, hr => nomatch hr
  | fuel + 1, h, i, r, hr => by
      unfold downLoop at hr ⊢
      split at hr
      · exact hr
      · obtain ⟨t, ht, rfl⟩ := Option.map_eq_some'.mp hr
        rw [downLoop_succ ht]
        rfl

theorem up_succ : ∀ {fuel h j r}, up I fuel h j = some r → up I (fuel + 1) h j = some r
  | 0, _, _, _, hr => nomatch hr
  | fuel + 1, h, j, r, hr => by
      unfold up at hr ⊢
      split at hr
      · exact hr
      · obtain ⟨t, ht, rfl⟩ := Option.map_eq_some'.mp hr
        rw [up_succ ht]
        rfl

theorem downLoop_mono {n : Int} {fuel fuel' : Nat} {h : σ} {i : Int} {r}
    (hr : downLoop I n fuel h i = some r) (hle : fuel ≤ fuel') : downLoop I n fuel' h i = some r := by
  induction hle with
  | refl => exact hr
  | step _ ih => exact downLoop_succ I ih

theorem up_mono {fuel fuel' : Nat} {h : σ} {j : Int} {r}
    (hr : up I fuel h j = some r) (hle : fuel ≤ fuel') : up I fuel' h j = some r := by
  induction hle with
  | refl => exact hr
  | step _ ih => exact up_succ I ih

theorem Call.Within.mono {lo hi hi' : Int} {c : Call} (h : c.Within lo hi) (hle : hi ≤ hi') :
    c.Within lo hi' := by
  cases c <;> (simp only [Call.Within] at h ⊢; omega)

theorem wrap_two_mul_add_one {i : Int} (h0 : 0 ≤ i) (h : i < 9223372036854775807) :
    wrap (2 * i + 1) < 0 ∨ wrap (2 * i + 1) = 2 * i + 1 := by
  unfold wrap
  omega

theorem wrap_add_one {j1 n : Int} (h0 : 0 ≤ j1) (h : j1 < n) (hn : n ≤ 9223372036854775807) :
    wrap (j1 + 1) = j1 + 1 :=
  wrap_of_le (by omega) (by omega)

theorem root_parent : (wrap (0 - 1)).tdiv 2 = 0 := by decide

theorem rightLess_spec (h : σ) {j1 n : Int} (h0 : 0 ≤ j1) (hj1 : j1 < n) :
    (if (rightLess I h j1 (j1 + 1) n).1 then j1 + 1 else j1) < n ∧
      ∀ c ∈ (rightLess I h j1 (j1 + 1) n).2, c.Within 0 n ∧ c.isSwap = false := by
  unfold rightLess
  by_cases hlt : j1 + 1 < n
  · refine ⟨by simp only [hlt, if_true]; split <;> omega, ?_⟩
    simp only [hlt, if_true, List.mem_singleton]
    rintro c rfl
    exact ⟨⟨by omega, hlt, h0, hj1⟩, rfl⟩
  · simp only [hlt, if_false, Bool.false_eq_true, List.not_mem_nil, false_implies,
      implies_true, and_true]
    exact hj1

theorem downNext_eq {n : Int} (hn : n ≤ 9223372036854775807) (h : σ) {i : Int} (hi0 : 0 ≤ i)
    (hin : i < n) :
    downNext I n h i =
      if n ≤ 2 * i + 1 then .inl (h, i, [])
      else
        let r := rightLess I h (2 * i + 1) (2 * i + 1 + 1) n
        let j := if r.1 then 2 * i + 1 + 1 else 2 * i + 1
        if !I.less h j i then .inl (h, i, r.2 ++ [.less j i])
        else .inr (I.swap h i j, j, r.2 ++ [.less j i, .swap i j]) := by
  unfold downNext
  by_cases hc : n ≤ 2 * i + 1
  · have hstop : wrap (2 * i + 1) ≥ n ∨ wrap (2 * i + 1) < 0 := by unfold wrap; omega
    simp only [hstop, hc, if_true]
  · have hj1 : wrap (2 * i + 1) = 2 * i + 1 := wrap_of_le (by omega) (by omega)
    simp only [hj1, wrap_add_one (by omega : 0 ≤ 2 * i + 1) (by omega : 2 * i + 1 < n) hn, hc,
      show ¬2 * i + 1 < 0 by omega, or_false, if_false]

theorem downNext_spec {n : Int} (hn : n ≤ 9223372036854775807) (h : σ) {i : Int} (hi0 : 0 ≤ i)
    (hin : i < n) :
    (∃ calls, downNext I n h i = .inl (h, i, calls) ∧ ∀ c ∈ calls, c.Within 0 n ∧ c.isSwap = false) ∨
    (∃ j calls, downNext I n h i = .inr (I.swap h i j, j, calls) ∧ i < j ∧ j < n ∧
      (∀ c ∈ calls, c.Within 0 n) ∧ ∃ c ∈ calls, c.isSwap = true) := by
  rw [downNext_eq I hn h hi0 hin]
  by_cases hstop : n ≤ 2 * i + 1
  · exact .inl ⟨[], by rw [if_pos hstop], by simp⟩
  rw [if_neg hstop]
  dsimp only
  obtain ⟨hjn, hr⟩ := @rightLess_spec _ I h (2 * i + 1) n (by omega) (by omega)
  generalize hj : (if (rightLess I h (2 * i + 1) (2 * i + 1 + 1) n).1 then 2 * i + 1 + 1
    else 2 * i + 1) = j at hjn ⊢
  have hij : i < j := by rw [← hj]; split <;> omega
  split
  · refine .inl ⟨_, rfl, fun c hc => ?_⟩
    rcases List.mem_append.mp hc with hc | hc
    · exact hr c hc
    · obtain rfl := List.mem_singleton.mp hc
      exact ⟨⟨by omega, hjn, hi0, hin⟩, rfl⟩
  · refine .inr ⟨j, _, rfl, hij, hjn, fun c hc => ?_, ⟨.swap i j, by simp, rfl⟩⟩
    rcases List.mem_append.mp hc with hc | hc
    · exact (hr c hc).1
    · simp only [List.mem_cons, List.mem_singleton, List.not_mem_nil, or_false] at hc
      rcases hc with rfl | rfl <;> exact ⟨by omega, by omega, by omega, by omega⟩

theorem upNext_eq (h : σ) {j : Int} (hj0 : 0 ≤ j) (hj : j ≤ 9223372036854775807) :
    upNext I h j =
      if j = 0 then .inl (h, [])
      else if !I.less h j ((j - 1) / 2) then .inl (h, [.less j ((j - 1) / 2)])
      else .inr (I.swap h ((j - 1) / 2) j, (j - 1) / 2,
        [.less j ((j - 1) / 2), .swap ((j - 1) / 2) j]) := by
  unfold upNext
  rcases (show j = 0 ∨ 0 < j by omega) with rfl | hpos
  · simp only [root_parent, if_true]
  · have hi : (wrap (j - 1)).tdiv 2 = (j - 1) / 2 := by
      rw [wrap_of_le (by omega) (by omega), Int.tdiv_eq_ediv (by omega) (by decide)]
    simp only [hi, if_neg (show (j - 1) / 2 ≠ j by omega), if_neg (show j ≠ 0 by omega)]

theorem upNext_spec (h : σ) {j : Int} (hj0 : 0 ≤ j) (hj : j ≤ 9223372036854775807) :
    (∃ calls, upNext I h j = .inl (h, calls) ∧ ∀ c ∈ calls, c.Within 0 (j + 1)) ∨
    (∃ i calls, upNext I h j = .inr (I.swap h i j, i, calls) ∧ 0 ≤ i ∧ i < j ∧
      ∀ c ∈ calls, c.Within 0 (j + 1)) := by
  rw [upNext_eq I h hj0 hj]
  by_cases hroot : j = 0
  · exact .inl ⟨[], by rw [if_pos hroot], by simp⟩
  rw [if_neg hroot]
  have hin : ∀ c ∈ [Call.less j ((j - 1) / 2), .swap ((j - 1) / 2) j], c.Within 0 (j + 1) := by
    simp only [List.mem_cons, List.mem_singleton, List.not_mem_nil, or_false]
    rintro c (rfl | rfl) <;> exact ⟨by omega, by omega, by omega, by omega⟩
  split
  · exact .inl ⟨_, rfl, fun c hc => hin c (by simp only [List.mem_singleton] at hc; simp [hc])⟩
  · exact .inr ⟨_, _, rfl, by omega, by omega, hin⟩

/-- `down`'s loop from `0 ≤ i < n ≤ 2^63 - 1` ends within `n - i` passes, passes
only indices in `[0, n)`, and moves `i` exactly when it swaps. -/
theorem downLoop_spec {n : Int} (hn : n ≤ 9223372036854775807) :
    ∀ fuel h i, 0 ≤ i → i < n → (n - i).toNat < fuel →
      ∃ h' i' calls, downLoop I n fuel h i = some (h', i', calls) ∧ i ≤ i' ∧
        (∀ c ∈ calls, c.Within 0 n) ∧ (i < i' ↔ ∃ c ∈ calls, c.isSwap = true)
  | 0, _, _, _, _, hf => absurd hf (Nat.not_lt_zero _)
  | fuel + 1, h, i, hi0, hin, hf => by
      rcases downNext_spec I hn h hi0 hin with ⟨calls, hnext, hc⟩ | ⟨j, calls, hnext, hij, hjn, hc, hsw⟩
      · refine ⟨h, i, calls, by simp only [downLoop, hnext], Int.le_refl i,
          fun c h => (hc c h).1, iff_of_false (Int.lt_irrefl i) ?_⟩
        rintro ⟨c, hm, hs⟩
        simp [(hc c hm).2] at hs
      · obtain ⟨h', i', calls', hrec, hji', hc', -⟩ :=
          downLoop_spec hn fuel (I.swap h i j) j (by omega) hjn (by omega)
        refine ⟨h', i', calls ++ calls', by simp only [downLoop, hnext, hrec, Option.map_some'],
          by omega, fun c hm => ?_, iff_of_true (by omega) ?_⟩
        · rcases List.mem_append.mp hm with hm | hm
          exacts [hc c hm, hc' c hm]
        · obtain ⟨c, hm, hs⟩ := hsw
          exact ⟨c, List.mem_append_left _ hm, hs⟩

/-- `up`'s loop from `0 ≤ j` ends within `j + 1` passes and passes only indices
in `[0, j]`. -/
theorem up_spec :
    ∀ fuel h j, 0 ≤ j → j ≤ 9223372036854775807 → j.toNat < fuel →
      ∃ h' calls, up I fuel h j = some (h', calls) ∧ ∀ c ∈ calls, c.Within 0 (j + 1)
  | 0, _, _, _, _, hf => absurd hf (Nat.not_lt_zero _)
  | fuel + 1, h, j, hj0, hj, hf => by
      rcases upNext_spec I h hj0 hj with ⟨calls, hnext, hc⟩ | ⟨i, calls, hnext, hi0, hij, hc⟩
      · exact ⟨h, calls, by simp only [up, hnext], hc⟩
      · obtain ⟨h', calls', hrec, hc'⟩ := up_spec fuel (I.swap h i j) i hi0 (by omega) (by omega)
        refine ⟨h', calls ++ calls', by simp only [up, hnext, hrec, Option.map_some'], fun c hm => ?_⟩
        rcases List.mem_append.mp hm with hm | hm
        exacts [hc c hm, (hc' c hm).mono (by omega)]

def heapIface {α : Type} (less : α → α → Bool) : Iface (Heap α) :=
  ⟨fun h i j => less (h.data i.toNat) (h.data j.toNat), fun h i j => h.swap i.toNat j.toNat⟩

theorem heap_loops_int64 :
    (∀ h n i0, 0 ≤ i0 → i0 < n → n ≤ 9223372036854775807 →
      ∃ h' moved calls, (∀ fuel, (n - i0).toNat < fuel → down I h i0 n fuel = some (h', moved, calls)) ∧
        (∀ c ∈ calls, c.Within 0 n) ∧ (moved = true ↔ ∃ c ∈ calls, c.isSwap = true)) ∧
    (∀ h j, 0 ≤ j → j ≤ 9223372036854775807 →
      ∃ h' calls, (∀ fuel, j.toNat < fuel → up I fuel h j = some (h', calls)) ∧
        ∀ c ∈ calls, c.Within 0 (j + 1)) ∧
    (∀ i, 0 ≤ i → i < 9223372036854775807 → wrap (2 * i + 1) < 0 ∨ wrap (2 * i + 1) = 2 * i + 1) ∧
    (∀ j1 n, 0 ≤ j1 → j1 < n → n ≤ 9223372036854775807 → wrap (j1 + 1) = j1 + 1) ∧
    (wrap (0 - 1)).tdiv 2 = 0 := by
  refine ⟨fun h n i0 hi0 hin hn => ?_, fun h j hj0 hj => ?_, fun _ => wrap_two_mul_add_one,
    fun _ _ => wrap_add_one, root_parent⟩
  · obtain ⟨h', i', calls, hr, -, hc, hsw⟩ :=
      downLoop_spec I hn ((n - i0).toNat + 1) h i0 hi0 hin (Nat.lt_succ_self _)
    refine ⟨h', decide (i' > i0), calls, fun fuel hf => ?_, hc, by simpa using hsw⟩
    rw [down, downLoop_mono I hr hf]
    rfl
  · obtain ⟨h', calls, hr, hc⟩ := up_spec I (j.toNat + 1) h j hj0 hj (Nat.lt_succ_self _)
    exact ⟨h', calls, fun fuel hf => up_mono I hr hf, hc⟩

/-- At the largest `int` length, `down` from `2^62` ends although `2*i+1` wraps
below zero there. -/
theorem heap_loops_at_int_max :
    (∃ h' moved calls, (∀ fuel, (9223372036854775807 - 4611686018427387904 : Int).toNat < fuel →
        down (heapIface fun a b : Nat => decide (a < b)) ⟨id, 0⟩ 4611686018427387904
          9223372036854775807 fuel = some (h', moved, calls)) ∧
      (∀ c ∈ calls, c.Within 0 9223372036854775807) ∧ (moved = true ↔ ∃ c ∈ calls, c.isSwap = true)) ∧
    wrap (2 * 4611686018427387904 + 1) < 0 :=
  ⟨(heap_loops_int64 _).1 _ _ _ (by decide) (by decide) (by decide),
    ((heap_loops_int64 (heapIface fun a b : Nat => decide (a < b))).2.2.1 _ (by decide)
      (by decide)).resolve_right (by decide)⟩

variable {α : Type} (less : α → α → Bool)

theorem rightLess_heap (h : Heap α) {i n : Int} (hi0 : 0 ≤ i) (hin : 2 * i + 1 < n) :
    (if (rightLess (heapIface less) h (2 * i + 1) (2 * i + 1 + 1) n).1 then 2 * i + 1 + 1
      else 2 * i + 1) = ↑(lesserChild less h i.toNat n.toNat) := by
  have e₁ : (2 * i + 1).toNat = 2 * i.toNat + 1 := by omega
  have e₂ : (2 * i + 1 + 1).toNat = 2 * i.toNat + 2 := by omega
  have hlt : 2 * i + 1 + 1 < n ↔ 2 * i.toNat + 2 < n.toNat := by omega
  unfold rightLess lesserChild
  simp only [heapIface, e₁, e₂]
  by_cases hr : 2 * i + 1 + 1 < n
  · simp only [hr, hlt.mp hr, if_true, decide_True, Bool.true_and]
    split <;> omega
  · simp only [hr, mt hlt.mpr hr, if_false, decide_False, Bool.false_and, Bool.false_eq_true]
    omega

theorem downNext_heap (h : Heap α) {n i : Int} (hn : n ≤ 9223372036854775807) (hi0 : 0 ≤ i)
    (hin : i < n) :
    (∃ calls, downNext (heapIface less) n h i = .inl (h, i, calls) ∧
      ContainerHeap.downLoop less h i.toNat n.toNat = (h, i.toNat)) ∨
    (∃ calls, downNext (heapIface less) n h i =
        .inr (h.swap i.toNat (lesserChild less h i.toNat n.toNat),
          ↑(lesserChild less h i.toNat n.toNat), calls) ∧ 2 * i.toNat + 1 < n.toNat ∧
      ContainerHeap.downLoop less h i.toNat n.toNat =
        ContainerHeap.downLoop less (h.swap i.toNat (lesserChild less h i.toNat n.toNat))
          (lesserChild less h i.toNat n.toNat) n.toNat) := by
  rw [downNext_eq (heapIface less) hn h hi0 hin, ContainerHeap.downLoop]
  by_cases hstop : n ≤ 2 * i + 1
  · exact .inl ⟨[], by rw [if_pos hstop], by rw [if_pos (by omega : n.toNat ≤ 2 * i.toNat + 1)]⟩
  rw [if_neg hstop, if_neg (by omega : ¬n.toNat ≤ 2 * i.toNat + 1)]
  dsimp only
  rw [rightLess_heap less h hi0 (by omega)]
  simp only [heapIface, Int.toNat_ofNat]
  split
  · exact .inl ⟨_, rfl, rfl⟩
  · exact .inr ⟨_, rfl, by omega, rfl⟩

theorem downLoop_heap {n : Int} (hn : n ≤ 9223372036854775807) :
    ∀ fuel (h : Heap α) i, 0 ≤ i → i < n → (n - i).toNat < fuel →
      ∃ i' calls, downLoop (heapIface less) n fuel h i =
          some ((ContainerHeap.downLoop less h i.toNat n.toNat).1, i', calls) ∧
        0 ≤ i' ∧ i'.toNat = (ContainerHeap.downLoop less h i.toNat n.toNat).2
  | 0, _, _, _, _, hf => absurd hf (Nat.not_lt_zero _)
  | fuel + 1, h, i, hi0, hin, hf => by
      rcases downNext_heap less h hn hi0 hin with ⟨calls, hnext, hnat⟩ | ⟨calls, hnext, hgo, hnat⟩
      · exact ⟨i, calls, by simp only [downLoop, hnext, hnat], hi0, by rw [hnat]⟩
      · obtain ⟨hij, hjn⟩ := @lesserChild_lt _ less h _ _ hgo
        generalize lesserChild less h i.toNat n.toNat = j at hnext hnat hij hjn
        obtain ⟨i', calls', hrec, hi'0, hi'⟩ :=
          downLoop_heap hn fuel (h.swap i.toNat j) j (Int.natCast_nonneg _) (by omega) (by omega)
        rw [Int.toNat_ofNat] at hrec hi'
        exact ⟨i', calls ++ calls', by simp only [downLoop, hnext, hrec, hnat, Option.map_some'],
          hi'0, by rw [hnat, hi']⟩

/-- `down(h, i0, n)` on a `Heap` with Go's `int` returns what the `Nat` model's
`down` returns. -/
theorem down_heap (h : Heap α) {i0 n : Int} (hi0 : 0 ≤ i0) (hin : i0 < n)
    (hn : n ≤ 9223372036854775807) (fuel : Nat) (hf : (n - i0).toNat < fuel) :
    ∃ calls, down (heapIface less) h i0 n fuel =
      some ((ContainerHeap.down less h i0.toNat n.toNat).1,
        (ContainerHeap.down less h i0.toNat n.toNat).2, calls) := by
  obtain ⟨i', calls, hr, hi'0, hi'⟩ := downLoop_heap less hn fuel h i0 hi0 hin hf
  refine ⟨calls, ?_⟩
  simp only [down, hr, Option.map_some', ContainerHeap.down, ← hi']
  congr 3
  exact decide_eq_decide.mpr (by omega)

theorem upNext_heap (h : Heap α) {j : Int} (hj0 : 0 ≤ j) (hj : j ≤ 9223372036854775807) :
    (∃ calls, upNext (heapIface less) h j = .inl (h, calls) ∧ ContainerHeap.up less h j.toNat = h) ∨
    (∃ calls, upNext (heapIface less) h j =
        .inr (h.swap ((j.toNat - 1) / 2) j.toNat, ↑((j.toNat - 1) / 2), calls) ∧
      (j.toNat - 1) / 2 < j.toNat ∧
      ContainerHeap.up less h j.toNat =
        ContainerHeap.up less (h.swap ((j.toNat - 1) / 2) j.toNat) ((j.toNat - 1) / 2)) := by
  rw [upNext_eq (heapIface less) h hj0 hj, ContainerHeap.up]
  by_cases hroot : j = 0
  · subst hroot
    exact .inl ⟨[], by rw [if_pos rfl], by simp⟩
  have hp : (j - 1) / 2 = ↑((j.toNat - 1) / 2) := by omega
  have hne : decide ((j.toNat - 1) / 2 = j.toNat) = false := decide_eq_false (by omega)
  simp only [if_neg hroot, hp, heapIface, Int.toNat_ofNat, hne, Bool.false_or]
  split
  · exact .inl ⟨_, rfl, rfl⟩
  · exact .inr ⟨_, rfl, by omega, rfl⟩

/-- `up(h, j)` on a `Heap` with Go's `int` returns the `Nat` model's heap. -/
theorem up_heap :
    ∀ fuel (h : Heap α) j, 0 ≤ j → j ≤ 9223372036854775807 → j.toNat < fuel →
      ∃ calls, up (heapIface less) fuel h j = some (ContainerHeap.up less h j.toNat, calls)
  | 0, _, _, _, _, hf => absurd hf (Nat.not_lt_zero _)
  | fuel + 1, h, j, hj0, hj, hf => by
      rcases upNext_heap less h hj0 hj with ⟨calls, hnext, hnat⟩ | ⟨calls, hnext, hlt, hnat⟩
      · exact ⟨calls, by simp only [up, hnext, hnat]⟩
      · generalize (j.toNat - 1) / 2 = i at hnext hlt hnat
        obtain ⟨calls', hrec⟩ :=
          up_heap fuel (h.swap i j.toNat) i (Int.natCast_nonneg _) (by omega) (by omega)
        rw [Int.toNat_ofNat] at hrec
        exact ⟨calls ++ calls', by simp only [up, hnext, hrec, hnat, Option.map_some']⟩

end GoStdlib.ContainerHeap.GoInt
