import GoStdlib.Heap.Model
import Mathlib.Order.Defs.Unbundled
import Mathlib.Data.Multiset.Range
import Mathlib.Data.Multiset.Nodup

/-!
The loops `up` and `down`. Each keeps every child not less than its parent but
at the element it moves, and the children of that element not less than the
element's parent; at its exit the last pair is in order too. `down` is stated
for the pairs whose parent is at least `lo`, so that the bottom-up calls of
`Init` use it as well.
-/

namespace GoStdlib.ContainerHeap

variable {α : Type} (less : α → α → Bool)

def PairOk (h : Heap α) (k : Nat) : Prop :=
  less (h.data k) (h.data ((k - 1) / 2)) = false

/-- The heap invariant on the first `n` elements, for the pairs whose parent is
at least `lo`. -/
def OrderedFrom (h : Heap α) (lo n : Nat) : Prop :=
  ∀ k, 0 < k → k < n → lo ≤ (k - 1) / 2 → PairOk less h k

/-- What `up` keeps while it moves element `j` toward the root. -/
structure UpInv (h : Heap α) (j n : Nat) : Prop where
  pairs : ∀ k, 0 < k → k < n → k ≠ j → PairOk less h k
  grand : 0 < j → ∀ k, 0 < k → k < n → (k - 1) / 2 = j →
    less (h.data k) (h.data ((j - 1) / 2)) = false

/-- What `down` keeps while it moves element `i`, started at `i0`, away from the
root, for the pairs whose parent is at least `lo`. -/
structure DownInv (h : Heap α) (lo i0 i n : Nat) : Prop where
  le : lo ≤ i0 ∧ i0 ≤ i
  pairs : ∀ k, 0 < k → k < n → lo ≤ (k - 1) / 2 → k ≠ i → (k - 1) / 2 ≠ i → PairOk less h k
  grand : 0 < i → lo ≤ (i - 1) / 2 → ∀ k, 0 < k → k < n → (k - 1) / 2 = i →
    less (h.data k) (h.data ((i - 1) / 2)) = false
  above : i ≠ i0 → 0 < i ∧ lo ≤ (i - 1) / 2 ∧ PairOk less h i

/-- The state `down` leaves: every pair is in order but the one at `i0` when the
element stayed there. -/
def DownDone (h : Heap α) (lo i0 i n : Nat) : Prop :=
  ∀ k, 0 < k → k < n → lo ≤ (k - 1) / 2 → (k = i → i ≠ i0) → PairOk less h k

def Heap.elems (h : Heap α) : Multiset α :=
  (Multiset.range h.len).map h.data

theorem Heap.elems_swap (h : Heap α) {i j : Nat} (hi : i < h.len) (hj : j < h.len) :
    (h.swap i j).elems = h.elems := by
  have hperm : (Multiset.range h.len).map (Equiv.swap i j) = Multiset.range h.len := by
    refine (Multiset.Nodup.ext ((Multiset.nodup_range _).map (Equiv.injective _))
      (Multiset.nodup_range _)).mpr fun a => ?_
    simp only [Multiset.mem_map, Multiset.mem_range]
    constructor
    · rintro ⟨b, hb, rfl⟩
      rw [Equiv.swap_apply_def]
      split_ifs <;> omega
    · intro ha
      refine ⟨Equiv.swap i j a, ?_, Equiv.swap_apply_self _ _ _⟩
      rw [Equiv.swap_apply_def]
      split_ifs <;> omega
  show Multiset.map (h.data ∘ Equiv.swap i j) _ = _
  rw [← Multiset.map_map, Heap.swap_len, hperm, elems]

variable {less}

section Order

variable [IsStrictWeakOrder α fun a b => less a b = true]

theorem less_irrefl (a : α) : less a a = false :=
  Bool.eq_false_iff.mpr (irrefl_of (fun a b => less a b = true) a)

theorem less_asymm {a b : α} (h : less a b = true) : less b a = false :=
  Bool.eq_false_iff.mpr (asymm_of (fun a b => less a b = true) h)

theorem less_trans {a b c : α} (h₁ : less a b = true) (h₂ : less b c = true) : less a c = true :=
  trans_of (fun a b => less a b = true) h₁ h₂

theorem not_less_trans {a b c : α} (h₁ : less b a = false) (h₂ : less c b = false) :
    less c a = false := by
  cases hbc : less b c
  · cases hab : less a b
    · exact Bool.eq_false_iff.mpr (@IsStrictWeakOrder.incomp_trans _ (fun a b => less a b = true) _
        a b c ⟨by simp [hab], by simp [h₁]⟩ ⟨by simp [hbc], by simp [h₂]⟩).2
    · cases hca : less c a
      · rfl
      · simpa [h₂] using less_trans hca hab
  · cases hca : less c a
    · rfl
    · simpa [h₁] using less_trans hbc hca

end Order

variable [IsStrictWeakOrder α fun a b => less a b = true]

theorem UpInv.swap {h : Heap α} {j n : Nat} (hu : UpInv less h j n) (hj0 : 0 < j) (hjn : j < n)
    (hlt : less (h.data j) (h.data ((j - 1) / 2)) = true) :
    UpInv less (h.swap ((j - 1) / 2) j) ((j - 1) / 2) n := by
  have hpj : (j - 1) / 2 < j := by omega
  constructor
  · intro k hk0 hkn hkp
    simp only [PairOk, Heap.swap_data]
    by_cases hkj : k = j
    · subst hkj
      rw [Equiv.swap_apply_right, Equiv.swap_apply_left]
      exact less_asymm hlt
    · rw [Equiv.swap_apply_of_ne_of_ne hkp hkj]
      by_cases hpk : (k - 1) / 2 = j
      · rw [hpk, Equiv.swap_apply_right]
        exact hu.grand hj0 k hk0 hkn hpk
      · by_cases hpk' : (k - 1) / 2 = (j - 1) / 2
        · have hk := hu.pairs k hk0 hkn hkj
          rw [PairOk, hpk'] at hk
          rw [hpk', Equiv.swap_apply_left]
          cases hc : less (h.data k) (h.data j)
          · rfl
          · simpa [hk] using less_trans hc hlt
        · rw [Equiv.swap_apply_of_ne_of_ne hpk' hpk]
          exact hu.pairs k hk0 hkn hkj
  · intro hp0 k hk0 hkn hpk
    have hpp : Equiv.swap ((j - 1) / 2) j (((j - 1) / 2 - 1) / 2) = ((j - 1) / 2 - 1) / 2 :=
      Equiv.swap_apply_of_ne_of_ne (by omega) (by omega)
    simp only [Heap.swap_data, hpp]
    have hpair : less (h.data ((j - 1) / 2)) (h.data (((j - 1) / 2 - 1) / 2)) = false :=
      hu.pairs _ hp0 (by omega) (by omega)
    by_cases hkj : k = j
    · subst hkj
      rw [Equiv.swap_apply_right]
      exact hpair
    · have hk := hu.pairs k hk0 hkn hkj
      rw [PairOk, hpk] at hk
      rw [Equiv.swap_apply_of_ne_of_ne (show k ≠ (j - 1) / 2 by omega) hkj]
      exact not_less_trans hpair hk

omit [IsStrictWeakOrder α fun a b => less a b = true] in
theorem UpInv.ordered {h : Heap α} {j n : Nat} (hu : UpInv less h j n)
    (hstop : j = 0 ∨ less (h.data j) (h.data ((j - 1) / 2)) = false) : OrderedFrom less h 0 n := by
  intro k hk0 hkn _
  by_cases hkj : k = j
  · subst hkj
    exact hstop.resolve_left (by omega)
  · exact hu.pairs k hk0 hkn hkj

omit [IsStrictWeakOrder α fun a b => less a b = true] in
@[simp] theorem up_len (h : Heap α) (j : Nat) : (up less h j).len = h.len := by
  induction h, j using up.induct less with
  | case1 h j hstop => rw [up, if_pos hstop]
  | case2 h j hmove ih => rw [up, if_neg hmove, ih, Heap.swap_len]

omit [IsStrictWeakOrder α fun a b => less a b = true] in
theorem up_data_of_lt (h : Heap α) (j : Nat) : ∀ k, j < k → (up less h j).data k = h.data k := by
  induction h, j using up.induct less with
  | case1 h j hstop => intro k _; rw [up, if_pos hstop]
  | case2 h j hmove ih =>
      intro k hk
      rw [up, if_neg hmove, ih k (by omega), Heap.swap_data,
        Equiv.swap_apply_of_ne_of_ne (by omega) (by omega)]

omit [IsStrictWeakOrder α fun a b => less a b = true] in
theorem up_elems (h : Heap α) (j : Nat) (hj : j < h.len) : (up less h j).elems = h.elems := by
  induction h, j using up.induct less with
  | case1 h j hstop => rw [up, if_pos hstop]
  | case2 h j hmove ih =>
      rw [up, if_neg hmove, ih (by simpa using (by omega : (j - 1) / 2 < h.len)),
        Heap.elems_swap _ (by omega) hj]

theorem up_ordered (h : Heap α) (j n : Nat) (hjn : j < n) (hu : UpInv less h j n) :
    OrderedFrom less (up less h j) 0 n := by
  induction h, j using up.induct less with
  | case1 h j hstop =>
      rw [up, if_pos hstop]
      simp only [Bool.or_eq_true, decide_eq_true_eq, Bool.not_eq_true'] at hstop
      exact hu.ordered (hstop.imp_left fun h => by omega)
  | case2 h j hmove ih =>
      rw [up, if_neg hmove]
      simp only [Bool.or_eq_true, decide_eq_true_eq, Bool.not_eq_true', not_or,
        Bool.not_eq_false] at hmove
      exact ih (by omega) (hu.swap (by omega) hjn hmove.2)

omit [IsStrictWeakOrder α fun a b => less a b = true] in
theorem lesserChild_lt (h : Heap α) {i n : Nat} (hn : 2 * i + 1 < n) :
    i < lesserChild less h i n ∧ lesserChild less h i n < n := by
  unfold lesserChild
  split_ifs with hc
  · simp only [Bool.and_eq_true, decide_eq_true_eq] at hc
    omega
  · omega

omit [IsStrictWeakOrder α fun a b => less a b = true] in
theorem downLoop_frame (h : Heap α) (i n : Nat) (hn : n ≤ h.len) :
    (downLoop less h i n).1.len = h.len ∧ (downLoop less h i n).1.elems = h.elems ∧
      (∀ k, n ≤ k → (downLoop less h i n).1.data k = h.data k) ∧
      i ≤ (downLoop less h i n).2 ∧ ((downLoop less h i n).2 = i → (downLoop less h i n).1 = h) := by
  induction h, i, n using downLoop.induct less with
  | case1 h i n hle =>
      rw [downLoop, if_pos hle]
      exact ⟨rfl, rfl, fun _ _ => rfl, le_rfl, fun _ => rfl⟩
  | case2 h i n hlt hstop =>
      rw [downLoop, if_neg hlt, if_pos hstop]
      exact ⟨rfl, rfl, fun _ _ => rfl, le_rfl, fun _ => rfl⟩
  | case3 h i n hlt hmove ih =>
      rw [downLoop, if_neg hlt, if_neg hmove]
      obtain ⟨hij, hjn⟩ := @lesserChild_lt _ less h _ _ (by omega : 2 * i + 1 < n)
      obtain ⟨hlen, helems, hdata, hle, -⟩ := ih hn
      refine ⟨hlen, helems.trans (Heap.elems_swap _ (by omega) (by omega)), fun k hk => ?_,
        by omega, fun h' => by omega⟩
      rw [hdata k hk, Heap.swap_data, Equiv.swap_apply_of_ne_of_ne (by omega) (by omega)]

theorem lesserChild_spec (h : Heap α) {i n : Nat} (hn : 2 * i + 1 < n) :
    (lesserChild less h i n - 1) / 2 = i ∧ i < lesserChild less h i n ∧ lesserChild less h i n < n ∧
      ∀ k, 0 < k → k < n → (k - 1) / 2 = i → k ≠ lesserChild less h i n →
        less (h.data k) (h.data (lesserChild less h i n)) = false := by
  unfold lesserChild
  split_ifs with hc
  · simp only [Bool.and_eq_true, decide_eq_true_eq] at hc
    refine ⟨by omega, by omega, hc.1, fun k hk0 _ hpk hkj => ?_⟩
    obtain rfl : k = 2 * i + 1 := by omega
    exact less_asymm hc.2
  · simp only [Bool.and_eq_true, decide_eq_true_eq, not_and, Bool.not_eq_true] at hc
    exact ⟨by omega, by omega, hn, fun k hk0 hkn hpk hkj => by
      obtain rfl : k = 2 * i + 2 := by omega
      exact hc hkn⟩

theorem DownInv.swap {h : Heap α} {lo i0 i n : Nat} (hd : DownInv less h lo i0 i n)
    (hn : 2 * i + 1 < n) (hlt : less (h.data (lesserChild less h i n)) (h.data i) = true) :
    DownInv less (h.swap i (lesserChild less h i n)) lo i0 (lesserChild less h i n) n := by
  obtain ⟨hpj, hij, hjn, hsib⟩ := @lesserChild_spec _ less _ h _ _ hn
  generalize lesserChild less h i n = j at hpj hij hjn hsib hlt
  have hle := hd.le
  refine ⟨⟨hle.1, by omega⟩, fun k hk0 hkn hlo hkj hpk => ?_, fun _ _ k hk0 hkn hpk => ?_,
    fun _ => ⟨by omega, by omega, ?_⟩⟩
  · simp only [PairOk, Heap.swap_data]
    by_cases hki : k = i
    · subst hki
      rw [Equiv.swap_apply_left, Equiv.swap_apply_of_ne_of_ne (by omega) (by omega)]
      exact hd.grand hk0 hlo j (by omega) hjn hpj
    · rw [Equiv.swap_apply_of_ne_of_ne hki hkj]
      by_cases hpi : (k - 1) / 2 = i
      · rw [hpi, Equiv.swap_apply_left]
        exact hsib k hk0 hkn hpi hkj
      · rw [Equiv.swap_apply_of_ne_of_ne hpi hpk]
        exact hd.pairs k hk0 hkn hlo hki hpi
  · rw [hpj]
    simp only [Heap.swap_data]
    rw [Equiv.swap_apply_left, Equiv.swap_apply_of_ne_of_ne (by omega) (by omega)]
    have hk := hd.pairs k hk0 hkn (by omega) (by omega) (by omega)
    rwa [PairOk, hpk] at hk
  · simp only [PairOk, Heap.swap_data, hpj]
    rw [Equiv.swap_apply_right, Equiv.swap_apply_left]
    exact less_asymm hlt

theorem DownInv.done {h : Heap α} {lo i0 i n : Nat} (hd : DownInv less h lo i0 i n)
    (hstop : n ≤ 2 * i + 1 ∨ less (h.data (lesserChild less h i n)) (h.data i) = false) :
    DownDone less h lo i0 i n := by
  intro k hk0 hkn hlo hki
  by_cases hk : k = i
  · subst hk
    exact (hd.above (hki rfl)).2.2
  · by_cases hpk : (k - 1) / 2 = i
    · have hn : 2 * i + 1 < n := by omega
      have hs := hstop.resolve_left (by omega)
      obtain ⟨-, -, -, hsib⟩ := @lesserChild_spec _ less _ h _ _ hn
      unfold PairOk
      rw [hpk]
      by_cases hkj : k = lesserChild less h i n
      · rw [hkj]
        exact hs
      · exact not_less_trans hs (hsib k hk0 hkn hpk hkj)
    · exact hd.pairs k hk0 hkn hlo hk hpk

theorem downLoop_done {lo i0 : Nat} (h : Heap α) (i n : Nat) (hd : DownInv less h lo i0 i n) :
    DownDone less (downLoop less h i n).1 lo i0 (downLoop less h i n).2 n := by
  induction h, i, n using downLoop.induct less with
  | case1 h i n hle =>
      rw [downLoop, if_pos hle]
      exact hd.done (.inl hle)
  | case2 h i n hlt hstop =>
      rw [downLoop, if_neg hlt, if_pos hstop]
      exact hd.done (.inr (by simpa using hstop))
  | case3 h i n hlt hmove ih =>
      rw [downLoop, if_neg hlt, if_neg hmove]
      exact ih (hd.swap (by omega) (by simpa using hmove))

end GoStdlib.ContainerHeap
