import GoStdlib.Heap.Sift
import Mathlib

/-!
The heap operations against a min-priority queue. `Push`, `Pop`, `Remove` and
`Fix` each keep the heap invariant of the package documentation, `Init`
establishes it, and on the multiset of elements each operation does what a
priority queue does: `Pop` hands out an element no other is less than.
-/

namespace GoStdlib.ContainerHeap

variable {α : Type} (less : α → α → Bool)

/-- The invariant of `heap.Interface`: `!h.Less(j, i)` for `0 <= i < h.Len()`
and `j` a child `2*i+1` or `2*i+2` of `i` below `h.Len()`. -/
def IsHeap (h : Heap α) : Prop :=
  ∀ i j, j < h.len → (j = 2 * i + 1 ∨ j = 2 * i + 2) → less (h.data j) (h.data i) = false

variable {less}

theorem isHeap_iff {h : Heap α} : IsHeap less h ↔ OrderedFrom less h 0 h.len := by
  constructor
  · intro hh k hk0 hkn _
    exact hh _ k hkn (by omega)
  · intro hh i j hj hji
    have hk := hh j (by omega) hj (Nat.zero_le _)
    rwa [PairOk, show (j - 1) / 2 = i by omega] at hk

theorem Heap.elems_of_len_succ (h : Heap α) {n : Nat} (hn : h.len = n + 1) :
    h.elems = h.data n ::ₘ (⟨h.data, n⟩ : Heap α).elems := by
  rw [Heap.elems, hn, Multiset.range_succ, Multiset.map_cons]
  rfl

theorem Heap.elems_append (h : Heap α) (x : α) : (h.append x).elems = x ::ₘ h.elems := by
  rw [Heap.elems_of_len_succ _ rfl]
  simp only [Heap.append, Function.update_same]
  congr 1
  exact Multiset.map_congr rfl fun k hk =>
    Function.update_noteq (Nat.ne_of_lt (Multiset.mem_range.mp hk)) _ _

theorem Heap.elems_update (h : Heap α) {i : Nat} (hi : i < h.len) (x : α) :
    ∃ t, h.elems = h.data i ::ₘ t ∧ (⟨Function.update h.data i x, h.len⟩ : Heap α).elems = x ::ₘ t := by
  have hr := Multiset.cons_erase (Multiset.mem_range.mpr hi)
  refine ⟨((Multiset.range h.len).erase i).map h.data, by rw [Heap.elems, ← Multiset.map_cons, hr], ?_⟩
  show Multiset.map (Function.update h.data i x) _ = _
  conv_lhs => rw [← hr, Multiset.map_cons, Function.update_same]
  congr 1
  exact Multiset.map_congr rfl fun k hk => Function.update_noteq
      (((Multiset.nodup_range _).mem_erase_iff).mp hk).1 _ _

/-- An operation of the package: `Push(x)`, `Pop()`, `Remove(i)`, or setting
element `i` to `x` and calling `Fix(i)`. -/
inductive Op (α : Type) where
  | push (x : α)
  | pop
  | remove (i : Nat)
  | fix (i : Nat) (x : α)

variable (less) in
def Op.run : Op α → Heap α → Heap α × Option α
  | .push x, h => (ContainerHeap.push less h x, none)
  | .pop, h => ((ContainerHeap.pop less h).1, some (ContainerHeap.pop less h).2)
  | .remove i, h => ((ContainerHeap.remove less h i).1, some (ContainerHeap.remove less h i).2)
  | .fix i x, h => (ContainerHeap.fix less ⟨Function.update h.data i x, h.len⟩ i, none)

/-- The arguments the package documents: an element to `Pop`, an index below
`Len()` for `Remove` and `Fix`. -/
def Op.Valid (n : Nat) : Op α → Prop
  | .push _ => True
  | .pop => 0 < n
  | .remove i | .fix i _ => i < n

variable (less) in
/-- What a min-priority queue holding `s` may return and be left holding. -/
def Op.Spec : Op α → Multiset α → Option α → Multiset α → Prop
  | .push x, s, r, s' => r = none ∧ s' = x ::ₘ s
  | .pop, s, r, s' => ∃ e, r = some e ∧ s = e ::ₘ s' ∧ ∀ y ∈ s, less y e = false
  | .remove _, s, r, s' => ∃ e, r = some e ∧ s = e ::ₘ s'
  | .fix _ x, s, r, s' => r = none ∧ ∃ e t, s = e ::ₘ t ∧ s' = x ::ₘ t

variable (less) in
def runOps : List (Op α) → Heap α → Heap α × List (Option α)
  | [], h => (h, [])
  | op :: ops, h =>
      ((runOps ops (op.run less h).1).1, (op.run less h).2 :: (runOps ops (op.run less h).1).2)

variable (less) in
def ValidRun : List (Op α) → Heap α → Prop
  | [], _ => True
  | op :: ops, h => op.Valid h.len ∧ ValidRun ops (op.run less h).1

variable (less) in
/-- The runs of a min-priority queue: from `s`, the operations return `rs` and
leave `s'`. -/
inductive QueueRun : Multiset α → List (Op α) → List (Option α) → Multiset α → Prop
  | nil (s : Multiset α) : QueueRun s [] [] s
  | cons {op : Op α} {s s' s'' : Multiset α} {r : Option α} {ops : List (Op α)}
      {rs : List (Option α)} : op.Spec less s r s' → QueueRun s' ops rs s'' →
      QueueRun s (op :: ops) (r :: rs) s''

variable [IsStrictWeakOrder α fun a b => less a b = true]

theorem IsHeap.root_min {h : Heap α} (hh : IsHeap less h) :
    ∀ k, k < h.len → less (h.data k) (h.data 0) = false := by
  intro k
  induction k using Nat.strong_induction_on with
  | _ k ih =>
      intro hk
      rcases Nat.eq_zero_or_pos k with rfl | hk0
      · exact less_irrefl _
      · exact not_less_trans (ih _ (by omega) (by omega)) (isHeap_iff.mp hh k hk0 hk (Nat.zero_le _))

theorem DownInv.of_eqOn {h₀ h : Heap α} {i n : Nat} (hh : OrderedFrom less h₀ 0 n)
    (heq : ∀ k, k < n → k ≠ i → h.data k = h₀.data k) :
    DownInv less h 0 i i n where
  le := ⟨Nat.zero_le _, le_rfl⟩
  pairs k hk0 hkn _ hki hpk := by
    simpa [PairOk, heq k hkn hki, heq _ (by omega) hpk] using hh k hk0 hkn (Nat.zero_le _)
  grand hi0 _ k hk0 hkn hpk := by
    have hk := hh k hk0 hkn (Nat.zero_le _)
    have hi := hh i hi0 (by omega) (Nat.zero_le _)
    rw [PairOk, hpk] at hk
    rw [heq k hkn (by omega), heq _ (by omega) (by omega)]
    exact not_less_trans hi hk
  above h := absurd rfl h

omit [IsStrictWeakOrder α fun a b => less a b = true] in
theorem OrderedFrom.mono {h : Heap α} {lo n m : Nat} (hh : OrderedFrom less h lo n) (hm : m ≤ n) :
    OrderedFrom less h lo m :=
  fun k hk0 hkm hlo => hh k hk0 (by omega) hlo

/-- `down`, then `up` if the element did not move: the tail that `Remove` and
`Fix` share, on a heap changed at `i`. It orders the first `n` elements,
permutes them, and leaves the others where they are. -/
theorem downUp_spec {h₀ h : Heap α} {i n : Nat} (hh : OrderedFrom less h₀ 0 n)
    (heq : ∀ k, k < n → k ≠ i → h.data k = h₀.data k) (hin : i < n) (hn : n ≤ h.len) :
    OrderedFrom less (downUp less h i n) 0 n ∧ (downUp less h i n).len = h.len ∧
      (downUp less h i n).elems = h.elems ∧ ∀ k, n ≤ k → (downUp less h i n).data k = h.data k := by
  have hd := DownInv.of_eqOn hh heq
  obtain ⟨hlen, helems, hdata, hle, hstay⟩ := @downLoop_frame _ less h i n hn
  have hdone := downLoop_done h i n hd
  simp only [downUp, down]
  by_cases hmoved : i < (downLoop less h i n).2
  · simp only [hmoved, decide_True, Bool.not_true, Bool.false_eq_true, if_false]
    exact ⟨fun k hk0 hkn _ => hdone k hk0 hkn (Nat.zero_le _) fun hk => by omega, hlen, helems,
      hdata⟩
  · have hi : (downLoop less h i n).2 = i := by omega
    have h1 := hstay hi
    rw [hi, h1] at hdone
    simp only [hmoved, decide_False, Bool.not_false, if_true, h1]
    refine ⟨up_ordered h i n hin ⟨fun k hk0 hkn hki => ?_, fun hi0 => hd.grand hi0 (Nat.zero_le _)⟩, up_len h i,
      up_elems h i (by omega), fun k hk => up_data_of_lt h i k (by omega)⟩
    exact hdone k hk0 hkn (Nat.zero_le _) fun hk => absurd hk hki

/-- `Push` keeps a heap, with `x` added. -/
theorem push_spec {h : Heap α} (hh : IsHeap less h) (x : α) :
    IsHeap less (push less h x) ∧ (push less h x).elems = x ::ₘ h.elems := by
  have hu : UpInv less (h.append x) h.len (h.len + 1) := by
    refine ⟨fun k hk0 hkn hkj => ?_, fun _ k hk0 hkn hpk => by omega⟩
    have hk := isHeap_iff.mp hh k hk0 (by omega) (Nat.zero_le _)
    simpa [PairOk, Heap.append, Function.update_noteq hkj,
      Function.update_noteq (show (k - 1) / 2 ≠ h.len by omega)] using hk
  refine ⟨isHeap_iff.mpr ?_, (up_elems _ _ (by simp [Heap.append])).trans (h.elems_append x)⟩
  rw [push, up_len]
  exact up_ordered _ _ _ (by simp [Heap.append]) hu

/-- `Pop` hands out the root, an element no other is less than, and keeps a
heap of the others. -/
theorem pop_spec {h : Heap α} (hh : IsHeap less h) (hn : 0 < h.len) :
    IsHeap less (pop less h).1 ∧ (pop less h).2 = h.data 0 ∧
      h.elems = (pop less h).2 ::ₘ (pop less h).1.elems ∧
      ∀ y ∈ h.elems, less y (pop less h).2 = false := by
  obtain ⟨n, hlen⟩ : ∃ n, h.len = n + 1 := ⟨h.len - 1, by omega⟩
  have hheq : ∀ k, k < n → k ≠ 0 → (h.swap 0 n).data k = h.data k := fun k hk hk0 => by
    rw [Heap.swap_data, Equiv.swap_apply_of_ne_of_ne hk0 (by omega)]
  have hd := DownInv.of_eqOn ((isHeap_iff.mp hh).mono (by omega)) hheq
  obtain ⟨hlen', helems, hdata, -, -⟩ := @downLoop_frame _ less (h.swap 0 n) 0 n (by simp; omega)
  have hdone := downLoop_done _ 0 n hd
  have hroot : (downLoop less (h.swap 0 n) 0 n).1.data n = h.data 0 := by
    rw [hdata n le_rfl, Heap.swap_data, Equiv.swap_apply_right]
  have hsplit := Heap.elems_of_len_succ (n := n) _ (by rw [hlen', Heap.swap_len, hlen])
  simp only [pop, down, hlen, Nat.add_sub_cancel, Heap.removeLast, hlen', Heap.swap_len] at hsplit ⊢
  refine ⟨isHeap_iff.mpr fun k hk0 hkn _ => hdone k hk0 hkn (Nat.zero_le _) fun hk => by omega,
    hroot, ?_, fun y hy => ?_⟩
  · rw [← hsplit, helems, Heap.elems_swap _ (by omega) (by omega)]
  · obtain ⟨k, hk, rfl⟩ := Multiset.mem_map.mp hy
    rw [hroot]
    exact hh.root_min k (Multiset.mem_range.mp hk)

/-- `Remove(h, i)` hands out element `i` and keeps a heap of the others. -/
theorem remove_spec {h : Heap α} (hh : IsHeap less h) {i : Nat} (hi : i < h.len) :
    IsHeap less (remove less h i).1 ∧ (remove less h i).2 = h.data i ∧
      h.elems = (remove less h i).2 ::ₘ (remove less h i).1.elems := by
  obtain ⟨n, hlen⟩ : ∃ n, h.len = n + 1 := ⟨h.len - 1, by omega⟩
  have hh' := (isHeap_iff.mp hh).mono (m := n) (by omega)
  simp only [remove, hlen, Nat.add_sub_cancel]
  by_cases hin : n = i
  · subst hin
    simp only [ne_eq, not_true_eq_false, if_false, Heap.removeLast, hlen, Nat.add_sub_cancel]
    exact ⟨isHeap_iff.mpr hh', trivial, Heap.elems_of_len_succ h hlen⟩
  · have hheq : ∀ k, k < n → k ≠ i → (h.swap i n).data k = h.data k := fun k hk hki => by
      rw [Heap.swap_data, Equiv.swap_apply_of_ne_of_ne hki (by omega)]
    obtain ⟨hord, hlen', helems, hdata⟩ := downUp_spec hh' hheq (by omega) (by simp; omega)
    have hlast : (downUp less (h.swap i n) i n).data n = h.data i := by
      rw [hdata n le_rfl, Heap.swap_data, Equiv.swap_apply_right]
    simp only [ne_eq, hin, not_false_eq_true, if_true, Heap.removeLast, hlen', Heap.swap_len, hlen,
      Nat.add_sub_cancel]
    refine ⟨isHeap_iff.mpr hord, hlast, ?_⟩
    rw [← Heap.elems_swap h (i := i) (j := n) hi (by omega), ← helems]
    exact Heap.elems_of_len_succ _ (by rw [hlen', Heap.swap_len, hlen])

/-- `Fix(h, i)` after element `i` of a heap is set to any `x` gives a heap of the
same elements. -/
theorem fix_spec {h : Heap α} (hh : IsHeap less h) {i : Nat} (hi : i < h.len) (x : α) :
    IsHeap less (fix less ⟨Function.update h.data i x, h.len⟩ i) ∧
      (fix less ⟨Function.update h.data i x, h.len⟩ i).elems =
        (⟨Function.update h.data i x, h.len⟩ : Heap α).elems := by
  obtain ⟨hord, hlen, helems, -⟩ := downUp_spec (h := ⟨Function.update h.data i x, h.len⟩)
    (isHeap_iff.mp hh)
    (fun k _ hki => Function.update_noteq hki x h.data) hi le_rfl
  refine ⟨isHeap_iff.mpr ?_, helems⟩
  rw [fix, hlen]
  exact hord

theorem init_loop (n : Nat) :
    ∀ m (h : Heap α), h.len = n → OrderedFrom less h m n →
      let h' := (List.range m).reverse.foldl (fun h i => (down less h i h.len).1) h
      OrderedFrom less h' 0 n ∧ h'.len = n ∧ h'.elems = h.elems
  | 0, h, hlen, hh => ⟨hh, hlen, rfl⟩
  | m + 1, h, hlen, hh => by
      simp only [List.range_succ, List.reverse_append, List.reverse_cons, List.reverse_nil,
        List.nil_append, List.singleton_append, List.foldl_cons]
      have hd : DownInv less h m m m n :=
        ⟨⟨le_rfl, le_rfl⟩, fun k hk0 hkn hlo hkm hpk => hh k hk0 hkn (by omega),
          fun _ hlo => absurd hlo (by omega), fun h => absurd rfl h⟩
      obtain ⟨hlen', helems, -, -, -⟩ := @downLoop_frame _ less h m n (by omega)
      have hdone := downLoop_done h m n hd
      obtain ⟨hord, hlen'', helems'⟩ := init_loop n m (downLoop less h m n).1 (hlen'.trans hlen)
        fun k hk0 hkn hlo => hdone k hk0 hkn hlo fun hk => by omega
      simp only [down, hlen] at hord hlen'' helems' ⊢
      exact ⟨hord, hlen'', helems'.trans helems⟩

/-- `Init` makes a heap of the same elements. -/
theorem init_spec (h : Heap α) :
    IsHeap less (init less h) ∧ (init less h).elems = h.elems ∧ (init less h).len = h.len := by
  obtain ⟨hord, hlen, helems⟩ :=
    @init_loop _ less _ h.len (h.len / 2) h rfl fun k hk0 hkn hlo => absurd hlo (by omega)
  refine ⟨isHeap_iff.mpr ?_, helems, hlen⟩
  rw [init, hlen]
  exact hord

omit [IsStrictWeakOrder α fun a b => less a b = true] in
theorem lesserChild_eq (h : Heap α) (i n : Nat) :
    lesserChild less h i n = 2 * i + 1 ∨ lesserChild less h i n = 2 * i + 2 := by
  unfold lesserChild
  split_ifs <;> simp

omit [IsStrictWeakOrder α fun a b => less a b = true] in
theorem IsHeap.down_eq {h : Heap α} (hh : IsHeap less h) (i : Nat) :
    down less h i h.len = (h, false) := by
  have hloop : downLoop less h i h.len = (h, i) := by
    rw [downLoop]
    split_ifs with hn hstop
    · rfl
    · rfl
    · have hj := hh i _ (@lesserChild_lt _ less h _ _ (by omega)).2 (@lesserChild_eq _ less h i h.len)
      simp [hj] at hstop
  simp [down, hloop]

omit [IsStrictWeakOrder α fun a b => less a b = true] in
theorem IsHeap.up_eq {h : Heap α} (hh : IsHeap less h) {j : Nat} (hj : j < h.len) :
    up less h j = h := by
  rw [up, if_pos]
  by_cases hj0 : j = 0
  · simp [hj0]
  · simp [hh ((j - 1) / 2) j hj (by omega)]

theorem Op.run_spec {h : Heap α} (hh : IsHeap less h) {op : Op α} (hv : op.Valid h.len) :
    IsHeap less (op.run less h).1 ∧ op.Spec less h.elems (op.run less h).2 (op.run less h).1.elems := by
  cases op with
  | push x =>
      obtain ⟨hh', he⟩ := push_spec hh x
      exact ⟨hh', rfl, he⟩
  | pop =>
      obtain ⟨hh', -, he, hmin⟩ := pop_spec hh hv
      exact ⟨hh', _, rfl, he, hmin⟩
  | remove i =>
      obtain ⟨hh', -, he⟩ := remove_spec hh hv
      exact ⟨hh', _, rfl, he⟩
  | fix i x =>
      obtain ⟨hh', he⟩ := fix_spec hh hv x
      obtain ⟨t, ht, ht'⟩ := h.elems_update hv x
      exact ⟨hh', rfl, _, t, ht, he.trans ht'⟩

/-- Every run of valid operations from a heap keeps a heap and is a run of the
queue. -/
theorem runOps_spec : ∀ (ops : List (Op α)) (h : Heap α), IsHeap less h → ValidRun less ops h →
    IsHeap less (runOps less ops h).1 ∧
      QueueRun less h.elems ops (runOps less ops h).2 (runOps less ops h).1.elems
  | [], _, hh, _ => ⟨hh, .nil _⟩
  | _ :: ops, _, hh, ⟨hv, hvs⟩ =>
      have hs := Op.run_spec hh hv
      have ih := runOps_spec ops _ hs.1 hvs
      ⟨ih.1, .cons hs.2 ih.2⟩

/-- `Push`, `Pop`, `Remove` and `Fix` on a heap, and every run of them after
`Init`, do what a min-priority queue does. -/
theorem heap_operations :
    (∀ (h : Heap α) x, IsHeap less h →
      IsHeap less (push less h x) ∧ (push less h x).elems = x ::ₘ h.elems) ∧
    (∀ h : Heap α, IsHeap less h → 0 < h.len →
      IsHeap less (pop less h).1 ∧ (∀ y ∈ h.elems, less y (pop less h).2 = false) ∧
        h.elems = (pop less h).2 ::ₘ (pop less h).1.elems) ∧
    (∀ (h : Heap α) i, IsHeap less h → i < h.len →
      IsHeap less (remove less h i).1 ∧ (remove less h i).2 = h.data i ∧
        h.elems = (remove less h i).2 ::ₘ (remove less h i).1.elems) ∧
    (∀ (h : Heap α) i x, IsHeap less h → i < h.len →
      IsHeap less (fix less ⟨Function.update h.data i x, h.len⟩ i) ∧
        (fix less ⟨Function.update h.data i x, h.len⟩ i).elems =
          (⟨Function.update h.data i x, h.len⟩ : Heap α).elems) ∧
    (∀ (h : Heap α) ops, ValidRun less ops (init less h) →
      QueueRun less h.elems ops (runOps less ops (init less h)).2 (runOps less ops (init less h)).1.elems) := by
  refine ⟨fun _ x hh => push_spec hh x, fun _ hh hn => ?_, fun _ _ hh hi => remove_spec hh hi,
    fun _ _ x hh hi => fix_spec hh hi x, fun h ops hv => ?_⟩
  · obtain ⟨hh', -, he, hmin⟩ := pop_spec hh hn
    exact ⟨hh', hmin, he⟩
  · obtain ⟨hh, he, -⟩ := @init_spec _ less _ h
    exact he ▸ (runOps_spec ops _ hh hv).2

/-- `heap.Init` on any `Len()` elements in any order leaves a permutation of
them with `!Less(j, i)` for every parent `i` and child `j < Len()`; on a heap it
leaves a heap again. -/
theorem init_heapifies (h : Heap α) :
    (init less h).len = h.len ∧
    ((List.range h.len).map (init less h).data).Perm ((List.range h.len).map h.data) ∧
    (∀ i j, j < h.len → (j = 2 * i + 1 ∨ j = 2 * i + 2) →
      less ((init less h).data j) ((init less h).data i) = false) ∧
    (IsHeap less h → IsHeap less (init less h)) := by
  obtain ⟨hh, he, hl⟩ := @init_spec _ less _ h
  refine ⟨hl, ?_, fun i j hj => hh i j (hl ▸ hj), fun _ => hh⟩
  rw [Heap.elems, Heap.elems, hl] at he
  exact Multiset.coe_eq_coe.mp he

def natLess (a b : Nat) : Bool := decide (a < b)

instance natLess_isStrictWeakOrder : IsStrictWeakOrder Nat fun a b => natLess a b = true := by
  simpa only [natLess, decide_eq_true_eq] using (inferInstance : IsStrictWeakOrder Nat (· < ·))

/-- The naturals `5, 3, 8, 1, 9, 2`. -/
def sample : Heap Nat := ⟨fun k => [5, 3, 8, 1, 9, 2].getD k 0, 6⟩

theorem sample_remove_two :
    IsHeap natLess (remove natLess (init natLess sample) 2).1 ∧
      (remove natLess (init natLess sample) 2).2 = (init natLess sample).data 2 ∧
      (init natLess sample).elems =
        (remove natLess (init natLess sample) 2).2 ::ₘ (remove natLess (init natLess sample) 2).1.elems :=
  (@heap_operations _ natLess _).2.2.1 _ 2 (init_spec sample).1 (by rw [(init_spec sample).2.2]; decide)

theorem sample_init :
    (init natLess sample).len = sample.len ∧
    ((List.range sample.len).map (init natLess sample).data).Perm
      ((List.range sample.len).map sample.data) ∧
    (∀ i j, j < sample.len → (j = 2 * i + 1 ∨ j = 2 * i + 2) →
      natLess ((init natLess sample).data j) ((init natLess sample).data i) = false) ∧
    (IsHeap natLess sample → IsHeap natLess (init natLess sample)) :=
  init_heapifies sample

/-- `Init` and `Fix` find a heap in order and leave it exactly as it is: `down`
and `up` stop at once, so they swap nothing. Hence `Init` is idempotent, as
the package says: `Init` of what `Init` left is what `Init` left. -/
theorem init_idempotent (h : Heap α) :
    (IsHeap less h → init less h = h ∧ ∀ i, i < h.len → fix less h i = h) ∧
      init less (init less h) = init less h := by
  have hinit : ∀ h : Heap α, IsHeap less h → init less h = h := fun h hh =>
    List.foldl_fixed' (fun i => by rw [hh.down_eq]) _
  refine ⟨fun hh => ⟨hinit h hh, fun i hi => ?_⟩, hinit _ (@init_spec _ less _ h).1⟩
  simp [fix, ContainerHeap.downUp, hh.down_eq, hh.up_eq hi]

theorem sample_init_idempotent :
    (IsHeap natLess sample →
        init natLess sample = sample ∧ ∀ i, i < sample.len → fix natLess sample i = sample) ∧
      init natLess (init natLess sample) = init natLess sample :=
  init_idempotent sample

/-- Setting element `i` to `x` and calling `Fix` is, as the package says,
equivalent to `Remove(h, i)` followed by `Push(x)`: on every heap, both leave a
heap of the same elements, so every run of operations after either does what
the same min-priority queue does. -/
theorem fix_eq_remove_push {h : Heap α} (hh : IsHeap less h) {i : Nat} (hi : i < h.len) (x : α) :
    IsHeap less (fix less ⟨Function.update h.data i x, h.len⟩ i) ∧
      IsHeap less (push less (remove less h i).1 x) ∧
      (fix less ⟨Function.update h.data i x, h.len⟩ i).elems = (push less (remove less h i).1 x).elems := by
  obtain ⟨hf, hfe⟩ := fix_spec hh hi x
  obtain ⟨hr, hval, hre⟩ := remove_spec hh hi
  obtain ⟨hp, hpe⟩ := push_spec hr x
  obtain ⟨t, ht, hut⟩ := h.elems_update hi x
  rw [hval, ht, Multiset.cons_inj_right] at hre
  exact ⟨hf, hp, by rw [hfe, hut, hpe, hre]⟩

theorem sample_fix_eq_remove_push :
    IsHeap natLess (fix natLess ⟨Function.update (init natLess sample).data 2 0, (init natLess sample).len⟩ 2) ∧
      IsHeap natLess (push natLess (remove natLess (init natLess sample) 2).1 0) ∧
      (fix natLess ⟨Function.update (init natLess sample).data 2 0, (init natLess sample).len⟩ 2).elems =
        (push natLess (remove natLess (init natLess sample) 2).1 0).elems :=
  fix_eq_remove_push (init_spec sample).1 (by rw [(init_spec sample).2.2]; decide) 0

end GoStdlib.ContainerHeap
