import GoStdlib.List.Methods

/-!
Runs of `container/list`: from the empty heap, any sequence of calls with the
arguments the package documents keeps every list a well-formed ring through its
root, never dereferences nil, and a call on one list leaves every other list as
it was.
-/

namespace GoStdlib.ContainerList

variable {α : Type} {s s' : State α} {σ : Nat → List Nat} {l a : Nat} {xs : List Nat}

theorem Linked.walk_prev (h : Linked s a xs b) :
    ∀ k ≤ xs.length, ∀ p q, s.walk k a = some p → s.walk (k + 1) a = some q → s.prev q = some p := by
  induction xs generalizing a with
  | nil =>
      rintro k hk p q hp hq
      obtain rfl : k = 0 := by simpa using hk
      simp only [State.walk, h.1, Option.some_bind, Option.some.injEq] at hp hq
      subst hp hq
      exact h.2
  | cons x xs ih =>
      rintro (_ | k) hk p q hp hq
      · simp only [State.walk, h.1, Option.some_bind, Option.some.injEq] at hp hq
        subst hp hq
        exact h.2.1
      · simp only [State.walk, h.1, Option.some_bind] at hp hq
        exact ih h.2.2 k (by simpa using hk) p q hp hq

namespace Repr

theorem seq_eq (hr : Repr s σ) (hl : l ∈ s.lists) : s.seq l = σ l := by
  rcases hr.ring l hl with ⟨hz, hσ⟩ | hring
  · rw [hσ, State.seq, hz.1]
    cases s.size <;> rfl
  · have hlen : (l :: σ l).length ≤ s.size :=
      (List.subperm_of_subset hring.2.1 fun p hp => List.mem_range.2
        (hr.node_lt hl p hp)).length_le.trans (List.length_range _).le
    exact hring.1.collect_eq (List.nodup_cons.1 hring.2.1).1 (by simpa using hlen)

theorem walk_succ_mem (hr : Repr s σ) (hl : l ∈ s.lists) {k p : Nat} (hk : k < (s.len l).toNat)
    (hw : s.walk (k + 1) l = some p) : p ∈ σ l := by
  rcases hr.ring l hl with ⟨hz, -⟩ | hring
  · simp [hz.2.2] at hk
  · have hlen := hring.2.2
    rw [hring.1.walk_eq _ (by omega), List.getElem?_cons_succ,
      List.getElem?_append_left (by omega)] at hw
    exact List.getElem?_mem hw

theorem walk_mem (hr : Repr s σ) (hl : l ∈ s.lists) {k p : Nat} (hk : k ≤ (s.len l).toNat)
    (hw : s.walk k l = some p) : p ∈ l :: σ l := by
  cases k with
  | zero =>
      obtain rfl : l = p := by simpa [State.walk] using hw
      exact .head _
  | succ k => exact .tail _ (hr.walk_succ_mem hl hk hw)

theorem keeps_of_lt (hr : Repr s σ)
    (hp : ∀ p < s.size, s'.next p = s.next p ∧ s'.prev p = s.prev p ∧ s'.list p = s.list p ∧
      s'.value p = s.value p) (hlen : ∀ l ∈ s.lists, s'.len l = s.len l) (t : Option Nat) :
    Keeps s s' σ t := fun l hl _ => ⟨hlen l hl, fun p hq => hp p (hr.node_lt hl p hq)⟩

theorem update_other {xs : List Nat} {l' : Nat} (h : some l ≠ some l') :
    Function.update σ l xs l' = σ l' :=
  Function.update_noteq (fun h' => h (by rw [h'])) _ _

theorem step_of_extends [Inhabited α] {op : Op α} {s' : State α} {l : Nat} {xs : List Nat}
    (ht : op.target = some l) (heq : ContainerList.step s op = some s')
    (hr' : Repr s' (Function.update σ l xs)) (hx : Extends s s' σ (some l)) :
    ∃ s' σ', ContainerList.step s op = some s' ∧ Repr s' σ' ∧ (∀ l ∈ s.lists, l ∈ s'.lists) ∧
      Keeps s s' σ op.target ∧ ∀ l ∈ s.lists, op.target ≠ some l → σ' l = σ l :=
  ⟨s', _, heq, hr', fun _ h => hx.lists ▸ h, ht ▸ hx.keeps, fun _ _ h => update_other (ht ▸ h)⟩

theorem step_of_eq [Inhabited α] {op : Op α} (heq : ContainerList.step s op = some s)
    (hr : Repr s σ) :
    ∃ s' σ', ContainerList.step s op = some s' ∧ Repr s' σ' ∧ (∀ l ∈ s.lists, l ∈ s'.lists) ∧
      Keeps s s' σ op.target ∧ ∀ l ∈ s.lists, op.target ≠ some l → σ' l = σ l :=
  ⟨s, σ, heq, hr, fun _ => id, .refl, fun _ _ _ => rfl⟩

/-- One call with documented arguments: it does not fail, it keeps the
invariant, and it keeps every list it is not on, with its sequence. -/
theorem step [Inhabited α] (hr : Repr s σ) {op : Op α} (hv : op.Valid s) :
    ∃ s' σ', step s op = some s' ∧ Repr s' σ' ∧ (∀ l ∈ s.lists, l ∈ s'.lists) ∧
      Keeps s s' σ op.target ∧ ∀ l ∈ s.lists, op.target ≠ some l → σ' l = σ l := by
  cases op with
  | newList =>
      refine ⟨_, _, rfl, hr.newList, fun l hl => List.mem_append_left _ hl,
        hr.keeps_of_lt (fun p hp => ?_) (fun l hl => ?_) _,
        fun l hl _ => Function.update_noteq (hr.root_lt l hl).ne _ _⟩
      · simp [State.newList, Function.update_noteq hp.ne]
      · simp [State.newList, Function.update_noteq (hr.root_lt l hl).ne]
  | new =>
      have hr₁ := hr.newList
      obtain ⟨hr', -, -⟩ := hr₁.Init (l := s.size) (by simp [State.newList]) (by simp)
      refine ⟨_, _, rfl, hr', fun l hl => List.mem_append_left _ hl,
        hr.keeps_of_lt (fun p hp => ?_) (fun l hl => ?_) _,
        fun l hl _ => Function.update_noteq (hr.root_lt l hl).ne _ _⟩
      · simp [State.New, State.Init, State.newList, Function.update_noteq hp.ne]
      · simp [State.New, State.Init, State.newList, Function.update_noteq (hr.root_lt l hl).ne]
  | newElement v => exact ⟨_, σ, rfl, hr.alloc v, fun _ => id, (hr.alloc_keeps v).mono _, fun _ _ _ => rfl⟩
  | init l =>
      obtain ⟨hl, hlen⟩ := hv
      obtain ⟨hr', -, hc⟩ := hr.Init hl (List.eq_nil_of_length_eq_zero (by have := hr.Len_eq hl; simp only [State.Len] at this; omega))
      exact ⟨_, σ, rfl, hr', fun _ => id, hc.keeps hr hl (.inr rfl) (.inl (hr.root_list l hl)),
        fun _ _ _ => rfl⟩
  | remove l e =>
      by_cases h : s.list e = some l
      · obtain ⟨s', heq, hr', hx⟩ := (hr.Remove hv.1 e).2 h
        exact step_of_extends rfl (by simp [ContainerList.step, heq]) hr' hx
      · exact step_of_eq (by simp [ContainerList.step, (hr.Remove hv.1 e).1 h]) hr
  | pushFront l v =>
      obtain ⟨s', heq, hr', -, -, hx⟩ := hr.PushFront hv v
      exact step_of_extends rfl (by simp [ContainerList.step, heq]) hr' hx
  | pushBack l v =>
      obtain ⟨s', heq, hr', -, -, hx⟩ := hr.PushBack hv v
      exact step_of_extends rfl (by simp [ContainerList.step, heq]) hr' hx
  | insertBefore l v mark =>
      by_cases h : s.list mark = some l
      · obtain ⟨s', heq, hr', -, -, hx⟩ := (hr.InsertBefore hv.1 v mark).2 h
        exact step_of_extends rfl (by simp [ContainerList.step, heq]) hr' hx
      · exact step_of_eq (by simp [ContainerList.step, (hr.InsertBefore hv.1 v mark).1 h]) hr
  | insertAfter l v mark =>
      by_cases h : s.list mark = some l
      · obtain ⟨s', heq, hr', -, -, hx⟩ := (hr.InsertAfter hv.1 v mark).2 h
        exact step_of_extends rfl (by simp [ContainerList.step, heq]) hr' hx
      · exact step_of_eq (by simp [ContainerList.step, (hr.InsertAfter hv.1 v mark).1 h]) hr
  | moveToFront l e =>
      by_cases h : s.list e = some l
      · obtain ⟨s', heq, hr', hx⟩ := (hr.MoveToFront hv.1 e).2 h
        exact step_of_extends rfl heq hr' hx
      · exact step_of_eq ((hr.MoveToFront hv.1 e).1 h) hr
  | moveToBack l e =>
      by_cases h : s.list e = some l
      · obtain ⟨s', heq, hr', hx⟩ := (hr.MoveToBack hv.1 e).2 h
        exact step_of_extends rfl heq hr' hx
      · exact step_of_eq ((hr.MoveToBack hv.1 e).1 h) hr
  | moveBefore l e mark =>
      by_cases h : s.list e = some l ∧ e ≠ mark ∧ s.list mark = some l
      · obtain ⟨s', heq, hr', hx⟩ := (hr.MoveBefore hv.1 e mark).2 h.1 h.2.1 h.2.2
        exact step_of_extends rfl heq hr' hx
      · exact step_of_eq ((hr.MoveBefore hv.1 e mark).1 (by tauto)) hr
  | moveAfter l e mark =>
      by_cases h : s.list e = some l ∧ e ≠ mark ∧ s.list mark = some l
      · obtain ⟨s', heq, hr', hx⟩ := (hr.MoveAfter hv.1 e mark).2 h.1 h.2.1 h.2.2
        exact step_of_extends rfl heq hr' hx
      · exact step_of_eq ((hr.MoveAfter hv.1 e mark).1 (by tauto)) hr
  | pushBackList l o =>
      obtain ⟨s', heq, hr', -, hx⟩ := hr.PushBackList hv.1 o hv.2
      exact step_of_extends rfl heq hr' hx
  | pushFrontList l o =>
      obtain ⟨s', heq, hr', -, hx⟩ := hr.PushFrontList hv.1 o hv.2
      exact step_of_extends rfl heq hr' hx

end Repr

theorem Repr.empty [Inhabited α] : Repr (State.empty : State α) fun _ => [] :=
  ⟨nofun, nofun, nofun, fun _ _ => by simp [State.empty], nofun⟩

/-- Every reachable heap represents some sequences. -/
theorem Reachable.repr [Inhabited α] (hs : Reachable s) : ∃ σ, Repr s σ := by
  induction hs with
  | empty => exact ⟨_, .empty⟩
  | step _ hv heq ih =>
      obtain ⟨σ, hr⟩ := ih
      obtain ⟨s', σ', hstep, hr', -⟩ := hr.step hv
      rw [heq] at hstep
      exact ⟨σ', Option.some.inj hstep ▸ hr'⟩

/-- In every reachable heap every initialised list is a ring through its root
of `len + 1` distinct nodes with `prev` inverse to `next`; the elements on it
are those whose `list` is it; no node is on two rings; no `len` is negative and
a zero list has `len` zero; and every call with documented arguments succeeds and keeps every other
list's `len`, sequence and nodes. -/
theorem list_rings [Inhabited α] (hs : Reachable s) :
    (∀ l ∈ s.lists, s.next l ≠ none →
      s.walk ((s.len l).toNat + 1) l = some l ∧
      (∀ i j, i ≤ (s.len l).toNat → j ≤ (s.len l).toNat → s.walk i l = s.walk j l → i = j) ∧
      ∀ k ≤ (s.len l).toNat, ∀ p q, s.walk k l = some p → s.walk (k + 1) l = some q →
        s.prev q = some p) ∧
    (∀ l ∈ s.lists, ∀ k e, 0 < k → k ≤ (s.len l).toNat → s.walk k l = some e →
      s.list e = some l) ∧
    (∀ l e, s.list e = some l →
      l ∈ s.lists ∧ ∃ k, 0 < k ∧ k ≤ (s.len l).toNat ∧ s.walk k l = some e) ∧
    (∀ l ∈ s.lists, ∀ l' ∈ s.lists, ∀ p i j, i ≤ (s.len l).toNat → j ≤ (s.len l').toNat →
      s.walk i l = some p → s.walk j l' = some p → l = l') ∧
    (∀ l ∈ s.lists, 0 ≤ s.len l ∧ (s.next l = none → s.len l = 0)) ∧
    (∀ op : Op α, op.Valid s → ∃ s', step s op = some s' ∧ ∀ l ∈ s.lists, op.target ≠ some l →
      s'.len l = s.len l ∧ s'.seq l = s.seq l ∧ ∀ p ∈ l :: s.seq l,
        s'.next p = s.next p ∧ s'.prev p = s.prev p ∧ s'.list p = s.list p ∧
          s'.value p = s.value p) := by
  obtain ⟨σ, hr⟩ := hs.repr
  refine ⟨fun l hl hn => ?_, fun l hl k e hk hkl hw => ?_, fun l e he => ?_,
    fun l hl l' hl' p i j hi hj hw hw' => ?_, fun l hl => ?_, fun op hv => ?_⟩
  · obtain ⟨hlk, hnd, hlen⟩ := hr.ring_of_next hl hn
    rw [hlen, Int.toNat_ofNat]
    refine ⟨by rw [hlk.walk_eq _ le_rfl]; simp, fun i j hi hj hij => ?_, hlk.walk_prev⟩
    rw [hlk.walk_eq i (by omega), hlk.walk_eq j (by omega), ← List.cons_append,
      List.getElem?_append_left (by simp; omega), List.getElem?_append_left (by simp; omega)] at hij
    exact List.getElem?_inj (by simp; omega) hnd hij
  · obtain ⟨k, rfl⟩ : ∃ j, k = j + 1 := ⟨k - 1, by omega⟩
    exact (hr.mem_iff hl).1 (hr.walk_succ_mem hl hkl hw)
  · obtain ⟨hl, hm⟩ := (hr.list_eq e l).1 he
    obtain ⟨hlk, -, hlen⟩ := hr.ring_of_mem hl hm
    obtain ⟨i, hi⟩ := List.mem_iff_getElem?.1 hm
    have hlt := (List.getElem?_eq_some_iff.1 hi).1
    refine ⟨hl, i + 1, by omega, by omega, ?_⟩
    rw [hlk.walk_eq _ (by omega), List.getElem?_cons_succ, List.getElem?_append_left hlt, hi]
  · by_contra hne
    exact hr.apart hl hl' (Ne.symm hne) (hr.walk_mem hl' hj hw') (hr.walk_mem hl hi hw)
  · rcases hr.ring l hl with ⟨hz, -⟩ | hring
    · exact ⟨hz.2.2.ge, fun _ => hz.2.2⟩
    · exact ⟨by rw [hring.2.2]; omega, by simp [hring.1.next_start]⟩
  · obtain ⟨s', σ', hstep, hr', hls, hk, hσ⟩ := hr.step hv
    refine ⟨s', hstep, fun l hl ht => ?_⟩
    obtain ⟨hlen, hp⟩ := hk l hl ht
    rw [hr.seq_eq hl]
    exact ⟨hlen, (hr'.seq_eq (hls l hl)).trans (hσ l hl ht), hp⟩

def pushed : State Nat :=
  match State.empty.New.PushBack 0 5 with
  | some r => r.1
  | none => State.empty

theorem pushed_reachable : Reachable pushed :=
  @Reachable.step _ _ _ _ (.pushBack 0 5) (@Reachable.step _ _ _ _ .new .empty trivial rfl)
    (by decide) rfl

theorem pushed_ring : pushed.walk ((pushed.len 0).toNat + 1) 0 = some 0 :=
  ((list_rings pushed_reachable).1 0 (by decide) (by decide)).1

end GoStdlib.ContainerList
