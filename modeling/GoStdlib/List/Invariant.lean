import GoStdlib.List.Ring

/-!
The representation invariant of `container/list`: every `List` of the heap is
either still its zero value or a ring through its `root` that passes a sequence
of distinct elements, counted by `len`, and an element's `list` names the list
whose sequence holds it. Every call keeps it, and a call on one list moves only
pointers of that list's ring and of the element it is given.
-/

namespace GoStdlib.ContainerList

variable {α : Type} {s s' : State α} {σ : Nat → List Nat} {l l' e a : Nat}

/-- A `List` at its zero value: `root.next` and `root.prev` nil, `len` zero. -/
def Zero (s : State α) (l : Nat) : Prop :=
  s.next l = none ∧ s.prev l = none ∧ s.len l = 0

/-- The ring through `l` passes the distinct elements `xs`, and `len` counts them. -/
def Ring (s : State α) (l : Nat) (xs : List Nat) : Prop :=
  Linked s l xs l ∧ (l :: xs).Nodup ∧ s.len l = xs.length

/-- The heap represents the sequences `σ`: each `List` is a zero list holding
nothing or a ring of its sequence, and an element's `list` is `l` exactly when
`σ l` holds it. -/
structure Repr (s : State α) (σ : Nat → List Nat) : Prop where
  root_lt : ∀ l ∈ s.lists, l < s.size
  root_list : ∀ l ∈ s.lists, s.list l = none
  ring : ∀ l ∈ s.lists, (Zero s l ∧ σ l = []) ∨ Ring s l (σ l)
  list_eq : ∀ e l, s.list e = some l ↔ l ∈ s.lists ∧ e ∈ σ l
  elem_lt : ∀ l ∈ s.lists, ∀ e ∈ σ l, e < s.size

/-- What a method on `l` given the element `e` may change: pointers of `l`'s
ring and of `e`, the `list` of `e` and the `len` of `l`. -/
structure Confined (s s' : State α) (σ : Nat → List Nat) (l e : Nat) : Prop where
  lists : s'.lists = s.lists
  size : s'.size = s.size
  value : s'.value = s.value
  ptr : ∀ p ∉ l :: σ l, p ≠ e → s'.next p = s.next p ∧ s'.prev p = s.prev p
  list : ∀ p ≠ e, s'.list p = s.list p
  len : ∀ l' ≠ l, s'.len l' = s.len l'

namespace Repr

theorem mem_iff (hr : Repr s σ) (hl : l ∈ s.lists) : e ∈ σ l ↔ s.list e = some l :=
  ⟨fun h => (hr.list_eq e l).2 ⟨hl, h⟩, fun h => ((hr.list_eq e l).1 h).2⟩

theorem ring_of_mem (hr : Repr s σ) (hl : l ∈ s.lists) (he : e ∈ σ l) : Ring s l (σ l) :=
  (hr.ring l hl).resolve_left fun h => by simp [h.2] at he

theorem apart (hr : Repr s σ) (hl : l ∈ s.lists) (hl' : l' ∈ s.lists) (hne : l' ≠ l) {p : Nat}
    (hp : p ∈ l' :: σ l') : p ∉ l :: σ l := by
  intro hpl
  rcases List.mem_cons.1 hp with rfl | hp <;> rcases List.mem_cons.1 hpl with rfl | hpl
  · exact hne rfl
  · exact absurd ((hr.mem_iff hl).1 hpl) (by simp [hr.root_list _ hl'])
  · exact absurd ((hr.mem_iff hl').1 hp) (by simp [hr.root_list _ hl])
  · exact hne (Option.some.inj (((hr.mem_iff hl').1 hp).symm.trans ((hr.mem_iff hl).1 hpl)))

theorem ne_of_list (hr : Repr s σ) (hl' : l' ∈ s.lists) (hne : l' ≠ l) (hel : e ∉ s.lists ∨ e = l)
    (hle : s.list e = none ∨ s.list e = some l) {p : Nat} (hp : p ∈ l' :: σ l') : p ≠ e := by
  rintro rfl
  rcases List.mem_cons.1 hp with rfl | hp
  · exact hel.elim (· hl') hne
  · rw [(hr.mem_iff hl').1 hp] at hle
    simp [hne] at hle

/-- The frame of every method on a list: a call confined to `l` and `e` that
leaves `l` a ring of `xs`, with `e` on it exactly when its `list` is `l`, keeps
the invariant with `l`'s sequence replaced by `xs`. -/
theorem update (hr : Repr s σ) (hl : l ∈ s.lists) (hel : e ∉ s.lists ∨ e = l)
    (hle : s.list e = none ∨ s.list e = some l) (hc : Confined s s' σ l e) {xs : List Nat}
    (hring : Ring s' l xs) (hxs : ∀ p, p ≠ e → (p ∈ xs ↔ p ∈ σ l)) (hxlt : ∀ p ∈ xs, p < s.size)
    (hliste : s'.list e = if e ∈ xs then some l else none) :
    Repr s' (Function.update σ l xs) where
  root_lt := by
    rw [hc.lists, hc.size]
    exact hr.root_lt
  root_list r hr' := by
    rw [hc.lists] at hr'
    by_cases hre : r = e
    · subst hre
      rw [hliste, if_neg]
      rcases hel with h | rfl
      · exact absurd hr' h
      · exact (List.nodup_cons.1 hring.2.1).1
    · rw [hc.list r hre]
      exact hr.root_list r hr'
  ring l' hl' := by
    rw [hc.lists] at hl'
    by_cases hne : l' = l
    · subst hne
      rw [Function.update_same]
      exact .inr hring
    · rw [Function.update_noteq hne]
      have hfr : ∀ p ∈ l' :: σ l', s'.next p = s.next p ∧ s'.prev p = s.prev p := fun p hp =>
        hc.ptr p (hr.apart hl hl' hne hp) (hr.ne_of_list hl' hne hel hle hp)
      refine (hr.ring l' hl').imp (fun ⟨⟨hn, hp, hlen⟩, hσ⟩ => ⟨⟨?_, ?_, ?_⟩, hσ⟩)
        fun ⟨hlk, hnd, hlen⟩ => ⟨hlk.frame (fun p hp => (hfr p hp).1) fun p hp => (hfr p hp).2, hnd,
          (hc.len l' hne).trans hlen⟩
      · exact (hfr l' (.head _)).1.trans hn
      · exact (hfr l' (.head _)).2.trans hp
      · exact (hc.len l' hne).trans hlen
  list_eq p l'' := by
    rw [hc.lists]
    by_cases hpe : p = e
    · subst hpe
      rw [hliste]
      by_cases hl'' : l'' = l
      · subst hl''
        split_ifs with h <;> simp [h, hl]
      · rw [Function.update_noteq hl'']
        exact iff_of_false (by split_ifs <;> simp [Ne.symm hl''])
          fun ⟨h1, h2⟩ => hr.ne_of_list h1 hl'' hel hle (.tail _ h2) rfl
    · rw [hc.list p hpe, hr.list_eq]
      by_cases hl'' : l'' = l
      · subst hl''
        rw [Function.update_same, hxs p hpe]
      · rw [Function.update_noteq hl'']
  elem_lt l'' hl'' p hp := by
    rw [hc.lists] at hl''
    rw [hc.size]
    by_cases h : l'' = l
    · subst h
      rw [Function.update_same] at hp
      exact hxlt p hp
    · rw [Function.update_noteq h] at hp
      exact hr.elem_lt _ hl'' p hp

theorem node_lt (hr : Repr s σ) (hl : l ∈ s.lists) : ∀ p ∈ l :: σ l, p < s.size := fun p hp =>
  (List.mem_cons.1 hp).elim (· ▸ hr.root_lt l hl) (hr.elem_lt l hl p)

theorem alloc (hr : Repr s σ) (v : α) : Repr (s.alloc v) σ where
  root_lt l hl := Nat.lt_succ_of_lt (hr.root_lt l hl)
  root_list l hl := by simp [Function.update_noteq (hr.root_lt l hl).ne, hr.root_list l hl]
  ring l hl := by
    have hfr : ∀ p ∈ l :: σ l, p ≠ s.size := fun p hp => (hr.node_lt hl p hp).ne
    refine (hr.ring l hl).imp (fun ⟨⟨hn, hp, hlen⟩, hσ⟩ => ⟨⟨?_, ?_, hlen⟩, hσ⟩)
      fun ⟨hlk, hnd, hlen⟩ => ⟨hlk.frame ?_ ?_, hnd, hlen⟩
    · simp [Function.update_noteq (hfr l (.head _)), hn]
    · simp [Function.update_noteq (hfr l (.head _)), hp]
    · exact fun p hp => by simp [Function.update_noteq (hfr p hp)]
    · exact fun p hp => by simp [Function.update_noteq (hfr p hp)]
  list_eq p l := by
    by_cases hp : p = s.size
    · subst hp
      simpa using fun hl h => lt_irrefl _ (hr.elem_lt l hl _ h)
    · simp [Function.update_noteq hp, hr.list_eq]
  elem_lt l hl p hp := Nat.lt_succ_of_lt (hr.elem_lt l hl p hp)

end Repr

theorem Confined.refl : Confined s s σ l e :=
  ⟨rfl, rfl, rfl, fun _ _ _ => ⟨rfl, rfl⟩, fun _ _ => rfl, fun _ _ => rfl⟩

namespace Repr

theorem Init (hr : Repr s σ) (hl : l ∈ s.lists) (hσ : σ l = []) :
    Repr (s.Init l) σ ∧ Ring (s.Init l) l [] ∧ Confined s (s.Init l) σ l l := by
  have hc : Confined s (s.Init l) σ l l :=
    ⟨rfl, rfl, rfl, fun p _ hp => by simp [State.Init, hp], fun _ _ => rfl,
      fun l' hl' => by simp [State.Init, hl']⟩
  have hring : Ring (s.Init l) l [] :=
    ⟨by simp [Linked, State.Init], List.nodup_singleton l, by simp [State.Init]⟩
  refine ⟨?_, hring, hc⟩
  have := hr.update hl (.inr rfl) (.inl (hr.root_list l hl)) hc hring (fun p _ => by simp [hσ])
    (by simp) (by simp [State.Init, hr.root_list l hl])
  rwa [← hσ, Function.update_eq_self] at this

theorem lazyInit (hr : Repr s σ) (hl : l ∈ s.lists) :
    Repr (s.lazyInit l) σ ∧ Ring (s.lazyInit l) l (σ l) ∧ Confined s (s.lazyInit l) σ l l := by
  unfold State.lazyInit
  split_ifs with h
  · rcases hr.ring l hl with ⟨-, hσ⟩ | hring
    · rw [hσ]
      exact hr.Init hl hσ
    · simp [hring.1.next_start] at h
  · refine ⟨hr, (hr.ring l hl).resolve_left fun hz => h hz.1.1, .refl⟩

end Repr

namespace Repr

theorem newList [Inhabited α] (hr : Repr s σ) : Repr s.newList (Function.update σ s.size []) := by
  have hr1 := hr.alloc default
  have hfresh : ∀ l ∈ s.lists, l ≠ s.size := fun l hl => (hr.root_lt l hl).ne
  refine ⟨fun l hl => ?_, fun l hl => ?_, fun l hl => ?_, fun p l => ?_, fun l hl p hp => ?_⟩
  · rcases List.mem_append.1 hl with hl | hl
    · exact hr1.root_lt l hl
    · simp [List.mem_singleton.1 hl, State.newList]
  · rcases List.mem_append.1 hl with hl | hl
    · exact hr1.root_list l hl
    · simp [List.mem_singleton.1 hl, State.newList]
  · rcases List.mem_append.1 hl with hl | hl
    · rw [Function.update_noteq (hfresh l hl)]
      refine (hr1.ring l hl).imp (fun ⟨⟨hn, hp, hlen⟩, hσ⟩ => ⟨⟨hn, hp, ?_⟩, hσ⟩)
        fun ⟨hlk, hnd, hlen⟩ => ⟨hlk.frame (fun _ _ => rfl) fun _ _ => rfl, hnd, ?_⟩ <;>
      · simpa [State.newList, Function.update_noteq (hfresh l hl)] using hlen
    · obtain rfl := List.mem_singleton.1 hl
      exact .inl ⟨by simp [Zero, State.newList], by simp⟩
  · by_cases hl : l = s.size
    · subst hl
      simp only [State.newList, Function.update_same, List.not_mem_nil, and_false, iff_false]
      exact fun h => hfresh _ ((hr1.list_eq p _).1 h).1 rfl
    · simpa [State.newList, Function.update_noteq hl, hl] using hr1.list_eq p l
  · rcases List.mem_append.1 hl with hl | hl
    · exact hr1.elem_lt l hl p (by simpa [Function.update_noteq (hfresh l hl)] using hp)
    · obtain rfl := List.mem_singleton.1 hl
      simp at hp

theorem insert (hr : Repr s σ) (hl : l ∈ s.lists) (hring : Ring s l (σ l)) (ha : a ∈ l :: σ l)
    (hel : e ∉ s.lists) (he : e < s.size) (hnone : s.list e = none) :
    ∃ s', s.insert l e (some a) = some s' ∧
      Repr s' (Function.update σ l (insertAfter a e (l :: σ l)).tail) ∧ Confined s s' σ l e := by
  have heσ : e ∉ l :: σ l := fun h => (List.mem_cons.1 h).elim (fun h => hel (h ▸ hl))
    fun h => absurd ((hr.mem_iff hl).1 h) (by simp [hnone])
  obtain ⟨s1, hlk, hlinked, hw, hf⟩ := hring.1.link_ring hring.2.1 ha heσ
  have hperm := tail_insertAfter_perm (e := e) ha
  have hc : Confined s ((s1.setList e (some l)).setLen l (s1.len l + 1)) σ l e :=
    ⟨hw.lists, hw.size, hw.value, fun p hp hpe => hf p fun h => (List.mem_cons.1 h).elim hpe hp,
      fun p hpe => by simp [Function.update_noteq hpe, hw.list],
      fun l' hl' => by simp [Function.update_noteq hl', hw.len]⟩
  refine ⟨_, by simp [State.insert, hlk], hr.update hl (.inl hel) (.inl hnone) hc
    ⟨hlinked.frame (fun _ _ => rfl) fun _ _ => rfl,
      ((hperm.cons l).trans (.swap _ _ _)).nodup_iff.2 (List.nodup_cons.2 ⟨heσ, hring.2.1⟩), ?_⟩
    (fun p hpe => by simp [hperm.mem_iff, hpe]) (fun p hp => ?_) (by simp [hperm.mem_iff]), hc⟩
  · simp [hw.len, hring.2.2, hperm.length_eq]
  · rcases List.mem_cons.1 (hperm.mem_iff.1 hp) with rfl | hp
    · exact he
    · exact hr.elem_lt l hl p hp

theorem remove (hr : Repr s σ) (hl : l ∈ s.lists) (he : e ∈ σ l) :
    ∃ s', s.remove l e = some s' ∧ Repr s' (Function.update σ l ((σ l).erase e)) ∧
      Confined s s' σ l e := by
  have hring := hr.ring_of_mem hl he
  have hle : s.list e = some l := (hr.mem_iff hl).1 he
  have hel : e ∉ s.lists := fun h => by simp [hr.root_list e h] at hle
  have hen : e ∉ l :: (σ l).erase e := fun h => (List.mem_cons.1 h).elim (fun h => hel (h ▸ hl))
    (List.nodup_cons.1 hring.2.1).2.not_mem_erase
  obtain ⟨s1, hu, hlinked, hw, hf⟩ := hring.1.unlink_ring hring.2.1 he
  have hc : Confined s ((((s1.setNext e none).setPrev e none).setList e none).setLen l
      (s1.len l - 1)) σ l e :=
    ⟨hw.lists, hw.size, hw.value, fun p hp hpe => by
      simpa [Function.update_noteq hpe] using hf p fun h => hp (List.cons_subset_cons _
        (List.erase_subset _ _) h),
      fun p hpe => by simp [Function.update_noteq hpe, hw.list],
      fun l' hl' => by simp [Function.update_noteq hl', hw.len]⟩
  have hfr : ∀ p ∈ l :: (σ l).erase e, p ≠ e := fun p hp h => hen (h ▸ hp)
  refine ⟨_, by simp [State.remove, hu], hr.update hl (.inl hel) (.inr hle) hc
    ⟨hlinked.frame (fun p hp => by simp [Function.update_noteq (hfr p hp)])
      fun p hp => by simp [Function.update_noteq (hfr p hp)],
      ((List.erase_sublist _ _).cons₂ l).nodup hring.2.1, ?_⟩
    (fun p hpe => List.mem_erase_of_ne hpe) (fun p hp => hr.elem_lt l hl p (List.mem_of_mem_erase hp))
    (by simp [(List.nodup_cons.1 hring.2.1).2.not_mem_erase]), hc⟩
  have := List.length_pos_of_mem he
  simp only [State.setLen_len, Function.update_same, hw.len, hring.2.2, List.length_erase_of_mem he]
  omega

theorem move (hr : Repr s σ) (hl : l ∈ s.lists) (he : e ∈ σ l) (ha : a ∈ l :: σ l) (hae : a ≠ e) :
    ∃ s', s.move e (some a) = some s' ∧
      Repr s' (Function.update σ l (insertAfter a e (l :: (σ l).erase e)).tail) ∧
      Confined s s' σ l e := by
  have hring := hr.ring_of_mem hl he
  have hle : s.list e = some l := (hr.mem_iff hl).1 he
  have hel : e ∉ s.lists := fun h => by simp [hr.root_list e h] at hle
  have hen : e ∉ l :: (σ l).erase e := fun h => (List.mem_cons.1 h).elim (fun h => hel (h ▸ hl))
    (List.nodup_cons.1 hring.2.1).2.not_mem_erase
  obtain ⟨s1, hu, hl1, hw1, hf1⟩ := hring.1.unlink_ring hring.2.1 he
  have hnd1 : (l :: (σ l).erase e).Nodup := ((List.erase_sublist _ _).cons₂ l).nodup hring.2.1
  have ha1 : a ∈ l :: (σ l).erase e := (List.mem_cons.1 ha).elim (· ▸ .head _)
    fun h => .tail _ ((List.mem_erase_of_ne hae).2 h)
  obtain ⟨s2, hlk, hl2, hw2, hf2⟩ := hl1.link_ring hnd1 ha1 hen
  have hperm := tail_insertAfter_perm (e := e) ha1
  have hc : Confined s s2 σ l e :=
    ⟨hw2.lists.trans hw1.lists, hw2.size.trans hw1.size, hw2.value.trans hw1.value,
      fun p hp hpe => by
        have hp' : p ∉ l :: (σ l).erase e := fun h => hp (List.cons_subset_cons _
          (List.erase_subset _ _) h)
        have hp2 : p ∉ e :: l :: (σ l).erase e := fun h => (List.mem_cons.1 h).elim hpe hp'
        rw [(hf2 p hp2).1, (hf2 p hp2).2]
        exact hf1 p hp',
      fun p _ => by rw [hw2.list, hw1.list], fun l' _ => by rw [hw2.len, hw1.len]⟩
  refine ⟨s2, by simp [State.move, hae.symm, hu, hlk], hr.update hl (.inl hel) (.inr hle) hc
    ⟨hl2, ((hperm.cons l).trans (.swap _ _ _)).nodup_iff.2 (List.nodup_cons.2 ⟨hen, hnd1⟩), ?_⟩
    (fun p hpe => by simp [hperm.mem_iff, hpe, List.mem_erase_of_ne hpe])
    (fun p hp => ?_) (by simp [hw2.list, hw1.list, hle, hperm.mem_iff]), hc⟩
  · have := List.length_erase_of_mem he
    have := List.length_pos_of_mem he
    simp only [hw2.len, hw1.len, hring.2.2, hperm.length_eq, List.length_cons]
    omega
  · rcases List.mem_cons.1 (hperm.mem_iff.1 hp) with rfl | hp
    · exact hr.elem_lt l hl _ he
    · exact hr.elem_lt l hl p (List.mem_of_mem_erase hp)

end Repr

end GoStdlib.ContainerList
