import GoStdlib.List.Invariant

/-!
The exported methods of `container/list` on the sequences the heap represents:
each keeps the invariant, changes the sequence of its own list as the package
documents, and keeps every other list as it was.
-/

namespace GoStdlib.ContainerList

variable {α : Type} {s s' s₁ : State α} {σ σ₁ : Nat → List Nat} {l e mark a : Nat}
  {xs ys zs : List Nat}

def Keeps (s s' : State α) (σ : Nat → List Nat) (t : Option Nat) : Prop :=
  ∀ l ∈ s.lists, t ≠ some l → s'.len l = s.len l ∧
    ∀ p ∈ l :: σ l, s'.next p = s.next p ∧ s'.prev p = s.prev p ∧ s'.list p = s.list p ∧
      s'.value p = s.value p

namespace Keeps

theorem refl : Keeps s s σ t := fun _ _ _ => ⟨rfl, fun _ _ => ⟨rfl, rfl, rfl, rfl⟩⟩

theorem mono (h : Keeps s s' σ none) (t : Option Nat) : Keeps s s' σ t :=
  fun l hl _ => h l hl (by simp)

theorem trans (h₁ : Keeps s s₁ σ t) (h₂ : Keeps s₁ s' σ₁ t) (hlists : s₁.lists = s.lists)
    (hσ : ∀ l ∈ s.lists, t ≠ some l → σ₁ l = σ l) : Keeps s s' σ t := fun l hl ht => by
  obtain ⟨hlen₁, hp₁⟩ := h₁ l hl ht
  obtain ⟨hlen₂, hp₂⟩ := h₂ l (hlists ▸ hl) ht
  refine ⟨hlen₂.trans hlen₁, fun p hp => ?_⟩
  obtain ⟨h1, h2, h3, h4⟩ := hp₁ p hp
  obtain ⟨h1', h2', h3', h4'⟩ := hp₂ p (hσ l hl ht ▸ hp)
  exact ⟨h1'.trans h1, h2'.trans h2, h3'.trans h3, h4'.trans h4⟩

end Keeps

/-- `s'` follows `s` after a call on `t`: the same lists, no element freed or
changed in value, and every list but `t` kept. -/
structure Extends (s s' : State α) (σ : Nat → List Nat) (t : Option Nat) : Prop where
  lists : s'.lists = s.lists
  size : s.size ≤ s'.size
  value : ∀ p < s.size, s'.value p = s.value p
  keeps : Keeps s s' σ t

theorem Extends.refl : Extends s s σ t := ⟨rfl, le_rfl, fun _ _ => rfl, .refl⟩

theorem Extends.trans (h₁ : Extends s s₁ σ t) (h₂ : Extends s₁ s' σ₁ t)
    (hσ : ∀ l ∈ s.lists, t ≠ some l → σ₁ l = σ l) : Extends s s' σ t :=
  ⟨h₂.lists.trans h₁.lists, h₁.size.trans h₂.size,
    fun p hp => (h₂.value p (lt_of_lt_of_le hp h₁.size)).trans (h₁.value p hp),
    h₁.keeps.trans h₂.keeps h₁.lists hσ⟩

theorem Confined.keeps (hc : Confined s s' σ l e) (hr : Repr s σ) (hl : l ∈ s.lists)
    (hel : e ∉ s.lists ∨ e = l) (hle : s.list e = none ∨ s.list e = some l) :
    Keeps s s' σ (some l) := fun l' hl' ht => by
  have hne : l' ≠ l := fun h => ht (h ▸ rfl)
  refine ⟨hc.len l' hne, fun p hp => ?_⟩
  have hpe := hr.ne_of_list hl' hne hel hle hp
  obtain ⟨h1, h2⟩ := hc.ptr p (hr.apart hl hl' hne hp) hpe
  exact ⟨h1, h2, hc.list p hpe, by rw [hc.value]⟩

theorem Confined.extends (hc : Confined s s' σ l e) (hr : Repr s σ) (hl : l ∈ s.lists)
    (hel : e ∉ s.lists ∨ e = l) (hle : s.list e = none ∨ s.list e = some l) :
    Extends s s' σ (some l) :=
  ⟨hc.lists, hc.size.ge, fun _ _ => by rw [hc.value], hc.keeps hr hl hel hle⟩

namespace Repr

theorem alloc_keeps (hr : Repr s σ) (v : α) : Keeps s (s.alloc v) σ none := fun l hl _ =>
  ⟨rfl, fun p hp => by simp [Function.update_noteq (hr.node_lt hl p hp).ne]⟩

theorem ring_of_next (hr : Repr s σ) (hl : l ∈ s.lists) (h : s.next l ≠ none) : Ring s l (σ l) :=
  (hr.ring l hl).resolve_left fun hz => h hz.1.1

theorem insertValue (hr : Repr s σ) (hl : l ∈ s.lists) (hring : Ring s l (σ l))
    (ha : a ∈ l :: σ l) (v : α) :
    ∃ s', s.insertValue l v (some a) = some (s', s.size) ∧
      Repr s' (Function.update σ l (insertAfter a s.size (l :: σ l)).tail) ∧
      s'.value s.size = v ∧ s'.size = s.size + 1 ∧ Extends s s' σ (some l) := by
  have hr₁ := hr.alloc v
  have hfresh : s.size ∉ s.lists := fun h => lt_irrefl _ (hr.root_lt _ h)
  obtain ⟨s', hins, hr', hc⟩ := hr₁.insert hl (hr₁.ring_of_next hl (by
      simp [Function.update_noteq (hr.root_lt l hl).ne, hring.1.next_start])) ha hfresh
    (Nat.lt_succ_self _) (by simp)
  refine ⟨s', by simp [State.insertValue, hins], hr', by simp [hc.value], by simp [hc.size], ?_⟩
  have hx : Extends s (s.alloc v) σ (some l) :=
    ⟨rfl, by simp, fun p hp => by simp [Function.update_noteq hp.ne], (hr.alloc_keeps v).mono _⟩
  exact hx.trans (hc.extends hr₁ hl (.inl hfresh) (.inl (by simp))) fun _ _ _ => rfl

end Repr

theorem tail_insertAfter_getLast_nil (h : (l :: xs).Nodup) :
    (insertAfter ((l :: xs).getLast (List.cons_ne_nil _ _)) e (l :: xs)).tail = xs ++ [e] := by
  have h' : (l :: (xs ++ [])).Nodup := by simpa using h
  simpa using tail_insertAfter_getLast (e := e) h'

theorem insertBefore_eq (h : (l :: (ys ++ mark :: zs)).Nodup) :
    insertBefore mark e (ys ++ mark :: zs) = ys ++ e :: mark :: zs := by
  have hm : mark ∉ ys := fun hy =>
    List.disjoint_of_nodup_append (List.nodup_cons.1 h).2 hy (.head _)
  rw [insertBefore_append hm, insertBefore_cons_self]

theorem tail_insertAfter_of_ne (h : l ≠ a) :
    (insertAfter a e (l :: xs)).tail = insertAfter a e xs := by
  rw [insertAfter, if_neg h, List.tail_cons]

theorem erase_append_of_getLast (h : (l :: xs).Nodup)
    (hl : (l :: xs).getLast (List.cons_ne_nil _ _) = e) (he : e ∈ xs) : xs.erase e ++ [e] = xs := by
  rcases List.eq_nil_or_concat xs with rfl | ⟨ys, y, rfl⟩
  · simp at he
  · obtain rfl : y = e := by simpa using hl
    have hey : y ∉ ys := fun h' =>
      List.disjoint_of_nodup_append (by simpa using (List.nodup_cons.1 h).2) h' (.head _)
    simp [List.erase_append_right _ hey]

theorem erase_around (hne : e ≠ mark)
    (hp : (l :: ys).getLast (List.cons_ne_nil _ _) ≠ e) :
    ∃ ys' zs', (ys ++ mark :: zs).erase e = ys' ++ mark :: zs' ∧
      (l :: ys').getLast (List.cons_ne_nil _ _) = (l :: ys).getLast (List.cons_ne_nil _ _) := by
  by_cases hy : e ∈ ys
  · exact ⟨ys.erase e, zs, List.erase_append_left _ hy, getLast_erase hp⟩
  · exact ⟨ys, zs.erase e, by rw [List.erase_append_right _ hy, List.erase_cons_tail
      (by simpa using Ne.symm hne)], rfl⟩

theorem insertBefore_erase_self (h : (l :: (ys ++ mark :: zs)).Nodup)
    (hp : (l :: ys).getLast (List.cons_ne_nil _ _) = e) (hel : e ≠ l) :
    insertBefore mark e ((ys ++ mark :: zs).erase e) = ys ++ mark :: zs := by
  rcases List.eq_nil_or_concat ys with rfl | ⟨ys, y, rfl⟩
  · exact absurd (by simpa using hp.symm) hel
  · obtain rfl : y = e := by simpa using hp
    have h' : (l :: (ys ++ y :: mark :: zs)).Nodup := by simpa using h
    have hey : y ∉ ys := fun hy =>
      List.disjoint_of_nodup_append (List.nodup_cons.1 h').2 hy (.head _)
    have hnd : (l :: (ys ++ mark :: zs)).Nodup :=
      (List.Sublist.cons₂ _ ((List.sublist_cons_self y _).append_left ys)).nodup h'
    simp only [List.concat_eq_append, List.append_assoc, List.singleton_append,
      List.erase_append_right _ hey, List.erase_cons_head, insertBefore_eq hnd]

namespace Repr

theorem not_root (hr : Repr s σ) (h : s.list e = some l) : e ∉ s.lists := fun h' => by
  simp [hr.root_list e h'] at h

theorem Len_eq (hr : Repr s σ) (hl : l ∈ s.lists) : s.Len l = (σ l).length := by
  rcases hr.ring l hl with ⟨hz, hσ⟩ | hring
  · simp [State.Len, hz.2.2, hσ]
  · exact hring.2.2

theorem Front_eq (hr : Repr s σ) (hl : l ∈ s.lists) : s.Front l = (σ l).head? := by
  rw [State.Front, ← State.Len, hr.Len_eq hl]
  rcases hr.ring l hl with ⟨-, hσ⟩ | hring
  · simp [hσ]
  · cases hσ : σ l with
    | nil => simp
    | cons x xs => simpa [hσ, show (xs.length : Int) + 1 ≠ 0 by omega] using hring.1.next_start

theorem Back_eq (hr : Repr s σ) (hl : l ∈ s.lists) : s.Back l = (σ l).getLast? := by
  rw [State.Back, ← State.Len, hr.Len_eq hl]
  rcases hr.ring l hl with ⟨-, hσ⟩ | hring
  · simp [hσ]
  · cases hσ : σ l with
    | nil => simp
    | cons x xs =>
        have := hring.1.prev_end
        simp only [hσ, List.getLast_cons_cons] at this
        simp [this, List.getLast?_eq_getLast, show (xs.length : Int) + 1 ≠ 0 by omega]

theorem Next_eq (hr : Repr s σ) (hl : l ∈ s.lists) {k : Nat} (he : (σ l)[k]? = some e) :
    s.Next e = (σ l)[k + 1]? := by
  have hmem := List.getElem?_mem he
  have hring := hr.ring_of_mem hl hmem
  have hnext := hring.1.next_of_getElem? he
  have hlist := (hr.mem_iff hl).1 hmem
  have hk := (List.getElem?_eq_some_iff.1 he).1
  by_cases hlast : k + 1 < (σ l).length
  · have hne : (σ l)[k + 1]? ≠ some l := fun h =>
      (List.nodup_cons.1 hring.2.1).1 (List.getElem?_mem h)
    rw [List.getElem?_append_left hlast] at hnext
    simp [State.Next, hlist, hnext, hne]
  · rw [List.getElem?_append_right (by omega), show k + 1 - (σ l).length = 0 by omega] at hnext
    simp [State.Next, hlist, hnext, List.getElem?_eq_none (by omega : (σ l).length ≤ k + 1)]

theorem Prev_eq (hr : Repr s σ) (hl : l ∈ s.lists) {k : Nat} (he : (σ l)[k]? = some e) :
    s.Prev e = if k = 0 then none else (σ l)[k - 1]? := by
  have hmem := List.getElem?_mem he
  have hring := hr.ring_of_mem hl hmem
  have hprev := hring.1.prev_of_getElem? he
  have hlist := (hr.mem_iff hl).1 hmem
  cases k with
  | zero => simp [State.Prev, hlist, hprev]
  | succ k =>
      have hne : (σ l)[k]? ≠ some l := fun h => (List.nodup_cons.1 hring.2.1).1 (List.getElem?_mem h)
      simp only [List.getElem?_cons_succ] at hprev
      simp [State.Prev, hlist, hprev, hne]

theorem Next_Prev_of_none (h : s.list e = none) : s.Next e = none ∧ s.Prev e = none := by
  simp [State.Next, State.Prev, h]

variable (hr : Repr s σ) (hl : l ∈ s.lists)
include hr hl

theorem ring_of_list (h : s.list e = some l) : e ∈ σ l ∧ Ring s l (σ l) :=
  have he := (hr.mem_iff hl).2 h
  ⟨he, hr.ring_of_mem hl he⟩

theorem PushFront (v : α) :
    ∃ s', s.PushFront l v = some (s', s.size) ∧ Repr s' (Function.update σ l (s.size :: σ l)) ∧
      s'.value s.size = v ∧ s'.size = s.size + 1 ∧ Extends s s' σ (some l) := by
  obtain ⟨hr₁, hring₁, hc₁⟩ := hr.lazyInit hl
  obtain ⟨s', hins, hr', hv, hsz, hx⟩ := hr₁.insertValue (by rwa [hc₁.lists]) hring₁ (.head _) v
  rw [hc₁.size] at hins hr' hv hsz
  exact ⟨s', hins, by simpa using hr', hv, hsz, (hc₁.extends hr hl (.inr rfl)
    (.inl (hr.root_list l hl))).trans hx fun _ _ _ => rfl⟩

theorem PushBack (v : α) :
    ∃ s', s.PushBack l v = some (s', s.size) ∧ Repr s' (Function.update σ l (σ l ++ [s.size])) ∧
      s'.value s.size = v ∧ s'.size = s.size + 1 ∧ Extends s s' σ (some l) := by
  obtain ⟨hr₁, hring₁, hc₁⟩ := hr.lazyInit hl
  obtain ⟨s', hins, hr', hv, hsz, hx⟩ :=
    hr₁.insertValue (by rwa [hc₁.lists]) hring₁ (List.getLast_mem (List.cons_ne_nil _ _)) v
  rw [hc₁.size, tail_insertAfter_getLast_nil hring₁.2.1] at hr'
  rw [hc₁.size] at hins hv hsz
  exact ⟨s', by rw [State.PushBack, hring₁.1.prev_end, hins], hr', hv, hsz,
    (hc₁.extends hr hl (.inr rfl) (.inl (hr.root_list l hl))).trans hx fun _ _ _ => rfl⟩

theorem InsertBefore (v : α) (mark : Nat) :
    (s.list mark ≠ some l → s.InsertBefore l v mark = some (s, none)) ∧
    (s.list mark = some l → ∃ s', s.InsertBefore l v mark = some (s', some s.size) ∧
      Repr s' (Function.update σ l (insertBefore mark s.size (σ l))) ∧ s'.value s.size = v ∧
      s'.size = s.size + 1 ∧ Extends s s' σ (some l)) := by
  refine ⟨fun h => by simp [State.InsertBefore, h], fun h => ?_⟩
  obtain ⟨hm, hring⟩ := hr.ring_of_list hl h
  obtain ⟨ys, zs, hσ⟩ := List.append_of_mem hm
  have hprev := (Linked.append_cons.1 (hσ ▸ hring.1)).1.prev_end
  obtain ⟨s', hins, hr', hv, hsz, hx⟩ := hr.insertValue hl hring
    (hσ ▸ List.cons_subset_cons _ (List.subset_append_left _ _) (List.getLast_mem _)) v
  have hnd := hσ ▸ hring.2.1
  rw [hσ, tail_insertAfter_getLast hnd, ← insertBefore_eq hnd, ← hσ] at hr'
  exact ⟨s', by simp [State.InsertBefore, h, hprev, hins], hr', hv, hsz, hx⟩

theorem InsertAfter (v : α) (mark : Nat) :
    (s.list mark ≠ some l → s.InsertAfter l v mark = some (s, none)) ∧
    (s.list mark = some l → ∃ s', s.InsertAfter l v mark = some (s', some s.size) ∧
      Repr s' (Function.update σ l (insertAfter mark s.size (σ l))) ∧ s'.value s.size = v ∧
      s'.size = s.size + 1 ∧ Extends s s' σ (some l)) := by
  refine ⟨fun h => by simp [State.InsertAfter, h], fun h => ?_⟩
  obtain ⟨hm, hring⟩ := hr.ring_of_list hl h
  obtain ⟨s', hins, hr', hv, hsz, hx⟩ := hr.insertValue hl hring (.tail _ hm) v
  have hlm : l ≠ mark := by
    rintro rfl
    exact (List.nodup_cons.1 hring.2.1).1 hm
  rw [tail_insertAfter_of_ne hlm] at hr'
  exact ⟨s', by simp [State.InsertAfter, h, hins], hr', hv, hsz, hx⟩

theorem Remove (e : Nat) :
    (s.list e ≠ some l → s.Remove l e = some (s, s.value e)) ∧
    (s.list e = some l → ∃ s', s.Remove l e = some (s', s.value e) ∧
      Repr s' (Function.update σ l ((σ l).erase e)) ∧ Extends s s' σ (some l)) := by
  refine ⟨fun h => by simp [State.Remove, h], fun h => ?_⟩
  obtain ⟨s', hrm, hr', hc⟩ := hr.remove hl ((hr.mem_iff hl).2 h)
  have hel : e ∉ s.lists := fun h' => by simp [hr.root_list e h'] at h
  exact ⟨s', by simp [State.Remove, h, hrm, hc.value], hr', hc.extends hr hl (.inl hel) (.inr h)⟩

theorem MoveToFront (e : Nat) :
    (s.list e ≠ some l → s.MoveToFront l e = some s) ∧
    (s.list e = some l → ∃ s', s.MoveToFront l e = some s' ∧
      Repr s' (Function.update σ l (e :: (σ l).erase e)) ∧ Extends s s' σ (some l)) := by
  refine ⟨fun h => by simp [State.MoveToFront, h], fun h => ?_⟩
  obtain ⟨he, hring⟩ := hr.ring_of_list hl h
  have hel := hr.not_root h
  by_cases hfront : s.next l = some e
  · have hσ : e :: (σ l).erase e = σ l := by
      have hn := hring.1.next_start
      rw [hfront] at hn
      cases hσl : σ l with
      | nil => simp [hσl] at he
      | cons x xs =>
          obtain rfl : e = x := by simpa [hσl] using hn
          simp
    refine ⟨s, by simp [State.MoveToFront, h, hfront], ?_, .refl⟩
    rwa [hσ, Function.update_eq_self]
  · obtain ⟨s', hmv, hr', hc⟩ := hr.move hl he (.head _) fun h' => hel (h' ▸ hl)
    exact ⟨s', by simp [State.MoveToFront, h, hfront, hmv], by simpa using hr',
      hc.extends hr hl (.inl hel) (.inr h)⟩

theorem MoveToBack (e : Nat) :
    (s.list e ≠ some l → s.MoveToBack l e = some s) ∧
    (s.list e = some l → ∃ s', s.MoveToBack l e = some s' ∧
      Repr s' (Function.update σ l ((σ l).erase e ++ [e])) ∧ Extends s s' σ (some l)) := by
  refine ⟨fun h => by simp [State.MoveToBack, h], fun h => ?_⟩
  obtain ⟨he, hring⟩ := hr.ring_of_list hl h
  have hel := hr.not_root h
  have hprev := hring.1.prev_end
  by_cases hback : (l :: σ l).getLast (List.cons_ne_nil _ _) = e
  · refine ⟨s, by simp [State.MoveToBack, h, hprev, hback], ?_, .refl⟩
    rwa [erase_append_of_getLast hring.2.1 hback he, Function.update_eq_self]
  · obtain ⟨s', hmv, hr', hc⟩ := hr.move hl he (List.getLast_mem _) hback
    rw [← getLast_erase hback,
      tail_insertAfter_getLast_nil (((List.erase_sublist _ _).cons₂ l).nodup hring.2.1)] at hr'
    exact ⟨s', by simp [State.MoveToBack, h, hprev, hback, hmv], hr',
      hc.extends hr hl (.inl hel) (.inr h)⟩

theorem MoveBefore (e mark : Nat) :
    (s.list e ≠ some l ∨ e = mark ∨ s.list mark ≠ some l → s.MoveBefore l e mark = some s) ∧
    (s.list e = some l → e ≠ mark → s.list mark = some l → ∃ s', s.MoveBefore l e mark = some s' ∧
      Repr s' (Function.update σ l (insertBefore mark e ((σ l).erase e))) ∧
      Extends s s' σ (some l)) := by
  refine ⟨fun h => by simp only [State.MoveBefore, if_pos h], fun h hne hmark => ?_⟩
  obtain ⟨he, hring⟩ := hr.ring_of_list hl h
  have hel := hr.not_root h
  obtain ⟨ys, zs, hσ⟩ := List.append_of_mem ((hr.mem_iff hl).2 hmark)
  have hprev := (Linked.append_cons.1 (hσ ▸ hring.1)).1.prev_end
  have hnd := hσ ▸ hring.2.1
  by_cases hp : (l :: ys).getLast (List.cons_ne_nil _ _) = e
  · refine ⟨s, by simp [State.MoveBefore, h, hne, hmark, hprev, hp, State.move], ?_, .refl⟩
    rwa [hσ, insertBefore_erase_self hnd hp fun h' => hel (h' ▸ hl), ← hσ, Function.update_eq_self]
  · obtain ⟨ys', zs', herase, hlast⟩ := erase_around hne hp
    obtain ⟨s', hmv, hr', hc⟩ := hr.move hl he
      (hσ ▸ List.cons_subset_cons _ (List.subset_append_left _ _) (List.getLast_mem _)) hp
    have hnd' : (l :: (ys' ++ mark :: zs')).Nodup :=
      herase ▸ ((List.erase_sublist _ _).cons₂ l).nodup hnd
    rw [hσ, herase, ← hlast, tail_insertAfter_getLast hnd', ← insertBefore_eq hnd', ← herase,
      ← hσ] at hr'
    exact ⟨s', by simp [State.MoveBefore, h, hne, hmark, hprev, hmv], hr',
      hc.extends hr hl (.inl hel) (.inr h)⟩

theorem MoveAfter (e mark : Nat) :
    (s.list e ≠ some l ∨ e = mark ∨ s.list mark ≠ some l → s.MoveAfter l e mark = some s) ∧
    (s.list e = some l → e ≠ mark → s.list mark = some l → ∃ s', s.MoveAfter l e mark = some s' ∧
      Repr s' (Function.update σ l (insertAfter mark e ((σ l).erase e))) ∧
      Extends s s' σ (some l)) := by
  refine ⟨fun h => by simp only [State.MoveAfter, if_pos h], fun h hne hmark => ?_⟩
  obtain ⟨he, hring⟩ := hr.ring_of_list hl h
  have hel := hr.not_root h
  have hm := (hr.mem_iff hl).2 hmark
  have hlm : l ≠ mark := by
    rintro rfl
    exact (List.nodup_cons.1 hring.2.1).1 hm
  obtain ⟨s', hmv, hr', hc⟩ := hr.move hl he (.tail _ hm) (Ne.symm hne)
  rw [tail_insertAfter_of_ne hlm] at hr'
  exact ⟨s', by simp [State.MoveAfter, h, hne, hmark, hmv], hr', hc.extends hr hl (.inl hel) (.inr h)⟩

omit hr hl in
/-- The loop of `PushBackList`, with the elements `R` of `o` left to copy and
`e` the first of them: their copies, fresh, after the elements of `l`. -/
theorem pushBackLoop_spec {o : Nat} : ∀ (R : List Nat) {s : State α} {σ : Nat → List Nat}
    (e : Option Nat), Repr s σ → l ∈ s.lists → Ring s l (σ l) → o ∈ s.lists →
    (∃ P Q, σ o = P ++ R ++ Q) → (R = [] ∨ e = R.head?) →
    ∃ s', State.pushBackLoop l R.length e s = some s' ∧
      Repr s' (Function.update σ l (σ l ++ List.range' s.size R.length)) ∧
      (List.range' s.size R.length).map s'.value = R.map s.value ∧ Extends s s' σ (some l)
  | [], s, σ, _, hr, _, _, _, _, _ =>
      ⟨s, rfl, by simpa [Function.update_eq_self] using hr, rfl, .refl⟩
  | x :: R, s, σ, e, hr, hl, hring, ho, ⟨P, Q, hσo⟩, he => by
      obtain rfl : e = some x := by simpa using he
      have hxs : x < s.size := hr.elem_lt o ho x (by simp [hσo])
      obtain ⟨s₁, hins, hr₁, hv₁, hsz₁, hx₁⟩ :=
        hr.insertValue hl hring (List.getLast_mem (List.cons_ne_nil _ _)) (s.value x)
      rw [tail_insertAfter_getLast_nil hring.2.1] at hr₁
      have hl₁ : l ∈ s₁.lists := hx₁.lists ▸ hl
      have ho₁ : o ∈ s₁.lists := hx₁.lists ▸ ho
      have hσo₁ : ∃ Q', Function.update σ l (σ l ++ [s.size]) o = P ++ [x] ++ R ++ Q' := by
        by_cases hol : o = l
        · subst hol
          exact ⟨Q ++ [s.size], by simp [hσo]⟩
        · exact ⟨Q, by simp [Function.update_noteq hol, hσo]⟩
      obtain ⟨Q', hQ'⟩ := hσo₁
      have hnext : R = [] ∨ s₁.Next x = R.head? := by
        cases R with
        | nil => exact .inl rfl
        | cons y R =>
            simp only [List.append_assoc, List.singleton_append, List.cons_append,
              List.nil_append] at hQ'
            right
            rw [hr₁.Next_eq ho₁ (k := P.length)
                (by rw [hQ', List.getElem?_append_right le_rfl, Nat.sub_self]; rfl),
              hQ', List.getElem?_append_right (Nat.le_succ _), Nat.succ_sub le_rfl, Nat.sub_self]
            simp
      obtain ⟨s', hloop, hr', hv', hx'⟩ := pushBackLoop_spec R (s₁.Next x) hr₁ hl₁
        (hr₁.ring_of_mem (e := s.size) hl₁ (by simp)) ho₁ ⟨P ++ [x], Q', hQ'⟩ hnext
      refine ⟨s', by simp [State.pushBackLoop, hring.1.prev_end, hins, hloop], ?_, ?_,
        hx₁.trans hx' fun l' _ h => Function.update_noteq (fun h' => h (by rw [h'])) _ _⟩
      · simpa [hsz₁, List.range'_succ] using hr'
      · rw [hsz₁] at hv'
        rw [List.length_cons, List.range'_succ, List.map_cons, List.map_cons, hv',
          hx'.value _ (by omega), hv₁]
        congr 1
        exact List.map_congr_left fun p hp => hx₁.value p (hr.elem_lt o ho p (by simp [hσo, hp]))

omit hr hl in
/-- The loop of `PushFrontList`, with the elements `R` of `o` left to copy, last
first, and `e` the next of them: their copies, fresh, before the elements of `l`. -/
theorem pushFrontLoop_spec {o : Nat} : ∀ (R : List Nat) {s : State α} {σ : Nat → List Nat}
    (e : Option Nat), Repr s σ → l ∈ s.lists → Ring s l (σ l) → o ∈ s.lists →
    (∃ P Q, σ o = P ++ R.reverse ++ Q) → (R = [] ∨ e = R.head?) →
    ∃ s', State.pushFrontLoop l R.length e s = some s' ∧
      Repr s' (Function.update σ l ((List.range' s.size R.length).reverse ++ σ l)) ∧
      (List.range' s.size R.length).map s'.value = R.map s.value ∧ Extends s s' σ (some l)
  | [], s, σ, _, hr, _, _, _, _, _ =>
      ⟨s, rfl, by simpa [Function.update_eq_self] using hr, rfl, .refl⟩
  | x :: R, s, σ, e, hr, hl, hring, ho, ⟨P, Q, hσo⟩, he => by
      obtain rfl : e = some x := by simpa using he
      obtain ⟨s₁, hins, hr₁, hv₁, hsz₁, hx₁⟩ := hr.insertValue hl hring (.head _) (s.value x)
      simp only [insertAfter_cons_self, List.tail_cons] at hr₁
      have hl₁ : l ∈ s₁.lists := hx₁.lists ▸ hl
      have ho₁ : o ∈ s₁.lists := hx₁.lists ▸ ho
      have hσo₁ : ∃ P', Function.update σ l (s.size :: σ l) o = P' ++ R.reverse ++ x :: Q := by
        by_cases hol : o = l
        · subst hol
          exact ⟨s.size :: P, by simp [hσo]⟩
        · exact ⟨P, by simp [Function.update_noteq hol, hσo]⟩
      obtain ⟨P', hP'⟩ := hσo₁
      have hprev : R = [] ∨ s₁.Prev x = R.head? := by
        cases R with
        | nil => exact .inl rfl
        | cons y R =>
            simp only [List.reverse_cons, List.append_assoc, List.singleton_append,
              List.cons_append] at hP'
            right
            rw [← List.append_assoc] at hP'
            rw [hr₁.Prev_eq ho₁ (k := (P' ++ R.reverse).length + 1)
                (by rw [hP', List.getElem?_append_right (Nat.le_succ _), Nat.succ_sub le_rfl,
                  Nat.sub_self]; simp),
              if_neg (Nat.succ_ne_zero _), Nat.add_sub_cancel, hP',
              List.getElem?_append_right le_rfl, Nat.sub_self]
            simp
      obtain ⟨s', hloop, hr', hv', hx'⟩ := pushFrontLoop_spec R (s₁.Prev x) hr₁ hl₁
        (hr₁.ring_of_mem (e := s.size) hl₁ (by simp)) ho₁ ⟨P', x :: Q, hP'⟩ hprev
      refine ⟨s', by simp [State.pushFrontLoop, hins, hloop], ?_, ?_,
        hx₁.trans hx' fun l' _ h => Function.update_noteq (fun h' => h (by rw [h'])) _ _⟩
      · simpa [hsz₁, List.range'_succ] using hr'
      · rw [hsz₁] at hv'
        rw [List.length_cons, List.range'_succ, List.map_cons, List.map_cons, hv',
          hx'.value _ (by omega), hv₁]
        congr 1
        exact List.map_congr_left fun p hp => hx₁.value p (hr.elem_lt o ho p (by simp [hσo, hp]))

theorem PushBackList (o : Nat) (ho : o ∈ s.lists) :
    ∃ s', s.PushBackList l o = some s' ∧
      Repr s' (Function.update σ l (σ l ++ List.range' s.size (σ o).length)) ∧
      (List.range' s.size (σ o).length).map s'.value = (σ o).map s.value ∧
      Extends s s' σ (some l) := by
  obtain ⟨hr₁, hring₁, hc₁⟩ := hr.lazyInit hl
  have ho₁ : o ∈ (s.lazyInit l).lists := by rwa [hc₁.lists]
  obtain ⟨s', hloop, hr', hv', hx'⟩ := pushBackLoop_spec (σ o) ((s.lazyInit l).Front o) hr₁ (by rwa [hc₁.lists]) hring₁
    ho₁ ⟨[], [], by simp⟩ (.inr (hr₁.Front_eq ho₁))
  rw [hc₁.size] at hr' hv'
  rw [hc₁.value] at hv'
  exact ⟨s', by rw [State.PushBackList, hr₁.Len_eq ho₁]; exact hloop, hr', hv',
    (hc₁.extends hr hl (.inr rfl) (.inl (hr.root_list l hl))).trans hx' fun _ _ _ => rfl⟩

theorem PushFrontList (o : Nat) (ho : o ∈ s.lists) :
    ∃ s', s.PushFrontList l o = some s' ∧
      Repr s' (Function.update σ l ((List.range' s.size (σ o).length).reverse ++ σ l)) ∧
      ((List.range' s.size (σ o).length).reverse).map s'.value = (σ o).map s.value ∧
      Extends s s' σ (some l) := by
  obtain ⟨hr₁, hring₁, hc₁⟩ := hr.lazyInit hl
  have ho₁ : o ∈ (s.lazyInit l).lists := by rwa [hc₁.lists]
  obtain ⟨s', hloop, hr', hv', hx'⟩ := pushFrontLoop_spec (σ o).reverse ((s.lazyInit l).Back o) hr₁
    (by rwa [hc₁.lists]) hring₁ ho₁ ⟨[], [], by simp⟩ (.inr (by rw [hr₁.Back_eq ho₁,
      List.head?_reverse]))
  rw [List.length_reverse, hc₁.size] at hr' hv'
  rw [hc₁.value] at hv'
  exact ⟨s', by rw [State.PushFrontList, hr₁.Len_eq ho₁, ← List.length_reverse]; exact hloop, hr',
    by rw [List.map_reverse, hv', List.map_reverse, List.reverse_reverse],
    (hc₁.extends hr hl (.inr rfl) (.inl (hr.root_list l hl))).trans hx' fun _ _ _ => rfl⟩

end Repr

end GoStdlib.ContainerList
