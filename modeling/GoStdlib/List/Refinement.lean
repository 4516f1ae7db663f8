import GoStdlib.List.Runs

/-!
`container/list` against the sequence `seq(l)` read from `root.next` along
`next` pointers: under the representation invariant, the queries read the
sequence and each method changes it as the package documentation says.
-/

namespace GoStdlib.ContainerList

variable {α : Type} {s : State α} {l : Nat}

/-- Under the representation invariant, `Len`, `Front`, `Back`, `Next` and
`Prev` read `seq(l)`, and `PushFront`, `PushBack`, `InsertBefore`,
`InsertAfter`, `Remove` and the four moves change it as documented, and change
nothing when their element is not on `l`. -/
theorem list_sequences (hs : ∃ σ, Repr s σ) (hl : l ∈ s.lists) :
    s.Len l = (s.seq l).length ∧ s.Front l = (s.seq l).head? ∧ s.Back l = (s.seq l).getLast? ∧
    (∀ e k, (s.seq l)[k]? = some e →
      s.Next e = (s.seq l)[k + 1]? ∧ s.Prev e = if k = 0 then none else (s.seq l)[k - 1]?) ∧
    (∀ e, s.list e = none → s.Next e = none ∧ s.Prev e = none) ∧
    (∀ l' ∈ s.lists, s.size ∉ s.seq l') ∧
    (∀ v, ∃ s', s.PushFront l v = some (s', s.size) ∧ s'.seq l = s.size :: s.seq l ∧
      s'.value s.size = v) ∧
    (∀ v, ∃ s', s.PushBack l v = some (s', s.size) ∧ s'.seq l = s.seq l ++ [s.size] ∧
      s'.value s.size = v) ∧
    (∀ v mark, (mark ∈ s.seq l → ∃ s', s.InsertBefore l v mark = some (s', some s.size) ∧
        s'.seq l = insertBefore mark s.size (s.seq l) ∧ s'.value s.size = v) ∧
      (mark ∉ s.seq l → s.InsertBefore l v mark = some (s, none))) ∧
    (∀ v mark, (mark ∈ s.seq l → ∃ s', s.InsertAfter l v mark = some (s', some s.size) ∧
        s'.seq l = insertAfter mark s.size (s.seq l) ∧ s'.value s.size = v) ∧
      (mark ∉ s.seq l → s.InsertAfter l v mark = some (s, none))) ∧
    (∀ e, (e ∈ s.seq l → ∃ s', s.Remove l e = some (s', s.value e) ∧
        s'.seq l = (s.seq l).erase e) ∧
      (e ∉ s.seq l → s.Remove l e = some (s, s.value e))) ∧
    (∀ e, (e ∈ s.seq l → ∃ s', s.MoveToFront l e = some s' ∧
        s'.seq l = e :: (s.seq l).erase e) ∧
      (e ∉ s.seq l → s.MoveToFront l e = some s)) ∧
    (∀ e, (e ∈ s.seq l → ∃ s', s.MoveToBack l e = some s' ∧
        s'.seq l = (s.seq l).erase e ++ [e]) ∧
      (e ∉ s.seq l → s.MoveToBack l e = some s)) ∧
    (∀ e mark, (e ∈ s.seq l → mark ∈ s.seq l → e ≠ mark → ∃ s', s.MoveBefore l e mark = some s' ∧
        s'.seq l = insertBefore mark e ((s.seq l).erase e)) ∧
      (¬(e ∈ s.seq l ∧ mark ∈ s.seq l ∧ e ≠ mark) → s.MoveBefore l e mark = some s)) ∧
    (∀ e mark, (e ∈ s.seq l → mark ∈ s.seq l → e ≠ mark → ∃ s', s.MoveAfter l e mark = some s' ∧
        s'.seq l = insertAfter mark e ((s.seq l).erase e)) ∧
      (¬(e ∈ s.seq l ∧ mark ∈ s.seq l ∧ e ≠ mark) → s.MoveAfter l e mark = some s)) := by
  obtain ⟨σ, hr⟩ := hs
  have hmem : ∀ e, e ∈ σ l ↔ s.list e = some l := fun e => hr.mem_iff hl
  have hseq : ∀ {s' : State α} {xs : List Nat},
      Repr s' (Function.update σ l xs) → Extends s s' σ (some l) → s'.seq l = xs :=
    fun hr' hx => by rw [hr'.seq_eq (hx.lists ▸ hl), Function.update_same]
  rw [hr.seq_eq hl]
  refine ⟨hr.Len_eq hl, hr.Front_eq hl, hr.Back_eq hl,
    fun e k he => ⟨hr.Next_eq hl he, hr.Prev_eq hl he⟩, fun e he => Repr.Next_Prev_of_none he,
    fun l' hl' h => lt_irrefl _ (hr.elem_lt l' hl' _ ((hr.seq_eq hl').symm ▸ h)),
    fun v => ?_, fun v => ?_, fun v mark => ⟨fun hm => ?_, fun hm => ?_⟩,
    fun v mark => ⟨fun hm => ?_, fun hm => ?_⟩, fun e => ⟨fun he => ?_, fun he => ?_⟩,
    fun e => ⟨fun he => ?_, fun he => ?_⟩, fun e => ⟨fun he => ?_, fun he => ?_⟩,
    fun e mark => ⟨fun he hm hne => ?_, fun h => ?_⟩,
    fun e mark => ⟨fun he hm hne => ?_, fun h => ?_⟩⟩
  · obtain ⟨s', heq, hr', hv, -, hx⟩ := hr.PushFront hl v
    exact ⟨s', heq, hseq hr' hx, hv⟩
  · obtain ⟨s', heq, hr', hv, -, hx⟩ := hr.PushBack hl v
    exact ⟨s', heq, hseq hr' hx, hv⟩
  · obtain ⟨s', heq, hr', hv, -, hx⟩ := (hr.InsertBefore hl v mark).2 ((hmem mark).1 hm)
    exact ⟨s', heq, hseq hr' hx, hv⟩
  · exact (hr.InsertBefore hl v mark).1 fun h => hm ((hmem mark).2 h)
  · obtain ⟨s', heq, hr', hv, -, hx⟩ := (hr.InsertAfter hl v mark).2 ((hmem mark).1 hm)
    exact ⟨s', heq, hseq hr' hx, hv⟩
  · exact (hr.InsertAfter hl v mark).1 fun h => hm ((hmem mark).2 h)
  · obtain ⟨s', heq, hr', hx⟩ := (hr.Remove hl e).2 ((hmem e).1 he)
    exact ⟨s', heq, hseq hr' hx⟩
  · exact (hr.Remove hl e).1 fun h => he ((hmem e).2 h)
  · obtain ⟨s', heq, hr', hx⟩ := (hr.MoveToFront hl e).2 ((hmem e).1 he)
    exact ⟨s', heq, hseq hr' hx⟩
  · exact (hr.MoveToFront hl e).1 fun h => he ((hmem e).2 h)
  · obtain ⟨s', heq, hr', hx⟩ := (hr.MoveToBack hl e).2 ((hmem e).1 he)
    exact ⟨s', heq, hseq hr' hx⟩
  · exact (hr.MoveToBack hl e).1 fun h => he ((hmem e).2 h)
  · obtain ⟨s', heq, hr', hx⟩ := (hr.MoveBefore hl e mark).2 ((hmem e).1 he) hne ((hmem mark).1 hm)
    exact ⟨s', heq, hseq hr' hx⟩
  · refine (hr.MoveBefore hl e mark).1 ?_
    simp only [ne_eq, ← hmem]
    tauto
  · obtain ⟨s', heq, hr', hx⟩ := (hr.MoveAfter hl e mark).2 ((hmem e).1 he) hne ((hmem mark).1 hm)
    exact ⟨s', heq, hseq hr' hx⟩
  · refine (hr.MoveAfter hl e mark).1 ?_
    simp only [ne_eq, ← hmem]
    tauto

theorem pushed_front : pushed.Front 0 = (pushed.seq 0).head? :=
  (list_sequences pushed_reachable.repr (by decide)).2.1

namespace State

theorem link_rewired {s' : State α} {e : Nat} {at' : Option Nat} (h : s.link e at' = some s') :
    Rewired s s' := by
  simp only [link, readNext, writeNext, writePrev, Option.bind_eq_bind, Option.bind_eq_some,
    Option.map_eq_some'] at h
  obtain ⟨n, -, _, ⟨p, -, rfl⟩, q, -, rfl⟩ := h
  exact ⟨rfl, rfl, rfl, rfl, rfl⟩

theorem insertValue_size {v : α} {at' : Option Nat} {r : State α × Nat}
    (h : s.insertValue l v at' = some r) : r.1.size = s.size + 1 := by
  simp only [insertValue, insert, Option.bind_eq_bind, Option.map_eq_some', Option.bind_eq_some,
    Option.pure_def, Option.some.injEq] at h
  obtain ⟨_, ⟨s₁, hlk, rfl⟩, rfl⟩ := h
  simp [(link_rewired hlk).size]

theorem pushBackLoop_size : ∀ (n : Nat) (e : Option Nat) (s s' : State α),
    pushBackLoop l n e s = some s' → s'.size = s.size + n
  | 0, _, _, _, h => by cases h; rfl
  | n + 1, e, s, s', h => by
      simp only [pushBackLoop, Option.bind_eq_bind, Option.bind_eq_some] at h
      obtain ⟨p, -, r, hr, hloop⟩ := h
      rw [pushBackLoop_size n _ _ _ hloop, insertValue_size hr]
      omega

theorem pushFrontLoop_size : ∀ (n : Nat) (e : Option Nat) (s s' : State α),
    pushFrontLoop l n e s = some s' → s'.size = s.size + n
  | 0, _, _, _, h => by cases h; rfl
  | n + 1, e, s, s', h => by
      simp only [pushFrontLoop, Option.bind_eq_bind, Option.bind_eq_some] at h
      obtain ⟨p, -, r, hr, hloop⟩ := h
      rw [pushFrontLoop_size n _ _ _ hloop, insertValue_size hr]
      omega

theorem lazyInit_size (s : State α) (l : Nat) : (s.lazyInit l).size = s.size := by
  unfold lazyInit
  split <;> rfl

end State

theorem Extends.other {s' : State α} {σ σ' : Nat → List Nat} {o : Nat} (hr : Repr s σ)
    (hr' : Repr s' σ') (hx : Extends s s' σ (some l)) (ho : o ∈ s.lists) (hσ : σ' o = σ o)
    (hol : o ≠ l) :
    s'.seq o = s.seq o ∧ s'.Len o = s.Len o ∧ ∀ p ∈ o :: s.seq o,
      s'.next p = s.next p ∧ s'.prev p = s.prev p ∧ s'.list p = s.list p ∧ s'.value p = s.value p := by
  obtain ⟨hlen, hp⟩ := hx.keeps o ho fun h => hol (Option.some.inj h).symm
  rw [hr.seq_eq ho, hr'.seq_eq (hx.lists ▸ ho), hσ]
  exact ⟨rfl, hlen, hp⟩

/-- `l.PushBackList(other)` and `l.PushFrontList(other)`, for every list `other`
also when it is `l` or a zero value: the loop runs `other.Len()` passes, each of
which allocates one element, never reaches a nil element, and puts fresh copies
of the values of `other` after (or before) the elements of `l`; a list `other`
other than `l` stays as it was. -/
theorem pushList_sequences (hs : ∃ σ, Repr s σ) (hl : l ∈ s.lists) {o : Nat} (ho : o ∈ s.lists) :
    (∃ s', s.PushBackList l o = some s' ∧ s'.size = s.size + (s.Len o).toNat ∧
      s'.seq l = s.seq l ++ List.range' s.size (s.Len o).toNat ∧
      (List.range' s.size (s.Len o).toNat).map s'.value = (s.seq o).map s.value ∧
      (o ≠ l → s'.seq o = s.seq o ∧ s'.Len o = s.Len o ∧ ∀ p ∈ o :: s.seq o,
        s'.next p = s.next p ∧ s'.prev p = s.prev p ∧ s'.list p = s.list p ∧
          s'.value p = s.value p)) ∧
    (∃ s', s.PushFrontList l o = some s' ∧ s'.size = s.size + (s.Len o).toNat ∧
      s'.seq l = (List.range' s.size (s.Len o).toNat).reverse ++ s.seq l ∧
      ((List.range' s.size (s.Len o).toNat).reverse).map s'.value = (s.seq o).map s.value ∧
      (o ≠ l → s'.seq o = s.seq o ∧ s'.Len o = s.Len o ∧ ∀ p ∈ o :: s.seq o,
        s'.next p = s.next p ∧ s'.prev p = s.prev p ∧ s'.list p = s.list p ∧
          s'.value p = s.value p)) := by
  obtain ⟨σ, hr⟩ := hs
  have hlen : ∀ s₁ : State α, Repr s₁ σ → o ∈ s₁.lists → (s₁.Len o).toNat = (σ o).length :=
    fun _ hr₁ ho₁ => by rw [hr₁.Len_eq ho₁, Int.toNat_ofNat]
  obtain ⟨hr₁, -, hc₁⟩ := hr.lazyInit hl
  have hsize : (s.lazyInit l).Len o = s.Len o ∧ (s.lazyInit l).size = s.size :=
    ⟨by rw [hr₁.Len_eq (hc₁.lists ▸ ho), hr.Len_eq ho], State.lazyInit_size s l⟩
  have hseq : ∀ {s' : State α} {xs : List Nat}, Repr s' (Function.update σ l xs) →
      Extends s s' σ (some l) → s'.seq l = xs :=
    fun hr' hx => by rw [hr'.seq_eq (hx.lists ▸ hl), Function.update_same]
  rw [hlen s hr ho, hr.seq_eq hl, hr.seq_eq ho]
  refine ⟨?_, ?_⟩
  · obtain ⟨s', h, hr', hv, hx⟩ := hr.PushBackList hl o ho
    refine ⟨s', h, ?_, hseq hr' hx, hv, fun hol => ?_⟩
    · rw [State.PushBackList, hsize.1, hlen s hr ho] at h
      rw [State.pushBackLoop_size _ _ _ _ h, hsize.2]
    · simpa only [hr.seq_eq ho] using
        hx.other hr hr' ho (Function.update_noteq hol _ _) hol
  · obtain ⟨s', h, hr', hv, hx⟩ := hr.PushFrontList hl o ho
    refine ⟨s', h, ?_, hseq hr' hx, hv, fun hol => ?_⟩
    · rw [State.PushFrontList, hsize.1, hlen s hr ho] at h
      rw [State.pushFrontLoop_size _ _ _ _ h, hsize.2]
    · simpa only [hr.seq_eq ho] using
        hx.other hr hr' ho (Function.update_noteq hol _ _) hol

theorem pushed_self_pushList :
    ((∃ s', pushed.PushBackList 0 0 = some s' ∧ s'.size = pushed.size + (pushed.Len 0).toNat ∧
      s'.seq 0 = pushed.seq 0 ++ List.range' pushed.size (pushed.Len 0).toNat ∧
      (List.range' pushed.size (pushed.Len 0).toNat).map s'.value =
        (pushed.seq 0).map pushed.value ∧
      (0 ≠ 0 → s'.seq 0 = pushed.seq 0 ∧ s'.Len 0 = pushed.Len 0 ∧ ∀ p ∈ 0 :: pushed.seq 0,
        s'.next p = pushed.next p ∧ s'.prev p = pushed.prev p ∧ s'.list p = pushed.list p ∧
          s'.value p = pushed.value p)) ∧
    (∃ s', pushed.PushFrontList 0 0 = some s' ∧ s'.size = pushed.size + (pushed.Len 0).toNat ∧
      s'.seq 0 = (List.range' pushed.size (pushed.Len 0).toNat).reverse ++ pushed.seq 0 ∧
      ((List.range' pushed.size (pushed.Len 0).toNat).reverse).map s'.value =
        (pushed.seq 0).map pushed.value ∧
      (0 ≠ 0 → s'.seq 0 = pushed.seq 0 ∧ s'.Len 0 = pushed.Len 0 ∧ ∀ p ∈ 0 :: pushed.seq 0,
        s'.next p = pushed.next p ∧ s'.prev p = pushed.prev p ∧ s'.list p = pushed.list p ∧
          s'.value p = pushed.value p))) ∧
    (pushed.PushBackList 0 0).map (fun s => (s.seq 0, (s.seq 0).map s.value)) =
      some ([1, 2], [5, 5]) :=
  ⟨pushList_sequences pushed_reachable.repr (by decide) (by decide), by decide⟩

end GoStdlib.ContainerList
