import GoStdlib.List.Refinement

/-!
`l.Init()` on a list that holds elements. It resets `root` and `len` only, so
the elements it held keep `list = l` and their pointers, and the methods, which
decide membership by `e.list == l`, still take them for elements of `l`.
`Op.Valid` allows `Init` on an empty list only; this module is about the rest.
-/

namespace GoStdlib.ContainerList

variable {α : Type} {s s' : State α} {l e : Nat}

namespace State

@[simp] theorem Init_list (s : State α) (l : Nat) : (s.Init l).list = s.list := rfl

@[simp] theorem Init_value (s : State α) (l : Nat) : (s.Init l).value = s.value := rfl

@[simp] theorem Init_size (s : State α) (l : Nat) : (s.Init l).size = s.size := rfl

theorem Init_ptr (s : State α) (hel : e ≠ l) :
    (s.Init l).next e = s.next e ∧ (s.Init l).prev e = s.prev e := by
  simp [Init, Function.update_noteq hel]

theorem Init_Next (s : State α) (hel : e ≠ l) : (s.Init l).Next e = s.Next e := by
  simp only [Next, Init_list, (s.Init_ptr hel).1]

theorem Init_Prev (s : State α) (hel : e ≠ l) : (s.Init l).Prev e = s.Prev e := by
  simp only [Prev, Init_list, (s.Init_ptr hel).2]

theorem unlink_rewired (h : s.unlink e = some s') : Rewired s s' := by
  simp only [unlink, writeNext, writePrev, Option.bind_eq_bind, Option.bind_eq_some,
    Option.map_eq_some'] at h
  obtain ⟨s1, ⟨p, -, rfl⟩, n, -, rfl⟩ := h
  exact ⟨rfl, rfl, rfl, rfl, rfl⟩

theorem unlink_isSome {p n : Nat} (hp : s.prev e = some p) (hn : s.next e = some n) :
    ∃ s', s.unlink e = some s' := by
  by_cases hpe : p = e
  · subst hpe
    simp [unlink, writeNext, writePrev, hp, hn]
  · exact ⟨_, unlink_eq hp hn hpe⟩

end State

theorem Linked.neighbours {a b : Nat} {xs : List Nat} (h : Linked s a xs b) (he : e ∈ xs) :
    (∃ p, s.prev e = some p) ∧ ∃ n, s.next e = some n := by
  induction xs generalizing a with
  | nil => simp at he
  | cons x xs ih =>
      rcases List.mem_cons.1 he with rfl | he
      · exact ⟨⟨a, h.2.1⟩, _, h.2.2.next_start⟩
      · exact ih h.2.2 he

/-- After `l.Init()` on a list of a reachable heap, `l` reads empty, but each
element it held keeps `list = l` and its `Next()` and `Prev()`, and
`l.Remove(e)` of one of them unlinks it and sets `l.Len()` to `-1`. -/
theorem init_leaves_elements [Inhabited α] (hs : Reachable s) (hl : l ∈ s.lists) :
    (s.Init l).seq l = [] ∧ (s.Init l).Len l = 0 ∧
    ∀ e ∈ s.seq l, (s.Init l).list e = some l ∧ (s.Init l).Next e = s.Next e ∧
      (s.Init l).Prev e = s.Prev e ∧
      ∃ s', (s.Init l).Remove l e = some (s', s.value e) ∧ s'.Len l = -1 := by
  obtain ⟨σ, hr⟩ := hs.repr
  rw [hr.seq_eq hl]
  refine ⟨?_, by simp [State.Len, State.Init], fun e he => ?_⟩
  · obtain ⟨n, hn⟩ : ∃ n, s.size = n + 1 := ⟨s.size - 1, by have := hr.root_lt l hl; omega⟩
    simp [State.seq, State.Init, hn, State.collect]
  · have hring := hr.ring_of_mem hl he
    have hle := (hr.mem_iff hl).1 he
    have hel : e ≠ l := fun h => (List.nodup_cons.1 hring.2.1).1 (h ▸ he)
    obtain ⟨⟨p, hp⟩, n, hn⟩ := hring.1.neighbours he
    obtain ⟨s1, hu⟩ := State.unlink_isSome (((s.Init_ptr hel).2).trans hp)
      (((s.Init_ptr hel).1).trans hn)
    have hw := State.unlink_rewired hu
    have hrem : (s.Init l).Remove l e = some ((((s1.setNext e none).setPrev e none).setList e
        none).setLen l (s1.len l - 1), s.value e) := by
      simp [State.Remove, hle, State.remove, hu, hw.value]
    exact ⟨hle, s.Init_Next hel, s.Init_Prev hel, _, hrem, by simp [State.Len, hw.len, State.Init]⟩

/-- `l := list.New(); l.PushBack(5); l.PushBack(7)`: elements `1` and `2`. -/
def pushedTwice : State Nat :=
  match pushed.PushBack 0 7 with
  | some r => r.1
  | none => pushed

theorem pushedTwice_reachable : Reachable pushedTwice :=
  @Reachable.step _ _ _ _ (.pushBack 0 7) pushed_reachable (by decide) rfl

/-- After `l.Init()`, element `1` still has `Next()` element `2`, and
`l.Remove(1)` leaves `l` with the sequence `[2]` and `Len()` `-1`. -/
theorem pushedTwice_cleared :
    ((pushedTwice.Init 0).seq 0 = [] ∧ (pushedTwice.Init 0).Len 0 = 0 ∧
      ∀ e ∈ pushedTwice.seq 0, (pushedTwice.Init 0).list e = some 0 ∧
        (pushedTwice.Init 0).Next e = pushedTwice.Next e ∧
        (pushedTwice.Init 0).Prev e = pushedTwice.Prev e ∧
        ∃ s', (pushedTwice.Init 0).Remove 0 e = some (s', pushedTwice.value e) ∧ s'.Len 0 = -1) ∧
    (pushedTwice.Init 0).Next 1 = some 2 ∧
    ((pushedTwice.Init 0).Remove 0 1).map (fun r => (r.1.seq 0, r.1.Len 0)) = some ([2], -1) :=
  ⟨init_leaves_elements pushedTwice_reachable (by decide), by decide, by decide⟩

end GoStdlib.ContainerList
