import GoStdlib.Builder.Model

/-!
The heap invariant of a `Builder` that is never copied, and what each of the
building blocks of its methods does: the bytes `String()` reads afterwards,
and the bytes of the heap it leaves alone.
-/

namespace GoStdlib.StringsBuilder

theorem length_setBytes {xs src : List UInt8} {i : Nat} (h : i + src.length ≤ xs.length) :
    (setBytes xs i src).length = xs.length := by
  simp only [setBytes, List.length_append, List.length_take, List.length_drop]
  omega

theorem take_setBytes {xs src : List UInt8} {i : Nat} (h : i ≤ xs.length) :
    (setBytes xs i src).take (i + src.length) = xs.take i ++ src :=
  List.take_left' (by simp only [List.length_append, List.length_take]; omega)

theorem take_setBytes_of_le {xs src : List UInt8} {i k : Nat} (hk : k ≤ i) (h : i ≤ xs.length) :
    (setBytes xs i src).take k = xs.take k := by
  have hi : k ≤ (xs.take i).length := by simp only [List.length_take]; omega
  rw [setBytes, List.append_assoc, List.take_append_of_le_length hi, List.take_take,
    Nat.min_eq_left hk]

/-- The `Builder` at `recv` has not been copied (`addr` is nil or `recv`), and
`buf` is nil or a slice of an allocated array of `cap(b.buf)` bytes. -/
structure Inv (recv : Nat) (s : State) : Prop where
  addr : s.addr = none ∨ s.addr = some recv
  len_le : s.buf.len ≤ s.buf.cap
  nil : s.buf.arr = none → s.buf.cap = 0
  arr : ∀ a, s.buf.arr = some a → a < s.next ∧ (s.mem a).length = s.buf.cap

/-- What a step may do to the heap: it leaves alone every allocated array but
the builder's, and the builder's array below `len(b.buf)`; afterwards `b.buf`
is on the same array and no shorter, nil, or on a fresh array. -/
structure Frame (s s' : State) : Prop where
  next_le : s.next ≤ s'.next
  other : ∀ a < s.next, s.buf.arr ≠ some a → s'.mem a = s.mem a
  below : ∀ a, s.buf.arr = some a → (s'.mem a).take s.buf.len = (s.mem a).take s.buf.len
  arr : (s'.buf.arr = s.buf.arr ∧ s.buf.len ≤ s'.buf.len) ∨ s'.buf.arr = none ∨
    ∃ a, s'.buf.arr = some a ∧ s.next ≤ a

variable {env : Env} {recv : Nat} {s : State}

theorem Frame.refl (s : State) : Frame s s :=
  ⟨Nat.le_refl _, fun _ _ _ => rfl, fun _ _ => rfl, .inl ⟨rfl, Nat.le_refl _⟩⟩

theorem Frame.arr_ne {s' : State} (h : Frame s s') {a : Nat} (ha : a < s.next)
    (hs : s.buf.arr ≠ some a) : s'.buf.arr ≠ some a := by
  rcases h.arr with ⟨he, -⟩ | hn | ⟨b, hb, hle⟩
  · rwa [he]
  · simp [hn]
  · rw [hb]
    rintro ⟨⟩
    omega

theorem Frame.trans {t u : State} (hs : ∀ a, s.buf.arr = some a → a < s.next)
    (h₁ : Frame s t) (h₂ : Frame t u) : Frame s u := by
  have hnext := h₁.next_le
  refine ⟨Nat.le_trans hnext h₂.next_le, fun a ha hsa => ?_, fun a hsa => ?_, ?_⟩
  · rw [h₂.other a (by omega) (h₁.arr_ne ha hsa), h₁.other a ha hsa]
  · by_cases hta : t.buf.arr = some a
    · -- still on `a`, and `t` is no shorter than `s` there
      have hl : s.buf.len ≤ t.buf.len := by
        rcases h₁.arr with ⟨-, hl⟩ | hn | ⟨b, hb, hle⟩
        · exact hl
        · simp [hn] at hta
        · have := hs a hsa
          rw [hb] at hta
          cases hta
          omega
      calc (u.mem a).take s.buf.len
          = ((u.mem a).take t.buf.len).take s.buf.len := by rw [List.take_take, Nat.min_eq_left hl]
        _ = ((t.mem a).take t.buf.len).take s.buf.len := by rw [h₂.below a hta]
        _ = (s.mem a).take s.buf.len := by rw [List.take_take, Nat.min_eq_left hl, h₁.below a hsa]
    · rw [h₂.other a (by have := hs a hsa; omega) hta, h₁.below a hsa]
  · rcases h₂.arr with ⟨he', hl'⟩ | hn' | ⟨b', hb', hle'⟩
    · -- `u` is on `t`'s array
      rcases h₁.arr with ⟨he, hl⟩ | hn | ⟨b, hb, hle⟩
      · exact .inl ⟨he'.trans he, Nat.le_trans hl hl'⟩
      · exact .inr (.inl (he'.trans hn))
      · exact .inr (.inr ⟨b, he'.trans hb, hle⟩)
    · exact .inr (.inl hn')
    · exact .inr (.inr ⟨b', hb', by omega⟩)

theorem Frame.of_copyCheck {x : State} {a : Option Nat} (h : Frame { s with addr := a } x) :
    Frame s x :=
  ⟨h.next_le, h.other, h.below, h.arr⟩

theorem Inv.view_length (hi : Inv recv s) : (s.view s.String).length = s.buf.len := by
  simp only [State.view, State.String]
  split
  · rename_i a ha
    simp only [List.length_take, (hi.arr a ha).2, Nat.min_eq_left hi.len_le]
  · rename_i ha
    have := hi.nil ha
    have := hi.len_le
    simp only [List.length_nil]
    omega

theorem copyCheck_eq (h : s.addr = none ∨ s.addr = some recv) :
    s.copyCheck recv = .ok { s with addr := some recv } := by
  rcases h with h | h
  · simp [State.copyCheck, h, pure, Except.pure]
  · obtain ⟨mem, next, addr, buf⟩ := s
    subst h
    simp [State.copyCheck, pure, Except.pure]

theorem Inv.owned (hi : Inv recv s) : Inv recv { s with addr := some recv } :=
  ⟨.inr rfl, hi.len_le, hi.nil, hi.arr⟩

theorem inv_Reset (s : State) :
    Inv recv s.Reset ∧ s.Reset.view s.Reset.String = [] ∧ Frame s s.Reset :=
  ⟨⟨.inl rfl, Nat.le_refl _, fun _ => rfl, fun _ h => nomatch h⟩, rfl,
    Nat.le_refl _, fun _ _ _ => rfl, fun _ _ => rfl, .inr (.inl rfl)⟩

theorem Inv.realloc {c : Nat} (hi : Inv recv s) (hc : s.buf.len ≤ c) :
    Inv recv (s.realloc c) ∧ (s.realloc c).view (s.realloc c).String = s.view s.String ∧
      Frame s (s.realloc c) := by
  have hv := hi.view_length
  have hlen : (setBytes (List.replicate c 0) 0 (s.view s.String)).length = c :=
    (length_setBytes (by simp only [List.length_replicate]; omega)).trans (List.length_replicate ..)
  have hmem : ∀ a, a ≠ s.next → (s.realloc c).mem a = s.mem a := fun a ha => by
    rw [State.realloc_mem, Function.update_noteq ha]
  refine ⟨⟨by simpa using hi.addr, hc, (fun h => nomatch h), ?_⟩, ?_, ⟨by simp, ?_, ?_, ?_⟩⟩
  · rintro a ⟨⟩
    simp only [State.realloc_next, State.realloc_mem, Function.update_same, hlen,
      State.realloc_buf, Nat.lt_succ_self, and_self]
  · show ((s.realloc c).mem s.next).take s.buf.len = _
    have h0 := @take_setBytes (List.replicate c 0) (s.view s.String) 0 (Nat.zero_le _)
    rw [Nat.zero_add, hv] at h0
    rw [State.realloc_mem, Function.update_same, h0]
    rfl
  · exact fun a ha _ => hmem a (Nat.ne_of_lt ha)
  · exact fun a ha => by rw [hmem a (Nat.ne_of_lt (hi.arr a ha).1)]
  · exact .inr (.inr ⟨s.next, rfl, Nat.le_refl _⟩)

theorem Inv.extend {p : List UInt8} (hi : Inv recv s) (h : s.buf.len + p.length ≤ s.buf.cap) :
    Inv recv (s.extend p) ∧ (s.extend p).view (s.extend p).String = s.view s.String ++ p ∧
      Frame s (s.extend p) := by
  cases ha : s.buf.arr with
  | none =>
      have hp : p = [] := List.eq_nil_of_length_eq_zero (by have := hi.nil ha; omega)
      subst hp
      have hs : s.extend [] = { s with buf := { s.buf with len := s.buf.len + 0 } } := by
        simp only [State.extend, State.copyTo, ha, List.length_nil]
      rw [hs]
      exact ⟨⟨hi.addr, hi.len_le, hi.nil, hi.arr⟩, by simp [State.view, State.String, ha],
        Nat.le_refl _, fun _ _ _ => rfl, fun _ _ => rfl, .inl ⟨rfl, Nat.le_add_right _ _⟩⟩
  | some a =>
      obtain ⟨hlt, hlen⟩ := hi.arr a ha
      have hself : (s.extend p).mem a = setBytes (s.mem a) s.buf.len p :=
        State.copyTo_mem_self _ _ ha
      have hother : ∀ b, s.buf.arr ≠ some b → (s.extend p).mem b = s.mem b :=
        fun b hb => State.copyTo_mem_of_ne _ _ hb
      refine ⟨⟨by simpa using hi.addr, by simpa using h, by simp [ha], ?_⟩, ?_, ?_⟩
      · intro b hb
        simp only [State.extend_buf, ha, Option.some.injEq] at hb
        subst hb
        rw [State.extend_next, hself, length_setBytes (by omega), hlen]
        exact ⟨hlt, rfl⟩
      · simp only [State.view, State.String, State.extend_buf, ha, hself]
        rw [take_setBytes (by omega)]
      · refine ⟨by simp, fun b _ hb => hother b hb, fun b hb => ?_, .inl ⟨by simp, by simp⟩⟩
        rw [ha, Option.some.injEq] at hb
        subst hb
        rw [hself, take_setBytes_of_le (Nat.le_refl _) (by omega)]

theorem Inv.appendBuf (env : Env) (p : List UInt8) (hi : Inv recv s) :
    Inv recv (s.appendBuf env p) ∧
      (s.appendBuf env p).view (s.appendBuf env p).String = s.view s.String ++ p ∧
      Frame s (s.appendBuf env p) := by
  unfold State.appendBuf
  split
  · exact hi.extend ‹_›
  · rename_i hfit
    have hc := env.le_growCap s.buf.cap (s.buf.len + p.length) (by omega)
    obtain ⟨hi₁, hv₁, hf₁⟩ := hi.realloc (c := env.growCap s.buf.cap (s.buf.len + p.length))
      (by omega)
    obtain ⟨hi₂, hv₂, hf₂⟩ := hi₁.extend (p := p) (by simpa using hc)
    exact ⟨hi₂, hv₂.trans (by rw [hv₁]), hf₁.trans (fun a ha => (hi.arr a ha).1) hf₂⟩

theorem Inv.grow (n : Nat) (hi : Inv recv s) :
    Inv recv (s.grow n) ∧ (s.grow n).view (s.grow n).String = s.view s.String ∧
      Frame s (s.grow n) ∧ (s.grow n).buf.len = s.buf.len ∧
      (s.grow n).buf.cap = 2 * s.buf.cap + n := by
  obtain ⟨h₁, h₂, h₃⟩ := hi.realloc (c := 2 * s.buf.cap + n) (by have := hi.len_le; omega)
  exact ⟨h₁, h₂, h₃, rfl, rfl⟩

theorem Inv.runeRoom (env : Env) (hi : Inv recv s) :
    Inv recv (s.runeRoom env) ∧ (s.runeRoom env).view (s.runeRoom env).String = s.view s.String ∧
      Frame s (s.runeRoom env) ∧ (s.runeRoom env).buf.len = s.buf.len ∧
      s.buf.len + env.utfMax ≤ (s.runeRoom env).buf.cap := by
  have hl := hi.len_le
  unfold State.runeRoom
  split
  · obtain ⟨h₁, h₂, h₃, h₄, h₅⟩ := hi.grow env.utfMax
    exact ⟨h₁, h₂, h₃, h₄, by omega⟩
  · exact ⟨hi, rfl, Frame.refl s, rfl, by omega⟩

end GoStdlib.StringsBuilder
