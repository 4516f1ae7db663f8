import GoStdlib.Builder.Invariant
import GoStdlib.Builder.Utf8
import Mathlib

/-!
What a `Builder` is for: the string built so far. Each call appends its bytes
to it, leaves it, or empties it, and returns how many bytes it appended;
`String()` reads it without copying, and a string it returned keeps its bytes
whatever the builder does afterwards.
-/

namespace GoStdlib.StringsBuilder

def runeBytes (env : Env) (r : Int) : List UInt8 :=
  if r < env.runeSelf then [byteOf r] else env.encodeRune r

def Op.apply (env : Env) : Op → List UInt8 → List UInt8
  | .write p, c => c ++ p
  | .writeByte b, c => c ++ [b]
  | .writeRune r, c => c ++ runeBytes env r
  | .writeString str, c => c ++ str
  | .grow _, c => c
  | .reset, _ => []

def Op.result (env : Env) : Op → Option Nat
  | .write p => some p.length
  | .writeByte _ => none
  | .writeRune r => some (runeBytes env r).length
  | .writeString str => some str.length
  | .grow _ => none
  | .reset => none

variable {env : Env} {recv : Nat} {s : State}

theorem Inv.WriteRune (env : Env) (r : Int) (hi : Inv recv s) :
    ∃ s', s.WriteRune env recv r = .ok (s', (runeBytes env r).length) ∧ Inv recv s' ∧
      s'.view s'.String = s.view s.String ++ runeBytes env r ∧ Frame s s' := by
  have hi₁ := hi.owned
  by_cases hr : r < env.runeSelf
  · simp only [State.WriteRune, copyCheck_eq hi.addr, bind, Except.bind, runeBytes, hr,
      ↓reduceIte]
    obtain ⟨h₁, h₂, h₃⟩ := hi₁.appendBuf env [byteOf r]
    exact ⟨_, rfl, h₁, h₂, h₃.of_copyCheck⟩
  · -- the conditional grow leaves room for the two reslicings
    obtain ⟨hi₂, hv₂, hf₂, hl₂, hc₂⟩ := hi₁.runeRoom env
    simp only at hl₂ hc₂
    have hn := env.encodeRune_length_le r
    have hfit := Nat.le_trans (Nat.add_le_add_left hn _) hc₂
    simp only [State.WriteRune, copyCheck_eq hi.addr, bind, Except.bind, runeBytes, hr,
      ↓reduceIte]
    rw [if_neg (Nat.not_lt.mpr hc₂), if_neg (Nat.not_lt.mpr hn), if_neg (Nat.not_lt.mpr hfit),
      State.extend_of_len hl₂]
    obtain ⟨hi₃, hv₃, hf₃⟩ := hi₂.extend (p := env.encodeRune r) (by rw [hl₂]; exact hfit)
    exact ⟨_, rfl, hi₃, hv₃.trans (by rw [hv₂]; rfl),
      (hf₂.trans (fun a ha => (hi₁.arr a ha).1) hf₃).of_copyCheck⟩

theorem Inv.Grow (n : Nat) (hi : Inv recv s) :
    ∃ s', s.Grow recv n = .ok s' ∧ Inv recv s' ∧ s'.view s'.String = s.view s.String ∧
      Frame s s' ∧ n ≤ s'.buf.cap - s'.buf.len := by
  have hl := hi.len_le
  have hn : ¬(n : Int) < 0 := by omega
  simp only [State.Grow, copyCheck_eq hi.addr, bind, Except.bind, hn, ↓reduceIte]
  split
  · obtain ⟨h₁, h₂, h₃, h₄, h₅⟩ := hi.owned.grow n
    simp only at h₄ h₅
    rw [Int.toNat_ofNat]
    exact ⟨_, rfl, h₁, h₂, h₃.of_copyCheck, by omega⟩
  · exact ⟨_, rfl, hi.owned, rfl, (Frame.refl _).of_copyCheck, by simp only; omega⟩

/-- Every call on a `Builder` that has not been copied returns, with what
`Op.result` says, changes the string built as `Op.apply` says, and stays
within its frame. -/
theorem Inv.step (env : Env) (op : Op) (hi : Inv recv s) :
    ∃ s', op.step env recv s = .ok (s', op.result env) ∧ Inv recv s' ∧
      s'.view s'.String = op.apply env (s.view s.String) ∧ Frame s s' := by
  cases op with
  | write p =>
      simp only [Op.step, State.Write, copyCheck_eq hi.addr, bind, Except.bind]
      obtain ⟨h₁, h₂, h₃⟩ := hi.owned.appendBuf env p
      exact ⟨_, rfl, h₁, h₂, h₃.of_copyCheck⟩
  | writeByte c =>
      simp only [Op.step, State.WriteByte, copyCheck_eq hi.addr, bind, Except.bind]
      obtain ⟨h₁, h₂, h₃⟩ := hi.owned.appendBuf env [c]
      exact ⟨_, rfl, h₁, h₂, h₃.of_copyCheck⟩
  | writeRune r =>
      obtain ⟨s', h, hi', hv, hf⟩ := hi.WriteRune env r
      exact ⟨s', by simp only [Op.step, h]; rfl, hi', hv, hf⟩
  | writeString str =>
      simp only [Op.step, State.WriteString, copyCheck_eq hi.addr, bind, Except.bind]
      obtain ⟨h₁, h₂, h₃⟩ := hi.owned.appendBuf env str
      exact ⟨_, rfl, h₁, h₂, h₃.of_copyCheck⟩
  | grow n =>
      obtain ⟨s', h, hi', hv, hf, -⟩ := hi.Grow n
      exact ⟨s', by simp only [Op.step, h]; rfl, hi', hv, hf⟩
  | reset => exact ⟨_, rfl, inv_Reset s⟩

/-- A `Builder` copied by value after its first use (its `addr` is another
`Builder`'s) panics on every call but `Reset`, and the state is dropped with it. -/
theorem Op.step_of_copied {a : Nat} (op : Op) (hop : op ≠ .reset) (h : s.addr = some a)
    (ha : a ≠ recv) :
    op.step env recv s = .error "strings: illegal use of non-zero Builder copied by value" := by
  have hc : s.copyCheck recv = .error "strings: illegal use of non-zero Builder copied by value" := by
    simp [State.copyCheck, h, ha, throw, throwThe, MonadExceptOf.throw]
  cases op
  case reset => exact absurd rfl hop
  all_goals simp only [Op.step, State.Write, State.WriteByte, State.WriteRune,
    State.WriteString, State.Grow, hc, bind, Except.bind, Except.map]

theorem Reachable.inv (h : Reachable env recv s) : Inv recv s := by
  induction h with
  | init mem next => exact ⟨.inl rfl, Nat.le_refl _, fun _ => rfl, fun _ h => nomatch h⟩
  | step _ hstep ih =>
      obtain ⟨s', h, hi', -⟩ := ih.step env _
      rw [h] at hstep
      cases hstep
      exact hi'

/-- A run of calls from a `Builder` that has not been copied returns, with
what `Op.result` says of each call, and builds the string `Op.apply` says. -/
theorem Inv.run (env : Env) (ops : List Op) (hi : Inv recv s) :
    ∃ s' rs, run env recv s ops = .ok (s', rs) ∧ Inv recv s' ∧
      s'.view s'.String = ops.foldl (fun c op => op.apply env c) (s.view s.String) ∧
      rs = ops.map (Op.result env) := by
  induction ops generalizing s with
  | nil => exact ⟨s, [], rfl, hi, rfl, rfl⟩
  | cons op ops ih =>
      obtain ⟨s₁, h₁, hi₁, hv₁, -⟩ := hi.step env op
      obtain ⟨s₂, rs, h₂, hi₂, hv₂, rfl⟩ := ih hi₁
      refine ⟨s₂, _, ?_, hi₂, by rw [hv₂, hv₁]; rfl, rfl⟩
      simp only [run, h₁, h₂, bind, Except.bind, pure, Except.pure, List.map_cons]

/-- A string header that `String()` returned: its array is allocated, and
while the builder is still on that array, `len(b.buf)` is no shorter. -/
def Published (h : Header) (s : State) : Prop :=
  ∀ a, h.arr = some a → a < s.next ∧ (s.buf.arr = some a → h.len ≤ s.buf.len)

theorem Inv.published_String (hi : Inv recv s) : Published s.String s :=
  fun a ha => ⟨(hi.arr a ha).1, fun _ => Nat.le_refl _⟩

theorem Frame.published {s' : State} {h : Header} (hf : Frame s s') (hp : Published h s) :
    Published h s' ∧ s'.view h = s.view h := by
  cases ha : h.arr with
  | none => exact ⟨fun a h' => by simp [ha] at h', by simp only [State.view, ha]⟩
  | some a =>
      obtain ⟨hlt, hlen⟩ := hp a ha
      have hnext := hf.next_le
      by_cases hs : s.buf.arr = some a
      · have hl := hlen hs
        refine ⟨fun b hb => ?_, ?_⟩
        · rw [ha, Option.some.injEq] at hb
          subst hb
          refine ⟨by omega, fun hs' => ?_⟩
          rcases hf.arr with ⟨-, hl'⟩ | hn | ⟨c, hc, hle⟩
          · omega
          · simp [hn] at hs'
          · rw [hc, Option.some.injEq] at hs'
            omega
        · simp only [State.view, ha]
          rw [← Nat.min_eq_left hl, ← List.take_take, hf.below a hs, List.take_take]
      · refine ⟨fun b hb => ?_, by simp only [State.view, ha, hf.other a hlt hs]⟩
        rw [ha, Option.some.injEq] at hb
        subst hb
        exact ⟨by omega, fun hs' => absurd hs' (hf.arr_ne hlt hs)⟩

theorem Published.run {h : Header} {ops : List Op} {s' : State} {rs : List (Option Nat)}
    (hi : Inv recv s) (hp : Published h s) (hrun : run env recv s ops = .ok (s', rs)) :
    s'.view h = s.view h := by
  induction ops generalizing s rs with
  | nil =>
      cases hrun
      rfl
  | cons op ops ih =>
      obtain ⟨s₁, h₁, hi₁, -, hf₁⟩ := hi.step env op
      obtain ⟨hp₁, hv₁⟩ := hf₁.published hp
      simp only [run, h₁, bind, Except.bind] at hrun
      cases h₂ : run env recv s₁ ops with
      | error e => simp [h₂] at hrun
      | ok r =>
          simp only [h₂, pure, Except.pure, Except.ok.injEq, Prod.mk.injEq] at hrun
          obtain ⟨rfl, -⟩ := hrun
          exact (ih hi₁ hp₁ h₂).trans hv₁

theorem builder_contents (env : Env) (recv : Nat) :
    (∀ s, Reachable env recv s → ∀ ops, ∃ s' rs, run env recv s ops = .ok (s', rs) ∧
      s'.view s'.String = ops.foldl (fun c op => op.apply env c) (s.view s.String) ∧
      rs = ops.map (Op.result env) ∧ s'.Len = (s'.view s'.String).length ∧ s'.Len ≤ s'.Cap) ∧
    (∀ s, Reachable env recv s → ∀ n : Nat, ∃ s', s.Grow recv n = .ok s' ∧
      n ≤ s'.Cap - s'.Len ∧ s'.view s'.String = s.view s.String) ∧
    (∀ s, Reachable env recv s → ∀ r, ¬r < env.runeSelf →
      s.Len + env.utfMax ≤ (s.runeRoom env).Cap ∧
      s.Len + (env.encodeRune r).length ≤ (s.runeRoom env).Cap ∧
      ∃ s', s.WriteRune env recv r = .ok (s', (env.encodeRune r).length)) := by
  refine ⟨fun s hs ops => ?_, fun s hs n => ?_, fun s hs r hr => ?_⟩
  · obtain ⟨s', rs, h, hi', hv, hrs⟩ := hs.inv.run env ops
    exact ⟨s', rs, h, hv, hrs, hi'.view_length.symm, hi'.len_le⟩
  · obtain ⟨s', h, -, hv, -, hn⟩ := hs.inv.Grow n
    exact ⟨s', h, hn, hv⟩
  · have hi := hs.inv
    obtain ⟨-, -, -, hl, hc⟩ := hi.runeRoom env
    obtain ⟨s', h, -⟩ := hi.WriteRune env r
    have hn := env.encodeRune_length_le r
    refine ⟨hc, by simp only [State.Len, State.Cap]; omega, s', ?_⟩
    rwa [runeBytes, if_neg hr] at h

/-- Go's `UTFMax` and `RuneSelf`, `EncodeRune` as documented, and an `append`
that doubles the capacity. -/
def sampleEnv : Env where
  utfMax := 4
  runeSelf := 0x80
  encodeRune := encodeRune
  growCap c m := max (2 * c) m
  encodeRune_length_le := encodeRune_length_le
  le_growCap _ _ _ := Nat.le_max_right _ _

theorem smile_built :
    ∃ s' rs, run sampleEnv 0 (State.init (fun _ => []) 0)
        [.writeString [104, 105], .writeRune 0x263A, .grow 8] = .ok (s', rs) ∧
      s'.view s'.String = [104, 105, 0xE2, 0x98, 0xBA] ∧ rs = [some 2, some 3, none] ∧
      s'.Len = (s'.view s'.String).length ∧ s'.Len ≤ s'.Cap := by
  obtain ⟨s', rs, h, hv, hrs, hl, hc⟩ :=
    (builder_contents sampleEnv 0).1 _ (.init (fun _ => []) 0)
      [.writeString [104, 105], .writeRune 0x263A, .grow 8]
  exact ⟨s', rs, h, hv.trans (by decide), hrs.trans (by decide), hl, hc⟩

theorem builder_frame (env : Env) (recv : Nat) {s : State} (hs : Reachable env recv s) :
    (∀ (op : Op) s' r, op.step env recv s = .ok (s', r) → Frame s s') ∧
    (∀ ops s' rs, run env recv s ops = .ok (s', rs) → s'.view s.String = s.view s.String) := by
  have hi := hs.inv
  refine ⟨fun op s' r h => ?_, fun ops s' rs h => Published.run hi hi.published_String h⟩
  obtain ⟨s'', h', -, -, hf⟩ := hi.step env op
  rw [h'] at h
  cases h
  exact hf

/-- `WriteString("hi")` from a zero `Builder` over an empty heap. -/
def hiBuilder : State :=
  match (Op.writeString [104, 105]).step sampleEnv 0 (State.init (fun _ => []) 0) with
  | .ok r => r.1
  | .error _ => State.init (fun _ => []) 0

theorem hi_frame : Frame (State.init (fun _ => []) 0) hiBuilder :=
  (builder_frame sampleEnv 0 (.init _ _)).1 (.writeString [104, 105]) hiBuilder (some 2) rfl

/-- With `unicode/utf8` as documented, `WriteRune(r)` appends the bytes
`EncodeRune` writes for `r` exactly when `r` is not negative: a negative rune is
below `RuneSelf` in the signed test, so it takes the one-byte path and appends
`byte(r)`. -/
theorem writeRune_encodeRune (env : Env) (henc : env.encodeRune = encodeRune)
    (hself : env.runeSelf = 0x80) {s : State} (hs : Reachable env recv s) (r : Int) :
    ∃ s', s.WriteRune env recv r = .ok (s', (runeBytes env r).length) ∧
      s'.view s'.String = s.view s.String ++ runeBytes env r ∧
      (runeBytes env r = encodeRune r ↔ 0 ≤ r) ∧ (r < 0 → runeBytes env r = [byteOf r]) := by
  obtain ⟨s', h, -, hv, -⟩ := hs.inv.WriteRune env r
  refine ⟨s', h, hv, ?_, fun hr => by rw [runeBytes, hself, if_pos (by omega)]⟩
  rw [runeBytes, hself, henc]
  split
  · by_cases h0 : 0 ≤ r
    · exact iff_of_true (encodeRune_of_lt_runeSelf h0 ‹_›).symm h0
    · refine iff_of_false (fun he => ?_) h0
      have := congrArg List.length (he.trans (encodeRune_of_neg (by omega)))
      simp at this
  · exact iff_of_true rfl (by omega)

theorem writeRune_minus_one :
    ∃ s', (State.init (fun _ => []) 0).WriteRune sampleEnv 0 (-1) = .ok (s', 1) ∧
      s'.view s'.String = [0xFF] ∧ encodeRune (-1) = [0xEF, 0xBF, 0xBD] := by
  obtain ⟨s', h, hv, -, hneg⟩ := writeRune_encodeRune sampleEnv rfl rfl (.init (fun _ => []) 0) (-1)
  rw [hneg (by decide)] at h hv
  exact ⟨s', h, hv.trans (by decide), encodeRune_of_neg (by decide)⟩

end GoStdlib.StringsBuilder
