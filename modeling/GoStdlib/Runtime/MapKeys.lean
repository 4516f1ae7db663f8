import GoStdlib.Runtime.HashEqual

/-!
What a map relies on about its keys. A map hashes a key before it compares it
with the keys it holds.

A key that hashes can be compared. If `typehash` returns on a value, then
comparing that value with any value of its type never panics: both walk the
same elements and the same fields that are not blank, and both reach the
dynamic type of an interface through the same type word and refuse the same
types, those with no `equal`. Comparing takes one frame of stack more than
hashing, since `typehash` hashes the regular-memory fields of a struct in place
and `==` compares each of them by a call.

A key unequal to itself gets a fresh hash. Such a key holds a NaN that `==`
reaches, and the hash of a NaN calls `fastrand`, so every insertion of it lands
apart and none can be found again.
-/

namespace GoStdlib.Alg

theorem HashM.bind_eq_ok {α β : Type} {x : HashM α} {f : α → HashM β} {n : Nat} {r : β × Nat}
    (h : (x >>= f) n = .ok r) : ∃ a n', x n = .ok (a, n') ∧ f a n' = .ok r := by
  simp only [bind, StateT.bind] at h
  cases hx : x n with
  | error e => simp [hx] at h; cases h
  | ok p => exact ⟨p.1, p.2, rfl, by simpa [hx] using h⟩

theorem allM_ok {β : Type} {f : β → Except String Bool} :
    ∀ {l : List β}, (∀ x ∈ l, ∃ b, f x = .ok b) → ∃ b, l.allM f = .ok b
  | [], _ => ⟨true, rfl⟩
  | a :: l, hall => by
      obtain ⟨b, hb⟩ := hall a (List.mem_cons_self a l)
      cases b
      · exact ⟨false, by simp [List.allM, hb]; rfl⟩
      · obtain ⟨b', hb'⟩ := allM_ok fun x hx => hall x (List.mem_cons_of_mem a hx)
        exact ⟨b', by simp [List.allM, hb]; exact hb'⟩

def Hashes (hash : GoType → Nat → UInt64 → HashM UInt64) (t : GoType) (p : Nat) : Prop :=
  ∃ h n r, hash t p h n = .ok r

namespace Runtime

variable (rt : Runtime) {hash : GoType → Nat → UInt64 → HashM UInt64}

theorem arrayHash_hashes {elem : GoType} {p : Nat} :
    ∀ {is : List Nat} {h : UInt64} {n : Nat} {r : UInt64 × Nat},
      arrayHash hash elem p is h n = .ok r → ∀ i ∈ is, Hashes hash elem (p + i * elem.size)
  | [], _, _, _, _, i, hi => absurd hi (List.not_mem_nil i)
  | i :: is, _, _, _, hr, j, hj => by
      obtain ⟨_, _, hx, hrest⟩ := HashM.bind_eq_ok hr
      rcases List.mem_cons.mp hj with rfl | hj
      · exact ⟨_, _, _, hx⟩
      · exact arrayHash_hashes hrest j hj

theorem structHash_hashes {p : Nat} :
    ∀ {fs : List (StructField GoType)} {h : UInt64} {ms me n : Nat} {r : UInt64 × Nat},
      rt.structHash hash p fs h ms me n = .ok r →
      ∀ f ∈ fs, f.blank = false → f.typ.regularMemory = false → Hashes hash f.typ (p + f.offset)
  | [], _, _, _, _, _, _, f, hf, _, _ => absurd hf (List.not_mem_nil f)
  | f :: fs, _, _, _, _, _, hr, g, hg, hb, hreg => by
      simp only [structHash] at hr
      rcases List.mem_cons.mp hg with rfl | hg
      · simp only [hb, hreg, Bool.not_false, Bool.false_eq_true, if_false, if_true] at hr
        obtain ⟨_, _, hx, -⟩ := HashM.bind_eq_ok hr
        exact ⟨_, _, _, hx⟩
      · by_cases hfb : f.blank = true
        · rw [if_pos hfb] at hr
          exact structHash_hashes hr g hg hb hreg
        rw [if_neg hfb] at hr
        by_cases hfr : (!f.typ.regularMemory) = true
        · rw [if_pos hfr] at hr
          obtain ⟨_, _, -, hrest⟩ := HashM.bind_eq_ok hr
          exact structHash_hashes hrest g hg hb hreg
        · rw [if_neg hfr] at hr
          exact structHash_hashes hr g hg hb hreg

/-- An interface that hashes compares with every interface, when the values
of the dynamic types that hash compare. -/
theorem ifaceHash_compares {typeAt : Nat → Option GoType}
    {equal : GoType → Nat → Nat → Except String Bool}
    (hind : ∀ t x, Hashes hash t x → ∀ y, ∃ b, equal t x y = .ok b)
    {p : Nat} {h : UInt64} {n : Nat} {r : UInt64 × Nat}
    (hr : rt.ifaceHash typeAt hash p h n = .ok r) (q : Nat) :
    ∃ b, rt.ifaceEqual typeAt equal p q = .ok b := by
  unfold ifaceEqual
  split_ifs with hw
  · unfold dataEq
    unfold ifaceHash at hr
    split_ifs at hr ⊢ with h0
    · exact ⟨_, rfl⟩
    · cases ht : typeAt (rt.word p) with
      | none => rw [ht] at hr; cases hr
      | some t =>
          rw [ht] at hr
          dsimp only at hr ⊢
          split_ifs at hr ⊢
          · cases hr
          · exact ⟨_, rfl⟩
          · obtain ⟨_, _, hx, -⟩ := HashM.bind_eq_ok hr
            exact hind t _ ⟨_, _, _, hx⟩ _
  · exact ⟨_, rfl⟩

end Runtime

/-- A key that hashes can be compared: if `typehash` returns on the value of
type `t` at `p`, from some seed and some state of `fastrand`, with `fuel` frames
of stack, then comparing it with the value at any `q`, with one frame more,
gives `true` or `false` and never panics, for every type nested to any depth.
So a map, which hashes a key before it compares it, never panics comparing a
key it could hash. -/
theorem hashable_compares (rt : Runtime) :
    ∀ fuel t p h n r, rt.typehash fuel t p h n = .ok r → ∀ q, ∃ b, rt.equal (fuel + 1) t p q = .ok b
  | 0, _, _, _, _, _, hr, _ => by cases hr
  | fuel + 1, t, p, h, n, r, hr, q => by
      have ih : ∀ t x, Hashes (rt.typehash fuel) t x → ∀ y, ∃ b, rt.equal (fuel + 1) t x y = .ok b :=
        fun t x ⟨h, n, r, hx⟩ => hashable_compares rt fuel t x h n r hx
      by_cases hreg : t.regularMemory = true
      · exact ⟨_, by rw [Runtime.equal, if_pos hreg]; rfl⟩
      · simp only [Bool.not_eq_true] at hreg
        simp only [Runtime.typehash, hreg, Bool.false_eq_true, if_false] at hr
        rw [Runtime.equal, if_neg (by simp [hreg])]
        cases hk : t.kind with
        | float32 | float64 | complex64 | complex128 | string => exact ⟨_, rfl⟩
        | interface methods =>
            simp only [hk] at hr ⊢
            split_ifs at hr ⊢ <;> exact rt.ifaceHash_compares ih hr q
        | array len elem =>
            simp only [hk] at hr ⊢
            exact allM_ok fun i hi => ih _ _ (Runtime.arrayHash_hashes hr i hi) _
        | struct fields =>
            simp only [hk] at hr ⊢
            refine allM_ok fun f hf => ?_
            obtain ⟨hf, hb⟩ := List.mem_filter.mp hf
            simp only [Bool.not_eq_true'] at hb
            cases hfr : f.typ.regularMemory
            · exact ih _ _ (rt.structHash_hashes hr f hf hb hfr) _
            · exact ⟨_, by rw [Runtime.equal, if_pos hfr]; rfl⟩
        | other => simp only [hk] at hr; cases hr

def emptyInterface : GoType := .mk "interface {}" 16 false false true (.interface 0)

theorem emptyInterface_compares :
    blankFloatRuntime.typehash 2 emptyInterface 0 0 0 = .ok (16278147574447453599, 0) ∧
      ∃ b, blankFloatRuntime.equal 3 emptyInterface 0 16 = .ok b :=
  ⟨rfl, hashable_compares blankFloatRuntime 2 emptyInterface 0 0 0 _ rfl 16⟩

namespace HashM

variable {β γ : Type}

def Mono (x : HashM β) : Prop :=
  ∀ n v n', x n = .ok (v, n') → n ≤ n'

def Draws (x : HashM β) : Prop :=
  ∀ n v n', x n = .ok (v, n') → n < n'

theorem mono_pure (b : β) : Mono (pure b : HashM β) := fun _ _ _ h => by
  cases h
  exact le_rfl

theorem mono_throw (e : String) : Mono (throw e : HashM β) := fun _ _ _ h => by cases h

theorem Mono.bind {x : HashM β} {f : β → HashM γ} (hx : Mono x) (hf : ∀ b, Mono (f b)) :
    Mono (x >>= f) := fun _ _ _ h => by
  obtain ⟨a, m, h₁, h₂⟩ := bind_eq_ok h
  exact (hx _ _ _ h₁).trans (hf a _ _ _ h₂)

theorem Draws.bind {x : HashM β} {f : β → HashM γ} (hx : Draws x) (hf : ∀ b, Mono (f b)) :
    Draws (x >>= f) := fun _ _ _ h => by
  obtain ⟨a, m, h₁, h₂⟩ := bind_eq_ok h
  exact (hx _ _ _ h₁).trans_le (hf a _ _ _ h₂)

theorem Mono.bind_draws {x : HashM β} {f : β → HashM γ} (hx : Mono x) (hf : ∀ b, Draws (f b)) :
    Draws (x >>= f) := fun _ _ _ h => by
  obtain ⟨a, m, h₁, h₂⟩ := bind_eq_ok h
  exact (hx _ _ _ h₁).trans_lt (hf a _ _ _ h₂)

theorem Draws.mono {x : HashM β} (hx : Draws x) : Mono x := fun _ _ _ h => (hx _ _ _ h).le

end HashM

theorem FloatFormat.not_isZero_of_isNaN (fmt : FloatFormat) {f : Nat} (h : fmt.isNaN f = true) :
    fmt.isZero f = false := by
  simp only [FloatFormat.isNaN, Bool.and_eq_true, bne_iff_ne, ne_eq, beq_iff_eq] at h
  simp only [FloatFormat.isZero, beq_eq_false_iff_ne, ne_eq]
  intro hz
  apply h.2
  rw [← Nat.mod_mod_of_dvd f (pow_dvd_pow 2 (Nat.le_add_right fmt.fracBits fmt.expBits)), hz,
    Nat.zero_mod]

theorem FloatFormat.isNaN_of_eq_self (fmt : FloatFormat) {f : Nat} (h : fmt.eq f f = false) :
    fmt.isNaN f = true := by
  cases hn : fmt.isNaN f <;> simp_all [FloatFormat.eq]

namespace Runtime

variable (rt : Runtime)

theorem fastrand_draws : HashM.Draws rt.fastrand := fun n _ _ h => by
  cases h
  exact Nat.lt_succ_self n

theorem floatHash_mono (fmt : FloatFormat) (p : Nat) (h : UInt64) : (rt.floatHash fmt p h).Mono := by
  unfold floatHash
  dsimp only
  split_ifs
  · exact HashM.mono_pure _
  · exact rt.fastrand_draws.mono.bind fun _ => HashM.mono_pure _
  · exact HashM.mono_pure _

theorem floatHash_draws {fmt : FloatFormat} {p : Nat} (he : rt.floatEqual fmt p p = false) (h : UInt64) :
    (rt.floatHash fmt p h).Draws := by
  have hn := fmt.isNaN_of_eq_self he
  unfold floatHash
  rw [if_neg (by simp [fmt.not_isZero_of_isNaN hn]), if_pos hn]
  exact rt.fastrand_draws.bind fun _ => HashM.mono_pure _

theorem complexHash_mono (fmt : FloatFormat) (p : Nat) (h : UInt64) : (rt.complexHash fmt p h).Mono :=
  (rt.floatHash_mono fmt p h).bind fun _ => rt.floatHash_mono fmt _ _

theorem complexHash_draws {fmt : FloatFormat} {p : Nat} (he : rt.complexEqual fmt p p = false)
    (h : UInt64) : (rt.complexHash fmt p h).Draws := by
  simp only [complexEqual, Bool.and_eq_false_iff] at he
  rcases he with he | he
  · exact (rt.floatHash_draws he h).bind fun _ => rt.floatHash_mono fmt _ _
  · exact (rt.floatHash_mono fmt p h).bind_draws fun _ => rt.floatHash_draws he _

variable {hash : GoType → Nat → UInt64 → HashM UInt64}

theorem ifaceHash_mono {typeAt : Nat → Option GoType} (hm : ∀ t x h, (hash t x h).Mono) (p : Nat)
    (h : UInt64) : (rt.ifaceHash typeAt hash p h).Mono := by
  unfold ifaceHash
  split_ifs
  · exact HashM.mono_pure _
  · split
    · exact HashM.mono_throw _
    · split_ifs
      · exact HashM.mono_throw _
      · exact (hm _ _ _).bind fun _ => HashM.mono_pure _
      · exact (hm _ _ _).bind fun _ => HashM.mono_pure _

theorem arrayHash_mono {elem : GoType} {p : Nat} (hm : ∀ t x h, (hash t x h).Mono) :
    ∀ (is : List Nat) (h : UInt64), (arrayHash hash elem p is h).Mono
  | [], _ => HashM.mono_pure _
  | _ :: is, _ => (hm _ _ _).bind fun _ => arrayHash_mono hm is _

theorem structHash_mono {p : Nat} (hm : ∀ t x h, (hash t x h).Mono) :
    ∀ (fs : List (StructField GoType)) (h : UInt64) (ms me : Nat), (rt.structHash hash p fs h ms me).Mono
  | [], _, _, _ => HashM.mono_pure _
  | f :: fs, _, _, _ => by
      simp only [structHash]
      by_cases hfb : f.blank = true
      · rw [if_pos hfb]
        exact structHash_mono hm fs _ _ _
      rw [if_neg hfb]
      by_cases hfr : (!f.typ.regularMemory) = true
      · rw [if_pos hfr]
        exact (hm _ _ _).bind fun _ => structHash_mono hm fs _ _ _
      · rw [if_neg hfr]
        exact structHash_mono hm fs _ _ _

/-- `typehash` never turns the counter of `fastrand` back. -/
theorem typehash_mono : ∀ fuel t p h, (rt.typehash fuel t p h).Mono
  | 0, _, _, _ => HashM.mono_throw _
  | fuel + 1, t, p, h => by
      have ih := typehash_mono fuel
      unfold typehash
      split_ifs
      · exact HashM.mono_pure _
      · split
        · exact rt.floatHash_mono _ _ _
        · exact rt.floatHash_mono _ _ _
        · exact rt.complexHash_mono _ _ _
        · exact rt.complexHash_mono _ _ _
        · exact HashM.mono_pure _
        · split_ifs <;> exact rt.ifaceHash_mono ih _ _
        · exact arrayHash_mono ih _ _
        · exact rt.structHash_mono ih _ _ _ _
        · exact HashM.mono_throw _

theorem arrayHash_draws {elem : GoType} {p : Nat} (hm : ∀ t x h, (hash t x h).Mono) :
    ∀ {is : List Nat}, (∃ i ∈ is, ∀ h, (hash elem (p + i * elem.size) h).Draws) →
      ∀ h, (arrayHash hash elem p is h).Draws
  | [], ⟨_, hi, _⟩, _ => absurd hi (List.not_mem_nil _)
  | i :: is, ⟨j, hj, hd⟩, _ => by
      rcases List.mem_cons.mp hj with rfl | hj
      · exact (hd _).bind fun _ => arrayHash_mono hm is _
      · exact (hm _ _ _).bind_draws fun _ => arrayHash_draws hm ⟨j, hj, hd⟩ _

theorem structHash_draws {p : Nat} (hm : ∀ t x h, (hash t x h).Mono) :
    ∀ {fs : List (StructField GoType)}, (∃ f ∈ fs, f.blank = false ∧ f.typ.regularMemory = false ∧
      ∀ h, (hash f.typ (p + f.offset) h).Draws) → ∀ h ms me, (rt.structHash hash p fs h ms me).Draws
  | [], ⟨_, hf, _⟩, _, _, _ => absurd hf (List.not_mem_nil _)
  | f :: fs, ⟨g, hg, hb, hreg, hd⟩, _, _, _ => by
      simp only [structHash]
      rcases List.mem_cons.mp hg with rfl | hg
      · simp only [hb, hreg, Bool.not_false, Bool.false_eq_true, if_false, if_true]
        exact (hd _).bind fun _ => rt.structHash_mono hm fs _ _ _
      · have ih := structHash_draws hm ⟨g, hg, hb, hreg, hd⟩
        by_cases hfb : f.blank = true
        · rw [if_pos hfb]
          exact ih _ _ _
        rw [if_neg hfb]
        by_cases hfr : (!f.typ.regularMemory) = true
        · rw [if_pos hfr]
          exact (hm _ _ _).bind_draws fun _ => ih _ _ _
        · rw [if_neg hfr]
          exact ih _ _ _

/-- An interface unequal to itself holds a dynamic value unequal to itself,
whose hash calls `fastrand`. -/
theorem ifaceHash_draws {typeAt : Nat → Option GoType}
    {equal : GoType → Nat → Nat → Except String Bool}
    (hind : ∀ t x, equal t x x = .ok false → ∀ h, (hash t x h).Draws) {p : Nat}
    (he : rt.ifaceEqual typeAt equal p p = .ok false) (h : UInt64) :
    (rt.ifaceHash typeAt hash p h).Draws := by
  rw [ifaceEqual, if_pos rfl] at he
  unfold dataEq at he
  unfold ifaceHash
  split_ifs at he ⊢ with h0
  · cases he
  · cases ht : typeAt (rt.word p) with
    | none => rw [ht] at he; cases he
    | some t =>
        rw [ht] at he
        dsimp only at he ⊢
        split_ifs at he ⊢
        · rw [beq_self_eq_true] at he
          cases he
        · exact (hind t _ he _).bind fun _ => HashM.mono_pure _

end Runtime

theorem Runtime.equal_self_of_regular (rt : Runtime) {t : GoType} (hreg : t.regularMemory = true)
    (fuel p : Nat) : rt.equal (fuel + 1) t p p = .ok true := by
  rw [Runtime.equal, if_pos hreg]
  simp [Runtime.memequal, pure, Except.pure]

theorem allM_eq_ok_false {β : Type} {f : β → Except String Bool} :
    ∀ {l : List β}, l.allM f = .ok false → ∃ x ∈ l, f x = .ok false
  | [], h => by cases h
  | a :: l, h => by
      simp only [List.allM] at h
      cases ha : f a with
      | error e => simp [ha] at h; cases h
      | ok b =>
          cases b
          · exact ⟨a, List.mem_cons_self a l, ha⟩
          · simp only [ha] at h
            obtain ⟨x, hx, hfx⟩ := allM_eq_ok_false h
            exact ⟨x, List.mem_cons_of_mem a hx, hfx⟩

/-- A key unequal to itself gets a fresh hash: if comparing the value of type
`t` at `p` with itself gives `false`, for every type nested to any depth, then
hashing it from any seed, when it returns, has called `fastrand`. Such a value
holds a NaN that `==` reaches, through arrays, the fields that are not blank
and the dynamic values of interfaces, and the hash of a NaN is random; so a
map spreads the entries of such a key, none of which can be found again. -/
theorem unequal_self_draws (rt : Runtime) :
    ∀ fuel t p, rt.equal fuel t p p = .ok false →
      ∀ h n v n', rt.typehash fuel t p h n = .ok (v, n') → n < n'
  | 0, _, _, he => by cases he
  | fuel + 1, t, p, he => by
      have ih : ∀ t x, rt.equal fuel t x x = .ok false → ∀ h, (rt.typehash fuel t x h).Draws :=
        fun t x hx h => unequal_self_draws rt fuel t x hx h
      have hm := rt.typehash_mono fuel
      intro h
      by_cases hreg : t.regularMemory = true
      · rw [rt.equal_self_of_regular hreg] at he
        cases he
      simp only [Bool.not_eq_true] at hreg
      rw [Runtime.equal, if_neg (by simp [hreg])] at he
      simp only [Runtime.typehash, hreg, Bool.false_eq_true, if_false]
      cases hk : t.kind with
      | float32 | float64 =>
          simp only [hk, pure, Except.pure, Except.ok.injEq] at he
          exact rt.floatHash_draws he h
      | complex64 | complex128 =>
          simp only [hk, pure, Except.pure, Except.ok.injEq] at he
          exact rt.complexHash_draws he h
      | string =>
          simp [hk, Runtime.strequal, pure, Except.pure] at he
      | interface methods =>
          simp only [hk] at he ⊢
          split_ifs at he ⊢ <;> exact rt.ifaceHash_draws ih he h
      | array len elem =>
          simp only [hk] at he ⊢
          obtain ⟨i, hi, hei⟩ := allM_eq_ok_false he
          exact Runtime.arrayHash_draws hm ⟨i, hi, ih _ _ hei⟩ h
      | struct fields =>
          simp only [hk] at he ⊢
          obtain ⟨f, hf, hef⟩ := allM_eq_ok_false he
          obtain ⟨hf, hb⟩ := List.mem_filter.mp hf
          simp only [Bool.not_eq_true'] at hb
          have hfr : f.typ.regularMemory = false := by
            cases fuel with
            | zero => cases hef
            | succ k =>
                refine Bool.eq_false_iff.mpr fun hr => ?_
                rw [rt.equal_self_of_regular hr] at hef
                cases hef
          exact rt.structHash_draws hm ⟨f, hf, hb, hfr, ih _ _ hef⟩ h 0 0
      | other => simp only [hk] at he; cases he

/-- A `float64` NaN, `0x7FF8000000000000`, at address 0. -/
def nanRuntime : Runtime where
  mem a := if a = 6 then 0xF8 else if a = 7 then 0x7F else 0
  typeOf _ := none
  itabType _ := none
  memhash _ h _ := h
  memhash32 _ h := h
  memhash64 _ h := h
  strhash _ h _ := h
  rand n := UInt32.ofNat n

def float64Type : GoType := .mk "float64" 8 false false true .float64

theorem nan_hash_draws :
    nanRuntime.equal 1 float64Type 0 0 = .ok false ∧
      nanRuntime.typehash 1 float64Type 0 0 0 = .ok (297210198216652191, 1) ∧ 0 < 1 :=
  ⟨rfl, rfl, unequal_self_draws nanRuntime 1 float64Type 0 rfl 0 0 _ 1 rfl⟩

end GoStdlib.Alg
