import GoStdlib.Runtime.Alg

/-!
Equal keys hash alike. If `t.equal` finds two values of type `t` equal, then
`typehash` gives them the same hash from every seed, whatever `fastrand`
returns. The struct loop hashes a run of regular memory only when every field
in it was compared byte for byte; a float is hashed by its bits unless it is a
zero, which all hash alike; an interface is hashed through its dynamic type,
which must be pointer-shaped when it is stored in the data word.
-/

namespace GoStdlib.Alg

/-- A type whose values are one pointer word: a pointer or channel, or a
struct or array of one such element. `kindDirectIface` is set only on these. -/
inductive PtrShaped : GoType → Prop
  | word {t : GoType} : t.regularMemory = true → t.size = ptrSize → PtrShaped t
  | struct {t : GoType} {f : StructField GoType} : t.regularMemory = false →
      t.kind = .struct [f] → f.offset = 0 → PtrShaped f.typ → PtrShaped t
  | array {t elem : GoType} : t.regularMemory = false → t.kind = .array 1 elem →
      PtrShaped elem → PtrShaped t

theorem PtrShaped.size_of_regular {t : GoType} (hs : PtrShaped t) (hr : t.regularMemory = true) :
    t.size = ptrSize := by
  cases hs with
  | word _ h => exact h
  | struct h | array h => simp [h] at hr

theorem ofLE_inj : ∀ {a b : List UInt8}, a.length = b.length → ofLE a = ofLE b → a = b
  | [], [], _, _ => rfl
  | x :: a, y :: b, hl, h => by
      simp only [ofLE] at h
      have hx := x.toNat_lt_size
      have hy := y.toNat_lt_size
      have hxy : x = y := UInt8.toNat.inj (by simp only [UInt8.size] at hx hy; omega)
      have hab : ofLE a = ofLE b := by simp only [UInt8.size] at hx hy; omega
      rw [hxy, ofLE_inj (by simpa using hl) hab]

theorem allM_eq_ok_true {β : Type} {f : β → Except String Bool} :
    ∀ {l : List β}, l.allM f = .ok true → ∀ x ∈ l, f x = .ok true
  | [], _, x, hx => absurd hx (List.not_mem_nil x)
  | a :: l, h, x, hx => by
      simp only [List.allM] at h
      cases ha : f a with
      | error e => simp [ha] at h; cases h
      | ok b =>
          cases b <;> simp only [ha] at h
          · cases h
          · rcases List.mem_cons.mp hx with rfl | hx
            · exact ha
            · exact allM_eq_ok_true h x hx

namespace Runtime

variable (rt : Runtime)

@[simp] theorem length_read (p n : Nat) : (rt.read p n).length = n := by
  simp [read]

theorem read_add (p m n : Nat) : rt.read p (m + n) = rt.read p m ++ rt.read (p + m) n := by
  simp only [read, List.range_add, List.map_append, List.map_map]
  congr 1
  exact List.map_congr_left fun i _ => by simp [Nat.add_assoc]

theorem read_of_word_eq {a b : Nat} (h : rt.word a = rt.word b) :
    rt.read a ptrSize = rt.read b ptrSize :=
  ofLE_inj (by simp) h

/-- Equal floats hash alike: both are zeros, or they have the same bits, and
neither is a NaN, the only case that calls `fastrand`. -/
theorem floatHash_eq {fmt : FloatFormat} {p q : Nat} (he : rt.floatEqual fmt p q = true)
    (h : UInt64) : rt.floatHash fmt p h = rt.floatHash fmt q h := by
  simp only [floatEqual, FloatFormat.eq, Bool.and_eq_true, Bool.not_eq_true', Bool.or_eq_true,
    beq_iff_eq] at he
  obtain ⟨⟨-, -⟩, hbits | ⟨hz, hz'⟩⟩ := he
  · simp only [floatHash, ofLE_inj (by simp) hbits]
  · simp only [floatHash, hz, hz', if_true]

theorem complexHash_eq {fmt : FloatFormat} {p q : Nat} (he : rt.complexEqual fmt p q = true)
    (h : UInt64) : rt.complexHash fmt p h = rt.complexHash fmt q h := by
  simp only [complexEqual, Bool.and_eq_true] at he
  simp only [complexHash, rt.floatHash_eq he.1, rt.floatHash_eq he.2]

theorem strhashAt_eq {p q : Nat} (he : rt.strequal p q = true) (h : UInt64) :
    rt.strhashAt p h = rt.strhashAt q h := by
  simp only [strequal, Bool.and_eq_true, beq_iff_eq] at he
  rw [strhashAt, strhashAt, he.2, he.1]

/-- Equal interfaces hash alike: they have the same type word, and either
their data words are equal and the type is stored in the word, or their data
words point to equal values. -/
theorem ifaceHash_eq {typeAt : Nat → Option GoType}
    {equal : GoType → Nat → Nat → Except String Bool}
    {typehash : GoType → Nat → UInt64 → HashM UInt64}
    (hdirect : ∀ w t, typeAt w = some t → t.hasEqual = true → t.directIface = true →
      ∀ x y, rt.read x ptrSize = rt.read y ptrSize → ∀ h, typehash t x h = typehash t y h)
    (hind : ∀ t x y, equal t x y = .ok true → ∀ h, typehash t x h = typehash t y h)
    {p q : Nat} (he : rt.ifaceEqual typeAt equal p q = .ok true) (h : UInt64) :
    rt.ifaceHash typeAt typehash p h = rt.ifaceHash typeAt typehash q h := by
  unfold ifaceEqual at he
  split_ifs at he with hw
  · unfold ifaceHash
    rw [← hw]
    unfold dataEq at he
    split_ifs at he with h0
    · simp only [h0, if_true]
    · simp only [h0, if_false]
      cases ht : typeAt (rt.word p) with
      | none => rfl
      | some t =>
          rw [ht] at he
          dsimp only at he ⊢
          by_cases heq : t.hasEqual = true
          · by_cases hd : t.directIface = true
            · simp only [heq, hd, Bool.not_true, Bool.false_eq_true, if_false, if_true] at he ⊢
              rw [hdirect _ t ht heq hd _ _ (rt.read_of_word_eq (beq_iff_eq.mp (Except.ok.inj he)))]
            · simp only [heq, hd, Bool.not_true, Bool.false_eq_true, if_false] at he ⊢
              rw [hind t _ _ he]
          · simp only [heq, Bool.not_false, if_true] at he
            cases he
  · cases he

theorem arrayHash_eq {typehash : GoType → Nat → UInt64 → HashM UInt64} {elem : GoType}
    {p q : Nat} : ∀ {is : List Nat}, (∀ i ∈ is, ∀ h, typehash elem (p + i * elem.size) h =
      typehash elem (q + i * elem.size) h) →
      ∀ h, arrayHash typehash elem p is h = arrayHash typehash elem q is h
  | [], _, _ => rfl
  | i :: is, hall, h => by
      simp only [arrayHash, hall i (List.mem_cons_self i is),
        arrayHash_eq fun j hj => hall j (List.mem_cons_of_mem i hj)]

/-- The pending runs at `p` and `q`, from `memStart` to `memEnd`, hold the
same bytes. -/
def RunAgrees (p q memStart memEnd : Nat) : Prop :=
  memStart ≤ memEnd ∧
    rt.read (p + memStart) (memEnd - memStart) = rt.read (q + memStart) (memEnd - memStart)

variable {rt} {p q ms me : Nat}

theorem RunAgrees.flush_eq (hr : rt.RunAgrees p q ms me) (h : UInt64) :
    rt.flush p h ms me = rt.flush q h ms me := by
  simp only [flush, hr.2]

theorem RunAgrees.reset (hr : rt.RunAgrees p q ms me) (b : Bool) :
    rt.RunAgrees p q (if b then me else ms) me := by
  cases b
  · exact hr
  · exact ⟨le_rfl, by simp [read]⟩

theorem RunAgrees.extend (hr : rt.RunAgrees p q ms me) {off n : Nat}
    (hf : rt.read (p + off) n = rt.read (q + off) n) (hoff : ms ≠ me → off = me) :
    rt.RunAgrees p q (if ms = me then off else ms) (off + n) := by
  split_ifs with h
  · exact ⟨Nat.le_add_right _ _, by simpa using hf⟩
  · obtain rfl := hoff h
    have hle := hr.1
    have e : off + n - ms = (off - ms) + n := by omega
    have e' : ∀ x, x + ms + (off - ms) = x + off := fun x => by omega
    refine ⟨by omega, ?_⟩
    rw [e, rt.read_add, rt.read_add, hr.2, e', e', hf]

theorem structHash_eq {typehash : GoType → Nat → UInt64 → HashM UInt64} :
    ∀ fields : List (StructField GoType),
      (∀ f ∈ fields, f.blank = false → f.typ.regularMemory = true →
        rt.read (p + f.offset) f.typ.size = rt.read (q + f.offset) f.typ.size) →
      (∀ f ∈ fields, f.blank = false → f.typ.regularMemory = false →
        ∀ h, typehash f.typ (p + f.offset) h = typehash f.typ (q + f.offset) h) →
      ∀ ms me : Nat, rt.RunAgrees p q ms me →
        ∀ h, rt.structHash typehash p fields h ms me = rt.structHash typehash q fields h ms me
  | [], _, _, ms, me, hr, h => by simp only [structHash, hr.flush_eq]
  | f :: fs, hreg, hnon, ms, me, hr, h => by
      have ih := structHash_eq fs (fun g hg => hreg g (.tail _ hg))
        (fun g hg => hnon g (.tail _ hg))
      simp only [structHash, hr.flush_eq]
      generalize hpend : (decide (me > ms) && (f.blank || f.offset != me || !f.typ.regularMemory)) = pending
      have hr' := hr.reset pending
      cases hb : f.blank
      · cases hreg' : f.typ.regularMemory
        · simp only [Bool.false_eq_true, if_false, Bool.not_false, if_true]
          rw [hnon f (.head _) hb hreg']
          simp only [ih _ _ hr']
        · simp only [Bool.false_eq_true, if_false, Bool.not_true]
          refine ih _ _ (hr'.extend (hreg f (.head _) hb hreg') fun hne => ?_) _
          have hle := hr.1
          cases pending
          · simp only [Bool.false_eq_true, if_false] at hne
            simp [hb, hreg'] at hpend
            exact hpend (by omega)
          · exact absurd rfl hne
      · simp only [if_true]
        exact ih _ _ hr' _

theorem typehash_ptrShaped {t : GoType} (hs : PtrShaped t) {a b : Nat}
    (hab : rt.read a ptrSize = rt.read b ptrSize) : ∀ m h, rt.typehash m t a h = rt.typehash m t b h := by
  induction hs with
  | word hr hsz =>
      rintro (_ | m) h
      · rfl
      · simp only [ptrSize] at hsz hab
        simp only [typehash, hr, if_true, hsz, hab]
  | @struct t f hr hk hoff hf ih =>
      rintro (_ | m) h
      · rfl
      · simp only [typehash, hr, hk, Bool.false_eq_true, if_false]
        refine structHash_eq _ ?_ ?_ 0 0 ⟨le_rfl, by simp [read]⟩ h
        · intro g hg _ hreg
          obtain rfl := List.mem_singleton.mp hg
          simpa [hoff, hf.size_of_regular hreg] using hab
        · intro g hg _ _
          obtain rfl := List.mem_singleton.mp hg
          simpa [hoff] using ih m
  | array hr hk _ ih =>
      rintro (_ | m) h
      · rfl
      · simp only [typehash, hr, hk, Bool.false_eq_true, if_false]
        refine arrayHash_eq (fun i hi h => ?_) h
        obtain rfl : i = 0 := by simpa using hi
        simpa using ih m h

theorem read_of_equal {t : GoType} (hr : t.regularMemory = true) :
    ∀ {n : Nat}, rt.equal n t p q = .ok true → rt.read p t.size = rt.read q t.size
  | 0, he => by cases he
  | _ + 1, he => by
      simp only [equal, hr, if_true] at he
      exact beq_iff_eq.mp (Except.ok.inj he)

end Runtime

section

variable (rt : Runtime)
  (hdirect : ∀ w t, (rt.typeOf w = some t ∨ rt.itabType w = some t) → t.hasEqual = true →
    t.directIface = true → PtrShaped t)

include hdirect

theorem ifaceHash_typehash_eq {typeAt : Nat → Option GoType}
    (htype : ∀ w t, typeAt w = some t → rt.typeOf w = some t ∨ rt.itabType w = some t)
    {n m : Nat} (ih : ∀ t p q, rt.equal n t p q = .ok true → ∀ h,
      rt.typehash m t p h = rt.typehash m t q h)
    {p q : Nat} (he : rt.ifaceEqual typeAt (rt.equal n) p q = .ok true) (h : UInt64) :
    rt.ifaceHash typeAt (rt.typehash m) p h = rt.ifaceHash typeAt (rt.typehash m) q h :=
  rt.ifaceHash_eq (fun w t ht hq hd _ _ hxy => Runtime.typehash_ptrShaped
    (hdirect w t (htype w t ht) hq hd) hxy m) ih he h

theorem typehash_eq_of_equal :
    ∀ m n t p q, rt.equal n t p q = .ok true → ∀ h, rt.typehash m t p h = rt.typehash m t q h
  | 0, _, _, _, _, _, _ => rfl
  | _ + 1, 0, _, _, _, he, _ => by cases he
  | m + 1, n + 1, t, p, q, he, h => by
      have ih := typehash_eq_of_equal m n
      by_cases hreg : t.regularMemory = true
      · have hb := Runtime.read_of_equal hreg he
        simp only [Runtime.typehash, hreg, if_true]
        generalize t.size = k at hb ⊢
        split <;> rw [hb]
      · simp only [Bool.not_eq_true] at hreg
        simp only [Runtime.equal, hreg, Bool.false_eq_true, if_false] at he
        simp only [Runtime.typehash, hreg, Bool.false_eq_true, if_false]
        cases hk : t.kind with
        | float32 | float64 =>
            simp only [hk] at he ⊢
            exact rt.floatHash_eq (Except.ok.inj he) h
        | complex64 | complex128 =>
            simp only [hk] at he ⊢
            exact rt.complexHash_eq (Except.ok.inj he) h
        | string =>
            simp only [hk] at he ⊢
            rw [rt.strhashAt_eq (Except.ok.inj he)]
        | interface methods =>
            simp only [hk] at he ⊢
            split_ifs at he ⊢
            · exact ifaceHash_typehash_eq rt hdirect (fun w t ht => .inl ht) ih he h
            · exact ifaceHash_typehash_eq rt hdirect (fun w t ht => .inr ht) ih he h
        | array len elem =>
            simp only [hk] at he ⊢
            exact Runtime.arrayHash_eq (fun i hi => ih _ _ _ (allM_eq_ok_true he i hi)) h
        | struct fields =>
            simp only [hk] at he ⊢
            have hf : ∀ f ∈ fields, f.blank = false →
                rt.equal n f.typ (p + f.offset) (q + f.offset) = .ok true := fun f hf hb =>
              allM_eq_ok_true he f (List.mem_filter.mpr ⟨hf, by simp [hb]⟩)
            exact Runtime.structHash_eq _ (fun f hm hb hr => Runtime.read_of_equal hr (hf f hm hb))
              (fun f hm hb _ => ih _ _ _ (hf f hm hb)) 0 0 ⟨le_rfl, by simp [Runtime.read]⟩ h
        | other =>
            simp only [hk] at he
            cases he

end

/-- Equal keys hash alike, from every seed and whatever `fastrand` returns:
`typehash` and the float, complex and interface hashes give values that their
equality finds equal the same hash. -/
theorem equal_keys_hash_alike (rt : Runtime)
    (hdirect : ∀ w t, (rt.typeOf w = some t ∨ rt.itabType w = some t) → t.hasEqual = true →
      t.directIface = true → PtrShaped t) :
    (∀ n m t p q, rt.equal n t p q = .ok true → ∀ h,
      rt.typehash m t p h = rt.typehash m t q h) ∧
    (∀ p q h, rt.f32equal p q = true → rt.f32hash p h = rt.f32hash q h) ∧
    (∀ p q h, rt.f64equal p q = true → rt.f64hash p h = rt.f64hash q h) ∧
    (∀ p q h, rt.c64equal p q = true → rt.c64hash p h = rt.c64hash q h) ∧
    (∀ p q h, rt.c128equal p q = true → rt.c128hash p h = rt.c128hash q h) ∧
    (∀ n m p q, rt.interequal (rt.equal n) p q = .ok true → ∀ h,
      rt.interhash (rt.typehash m) p h = rt.interhash (rt.typehash m) q h) ∧
    (∀ n m p q, rt.nilinterequal (rt.equal n) p q = .ok true → ∀ h,
      rt.nilinterhash (rt.typehash m) p h = rt.nilinterhash (rt.typehash m) q h) :=
  ⟨fun n m => typehash_eq_of_equal rt hdirect m n,
    fun _ _ h he => rt.floatHash_eq he h, fun _ _ h he => rt.floatHash_eq he h,
    fun _ _ h he => rt.complexHash_eq he h, fun _ _ h he => rt.complexHash_eq he h,
    fun n m _ _ he => ifaceHash_typehash_eq rt hdirect (fun _ _ => .inr)
      (typehash_eq_of_equal rt hdirect m n) he,
    fun n m _ _ he => ifaceHash_typehash_eq rt hdirect (fun _ _ => .inl)
      (typehash_eq_of_equal rt hdirect m n) he⟩

def blankFloatStruct : GoType :=
  .mk "S" 12 false false true (.struct [⟨false, 0, .mk "int32" 4 true false true .other⟩,
    ⟨true, 4, .mk "int32" 4 true false true .other⟩, ⟨false, 8, .mk "float32" 4 false false true .float32⟩])

/-- Two values of `blankFloatStruct`, at 0 and at 16: the same `a`, different
blank fields, and `f` is `-0` in one and `+0` in the other. Every type word
points to a pointer type. -/
def blankFloatRuntime : Runtime where
  mem a := if a = 0 ∨ a = 16 then 5 else if a = 4 then 9 else if a = 11 then 128 else 0
  typeOf _ := some (.mk "*int" 8 true true true .other)
  itabType _ := some (.mk "*int" 8 true true true .other)
  memhash bs h n := h * 31 + UInt64.ofNat (ofLE bs) + UInt64.ofNat n
  memhash32 bs h := h + UInt64.ofNat (ofLE bs)
  memhash64 bs h := h + UInt64.ofNat (ofLE bs)
  strhash _ h _ := h
  rand n := UInt32.ofNat n

theorem blankFloatStruct_hash :
    blankFloatRuntime.typehash 3 blankFloatStruct 0 17 =
      blankFloatRuntime.typehash 3 blankFloatStruct 16 17 :=
  (equal_keys_hash_alike blankFloatRuntime fun _ _ h _ _ => by
      rcases h with h | h <;> cases h <;> exact .word rfl rfl).1 3 3 blankFloatStruct 0 16 rfl 17

end GoStdlib.Alg
