import GoStdlib.List.Model
import Mathlib.Data.List.Nodup

/-!
The ring through a list's `root`, as segments of `next` and `prev` pointers
indexed by the elements they pass, and what the two pointer surgeries of the
source, `link` (the tail of `insert` and `move`) and `unlink` (the head of
`remove` and `move`), do to a ring.
-/

namespace GoStdlib.ContainerList

def insertAfter (a e : Nat) : List Nat → List Nat
  | [] => []
  | x :: xs => if x = a then x :: e :: xs else x :: insertAfter a e xs

def insertBefore (a e : Nat) : List Nat → List Nat
  | [] => []
  | x :: xs => if x = a then e :: x :: xs else x :: insertBefore a e xs

variable {a b c e l : Nat} {xs ys zs : List Nat}

theorem insertAfter_append (h : a ∉ ys) : insertAfter a e (ys ++ xs) = ys ++ insertAfter a e xs := by
  induction ys with
  | nil => rfl
  | cons y ys ih =>
      rw [List.mem_cons, not_or] at h
      rw [List.cons_append, insertAfter, if_neg (Ne.symm h.1), ih h.2, List.cons_append]

theorem insertBefore_append (h : a ∉ ys) :
    insertBefore a e (ys ++ xs) = ys ++ insertBefore a e xs := by
  induction ys with
  | nil => rfl
  | cons y ys ih =>
      rw [List.mem_cons, not_or] at h
      rw [List.cons_append, insertBefore, if_neg (Ne.symm h.1), ih h.2, List.cons_append]

@[simp] theorem insertAfter_cons_self : insertAfter a e (a :: xs) = a :: e :: xs := if_pos rfl

@[simp] theorem insertBefore_cons_self : insertBefore a e (a :: xs) = e :: a :: xs := if_pos rfl

theorem insertAfter_perm (h : a ∈ ys) : (insertAfter a e ys).Perm (e :: ys) := by
  induction ys with
  | nil => simp at h
  | cons y ys ih =>
      unfold insertAfter
      split_ifs with hy
      · exact .swap _ _ _
      · exact ((ih ((List.mem_cons.1 h).resolve_left (Ne.symm hy))).cons y).trans (.swap _ _ _)

theorem insertAfter_cons : insertAfter a e (l :: ys) = l :: (insertAfter a e (l :: ys)).tail := by
  unfold insertAfter
  split_ifs <;> rfl

theorem tail_insertAfter_perm (h : a ∈ l :: ys) : (insertAfter a e (l :: ys)).tail.Perm (e :: ys) := by
  have hp := insertAfter_perm (e := e) h
  rw [insertAfter_cons] at hp
  exact (hp.trans (.swap _ _ _)).cons_inv

theorem tail_insertAfter_getLast (h : (l :: (ys ++ xs)).Nodup) :
    (insertAfter ((l :: ys).getLast (List.cons_ne_nil _ _)) e (l :: (ys ++ xs))).tail =
      ys ++ e :: xs := by
  induction ys generalizing l with
  | nil => simp
  | cons y ys ih =>
      have hne : l ≠ (y :: ys).getLast (List.cons_ne_nil _ _) := fun hl =>
        (List.nodup_cons.1 h).1 (hl ▸ List.mem_append_left _ (List.getLast_mem _))
      rw [List.getLast_cons_cons, insertAfter, if_neg hne, List.tail_cons, List.cons_append,
        insertAfter_cons, ih (List.nodup_cons.1 h).2, List.cons_append]

theorem getLast_erase (he : (l :: xs).getLast (List.cons_ne_nil _ _) ≠ e) :
    (l :: xs.erase e).getLast (List.cons_ne_nil _ _) = (l :: xs).getLast (List.cons_ne_nil _ _) := by
  induction xs generalizing l with
  | nil => rfl
  | cons x xs ih =>
      rw [List.getLast_cons_cons] at he ⊢
      by_cases hx : x = e
      · subst hx
        cases xs with
        | nil => exact absurd rfl he
        | cons y ys => simp only [List.erase_cons_head, List.getLast_cons_cons]
      · rw [List.erase_cons_tail (by simpa using hx), List.getLast_cons_cons, ih he]

variable {α : Type} {s s' : State α}

/-- `next` pointers lead from `a` through the elements `xs` to `b`, and `prev`
pointers lead back. -/
def Linked (s : State α) : Nat → List Nat → Nat → Prop
  | a, [], b => s.next a = some b ∧ s.prev b = some a
  | a, x :: xs, b => s.next a = some x ∧ s.prev x = some a ∧ Linked s x xs b

namespace Linked

theorem append_cons : Linked s a (xs ++ c :: ys) b ↔ Linked s a xs c ∧ Linked s c ys b := by
  induction xs generalizing a with
  | nil => simp only [List.nil_append, Linked, and_assoc]
  | cons x xs ih => simp only [List.cons_append, Linked, List.append_eq, ih, and_assoc]

theorem rotate : Linked s a (xs ++ c :: ys) a ↔ Linked s c (ys ++ a :: xs) c := by
  rw [append_cons, append_cons, and_comm]

theorem frame (h : Linked s a xs b) (hn : ∀ p ∈ a :: xs, s'.next p = s.next p)
    (hp : ∀ p ∈ b :: xs, s'.prev p = s.prev p) : Linked s' a xs b := by
  induction xs generalizing a with
  | nil => exact ⟨(hn a (.head _)).trans h.1, (hp b (.head _)).trans h.2⟩
  | cons x xs ih =>
      exact ⟨(hn a (.head _)).trans h.1, (hp x (.tail _ (.head _))).trans h.2.1,
        ih h.2.2 (fun p hq => hn p (.tail _ hq))
          fun p hq => hp p (List.cons_subset_cons _ (List.subset_cons_self _ _) hq)⟩

theorem next_start (h : Linked s a xs b) : s.next a = some ((xs ++ [b]).head (by simp)) := by
  cases xs with
  | nil => exact h.1
  | cons x xs => exact h.1

theorem prev_end (h : Linked s a xs b) : s.prev b = some ((a :: xs).getLast (by simp)) := by
  induction xs generalizing a with
  | nil => exact h.2
  | cons x xs ih => rw [ih h.2.2, List.getLast_cons_cons]

end Linked

namespace State

structure Rewired (s s' : State α) : Prop where
  list : s'.list = s.list
  value : s'.value = s.value
  len : s'.len = s.len
  size : s'.size = s.size
  lists : s'.lists = s.lists

theorem link_eq {n : Nat} (hae : a ≠ e) (hn : s.next a = some n) :
    s.link e (some a) =
      some ((((s.setPrev e (some a)).setNext e (some n)).setNext a (some e)).setPrev n (some e)) := by
  simp [link, readNext, writeNext, writePrev, hn, hae, hae.symm]

theorem unlink_eq {p n : Nat} (hp : s.prev e = some p) (hn : s.next e = some n) (hpe : p ≠ e) :
    s.unlink e = some ((s.setNext p (some n)).setPrev n (some p)) := by
  simp [unlink, writeNext, writePrev, hp, hn, hpe.symm]

end State

open State

theorem Linked.link_cycle (h : Linked s a zs a) (hnd : (a :: zs).Nodup) (he : e ∉ a :: zs) :
    ∃ s', s.link e (some a) = some s' ∧ Linked s' a (e :: zs) a ∧ Rewired s s' ∧
      ∀ p ∉ e :: a :: zs, s'.next p = s.next p ∧ s'.prev p = s.prev p := by
  rw [List.mem_cons, not_or] at he
  have hn := h.next_start
  refine ⟨_, link_eq (Ne.symm he.1) hn, ?_, ⟨rfl, rfl, rfl, rfl, rfl⟩, fun p hp => ?_⟩
  · cases zs with
    | nil =>
        simp only [Linked, List.nil_append, List.head_cons, setPrev_prev, setNext_next,
          Function.update_same, Function.update_noteq he.1, Function.update_noteq (Ne.symm he.1),
          setPrev_next, setNext_prev, and_self]
    | cons z zs =>
        rw [List.nodup_cons, List.mem_cons, not_or] at hnd
        rw [List.mem_cons, not_or] at he
        obtain ⟨h1, h2, h3⟩ := h
        simp only [List.cons_append, List.head_cons] at hn ⊢
        refine ⟨by simp, by simp [Function.update_noteq he.2.1], by simp [Function.update_noteq he.1],
          by simp, h3.frame (fun p hp => ?_) fun p hp => ?_⟩
        · have hpa : p ≠ a := fun hpa => (List.mem_cons.1 (hpa ▸ hp)).elim hnd.1.1 hnd.1.2
          have hpe : p ≠ e := fun hpe => (List.mem_cons.1 (hpe ▸ hp)).elim he.2.1 he.2.2
          simp [Function.update_noteq hpa, Function.update_noteq hpe]
        · have hpz : p ≠ z := fun hpz => (List.mem_cons.1 (hpz ▸ hp)).elim (Ne.symm hnd.1.1)
            (List.nodup_cons.1 hnd.2).1
          have hpe : p ≠ e := fun hpe => (List.mem_cons.1 (hpe ▸ hp)).elim he.1 he.2.2
          simp [Function.update_noteq hpz, Function.update_noteq hpe]
  · rw [List.mem_cons, List.mem_cons, not_or, not_or] at hp
    have hpn : p ≠ (zs ++ [a]).head (by simp) := by
      cases zs with
      | nil => exact hp.2.1
      | cons z zs => exact fun h => hp.2.2 (h ▸ .head _)
    simp [Function.update_noteq hp.1, Function.update_noteq hp.2.1, Function.update_noteq hpn]

theorem Linked.unlink_cycle {p : Nat} (h : Linked s p (e :: zs) p) (hnd : (p :: e :: zs).Nodup) :
    ∃ s', s.unlink e = some s' ∧ Linked s' p zs p ∧ Rewired s s' ∧
      ∀ q ∉ p :: zs, s'.next q = s.next q ∧ s'.prev q = s.prev q := by
  obtain ⟨-, hpe, h3⟩ := h
  rw [List.nodup_cons, List.mem_cons, not_or] at hnd
  refine ⟨_, unlink_eq hpe h3.next_start hnd.1.1, ?_, ⟨rfl, rfl, rfl, rfl, rfl⟩, fun q hq => ?_⟩
  · cases zs with
    | nil => simp [Linked]
    | cons z zs =>
        obtain ⟨-, -, h4⟩ := h3
        have hz := List.nodup_cons.1 (List.nodup_cons.1 hnd.2).2
        simp only [List.cons_append, List.head_cons]
        refine ⟨by simp, by simp, h4.frame (fun q hq => ?_) fun q hq => ?_⟩
        · have hqp : q ≠ p := fun hqp => hnd.1.2 (hqp ▸ hq)
          simp [Function.update_noteq hqp]
        · have hqz : q ≠ z := by
            rintro rfl
            exact (List.mem_cons.1 hq).elim (fun h => hnd.1.2 (h ▸ .head _)) hz.1
          simp [Function.update_noteq hqz]
  · rw [List.mem_cons, not_or] at hq
    have hqn : q ≠ (zs ++ [p]).head (by simp) := by
      cases zs with
      | nil => exact hq.1
      | cons z zs => exact fun h => hq.2 (h ▸ .head _)
    simp [Function.update_noteq hq.1, Function.update_noteq hqn]

theorem rotate_perm : (l :: (ys ++ a :: zs)).Perm (a :: (zs ++ l :: ys)) :=
  @List.perm_append_comm _ (l :: ys) (a :: zs)

theorem Linked.link_ring (h : Linked s l xs l) (hnd : (l :: xs).Nodup) (ha : a ∈ l :: xs)
    (he : e ∉ l :: xs) :
    ∃ s', s.link e (some a) = some s' ∧ Linked s' l (insertAfter a e (l :: xs)).tail l ∧
      Rewired s s' ∧ ∀ p ∉ e :: l :: xs, s'.next p = s.next p ∧ s'.prev p = s.prev p := by
  rcases List.mem_cons.1 ha with rfl | ha
  · obtain ⟨s', hl, hr, hw, hf⟩ := h.link_cycle hnd he
    exact ⟨s', hl, by simpa using hr, hw, hf⟩
  · obtain ⟨ys, zs, rfl⟩ := List.append_of_mem ha
    have hperm : (l :: (ys ++ a :: zs)).Perm (a :: (zs ++ l :: ys)) := rotate_perm
    have hal : l ≠ a := fun hl => (List.nodup_cons.1 hnd).1 (hl ▸ ha)
    have hay : a ∉ ys := fun hy =>
      List.disjoint_of_nodup_append (List.nodup_cons.1 hnd).2 hy (.head _)
    obtain ⟨s', hlk, hr, hw, hf⟩ :=
      (Linked.rotate.1 h).link_cycle (hperm.nodup_iff.1 hnd) fun h' => he (hperm.mem_iff.2 h')
    refine ⟨s', hlk, ?_, hw, fun p hp => hf p fun h' => hp ?_⟩
    · rw [insertAfter, if_neg hal, List.tail_cons, insertAfter_append hay, insertAfter_cons_self]
      exact Linked.rotate.1 hr
    · rcases List.mem_cons.1 h' with rfl | h'
      · exact .head _
      · exact .tail _ (hperm.mem_iff.2 h')

theorem Linked.unlink_ring (h : Linked s l xs l) (hnd : (l :: xs).Nodup) (he : e ∈ xs) :
    ∃ s', s.unlink e = some s' ∧ Linked s' l (xs.erase e) l ∧ Rewired s s' ∧
      ∀ p ∉ l :: xs.erase e, s'.next p = s.next p ∧ s'.prev p = s.prev p := by
  obtain ⟨ys, zs, rfl⟩ := List.append_of_mem he
  have hey : e ∉ ys := fun hy =>
    List.disjoint_of_nodup_append (List.nodup_cons.1 hnd).2 hy (.head _)
  rw [List.erase_append_right _ hey, List.erase_cons_head]
  rcases List.eq_nil_or_concat ys with rfl | ⟨ys, q, rfl⟩
  · simpa only [List.nil_append] using h.unlink_cycle hnd
  · have hperm : (l :: (ys ++ q :: (e :: zs))).Perm (q :: ((e :: zs) ++ l :: ys)) := rotate_perm
    obtain ⟨s', hu, hr, hw, hf⟩ := (Linked.rotate.1 (by simpa using h)).unlink_cycle
      (hperm.nodup_iff.1 (by simpa using hnd))
    refine ⟨s', hu, by simpa using Linked.rotate.1 hr, hw, fun p hp => hf p fun h' => hp ?_⟩
    simp only [List.append_eq, List.mem_cons, List.mem_append] at h'
    simp only [List.concat_eq_append, List.mem_cons, List.mem_append, List.mem_singleton]
    tauto

namespace State

def walk (s : State α) : Nat → Nat → Option Nat
  | 0, p => some p
  | k + 1, p => (s.next p).bind (s.walk k)

/-- The elements read along `next` pointers from `p` until the root `l` or a
nil, taking at most `n` of them. -/
def collect (s : State α) (l : Nat) : Nat → Option Nat → List Nat
  | 0, _ => []
  | _ + 1, none => []
  | n + 1, some p => if p = l then [] else p :: s.collect l n (s.next p)

/-- `seq(l)`: the elements of `l` read from `root.next` along `next` pointers. -/
def seq (s : State α) (l : Nat) : List Nat :=
  s.collect l s.size (s.next l)

end State

namespace Linked

theorem walk_eq (h : Linked s a xs b) :
    ∀ k ≤ xs.length + 1, s.walk k a = (a :: (xs ++ [b]))[k]? := by
  induction xs generalizing a with
  | nil =>
      rintro (_ | _ | k) hk
      · rfl
      · simp [State.walk, h.1]
      · simp at hk
  | cons x xs ih =>
      rintro (_ | k) hk
      · rfl
      · simp only [State.walk, h.1, Option.some_bind, List.cons_append, List.getElem?_cons_succ]
        exact ih h.2.2 k (by simpa using hk)

theorem collect_eq (h : Linked s a xs b) (hb : b ∉ xs) {n : Nat} (hn : xs.length < n) :
    s.collect b n (s.next a) = xs := by
  induction xs generalizing a n with
  | nil =>
      obtain ⟨n, rfl⟩ : ∃ m, n = m + 1 := ⟨n - 1, by simp at hn; omega⟩
      simp [State.collect, h.1]
  | cons x xs ih =>
      obtain ⟨n, rfl⟩ : ∃ m, n = m + 1 := ⟨n - 1, by simp at hn; omega⟩
      rw [List.mem_cons, not_or] at hb
      rw [h.1, State.collect, if_neg (Ne.symm hb.1), ih h.2.2 hb.2 (by simpa using hn)]

theorem next_of_getElem? (h : Linked s a xs b) {k x : Nat} (hx : xs[k]? = some x) :
    s.next x = (xs ++ [b])[k + 1]? := by
  induction xs generalizing a k with
  | nil => simp at hx
  | cons y xs ih =>
      cases k with
      | zero =>
          obtain rfl : y = x := by simpa using hx
          rw [h.2.2.next_start]
          cases xs <;> simp
      | succ k => simpa using ih h.2.2 (by simpa using hx)

theorem prev_of_getElem? (h : Linked s a xs b) {k x : Nat} (hx : xs[k]? = some x) :
    s.prev x = (a :: xs)[k]? := by
  induction xs generalizing a k with
  | nil => simp at hx
  | cons y xs ih =>
      cases k with
      | zero =>
          obtain rfl : y = x := by simpa using hx
          exact h.2.1
      | succ k => simpa using ih h.2.2 (by simpa using hx)

end Linked

end GoStdlib.ContainerList
