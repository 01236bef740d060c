import Mathlib.Data.List.Nodup
import Mathlib.Logic.Function.Basic

namespace Mdepx.Lib
open List Function

/-- The link fields of every node of a family of circular doubly linked lists. -/
@[ext] structure Links (α : Type) where
  next : α → α
  prev : α → α

section
variable [DecidableEq α]

def Links.setNext (m : Links α) (a b : α) : Links α :=
  { m with next := update m.next a b }

def Links.setPrev (m : Links α) (a b : α) : Links α :=
  { m with prev := update m.prev a b }

@[simp] theorem Links.setNext_prev (m : Links α) (a b : α) : (m.setNext a b).prev = m.prev := rfl

@[simp] theorem Links.setPrev_next (m : Links α) (a b : α) : (m.setPrev a b).next = m.next := rfl

theorem Links.setNext_next (m : Links α) (a b x : α) :
    (m.setNext a b).next x = if x = a then b else m.next x := by
  simp only [setNext, update_apply]

theorem Links.setPrev_prev (m : Links α) (a b x : α) :
    (m.setPrev a b).prev x = if x = a then b else m.prev x := by
  simp only [setPrev, update_apply]

end

/-- Walking forward from `a` visits exactly `xs` and then `b`, and every step can be undone. -/
def Seg (m : Links α) (a : α) : List α → α → Prop
  | [], b => m.next a = b ∧ m.prev b = a
  | x :: xs, b => (m.next a = x ∧ m.prev x = a) ∧ Seg m x xs b

theorem Seg.append_iff {m : Links α} :
    Seg m a (xs ++ x :: ys) b ↔ Seg m a xs x ∧ Seg m x ys b := by
  induction xs generalizing a with
  | nil => exact Iff.rfl
  | cons y xs ih => simp only [cons_append, Seg, ih, and_assoc]

def Trail (m : Links α) (a : α) : List α → Prop
  | [] => True
  | x :: xs => (m.next a = x ∧ m.prev x = a) ∧ Trail m x xs

theorem Trail.congr {m m' : Links α} (h : Trail m a xs) (hnd : (a :: xs).Nodup)
    (hn : ∀ y ∈ a :: xs, y ≠ xs.getLastD a → m'.next y = m.next y)
    (hp : ∀ y ∈ xs, m'.prev y = m.prev y) : Trail m' a xs := by
  induction xs generalizing a with
  | nil => trivial
  | cons x xs ih =>
    obtain ⟨⟨hnext, hprev⟩, hx⟩ := h
    obtain ⟨ha, hnd⟩ := nodup_cons.1 hnd
    rw [getLastD_cons] at hn
    refine ⟨⟨?_, ?_⟩, ih hx hnd ?_ ?_⟩
    · rw [hn a mem_cons_self fun hc => ha (hc ▸ getLastD_mem_cons), hnext]
    · rw [hp x mem_cons_self, hprev]
    · exact fun y hy => hn y (mem_cons_of_mem _ hy)
    · exact fun y hy => hp y (mem_cons_of_mem _ hy)

theorem seg_iff {m : Links α} :
    Seg m a xs b ↔ Trail m a xs ∧ m.next (xs.getLastD a) = b ∧ m.prev b = xs.getLastD a := by
  induction xs generalizing a with
  | nil => simp only [Seg, Trail, getLastD_nil, true_and]
  | cons x xs ih => simp only [Seg, Trail, ih, getLastD_cons, and_assoc]

theorem Seg.congr {m m' : Links α} (h : Seg m a xs b)
    (hn : ∀ y ∈ a :: xs, m'.next y = m.next y)
    (hp : ∀ y ∈ xs ++ [b], m'.prev y = m.prev y) : Seg m' a xs b := by
  induction xs generalizing a with
  | nil =>
    refine ⟨?_, ?_⟩
    · rw [hn a (by simp)]
      exact h.1
    · rw [hp b (by simp)]
      exact h.2
  | cons x xs ih =>
    refine ⟨⟨?_, ?_⟩, ih h.2 ?_ ?_⟩
    · rw [hn a (by simp)]
      exact h.1.1
    · rw [hp x (by simp)]
      exact h.1.2
    · intro y hy
      exact hn y (mem_cons_of_mem _ hy)
    · intro y hy
      exact hp y (by simp only [cons_append, mem_cons]; exact .inr hy)

section
variable {m : Links α} (h : Seg m a xs b)
include h

theorem Seg.next_start : m.next a = xs.headD b := by
  cases xs with
  | nil => exact h.1
  | cons => exact h.1.1

theorem Seg.prev_mem : m.prev b ∈ a :: xs := by
  rw [(seg_iff.1 h).2.2]
  exact getLastD_mem_cons

theorem Seg.prev_next (hy : y ∈ a :: xs) : m.prev (m.next y) = y := by
  induction xs generalizing a with
  | nil => rw [mem_singleton.1 hy, h.1, h.2]
  | cons x xs ih =>
    rcases mem_cons.1 hy with hy | hy
    · rw [hy, h.1.1, h.1.2]
    · exact ih h.2 hy

theorem Seg.next_prev (hy : y ∈ xs ++ [b]) : m.next (m.prev y) = y := by
  induction xs generalizing a with
  | nil => rw [mem_singleton.1 hy, h.2, h.1]
  | cons x xs ih =>
    rcases mem_cons.1 hy with hy | hy
    · rw [hy, h.1.2, h.1.1]
    · exact ih h.2 hy

theorem Seg.unique (h' : Seg m a ys b) (hx : b ∉ xs) (hy : b ∉ ys) : xs = ys := by
  induction xs generalizing a ys with
  | nil =>
    cases ys with
    | nil => rfl
    | cons y =>
      have he : b = y := h.1.symm.trans h'.1.1
      exact absurd (he ▸ mem_cons_self) hy
  | cons x xs ih =>
    cases ys with
    | nil =>
      have he : b = x := h'.1.symm.trans h.1.1
      exact absurd (he ▸ mem_cons_self) hx
    | cons y =>
      have he : x = y := h.1.1.symm.trans h'.1.1
      subst he
      rw [ih h.2 h'.2 (fun hb => hx (mem_cons_of_mem _ hb))
        fun hb => hy (mem_cons_of_mem _ hb)]

end

/-- The circular list with head `h` whose nodes are `xs`, in order. -/
structure Ring (m : Links α) (h : α) (xs : List α) : Prop where
  nodup : (h :: xs).Nodup
  seg : Seg m h xs h

theorem Ring.head_notMem (hr : Ring m h xs) : h ∉ xs := (nodup_cons.1 hr.nodup).1

theorem Ring.nodup_nodes (hr : Ring m h xs) : xs.Nodup := (nodup_cons.1 hr.nodup).2

theorem Ring.unique (hr : Ring m h xs) (hr' : Ring m h ys) : xs = ys :=
  hr.seg.unique hr'.seg hr.head_notMem hr'.head_notMem

theorem perm_rotate (h x : α) (xs ys : List α) :
    (x :: (ys ++ h :: xs)).Perm (h :: (xs ++ x :: ys)) :=
  (perm_append_comm : (x :: ys ++ h :: xs).Perm (h :: xs ++ x :: ys))

theorem Ring.rotate (hr : Ring m h (xs ++ x :: ys)) : Ring m x (ys ++ h :: xs) := by
  obtain ⟨hseg, hseg'⟩ := Seg.append_iff.1 hr.seg
  exact ⟨(perm_rotate h x xs ys).nodup_iff.2 hr.nodup, Seg.append_iff.2 ⟨hseg', hseg⟩⟩

theorem Ring.next_head (hr : Ring m h xs) : m.next h = xs.headD h := hr.seg.next_start

theorem Ring.next_node (hr : Ring m h (xs ++ x :: ys)) : m.next x = ys.headD h :=
  (Seg.append_iff.1 hr.seg).2.next_start

theorem headD_mem (h : α) (zs : List α) : zs.headD h ∈ h :: zs := by
  cases zs with
  | nil => exact mem_cons_self
  | cons => exact mem_cons_of_mem _ mem_cons_self

theorem Ring.next_mem (hr : Ring m h xs) (hy : y ∈ h :: xs) : m.next y ∈ h :: xs := by
  rcases mem_cons.1 hy with hy | hy
  · rw [hy, hr.next_head]
    exact headD_mem h xs
  · obtain ⟨as, bs, hs⟩ := append_of_mem hy
    subst hs
    rw [hr.next_node]
    have hm := headD_mem h bs
    simp only [mem_cons, mem_append] at hm ⊢
    exact hm.imp_right fun hb => .inr (.inr hb)

theorem Ring.prev_mem (hr : Ring m h xs) (hy : y ∈ h :: xs) : m.prev y ∈ h :: xs := by
  rcases mem_cons.1 hy with hy | hy
  · rw [hy]
    exact hr.seg.prev_mem
  · obtain ⟨as, bs, hs⟩ := append_of_mem hy
    subst hs
    have hm := (Seg.append_iff.1 hr.seg).1.prev_mem
    simp only [mem_cons, mem_append] at hm ⊢
    exact hm.imp_right .inl

theorem Ring.inverse (hr : Ring m h xs) (hy : y ∈ h :: xs) :
    m.prev (m.next y) = y ∧ m.next (m.prev y) = y := by
  refine ⟨hr.seg.prev_next hy, hr.seg.next_prev ?_⟩
  exact (perm_append_singleton h xs).mem_iff.2 hy

theorem Ring.empty_iff (hr : Ring m h xs) : m.next h = h ↔ xs = [] := by
  rw [hr.next_head]
  cases xs with
  | nil => simp
  | cons =>
    simp only [headD_cons, reduceCtorEq, iff_false]
    intro he
    exact hr.head_notMem (by simp [he])

theorem Ring.congr {m m' : Links α} (hr : Ring m h xs)
    (hn : ∀ y ∈ h :: xs, m'.next y = m.next y)
    (hp : ∀ y ∈ h :: xs, m'.prev y = m.prev y) : Ring m' h xs := by
  refine ⟨hr.nodup, hr.seg.congr hn ?_⟩
  intro y hy
  apply hp
  simp only [mem_append, mem_cons, not_mem_nil, or_false] at hy ⊢
  exact hy.symm

end Mdepx.Lib
