import Mdepx.Lib.Slots
import Mdepx.Rings

namespace Mdepx
open Lib Function List

/-! Several lists of `sys/list.h` that share one kind of node, each node on one list at most. -/

section
variable {m : Links (ι ⊕ τ)} {q : ι → List τ}

structure Queues (m : Links (ι ⊕ τ)) (q : ι → List τ) : Prop where
  ring : ∀ i, Ring m (.inl i) ((q i).map .inr)
  disjoint : ∀ t i j, t ∈ q i → t ∈ q j → i = j
  free : ∀ t, (∀ i, t ∉ q i) → Ring m (.inr t) []

theorem Queues.nodup (h : Queues m q) (i : ι) : (q i).Nodup :=
  List.Nodup.of_map _ (h.ring i).nodup_nodes

theorem Queues.unique (h : Queues m q) (h' : Queues m q') : q = q' := by
  funext i
  exact map_injective_iff.2 (fun _ _ he => Sum.inr.inj he) ((h.ring i).unique (h'.ring i))

theorem mem_queue : Sum.inr t ∈ Sum.inl i :: (q i).map (Sum.inr : τ → ι ⊕ τ) ↔ t ∈ q i := by
  simp only [mem_cons, reduceCtorEq, mem_map, Sum.inr.injEq, exists_eq_right, false_or]

theorem head_eq_of_mem (h : y ∈ Sum.inl i :: (q i).map (Sum.inr : τ → ι ⊕ τ))
    (h' : y ∈ Sum.inl j :: (q j).map (Sum.inr : τ → ι ⊕ τ)) (hd : ∀ t, t ∈ q i → t ∈ q j → i = j) :
    i = j := by
  cases y with
  | inl =>
    simp only [mem_cons, Sum.inl.injEq, mem_map, reduceCtorEq, and_false,
      exists_false, or_false] at h h'
    exact h.symm.trans h'
  | inr t =>
    exact hd t (mem_queue.1 h) (mem_queue.1 h')

open Classical in
noncomputable def family (q : ι → List τ) : Rings.Family (ι ⊕ τ)
  | .inl i => some ((q i).map .inr)
  | .inr t => if ∃ i, t ∈ q i then none else some []

theorem family_free (ht : ∀ i, t ∉ q i) : family q (.inr t) = some [] :=
  if_neg fun ⟨i, hi⟩ => ht i hi

theorem family_inr (ht : family q (.inr t) = some xs) : (∀ i, t ∉ q i) ∧ xs = [] := by
  rw [family] at ht
  split at ht
  · cases ht
  · rename_i hi
    cases ht
    exact ⟨not_exists.1 hi, rfl⟩

theorem Queues.represents (h : Queues m q) : Rings.Represents m (family q) := by
  constructor
  · intro y xs hy
    cases y with
    | inl i =>
      cases hy
      exact h.ring i
    | inr t =>
      obtain ⟨ht, rfl⟩ := family_inr hy
      exact h.free t ht
  · intro y y' z hz hz'
    obtain ⟨xs, hy, hz⟩ := Rings.mem_members.1 hz
    obtain ⟨xs', hy', hz'⟩ := Rings.mem_members.1 hz'
    cases y with
    | inl i =>
      cases hy
      cases y' with
      | inl j =>
        cases hy'
        exact congrArg Sum.inl (head_eq_of_mem hz hz' fun t => h.disjoint t i j)
      | inr =>
        obtain ⟨ht, rfl⟩ := family_inr hy'
        cases mem_singleton.1 hz'
        exact absurd (mem_queue.1 hz) (ht i)
    | inr =>
      obtain ⟨ht, rfl⟩ := family_inr hy
      cases mem_singleton.1 hz
      cases y' with
      | inl i =>
        cases hy'
        exact absurd (mem_queue.1 hz') (ht i)
      | inr =>
        obtain ⟨-, rfl⟩ := family_inr hy'
        exact mem_singleton.1 hz'

theorem Queues.of_represents {F : Rings.Family (ι ⊕ τ)} (h : Rings.Represents m F)
    (hq : ∀ i, F (.inl i) = some ((q i).map .inr))
    (hfree : ∀ t, (∀ i, t ∉ q i) → F (.inr t) = some []) : Queues m q where
  ring := fun i => h.ring (.inl i) _ (hq i)
  disjoint := by
    intro t i j hi hj
    have hmem (i) (hi : t ∈ q i) : Sum.inr t ∈ Rings.members F (.inl i) :=
      Rings.mem_members.2 ⟨_, hq i, mem_queue.2 hi⟩
    exact Sum.inl.inj (h.disjoint _ _ _ (hmem i hi) (hmem j hj))
  free := fun t ht => h.ring (.inr t) [] (hfree t ht)

theorem unlinked_family (ht : ∀ i, t ∉ q i) : Rings.Unlinked (family q) (.inr t) := by
  intro y hy
  refine ⟨?_, family_free ht⟩
  obtain ⟨xs, hF, hy⟩ := Rings.mem_members.1 hy
  cases y with
  | inl i =>
    cases hF
    exact absurd (mem_queue.1 hy) (ht i)
  | inr =>
    cases (family_inr hF).2
    exact (mem_singleton.1 hy).symm

variable [DecidableEq ι] [DecidableEq τ]

section
variable (h : Queues m q)
include h

theorem Queues.empty_iff (i : ι) : listEmpty m (.inl i) = true ↔ q i = [] := by
  rw [listEmpty_iff (h.ring i), map_eq_nil_iff]

theorem Queues.next_head (hne : listEmpty m (.inl i) = false) :
    ∃ t ts, q i = t :: ts ∧ m.next (.inl i) = .inr t := by
  have hn := (h.ring i).next_head
  cases hq : q i with
  | nil =>
    rw [(h.empty_iff i).2 hq] at hne
    cases hne
  | cons t ts =>
    rw [hq] at hn
    exact ⟨t, ts, rfl, hn⟩

theorem Queues.free_empty (ht : ∀ i, t ∉ q i) : listEmpty m (.inr t) = true :=
  (listEmpty_iff (h.free t ht)).2 rfl

theorem Queues.append (ht : ∀ i, t ∉ q i) :
    Queues (listAppend m (.inl i) (.inr t)) (update q i (q i ++ [t])) := by
  have hi : family q (.inl i) = some ((q i).map .inr ++ []) := by
    rw [append_nil]
    rfl
  apply Queues.of_represents (h.represents.effect (.add hi Sum.inl_ne_inr (unlinked_family ht)))
  · intro j
    by_cases hj : j = i
    · subst hj
      rw [update_self, update_self, map_append]
      rfl
    · rw [update_of_ne hj, update_of_ne (mt Sum.inl.inj hj), update_of_ne Sum.inl_ne_inr]
      rfl
  · intro u hu
    have hut : u ≠ t := by
      rintro rfl
      exact hu i (by simp)
    rw [update_of_ne Sum.inr_ne_inl, update_of_ne (mt Sum.inr.inj hut)]
    apply family_free
    intro j hm
    apply hu j
    by_cases hj : j = i
    · subst hj
      simpa using .inl hm
    · rw [update_of_ne hj]
      exact hm

theorem Queues.remove (ht : t ∈ q i) :
    Queues (listRemove m (.inr t)) (update q i ((q i).erase t)) := by
  obtain ⟨as, bs, hs, hta⟩ := eq_append_cons_of_mem ht
  have herase : (q i).erase t = as ++ bs := by
    rw [hs, erase_append_right _ hta, erase_cons_head]
  have hi : family q (.inl i) = some (as.map .inr ++ .inr t :: bs.map .inr) := by
    rw [family, hs, map_append, map_cons]
  apply Queues.of_represents (h.represents.effect (.remove hi Sum.inl_ne_inr))
  · intro j
    by_cases hj : j = i
    · subst hj
      rw [update_self, update_self, herase, map_append]
    · rw [update_of_ne hj, update_of_ne (mt Sum.inl.inj hj), update_of_ne Sum.inl_ne_inr]
      rfl
  · intro u hu
    rw [update_of_ne Sum.inr_ne_inl]
    by_cases hut : u = t
    · rw [hut, update_self]
    · rw [update_of_ne (mt Sum.inr.inj hut)]
      apply family_free
      intro j hm
      apply hu j
      by_cases hj : j = i
      · subst hj
        rw [update_self]
        exact (mem_erase_of_ne hut).2 hm
      · rw [update_of_ne hj]
        exact hm

end

end
end Mdepx
