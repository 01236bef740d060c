import Mathlib.Data.List.Basic

namespace Mdepx.Lib
open List

/-! Sorting an array in place by exchanging elements that are out of order. -/

def exchangeStep (le : α → α → Bool) (i : Nat) (a : Array α) (j : Nat) : Array α :=
  if h : i < a.size ∧ j < a.size then
    if le a[i] a[j] then a else a.swap i j
  else a

def exchangePass (le : α → α → Bool) (a : Array α) (i n : Nat) : Array α :=
  (range' (i + 1) n).foldl (exchangeStep le i) a

def exchangePasses (le : α → α → Bool) (a : Array α) : Nat → Array α
  | 0 => a
  | k + 1 => exchangePass le (exchangePasses le a k) k (a.size - (k + 1))

def exchangeSort (le : α → α → Bool) (a : Array α) : Array α :=
  exchangePasses le a a.size

def Settled (le : α → α → Bool) (i : Nat) (a : Array α) : Prop :=
  ∀ p q (_ : p < q) (hq : q < a.size), p < i → le a[p] a[q] = true

def Least (le : α → α → Bool) (i j : Nat) (a : Array α) : Prop :=
  ∀ q (_ : i < q) (hq : q < a.size), q < j → le a[i] a[q] = true

section
variable {le : α → α → Bool} {a : Array α} {i j n : Nat}

theorem exchangeStep_perm (le : α → α → Bool) (i : Nat) (a : Array α) (j : Nat) :
    (exchangeStep le i a j).Perm a := by
  unfold exchangeStep
  split
  · split
    · exact Array.Perm.refl a
    · exact Array.swap_perm _ _
  · exact Array.Perm.refl a

theorem exchangePass_perm (le : α → α → Bool) (a : Array α) (i n : Nat) :
    (exchangePass le a i n).Perm a := by
  unfold exchangePass
  induction n with
  | zero => exact Array.Perm.refl a
  | succ n ih =>
    rw [range'_concat, foldl_append]
    exact (exchangeStep_perm le i _ _).trans ih

theorem exchangeStep_settled (h : Settled le i a) (hj : i < j) :
    Settled le i (exchangeStep le i a j) := by
  unfold exchangeStep
  split
  · rename_i hb
    split
    · exact h
    · intro p q hpq hq hp
      rw [Array.size_swap] at hq
      rw [Array.getElem_swap_of_ne (Nat.ne_of_lt hp) (Nat.ne_of_lt (Nat.lt_trans hp hj)),
        Array.getElem_swap]
      split
      · exact h p j (Nat.lt_trans hp hj) hb.2 hp
      · split
        · exact h p i hp hb.1 hp
        · exact h p q hpq hq hp
  · exact h

section
variable (total : ∀ x y, le x y = true ∨ le y x = true)
  (trans : ∀ x y z, le x y = true → le y z = true → le x z = true)
include total trans

theorem exchangeStep_least (h : Least le i j a) (hj : i < j) :
    Least le i (j + 1) (exchangeStep le i a j) := by
  unfold exchangeStep
  split
  · rename_i hb
    split
    · rename_i hle
      intro q hiq hq hlt
      rcases Nat.lt_or_eq_of_le (Nat.le_of_lt_succ hlt) with hqj | rfl
      · exact h q hiq hq hqj
      · exact hle
    · rename_i hle
      have hji : le a[j] a[i] = true := (total _ _).resolve_left hle
      intro q hiq hq hlt
      rw [Array.size_swap] at hq
      rw [Array.getElem_swap_left, Array.getElem_swap, if_neg (Nat.ne_of_gt hiq)]
      split
      · exact hji
      · rename_i hne
        exact trans _ _ _ hji (h q hiq hq (Nat.lt_of_le_of_ne (Nat.le_of_lt_succ hlt) hne))
  · rename_i hb
    intro q hiq hq hlt
    have hqj : q ≠ j := by
      rintro rfl
      exact hb ⟨Nat.lt_trans hiq hq, hq⟩
    exact h q hiq hq (Nat.lt_of_le_of_ne (Nat.le_of_lt_succ hlt) hqj)

theorem exchangePass_settled (h : Settled le i a) (n : Nat) : Settled le i (exchangePass le a i n) ∧
      Least le i (i + 1 + n) (exchangePass le a i n) := by
  unfold exchangePass
  induction n with
  | zero =>
    refine ⟨h, ?_⟩
    intro q hiq hq hlt
    omega
  | succ n ih =>
    rw [range'_concat, foldl_append, Nat.one_mul]
    have hj : i < i + 1 + n := by omega
    exact ⟨exchangeStep_settled ih.1 hj, exchangeStep_least total trans ih.2 hj⟩

end

theorem exchangePasses_perm (le : α → α → Bool) (a : Array α) (k : Nat) :
    (exchangePasses le a k).Perm a := by
  induction k with
  | zero => exact Array.Perm.refl a
  | succ k ih => exact (exchangePass_perm le (exchangePasses le a k) k _).trans ih

theorem exchangePasses_settled (total : ∀ x y, le x y = true ∨ le y x = true)
    (trans : ∀ x y z, le x y = true → le y z = true → le x z = true) (a : Array α) (k : Nat) :
    Settled le k (exchangePasses le a k) := by
  induction k with
  | zero => exact fun _ _ _ _ hp => absurd hp (Nat.not_lt_zero _)
  | succ k ih =>
    obtain ⟨hset, hleast⟩ := exchangePass_settled total trans ih (a.size - (k + 1))
    have hsize := (exchangePasses_perm le a (k + 1)).size_eq
    intro p q hpq hq hp
    rcases Nat.lt_or_eq_of_le (Nat.le_of_lt_succ hp) with hlt | rfl
    · exact hset p q hpq hq hlt
    · exact hleast q hpq hq (by omega)

theorem exchangeSort_perm (le : α → α → Bool) (a : Array α) :
    (exchangeSort le a).toList.Perm a.toList :=
  (exchangePasses_perm le a a.size).toList

theorem exchangeSort_sorted (total : ∀ x y, le x y = true ∨ le y x = true)
    (trans : ∀ x y z, le x y = true → le y z = true → le x z = true) (a : Array α) :
    (exchangeSort le a).toList.Pairwise fun x y => le x y = true := by
  have hsize := (exchangePasses_perm le a a.size).size_eq
  apply pairwise_iff_getElem.2
  intro p q hp hq hpq
  rw [Array.length_toList] at hp hq
  exact exchangePasses_settled total trans a a.size p q hpq hq (Nat.lt_of_lt_of_eq hp hsize)

end

end Mdepx.Lib
