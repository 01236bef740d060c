import Mathlib.Algebra.BigOperators.Group.Finset.Basic
import Mathlib.Algebra.Order.BigOperators.Group.Finset

namespace Mdepx.Lib
open Function

variable {ι : Type} [Fintype ι]

theorem sum_change [DecidableEq ι] {f g : ι → Nat} (h : ∀ j, j ≠ i → f j = g j) :
    ∑ j, f j + g i = ∑ j, g j + f i := by
  have hrest : ∑ j ∈ Finset.univ.erase i, f j = ∑ j ∈ Finset.univ.erase i, g j := by
    apply Finset.sum_congr rfl
    intro j hj
    exact h j (Finset.ne_of_mem_erase hj)
  have hf := Finset.add_sum_erase Finset.univ f (Finset.mem_univ i)
  have hg := Finset.add_sum_erase Finset.univ g (Finset.mem_univ i)
  omega

theorem sum_update [DecidableEq ι] (g : β → Nat) (f : ι → β) (i : ι) (b : β) :
    ∑ j, g (update f i b j) + g (f i) = ∑ j, g (f j) + g b := by
  have hoff : ∀ j, j ≠ i → g (update f i b j) = g (f j) := by
    intro j hj
    rw [update_of_ne hj]
  have := sum_change hoff
  rw [update_self] at this
  exact this

theorem all_of_sum_le {p q : ι → Bool} (hle : ∀ j, p j = true → q j = true)
    (h : ∑ j, (q j).toNat ≤ ∑ j, (p j).toNat) (j : ι) (hq : q j = true) : p j = true := by
  have hpq : ∀ j ∈ Finset.univ, (p j).toNat ≤ (q j).toNat := by
    intro j _
    cases hp : p j with
    | false => exact Nat.zero_le _
    | true => rw [hle j hp]
  have heq := (Finset.sum_eq_sum_iff_of_le hpq).1 (le_antisymm (Finset.sum_le_sum hpq) h) j
    (Finset.mem_univ j)
  rw [hq] at heq
  exact Bool.toNat_eq_one.1 heq

end Mdepx.Lib
