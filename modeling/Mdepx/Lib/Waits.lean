import Mathlib.Logic.Function.Basic
import Mathlib.Logic.Relation

/-! Agents that each hold some locks and may be waiting for one more. -/

namespace Mdepx.Lib
open Function List

def WaitsFor (wants : ι → Option κ) (held : ι → List κ) (i j : ι) : Prop :=
  ∃ l, wants i = some l ∧ l ∈ held j

def SoleHolder (held : ι → List κ) : Prop :=
  ∀ i j l, l ∈ held i → l ∈ held j → i = j

variable {ι κ : Type} {wants : ι → Option κ} {held : ι → List κ}

theorem WaitsFor.acyclic (rank : ι → Nat)
    (h : ∀ i j k, WaitsFor wants held i j → WaitsFor wants held j k → rank i < rank j) (i : ι) :
    ¬ Relation.TransGen (WaitsFor wants held) i i := by
  have hpath : ∀ {i j k}, Relation.TransGen (WaitsFor wants held) i j →
      WaitsFor wants held j k → rank i < rank j := by
    intro i j k hp hjk
    induction hp generalizing k with
    | single hij => exact h _ _ _ hij hjk
    | tail _ hjl ih => exact Nat.lt_trans (ih hjl) (h _ _ _ hjl hjk)
  intro hp
  obtain ⟨j, hij, _⟩ := Relation.TransGen.head'_iff.1 hp
  exact Nat.lt_irrefl _ (hpath hp hij)

theorem SoleHolder.acquire [DecidableEq ι] {i : ι} {l : κ} (h : SoleHolder held)
    (hl : ∀ j, l ∉ held j) : SoleHolder (update held i (l :: held i)) := by
  have hmem : ∀ {j x}, x ∈ update held i (l :: held i) j →
      x ∈ held j ∨ x = l ∧ j = i := by
    intro j x hx
    by_cases hj : j = i
    · subst j
      rw [update_self] at hx
      rcases mem_cons.1 hx with rfl | hx
      · exact .inr ⟨rfl, rfl⟩
      · exact .inl hx
    · rw [update_of_ne hj] at hx
      exact .inl hx
  intro j k x hj hk
  rcases hmem hj with hj' | ⟨rfl, rfl⟩
  · rcases hmem hk with hk' | ⟨rfl, rfl⟩
    · exact h j k x hj' hk'
    · exact absurd hj' (hl j)
  · rcases hmem hk with hk' | ⟨_, rfl⟩
    · exact absurd hk' (hl k)
    · rfl

theorem SoleHolder.release [DecidableEq κ] {l : κ} (h : SoleHolder held) :
    SoleHolder fun j => (held j).erase l :=
  fun j k x hj hk => h j k x (mem_of_mem_erase hj) (mem_of_mem_erase hk)

theorem SoleHolder.release_top [DecidableEq ι] [DecidableEq κ] {i : ι} {l : κ} {ls : List κ}
    (h : SoleHolder held) (hi : held i = l :: ls) :
    (fun j => (held j).erase l) = update held i ls := by
  funext j
  by_cases hj : j = i
  · subst j
    rw [update_self, hi, erase_cons_head]
  · rw [update_of_ne hj]
    apply erase_of_not_mem
    intro hl
    exact hj (h j i l hl (hi ▸ mem_cons_self))

end Mdepx.Lib
