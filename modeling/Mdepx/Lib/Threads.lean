import Mathlib.Data.List.Nodup
import Mathlib.Logic.Function.Basic

namespace Mdepx.Lib
open Function

/-! The stages of a family of threads, one of which moves at a time. -/

/-- One step of a program that gives nothing where a step is not possible. -/
def Steps (exec : σ → ι → Option σ) (s : σ) (i : ι) (t : σ) : Prop := exec s i = some t

variable [DecidableEq τ] {stage : τ → σ}

theorem view_update (view : σ → β) (h : view x = view (stage t)) (u : τ) :
    view (update stage t x u) = view (stage u) := by
  by_cases hu : u = t
  · subst hu
    rw [update_self, h]
  · rw [update_of_ne hu]

theorem views_update (view : σ → Option β) {ts : List τ} (h : t ∉ ts) (x : σ) :
    ts.filterMap (fun u => view (update stage t x u)) =
      ts.filterMap fun u => view (stage u) := by
  apply List.filterMap_congr
  intro u hu
  rw [update_of_ne (ne_of_mem_of_not_mem hu h)]

theorem others_update {p : σ → Prop} (h : ∀ u, u ≠ t → p (stage u)) (x : σ) :
    ∀ u, u ≠ t → p (update stage t x u) := by
  intro u hu
  rw [update_of_ne hu]
  exact h u hu

end Mdepx.Lib
