import Mathlib.Data.List.Nodup
import Mathlib.Logic.Function.Basic

namespace Mdepx.Lib
open Function List Bool

/-- `ts` lists the indices whose value has the property `p`, each once. -/
structure Listing (p : σ → Bool) (f : τ → σ) (ts : List τ) : Prop where
  nodup : ts.Nodup
  mem_iff : ∀ t, t ∈ ts ↔ p (f t) = true

variable {p : σ → Bool} {f : τ → σ}

theorem Listing.update [DecidableEq τ] (h : Listing p f ts) (t : τ) (x : σ) :
    ∃ ts', Listing p (Function.update f t x) ts' ∧
      ts'.length + (p (f t)).toNat = ts.length + (p x).toNat := by
  have hother {u : τ} (hu : u ≠ t) : u ∈ ts ↔ p (Function.update f t x u) = true := by
    rw [update_of_ne hu]
    exact h.mem_iff u
  have hself : p (Function.update f t x t) = p x := by rw [update_self]
  by_cases ht : t ∈ ts
  · have hold := (h.mem_iff t).1 ht
    have hlen : 0 < ts.length := length_pos_of_mem ht
    cases hx : p x with
    | true =>
      refine ⟨ts, ⟨h.nodup, ?_⟩, by rw [hold]⟩
      intro u
      by_cases hu : u = t
      · rw [hu, hself, hx]
        exact iff_of_true ht rfl
      · exact hother hu
    | false =>
      refine ⟨ts.erase t, ⟨h.nodup.erase t, ?_⟩, ?_⟩
      · intro u
        by_cases hu : u = t
        · rw [hu, hself, hx]
          exact iff_of_false h.nodup.not_mem_erase false_ne_true
        · rw [mem_erase_of_ne hu]
          exact hother hu
      · rw [length_erase_of_mem ht, hold, toNat_true, toNat_false]
        omega
  · have hold : p (f t) = false := eq_false_iff.2 fun hp => ht ((h.mem_iff t).2 hp)
    cases hx : p x with
    | true =>
      refine ⟨t :: ts, ⟨nodup_cons.2 ⟨ht, h.nodup⟩, ?_⟩, ?_⟩
      · intro u
        by_cases hu : u = t
        · rw [hu, hself, hx]
          exact iff_of_true mem_cons_self rfl
        · rw [mem_cons, or_iff_right hu]
          exact hother hu
      · rw [hold, length_cons, toNat_true, toNat_false]
    | false =>
      refine ⟨ts, ⟨h.nodup, ?_⟩, by rw [hold]⟩
      intro u
      by_cases hu : u = t
      · rw [hu, hself, hx]
        exact iff_of_false ht false_ne_true
      · exact hother hu

theorem listing_nil (h : ∀ t, p (f t) = false) : Listing p f [] :=
  ⟨nodup_nil, fun t => iff_of_false not_mem_nil (eq_false_iff.1 (h t))⟩

theorem Listing.length_pos (h : Listing p f ts) (ht : p (f t) = true) : 0 < ts.length :=
  length_pos_of_mem ((h.mem_iff t).2 ht)

end Mdepx.Lib
