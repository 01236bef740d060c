import Mathlib.Data.Fintype.EquivFin
import Mathlib.Data.List.Nodup
import Mathlib.Logic.Function.Basic

namespace Mdepx.Lib
open Function

/-- Who sits where and who is found there are one and the same: `slot` names the place of each
item, `holder` the item at each place. -/
def Matches (slot : τ → Option κ) (holder : κ → Option τ) : Prop :=
  ∀ t c, slot t = some c ↔ holder c = some t

/-- The items filed in a family of lists: each is in the list of its slot and in no other. -/
def Filed (slot : τ → Option ι) (q : ι → List τ) : Prop :=
  ∀ t i, slot t = some i ↔ t ∈ q i

theorem Filed.notMem {slot : τ → Option ι} (h : Filed slot q) (ht : slot t = none) (i : ι) :
    t ∉ q i := by
  intro hm
  rw [(h t i).2 hm] at ht
  cases ht

theorem Matches.exists_unplaced [Finite κ] {slot : τ → Option κ} (h : Matches slot holder)
    (item : κ → τ) (hitem : Function.Injective item) (hc : holder c = none) :
    ∃ i, slot (item i) = none := by
  by_contra hnone
  have hplace (i : κ) : ∃ d, slot (item i) = some d :=
    Option.ne_none_iff_exists'.1 fun hi => hnone ⟨i, hi⟩
  choose place hplace using hplace
  have hinj : Function.Injective place := by
    intro i j hij
    have hi := (h _ _).1 (hplace i)
    rw [hij, (h _ _).1 (hplace j)] at hi
    exact hitem (Option.some.inj hi).symm
  obtain ⟨i, rfl⟩ := Finite.surjective_of_injective hinj c
  rw [(h _ _).1 (hplace i)] at hc
  cases hc

section
variable [DecidableEq τ] [DecidableEq κ]

theorem Matches.release {slot : τ → Option κ} (h : Matches slot holder) (ht : slot t = some c) :
    Matches (update slot t none) (update holder c none) := by
  intro u d
  have hc := (h t c).1 ht
  by_cases hu : u = t
  · subst hu
    rw [update_self]
    constructor
    · intro hn
      cases hn
    · intro hd
      by_cases hdc : d = c
      · rw [hdc, update_self] at hd
        cases hd
      · rw [update_of_ne hdc, ← h u d, ht, Option.some.injEq] at hd
        exact absurd hd.symm hdc
  · rw [update_of_ne hu]
    by_cases hdc : d = c
    · subst hdc
      rw [update_self, h u d, hc, Option.some.injEq]
      exact iff_of_false (Ne.symm hu) (by simp)
    · rw [update_of_ne hdc]
      exact h u d

theorem Matches.assign {slot : τ → Option κ} (h : Matches slot holder) (ht : slot t = none)
    (hc : holder c = none) :
    Matches (update slot t (some c)) (update holder c (some t)) := by
  intro u d
  by_cases hu : u = t
  · subst hu
    rw [update_self]
    by_cases hdc : d = c
    · subst hdc
      rw [update_self]
      exact iff_of_true rfl rfl
    · rw [update_of_ne hdc, ← h u d, ht, Option.some.injEq]
      exact iff_of_false (Ne.symm hdc) (by simp)
  · rw [update_of_ne hu]
    by_cases hdc : d = c
    · subst hdc
      rw [update_self, h u d, hc, Option.some.injEq]
      exact iff_of_false (by simp) (Ne.symm hu)
    · rw [update_of_ne hdc]
      exact h u d

end

section
variable [DecidableEq τ] [DecidableEq ι]

theorem Filed.append {slot : τ → Option ι} (h : Filed slot q) (ht : slot t = none) :
    Filed (update slot t (some i)) (update q i (q i ++ [t])) := by
  intro u j
  have hmem : u ∈ update q i (q i ++ [t]) j ↔ u ∈ q j ∨ j = i ∧ u = t := by
    by_cases hj : j = i
    · subst hj
      simp
    · simp [hj]
  rw [hmem, ← h u j]
  by_cases hu : u = t
  · subst hu
    simp [ht, eq_comm]
  · simp [hu]

theorem Filed.erase {slot : τ → Option ι} (h : Filed slot q) (ht : slot t = some i)
    (hn : (q i).Nodup) :
    Filed (update slot t none) (update q i ((q i).erase t)) := by
  intro u j
  by_cases hj : j = i
  · subst hj
    rw [update_self, hn.mem_erase_iff, ← h u j]
    by_cases hu : u = t
    · subst hu
      simp
    · simp [hu]
  · rw [update_of_ne hj, ← h u j]
    by_cases hu : u = t
    · subst hu
      simp [ht, Ne.symm hj]
    · rw [update_of_ne hu]

end

/-- Items in states `loc` at places in states `cpu`: where an item is can be read off both sides,
and the state of a place fits the state of the item at it. -/
structure Seating (slot : ξ → Option κ) (seat : σ → Option τ) (fit : σ → ξ → Prop)
    (cpu : κ → σ) (loc : τ → ξ) : Prop where
  held : Matches (slot ∘ loc) (seat ∘ cpu)
  fits : ∀ c t, seat (cpu c) = some t → fit (cpu c) (loc t)

section
variable {slot : ξ → Option κ} {seat : σ → Option τ} {fit : σ → ξ → Prop} {cpu : κ → σ}
  {loc : τ → ξ}

theorem Seating.keep [DecidableEq τ] (h : Seating slot seat fit cpu loc)
    (hl : slot l = slot (loc t))
    (hfit : ∀ c, slot (loc t) = some c → fit (cpu c) (loc t) → fit (cpu c) l) :
    Seating slot seat fit cpu (update loc t l) := by
  refine ⟨?_, ?_⟩
  · rw [comp_update, hl]
    have he : update (slot ∘ loc) t (slot (loc t)) = slot ∘ loc :=
      update_eq_self t (slot ∘ loc)
    rw [he]
    exact h.held
  · intro c u hu
    by_cases hut : u = t
    · subst hut
      rw [update_self]
      exact hfit c ((h.held u c).2 hu) (h.fits c u hu)
    · rw [update_of_ne hut]
      exact h.fits c u hu

theorem Seating.vacant [DecidableEq τ] (h : Seating slot seat fit cpu loc)
    (hold : slot (loc t) = none) (hnew : slot l = none) :
    Seating slot seat fit cpu (update loc t l) := by
  apply h.keep (hnew.trans hold.symm)
  intro c hc
  rw [hold] at hc
  cases hc

theorem Seating.same [DecidableEq κ] (h : Seating slot seat fit cpu loc)
    (hx : seat x = seat (cpu c)) (hfit : ∀ l, fit (cpu c) l → fit x l) :
    Seating slot seat fit (update cpu c x) loc := by
  refine ⟨?_, ?_⟩
  · rw [comp_update, hx]
    have he : update (seat ∘ cpu) c (seat (cpu c)) = seat ∘ cpu :=
      update_eq_self c (seat ∘ cpu)
    rw [he]
    exact h.held
  · intro d u hu
    by_cases hd : d = c
    · subst hd
      rw [update_self] at hu ⊢
      exact hfit _ (h.fits d u (hx ▸ hu))
    · rw [update_of_ne hd] at hu ⊢
      exact h.fits d u hu

variable [DecidableEq τ] [DecidableEq κ]

section
variable (h : Seating slot seat fit cpu loc)
include h

theorem Seating.fits_move (ht : ∀ d, slot (loc t) = some d → d = c)
    (hfit : ∀ u, seat x = some u → u = t ∧ fit x l) (d : κ) (u : τ)
    (hu : seat (update cpu c x d) = some u) : fit (update cpu c x d) (update loc t l u) := by
  by_cases hd : d = c
  · subst hd
    rw [update_self] at hu ⊢
    obtain ⟨rfl, hl⟩ := hfit u hu
    rw [update_self]
    exact hl
  · rw [update_of_ne hd] at hu ⊢
    have hut : u ≠ t := by
      rintro rfl
      exact hd (ht d ((h.held u d).2 hu))
    rw [update_of_ne hut]
    exact h.fits d u hu

theorem Seating.leave (ht : slot (loc t) = some c) (hl : slot l = none) (hx : seat x = none) :
    Seating slot seat fit (update cpu c x) (update loc t l) := by
  refine ⟨?_, h.fits_move ?_ ?_⟩
  · rw [comp_update, comp_update, hl, hx]
    exact h.held.release ht
  · intro d hd
    rw [ht, Option.some.injEq] at hd
    exact hd.symm
  · intro u hu
    rw [hx] at hu
    cases hu

theorem Seating.enter (ht : slot (loc t) = none) (hc : seat (cpu c) = none) (hl : slot l = some c)
    (hx : seat x = some t) (hfit : fit x l) :
    Seating slot seat fit (update cpu c x) (update loc t l) := by
  refine ⟨?_, h.fits_move ?_ ?_⟩
  · rw [comp_update, comp_update, hl, hx]
    exact h.held.assign ht hc
  · intro d hd
    rw [ht] at hd
    cases hd
  · intro u hu
    rw [hx, Option.some.injEq] at hu
    exact ⟨hu.symm, hfit⟩

theorem Seating.stay (ht : slot (loc t) = some c) (hl : slot l = some c) (hx : seat x = some t)
    (hfit : fit x l) : Seating slot seat fit (update cpu c x) (update loc t l) := by
  have hc : seat (cpu c) = some t := (h.held t c).1 ht
  refine ⟨?_, h.fits_move ?_ ?_⟩
  · have hs : update (slot ∘ loc) t (some c) = slot ∘ loc := by
      rw [← ht]
      exact update_eq_self t (slot ∘ loc)
    have hh : update (seat ∘ cpu) c (some t) = seat ∘ cpu := by
      rw [← hc]
      exact update_eq_self c (seat ∘ cpu)
    rw [comp_update, comp_update, hl, hx, hs, hh]
    exact h.held
  · intro d hd
    rw [ht, Option.some.injEq] at hd
    exact hd.symm
  · intro u hu
    rw [hx, Option.some.injEq] at hu
    exact ⟨hu.symm, hfit⟩

end

end
end Mdepx.Lib
