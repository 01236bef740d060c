import Mathlib.Data.List.Perm.Basic

namespace Mdepx.Lib
open List

/-! Programs that may fail, and their loops. -/

theorem bind_ok_iff {x : Except ε α} {f : α → Except ε β} :
    (x >>= f) = .ok b ↔ ∃ a, x = .ok a ∧ f a = .ok b := by
  cases x with
  | error =>
    constructor
    · intro h
      cases h
    · rintro ⟨a, h, -⟩
      cases h
  | ok a =>
    constructor
    · intro h
      exact ⟨a, rfl, h⟩
    · rintro ⟨a', h, hf⟩
      cases h
      exact hf

theorem map_ok {e : Except ε α} {g : α → β} (h : e.map g = .ok b) : ∃ a, e = .ok a ∧ g a = b := by
  cases e with
  | error => cases h
  | ok a =>
    cases h
    exact ⟨a, rfl, rfl⟩

theorem mapError_ok {e : Except ε α} {f : ε → δ} (h : e.mapError f = .ok a) : e = .ok a := by
  cases e with
  | error => cases h
  | ok =>
    cases h
    rfl

variable {f : σ → α → Except ε σ} {P : σ → Prop}

theorem foldlM_keeps {l : List α} (hkeep : ∀ a ∈ l, ∀ s s', f s a = .ok s' → P s → P s')
    (h : l.foldlM f s = .ok s') (hs : P s) : P s' := by
  induction l generalizing s with
  | nil =>
    cases h
    exact hs
  | cons a l ih =>
    obtain ⟨ha, hl⟩ := forall_mem_cons.1 hkeep
    rw [foldlM_cons] at h
    obtain ⟨t, ht, hrest⟩ := bind_ok_iff.1 h
    exact ih hl hrest (ha s t ht hs)

theorem foldlM_reaches {l : List α} (ha : a ∈ l) (hstep : ∀ s s', f s a = .ok s' → P s')
    (hkeep : ∀ a ∈ l, ∀ s s', f s a = .ok s' → P s → P s') (h : l.foldlM f s = .ok s') : P s' := by
  induction l generalizing s with
  | nil => cases ha
  | cons b l ih =>
    have hl : ∀ a ∈ l, ∀ s s', f s a = .ok s' → P s → P s' := (forall_mem_cons.1 hkeep).2
    rw [foldlM_cons] at h
    obtain ⟨t, ht, hrest⟩ := bind_ok_iff.1 h
    rcases mem_cons.1 ha with rfl | ha
    · exact foldlM_keeps hl hrest (hstep s t ht)
    · exact ih ha hl hrest

/-- A loop none of whose rounds fails adds to a set what its rounds add to it. -/
theorem foldlM_collects {g : σ → α → Option σ} {S : σ → γ → Prop} {T : α → γ → Prop}
    (hstep : ∀ s a, P s → ∃ s', g s a = some s' ∧ P s' ∧ ∀ x, S s' x ↔ S s x ∨ T a x)
    (l : List α) (hs : P s) :
    ∃ s', l.foldlM g s = some s' ∧ P s' ∧ ∀ x, S s' x ↔ S s x ∨ ∃ a ∈ l, T a x := by
  induction l generalizing s with
  | nil => exact ⟨s, rfl, hs, fun x => by simp⟩
  | cons a l ih =>
    obtain ⟨t, ht, hP, hT⟩ := hstep s a hs
    obtain ⟨s', hs', hP', hS⟩ := ih hP
    refine ⟨s', ?_, hP', ?_⟩
    · rw [foldlM_cons, ht]
      exact hs'
    · intro x
      rw [hS, hT, exists_mem_cons_iff, or_assoc]

end Mdepx.Lib
