import Mathlib.Logic.Basic

namespace Mdepx.Lib

/-- A computation that takes the number of rounds it may make: with enough rounds it returns a
value that meets `P`, and with fewer it returns that value or none. -/
def Returns (f : Nat → Option α) (P : α → Prop) : Prop :=
  ∃ r, P r ∧ (∃ n, ∀ k, n ≤ k → f k = some r) ∧ ∀ k r', f k = some r' → r' = r

variable {P : α → Prop} {Q : β → Prop}

theorem Returns.pure (h : P r) : Returns (fun _ => some r) P := by
  refine ⟨r, h, ⟨0, fun _ _ => rfl⟩, ?_⟩
  intro k r' he
  exact (Option.some.inj he).symm

theorem Returns.post (h : Returns f P) (he : f k = some r) : P r := by
  obtain ⟨r₀, hp, -, hu⟩ := h
  rw [hu k r he]
  exact hp

theorem Returns.exists_some (h : Returns f P) : ∃ k r, f k = some r := by
  obtain ⟨r, -, ⟨n, hn⟩, -⟩ := h
  exact ⟨n, r, hn n (Nat.le_refl n)⟩

theorem Returns.mono {P' : α → Prop} (h : Returns f P) (hp : ∀ r, P r → P' r) : Returns f P' := by
  obtain ⟨r, hr, hn⟩ := h
  exact ⟨r, hp r hr, hn⟩

theorem Returns.bind {f : Nat → Option α} {g : Nat → α → Option β} (h : Returns f P)
    (hg : ∀ r, P r → Returns (fun k => g k r) Q) : Returns (fun k => (f k).bind (g k)) Q := by
  obtain ⟨r, hr, ⟨n, hn⟩, hu⟩ := h
  obtain ⟨s, hs, ⟨n', hn'⟩, hu'⟩ := hg r hr
  refine ⟨s, hs, ⟨max n n', ?_⟩, ?_⟩
  · intro k hk
    show (f k).bind (g k) = some s
    rw [hn k (by omega), Option.bind_some]
    exact hn' k (by omega)
  · intro k s' he
    obtain ⟨r', hr', hs'⟩ := Option.bind_eq_some_iff.1 he
    rw [hu k r' hr'] at hs'
    exact hu' k s' hs'

theorem Returns.map {f : Nat → Option α} {g : α → β} (h : Returns f P) (hg : ∀ r, P r → Q (g r)) :
    Returns (fun k => (f k).map g) Q := by
  have hb : Returns (fun k => (f k).bind fun r => some (g r)) Q :=
    h.bind fun r hr => .pure (hg r hr)
  simp only [Option.map_eq_bind]
  exact hb

theorem Returns.round {f g : Nat → Option α} (h : Returns g P) (h₀ : f 0 = none)
    (hs : ∀ k, f (k + 1) = g k) : Returns f P := by
  obtain ⟨r, hr, ⟨n, hn⟩, hu⟩ := h
  refine ⟨r, hr, ⟨n + 1, ?_⟩, ?_⟩
  · intro k hk
    cases k with
    | zero => omega
    | succ k =>
      rw [hs]
      exact hn k (by omega)
  · intro k r' he
    cases k with
    | zero =>
      rw [h₀] at he
      cases he
    | succ k =>
      rw [hs] at he
      exact hu k r' he

end Mdepx.Lib
