import Mdepx.Lib.Semaphore

namespace Mdepx.Lib.Semaphore
open Function List

variable {a b : State S T} {s : S} {claim : T → Prop}

/-- The one permit of `s` is in its count, on its way to a thread that was woken up, or claimed by
a thread that has returned with it. -/
structure Exclusive (a : State S T) (s : S) (claim : T → Prop) : Prop where
  one : a.count s = 0 ∨ a.count s = 1
  free : a.count s = 1 → ∀ t, ¬(claim t ∨ a.phase t = .won s)
  uniq : ∀ t u, claim t ∨ a.phase t = .won s → claim u ∨ a.phase u = .won s → t = u
  apart : ∀ t, claim t → a.phase t ≠ .won s

theorem Exclusive.of_same (h : Exclusive a s claim) (hc : b.count s = a.count s)
    (hp : ∀ t, b.phase t = .won s ↔ a.phase t = .won s) : Exclusive b s claim := by
  constructor
  · rw [hc]
    exact h.one
  · intro h1 t
    rw [hp t]
    exact h.free (hc.symm.trans h1) t
  · intro t u ht hu
    rw [hp] at ht hu
    exact h.uniq t u ht hu
  · intro t ht
    rw [Ne, hp]
    exact h.apart t ht

theorem Exclusive.congr {claim' : T → Prop} (h : Exclusive a s claim)
    (he : ∀ t, claim' t ↔ claim t) : Exclusive a s claim' := by
  have he : claim' = claim := funext fun t => propext (he t)
  rw [he]
  exact h

variable [DecidableEq T]

theorem won_update {p : Phase S} (h : a.phase t ≠ .won s) (hp : p ≠ .won s) (u : T) :
    update a.phase t p u = .won s ↔ a.phase u = .won s := by
  by_cases hu : u = t
  · subst hu
    rw [update_self]
    exact iff_of_false hp h
  · rw [update_of_ne hu]

variable [DecidableEq S]

def Event.moves (s : S) : Event S T → Bool
  | .posted s' | .took s' | .handed _ s' | .returned _ s' true => s' = s
  | _ => false

section
variable (h : Exclusive a s claim)
include h

theorem Exclusive.other (hs : Sound n₀ a log) (hst : Step a evs b)
    (he : ∀ e ∈ evs, Event.moves s e = false) : Exclusive b s claim := by
  cases hst with
  | quiet => exact h
  | take | post =>
    have hne := of_decide_eq_false (he _ mem_cons_self)
    exact h.of_same (update_of_ne (Ne.symm hne) _ _) fun _ => Iff.rfl
  | block hn ht =>
    refine h.of_same rfl (won_update ?_ nofun)
    rw [ht]
    exact nofun
  | expire ht =>
    refine h.of_same rfl (won_update ?_ nofun)
    rw [hs.pending _ _ ht]
    exact nofun
  | hand hw =>
    have hne := of_decide_eq_false (he _ mem_cons_self)
    refine h.of_same rfl (won_update ?_ fun hp => hne (Phase.won.inj hp))
    rw [hs.pending _ _ (hw ▸ mem_cons_self)]
    exact nofun
  | finish ht =>
    rename_i ret t s'
    refine h.of_same rfl (won_update ?_ nofun)
    rw [ht]
    cases ret with
    | false => exact nofun
    | true =>
      have hne := of_decide_eq_false (he _ mem_cons_self)
      exact fun hp => hne (Phase.won.inj hp)

theorem Exclusive.take (hs : Step a [.took s] b) (t : T) :
    Exclusive b s (fun u => u = t ∨ claim u) := by
  cases hs with
  | take =>
    have h1 : a.count s = 1 := by
      rcases h.one with h0 | h1
      · omega
      · exact h1
    have hfree := h.free h1
    have hown (u : T) (hu : (u = t ∨ claim u) ∨ a.phase u = .won s) : u = t := by
      rcases hu with (hu | hu) | hu
      · exact hu
      · exact absurd (.inl hu) (hfree u)
      · exact absurd (.inr hu) (hfree u)
    constructor
    · simp only [update_self, h1]
      decide
    · simp only [update_self, h1]
      intro h0
      exact absurd h0 (by decide)
    · intro u v hu hv
      exact (hown u hu).trans (hown v hv).symm
    · intro u _ hw
      exact hfree u (.inr hw)

theorem Exclusive.finish (hs : Step a [.returned t s true] b) :
    Exclusive b s (fun u => u = t ∨ claim u) := by
  cases hs with
  | finish ht =>
    have ht : a.phase t = .won s := ht
    have hown (u : T) (hu : (u = t ∨ claim u) ∨ update a.phase t .idle u = .won s) :
        u = t := by
      by_cases hut : u = t
      · exact hut
      · rw [update_of_ne hut] at hu
        apply h.uniq u t ?_ (.inr ht)
        rcases hu with (hu | hu) | hu
        · exact absurd hu hut
        · exact .inl hu
        · exact .inr hu
    constructor
    · exact h.one
    · intro h1
      exact absurd (.inr ht) (h.free h1 t)
    · intro u v hu hv
      exact (hown u hu).trans (hown v hv).symm
    · intro u hu hw
      have hut := hown u (.inl hu)
      subst hut
      simp only [update_self, reduceCtorEq] at hw

theorem Exclusive.give (ht : claim t) (hst : Step a evs b)
    (he : evs = [.posted s] ∨ ∃ u, evs = [.handed u s, .posted s]) :
    Exclusive b s (fun u => claim u ∧ u ≠ t) := by
  have hc : a.count s = 0 := by
    rcases h.one with h0 | h1
    · exact h0
    · exact absurd (.inl ht) (h.free h1 t)
  have hnone (u : T) : ¬(claim u ∧ u ≠ t) := by
    rintro ⟨hu, hne⟩
    exact hne (h.uniq u t (.inl hu) (.inl ht))
  have hwon (u : T) (hu : a.phase u = .won s) : False := by
    have hut := h.uniq u t (.inr hu) (.inl ht)
    rw [hut] at hu
    exact h.apart t ht hu
  rcases he with he | ⟨u, he⟩
  · subst he
    cases hst with
    | post =>
      constructor
      · simp only [update_self, hc]
        decide
      · intro _ v hv
        exact hv.elim (hnone v) (hwon v)
      · intro v w hv
        exact (hv.elim (hnone v) (hwon v)).elim
      · intro v hv
        exact (hnone v hv).elim
  · subst he
    cases hst with
    | hand hw =>
      have hown (v : T) (hv : (claim v ∧ v ≠ t) ∨ update a.phase u (.won s) v = .won s) :
          v = u := by
        by_cases hvu : v = u
        · exact hvu
        · rw [update_of_ne hvu] at hv
          exact (hv.elim (hnone v) (hwon v)).elim
      constructor
      · exact h.one
      · intro h1
        rw [hc] at h1
        cases h1
      · intro v w hv hw
        exact (hown v hv).trans (hown w hw).symm
      · intro v hv
        exact (hnone v hv).elim

end

end Mdepx.Lib.Semaphore
