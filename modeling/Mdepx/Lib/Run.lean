import Mathlib.Logic.Basic

namespace Mdepx.Lib
open List

/-- The runs of a labelled transition system all of whose steps meet a condition on their
label and on the state they are taken in. -/
inductive Run (step : σ → ι → σ → Prop) (ok : σ → ι → Prop) : σ → σ → Prop where
  | refl (s : σ) : Run step ok s s
  | tail : Run step ok s t → ok t i → step t i u → Run step ok s u

variable {σ ι : Type} {step : σ → ι → σ → Prop} {ok ok' : σ → ι → Prop} {s t : σ}

/-- What holds at the start and is kept by every step holds in every state reached. -/
theorem Run.invariant (Inv : σ → Prop) (h : Run step ok s t) (hs : Inv s)
    (hstep : ∀ {t i u}, Inv t → ok t i → step t i u → Inv u) : Inv t := by
  induction h with
  | refl => exact hs
  | tail _ hok hst ih => exact hstep ih hok hst

theorem Run.mono (h : Run step ok s t) (hok : ∀ t i, ok t i → ok' t i) :
    Run step ok' s t := by
  induction h with
  | refl => exact .refl _
  | tail _ ho hst ih => exact .tail ih (hok _ _ ho) hst

theorem Run.trans (h : Run step ok s t) (h' : Run step ok t u) : Run step ok s u := by
  induction h' with
  | refl => exact h
  | tail _ ho hst ih => exact .tail ih ho hst

theorem Run.head (hok : ok s i) (hst : step s i t) (h : Run step ok t u) : Run step ok s u :=
  Run.trans (.tail (.refl s) hok hst) h

theorem Run.le (f : σ → Nat) (h : Run step ok s t) (hf : ∀ {t i u}, step t i u → f t ≤ f u) :
    f s ≤ f t :=
  h.invariant (fun t => f s ≤ f t) (Nat.le_refl _) fun hle _ hst => Nat.le_trans hle (hf hst)

/-- A number that grows with exactly the steps that miss a condition stays the same in exactly the
runs whose steps all meet it. -/
theorem Run.constant_iff (f : σ → Nat) (h : Run step ok s t)
    (hgood : ∀ {t i u}, step t i u → ok' t i → f u = f t)
    (hbad : ∀ {t i u}, step t i u → ¬ok' t i → f t < f u) :
    f t = f s ↔ Run step ok' s t := by
  have hle {t i u} (hst : step t i u) : f t ≤ f u := by
    by_cases hok : ok' t i
    · exact Nat.le_of_eq (hgood hst hok).symm
    · exact Nat.le_of_lt (hbad hst hok)
  constructor
  · intro he
    induction h with
    | refl => exact .refl _
    | @tail t i u hr _ hst ih =>
      have hst' := hr.le f hle
      by_cases hok : ok' t i
      · exact .tail (ih ((hgood hst hok).symm.trans he)) hok hst
      · have hlt := hbad hst hok
        omega
  · intro hr
    exact hr.invariant (fun t => f t = f s) rfl fun he hok hst => (hgood hst hok).trans he

theorem Run.of_foldlM {f : σ → ι → Option σ} {is : List ι}
    (hf : ∀ i ∈ is, ∀ s t, f s i = some t → ok s i ∧ step s i t)
    (h : is.foldlM f s = some t) : Run step ok s t := by
  induction is generalizing s with
  | nil =>
    cases h
    exact .refl _
  | cons i is ih =>
    rw [foldlM_cons] at h
    obtain ⟨u, hu, h⟩ := Option.bind_eq_some_iff.1 h
    obtain ⟨hok, hst⟩ := hf i mem_cons_self s u hu
    exact .head hok hst (ih (fun j hj => hf j (mem_cons_of_mem _ hj)) h)

def checked (ok : σ → ι → Prop) [∀ s i, Decidable (ok s i)] (f : σ → ι → Option σ) (s : σ)
    (i : ι) : Option σ :=
  if ok s i then f s i else none

def guarded (ok : σ → ι → Prop) [∀ s i, Decidable (ok s i)] (f : σ → ι → Except ε σ) (s : σ)
    (i : ι) : Option σ :=
  if ok s i then (f s i).toOption else none

theorem Run.of_evaluated {ok : σ → ι → Prop} [∀ s i, Decidable (ok s i)] {f : σ → ι → Option σ}
    (hf : ∀ s i t, f s i = some t → step s i t) (is : List ι) (p : σ → Prop) [DecidablePred p]
    (h : (is.foldlM (checked ok f) s).map (fun s => decide (p s)) = some true) :
    ∃ t, Run step ok s t ∧ p t := by
  obtain ⟨t, ht, hp⟩ := Option.map_eq_some_iff.1 h
  refine ⟨t, Run.of_foldlM ?_ ht, of_decide_eq_true hp⟩
  intro i _ s t hx
  unfold checked at hx
  split at hx
  · rename_i hok
    exact ⟨hok, hf s i t hx⟩
  · cases hx

theorem Run.of_checked (f : σ → ι → Option σ) (ok : σ → ι → Prop) [∀ s i, Decidable (ok s i)]
    (s : σ) (is : List ι) (p : σ → Prop) [DecidablePred p]
    (h : (is.foldlM (checked ok f) s).map (fun s => decide (p s)) = some true) :
    ∃ t, Run (fun s i t => f s i = some t) ok s t ∧ p t :=
  Run.of_evaluated (fun _ _ _ hx => hx) is p h

theorem Run.of_guarded (f : σ → ι → Except ε σ) (ok : σ → ι → Prop) [∀ s i, Decidable (ok s i)]
    (s : σ) (is : List ι) (p : σ → Prop) [DecidablePred p]
    (h : (is.foldlM (guarded ok f) s).map (fun s => decide (p s)) = some true) :
    ∃ t, Run (fun s i t => f s i = .ok t) ok s t ∧ p t := by
  apply Run.of_evaluated (f := fun s i => (f s i).toOption) ?_ is p h
  intro s i t hx
  cases he : f s i with
  | error =>
    rw [he] at hx
    cases hx
  | ok =>
    rw [he] at hx
    cases hx
    rfl

end Mdepx.Lib
