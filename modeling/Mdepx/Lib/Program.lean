import Mathlib.Order.Defs.Unbundled

namespace Mdepx.Lib

/-! Programs that change a state and may stop, keeping the state they stopped in. -/

variable {ε σ α β : Type} {x : EStateM ε σ α} {f : α → EStateM ε σ β}

def final : EStateM.Result ε σ α → σ
  | .ok _ s => s
  | .error _ s => s

theorem bind_of_ok (h : x s = .ok a s') : (x >>= f) s = f a s' := by
  simp only [bind, EStateM.bind, h]

theorem bind_of_error (h : x s = .error e s') : (x >>= f) s = .error e s' := by
  simp only [bind, EStateM.bind, h]

def Halts (x : EStateM ε σ α) (s : σ) : Prop := ∃ a s', x s = .ok a s'

theorem Halts.of_eq (h : x s = .ok a s') : Halts x s := ⟨a, s', h⟩

theorem not_halts (h : x s = .error e s') : ¬Halts x s := by
  intro ⟨a, s₁, hr⟩
  cases h.symm.trans hr

theorem halts_congr {y : EStateM ε σ α} (h : x s = y t) : Halts x s ↔ Halts y t := by
  unfold Halts
  rw [h]

theorem halts_bind (h : x s = .ok a s') : Halts (x >>= f) s ↔ Halts (f a) s' := by
  unfold Halts
  rw [bind_of_ok h]

theorem halts_bind_total (hf : ∀ a s', Halts (f a) s') : Halts (x >>= f) s ↔ Halts x s := by
  cases hr : x s with
  | ok a s' => exact (halts_bind hr).trans (iff_of_true (hf a s') ⟨a, s', hr⟩)
  | error e s' => exact iff_of_false (not_halts (bind_of_error hr)) (not_halts hr)

/-- A run from `s` returns with `Q` or stops with `E`. -/
def Ensures (x : EStateM ε σ α) (s : σ) (Q : α → σ → Prop) (E : ε → σ → Prop) : Prop :=
  match x s with
  | .ok a s' => Q a s'
  | .error e s' => E e s'

namespace Ensures

variable {Q Q' : α → σ → Prop} {E E' : ε → σ → Prop}

theorem of_ok (h : x s = .ok a s') (hQ : Q a s') : Ensures x s Q E := by
  unfold Ensures
  rw [h]
  exact hQ

theorem of_error (h : x s = .error e s') (hE : E e s') : Ensures x s Q E := by
  unfold Ensures
  rw [h]
  exact hE

theorem of_eq {y : EStateM ε σ α} (he : x s = y t) (h : Ensures y t Q E) : Ensures x s Q E := by
  unfold Ensures at h ⊢
  rw [he]
  exact h

theorem bind {P : β → σ → Prop} (hx : Ensures x s Q E)
    (hf : ∀ a s', Q a s' → Ensures (f a) s' P E) : Ensures (x >>= f) s P E := by
  unfold Ensures at hx
  cases hr : x s with
  | ok a s' =>
    rw [hr] at hx
    have hb := hf a s' hx
    unfold Ensures at hb ⊢
    rw [bind_of_ok hr]
    exact hb
  | error =>
    rw [hr] at hx
    exact of_error (bind_of_error hr) hx

theorem mono (h : Ensures x s Q E) (hQ : ∀ a s', Q a s' → Q' a s') (hE : ∀ e s', E e s' → E' e s') :
    Ensures x s Q' E' := by
  unfold Ensures at h
  cases hr : x s with
  | ok a s' =>
    rw [hr] at h
    exact of_ok hr (hQ a s' h)
  | error e s' =>
    rw [hr] at h
    exact of_error hr (hE e s' h)

theorem returns (h : Ensures x s Q E) (hE : ∀ e s', ¬ E e s') :
    ∃ a s', x s = .ok a s' ∧ Q a s' := by
  unfold Ensures at h
  cases hr : x s with
  | ok a s' =>
    rw [hr] at h
    exact ⟨a, s', rfl, h⟩
  | error e s' =>
    rw [hr] at h
    exact absurd h (hE e s')

theorem final_iff {P : σ → Prop} : Ensures x s (fun _ => P) (fun _ => P) ↔ P (final (x s)) := by
  unfold Ensures
  cases x s with
  | ok | error => exact Iff.rfl

end Ensures

/-- Every run goes along `R` and stops only for a reason in `T`. -/
def Along (R : σ → σ → Prop) (T : ε → Prop) (x : EStateM ε σ α) : Prop :=
  ∀ s, Ensures x s (fun _ s' => R s s') fun e s' => R s s' ∧ T e

namespace Along

variable {R : σ → σ → Prop} {T : ε → Prop}

theorem pure [Std.Refl R] (a : α) : Along R T (Pure.pure a : EStateM ε σ α) :=
  fun s => .of_ok rfl (Std.Refl.refl s)

theorem throw [Std.Refl R] (h : T e) : Along R T (throw e : EStateM ε σ α) :=
  fun s => .of_error rfl ⟨Std.Refl.refl s, h⟩

theorem bind_of [IsTrans σ R] {P : α → Prop}
    (hx : ∀ s, Ensures x s (fun a s' => R s s' ∧ P a) fun e s' => R s s' ∧ T e)
    (hf : ∀ a, P a → Along R T (f a)) : Along R T (x >>= f) := by
  intro s
  apply Ensures.bind (hx s)
  intro a s' ⟨hs, ha⟩
  apply (hf a ha s').mono
  · intro b s'' hs'
    exact IsTrans.trans _ _ _ hs hs'
  · intro e s'' hs'
    exact ⟨IsTrans.trans _ _ _ hs hs'.1, hs'.2⟩

theorem bind [IsTrans σ R] (hx : Along R T x) (hf : ∀ a, Along R T (f a)) :
    Along R T (x >>= f) :=
  bind_of (fun s => (hx s).mono (fun _ _ h => ⟨h, trivial⟩) fun _ _ h => h) fun a _ => hf a

theorem ite {c : Prop} [Decidable c] {y : EStateM ε σ α} (hx : Along R T x) (hy : Along R T y) :
    Along R T (if c then x else y) := by
  split
  · exact hx
  · exact hy

theorem returns (h : Along R T x) (hT : ∀ e, ¬ T e) (s : σ) :
    ∃ a s', x s = .ok a s' ∧ R s s' :=
  (h s).returns fun e _ he => hT e he.2

end Along

end Mdepx.Lib
