import Mathlib.Logic.Function.Basic

namespace Mdepx.Lib

/-- Register contexts of threads that take turns on a few processors: the saved context of every
thread that uses the registers, is not gone and is on no processor is the one it is owed. -/
def Kept (used : τ → Bool) (gone : τ → Prop) (on : κ → Option τ) (saved owed : τ → ρ) : Prop :=
  ∀ t, used t = true → ¬gone t → (∀ c, on c ≠ some t) → saved t = owed t

section
variable {used : τ → Bool} {gone gone' : τ → Prop} {on on' : κ → Option τ} {saved owed : τ → ρ}

theorem Kept.mono (h : Kept used gone on saved owed) (hg : ∀ t, gone t → gone' t)
    (hon : ∀ c t, on c = some t → ∃ d, on' d = some t) : Kept used gone' on' saved owed := by
  intro t hu hn hoff
  apply h t hu fun hgt => hn (hg t hgt)
  intro c hc
  obtain ⟨d, hd⟩ := hon c t hc
  exact hoff d hd

end
end Mdepx.Lib
