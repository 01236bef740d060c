import Mdepx.Callout.Dispatch
import Mdepx.Callout.Register

namespace Mdepx.Callout
open Lib List

/-! The ticks that successive callbacks count, against the true time. -/

section
variable {s : St}

/-- What `get_elapsed` returns to a callback entered after each of the given waits, the counter
being stored by every one of them. -/
def elapsedTicks (s : St) : List Nat → List Nat
  | [] => []
  | d :: ds =>
    let l := callbackEnter { s with now := s.now + d }
    l.ticksElapsed :: elapsedTicks l.s ds

def reloads (s : St) (n : Nat) : Nat := (count s + n) / (s.miTmr.maxcnt + 1)

theorem getElapsed_reloads (hm : s.miTmr.maxcnt < 2 ^ 32)
    (hs : s.miTmr.countSaved s.cpuid = count s) (hd : d ≤ s.miTmr.maxcnt) :
    getElapsed { s with now := s.now + d } + reloads s d = d := by
  have hle := count_le s
  have hcount : count { s with now := s.now + d } = (count s + d) % (s.miTmr.maxcnt + 1) :=
    (Nat.mod_add_mod _ _ _).symm
  rw [getElapsed_eq (s := { s with now := s.now + d }) hm (hs ▸ hle)]
  simp only [hs, hcount, reloads]
  rcases lt_or_ge (count s + d) (s.miTmr.maxcnt + 1) with hw | hw
  · rw [Nat.mod_eq_of_lt hw, Nat.div_eq_of_lt hw, if_neg (by omega)]
    omega
  · rw [Nat.mod_eq_sub_mod hw, Nat.mod_eq_of_lt (by omega), Nat.div_eq_sub_div (by omega) hw,
      Nat.div_eq_of_lt (by omega), if_pos (by omega)]
    omega

theorem reloads_add (s : St) (d n : Nat) :
    reloads s (d + n) = reloads s d + reloads { s with now := s.now + d } n := by
  have hcount : count { s with now := s.now + d } = (count s + d) % (s.miTmr.maxcnt + 1) :=
    (Nat.mod_add_mod _ _ _).symm
  have hsplit := Nat.div_add_mod (count s + d) (s.miTmr.maxcnt + 1)
  simp only [reloads, hcount]
  rw [← add_assoc, ← hsplit, add_assoc, Nat.mul_add_div (Nat.succ_pos _), hsplit]

theorem elapsedTicks_sum (hm : s.miTmr.maxcnt < 2 ^ 32)
    (hs : s.miTmr.countSaved s.cpuid = count s) (hds : ∀ d ∈ ds, d ≤ s.miTmr.maxcnt) :
    (elapsedTicks s ds).sum + reloads s ds.sum = ds.sum := by
  induction ds generalizing s with
  | nil =>
    have hle := count_le s
    simp only [elapsedTicks, reloads, sum_nil, add_zero, zero_add]
    exact Nat.div_eq_of_lt (by omega)
  | cons d ds ih =>
    obtain ⟨hd, hds⟩ := forall_mem_cons.1 hds
    have hone := getElapsed_reloads hm hs hd
    have hstored : (callbackEnter { s with now := s.now + d }).s.miTmr.countSaved s.cpuid =
        count { s with now := s.now + d } := Function.update_self _ _ _
    have hrest := ih (s := (callbackEnter { s with now := s.now + d }).s) hm hstored hds
    have hsame : reloads (callbackEnter { s with now := s.now + d }).s ds.sum =
        reloads { s with now := s.now + d } ds.sum := rfl
    have hfirst : (callbackEnter { s with now := s.now + d }).ticksElapsed =
        getElapsed { s with now := s.now + d } := rfl
    rw [hsame] at hrest
    simp only [elapsedTicks, sum_cons, reloads_add, hfirst]
    omega

/-- The ticks counted are the true ones exactly if the counter does not reload on the way. -/
theorem elapsed_ticks_exact_iff (hm : s.miTmr.maxcnt < 2 ^ 32)
    (hs : s.miTmr.countSaved s.cpuid = count s) (hds : ∀ d ∈ ds, d ≤ s.miTmr.maxcnt) :
    (elapsedTicks s ds).sum = ds.sum ↔ count s + ds.sum ≤ s.miTmr.maxcnt := by
  have hsum := elapsedTicks_sum hm hs hds
  have hzero : reloads s ds.sum = 0 ↔ count s + ds.sum < s.miTmr.maxcnt + 1 :=
    Nat.div_eq_zero_iff.trans (or_iff_right (Nat.succ_ne_zero _))
  constructor
  · intro he
    exact Nat.le_of_lt_succ (hzero.1 (by omega))
  · intro hle
    have h0 := hzero.2 (Nat.lt_succ_of_le hle)
    omega

theorem elapsed_ticks_exact_twice :
    (elapsedTicks { reset 65535 with now := 10, miTmr := { (reset 65535).miTmr with
      countSaved := fun _ => 10 } } [40000, 25525]).sum = 65525 :=
  (elapsed_ticks_exact_iff (by decide) (by decide) (by decide)).2 (by decide)

/-- The counter stands at its last value and reloads with the next tick, which is not counted. -/
theorem elapsed_ticks_lost_at_reload :
    ∃ s : St, s.miTmr.maxcnt = 65535 ∧ s.miTmr.countSaved s.cpuid = count s ∧
      (elapsedTicks s [1]).sum ≠ [1].sum :=
  ⟨{ reset 65535 with now := 65535, miTmr := { (reset 65535).miTmr with
    countSaved := fun _ => 65535 } }, rfl, by decide, by decide⟩

end
end Mdepx.Callout
