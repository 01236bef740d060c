import Mdepx.Sched.Safety

namespace Mdepx.Sched
open Lib

def Bounded (k : Kernel n) (a : Act n) : Prop := YieldsFree k a ∧ NoWrap k a

instance (k : Kernel n) (a : Act n) : Decidable (Bounded k a) :=
  inferInstanceAs (Decidable (_ ∧ _))

section
variable {k : Kernel n}

theorem spec_boot (n nprio : Nat) (usecToTicks : Nat → Nat) (count : Nat → Int) :
    (boot n nprio usecToTicks count).spec (fun _ => []) = ⟨count, fun _ => [], fun _ => .idle⟩ := by
  ext x y
  · rfl
  · rfl
  · show phaseOf (fun _ => []) x ((boot n nprio usecToTicks count).td x) = .idle
    apply phase_user
    show (if x < n then mdxThreadInit else _ : Thread n).pc = .user
    split
    · rfl
    · rfl

theorem run_lines (hn : ∀ s, 0 ≤ count s)
    (h : Run Next Bounded (boot n nprio usecToTicks count) k) :
    ∃ q loc, Placed k q loc ∧ Semaphore.Sound count (k.spec q) (semLog k.log) ∧
      ∀ s, Semaphore.line s (semLog k.log) = some (q (.sem s)) := by
  apply h.invariant fun k => ∃ q loc, Placed k q loc ∧
    Semaphore.Sound count (k.spec q) (semLog k.log) ∧
    ∀ s, Semaphore.line s (semLog k.log) = some (q (.sem s))
  · refine ⟨_, _, boot_placed n nprio usecToTicks count, ?_, fun _ => rfl⟩
    rw [spec_boot]
    exact .start count hn
  · rintro k a k' ⟨q, loc, hp, hs, hl⟩ ⟨hy, hw⟩ hx
    obtain ⟨q', loc', ht⟩ := hp.step hy (exec_step hx)
    obtain ⟨evs, hlog, hstep⟩ := ht.spec
    refine ⟨q', loc', ht.placed, ?_⟩
    rw [hlog]
    have hstep := hstep hs.nonneg hw
    exact ⟨hs.step hstep, Semaphore.line_step hl hstep⟩

theorem run_sound (hn : ∀ s, 0 ≤ count s)
    (h : Run Next Bounded (boot n nprio usecToTicks count) k) :
    ∃ q loc, Placed k q loc ∧ Semaphore.Sound count (k.spec q) (semLog k.log) := by
  obtain ⟨q, loc, hp, hs, -⟩ := run_lines hn h
  exact ⟨q, loc, hp, hs⟩

/-- Permits are conserved: no count is negative, a count that is positive has no waiters, what was
granted is what was there at the start or posted, and every wait that blocks is either handed a
permit and returns true or times out and returns false. -/
theorem permits_conserved (hn : ∀ s, 0 ≤ count s)
    (h : Run Next Bounded (boot n nprio usecToTicks count) k) :
    (∀ s, 0 ≤ (k.sem s).count ∧
      (0 < (k.sem s).count → listEmpty k.links (.inl (.sem s)) = true) ∧
      (k.sem s).count + Semaphore.grants s (semLog k.log) =
        count s + Semaphore.posts s (semLog k.log)) ∧
    ∀ t, (Semaphore.follow t (semLog k.log)).isSome := by
  obtain ⟨q, loc, hp, hs⟩ := run_sound hn h
  constructor
  · intro s
    refine ⟨hs.nonneg s, ?_, hs.balance s⟩
    intro hc
    exact (hp.lined.queues.empty_iff _).2 (hs.empty s hc)
  · intro t
    rw [hs.follows t]
    rfl

theorem permits_conserved_two_waits :
    ∃ k, Run Next Bounded (boot 1 2 id fun _ => 0) k ∧
      semLog k.log = [.returned 1 0 false, .timedOut 1 0, .blocked 1 0, .returned 1 0 true,
        .handed 1 0, .posted 0, .blocked 1 0] ∧
      (k.sem 0).count + Semaphore.grants 0 (semLog k.log) =
        0 + Semaphore.posts 0 (semLog k.log) := by
  obtain ⟨k, hrun, hlog⟩ := Run.of_guarded exec Bounded (boot 1 2 id fun _ => 0)
    [.create 0 1 1 0, .enter 0, .trap 0 false, .park 0, .pick 0, .switch 0,
      .wait 0 0 5, .trap 0 false, .pick 0, .switch 0, .ret 0,
      .post 0 0, .postNext 0, .postNext 0, .postNext 0, .enter 0, .trap 0 false, .park 0, .pick 0,
      .switch 0, .ret 0,
      .wait 0 0 5, .trap 0 false, .pick 0, .switch 0,
      .trap 0 true, .fire 0 1, .park 0, .pick 0, .switch 0, .ret 0]
    (fun k => semLog k.log = [.returned 1 0 false, .timedOut 1 0, .blocked 1 0,
      .returned 1 0 true, .handed 1 0, .posted 0, .blocked 1 0]) (by decide +kernel)
  exact ⟨k, hrun, hlog, ((permits_conserved (fun _ => le_refl 0) hrun).1 0).2.2⟩

/-- A post that nobody waits for takes the count from the largest `int` to the smallest. -/
theorem post_wraps_count :
    ∃ k, Run Next YieldsFree (boot 1 2 id fun _ => 2 ^ 31 - 1) k ∧ (k.sem 0).count < 0 := by
  apply Run.of_guarded exec YieldsFree (boot 1 2 id fun _ => 2 ^ 31 - 1) [.post 0 0]
    (fun k => (k.sem 0).count < 0)
  decide +kernel

/-- The list of a semaphore has the threads that have blocked and have not been removed since, in
the order in which they blocked. A post removes the first of them, a timeout only its own. -/
theorem waiters_in_order (hn : ∀ s, 0 ≤ count s)
    (h : Run Next Bounded (boot n nprio usecToTicks count) k) (s : Nat) :
    ∃ ts, Semaphore.line s (semLog k.log) = some ts ∧
      Ring k.links (.inl (.sem s)) (ts.map .inr) := by
  obtain ⟨q, loc, hp, -, hl⟩ := run_lines hn h
  exact ⟨q (.sem s), hl s, hp.lined.queues.ring (.sem s)⟩

theorem waiters_in_order_two :
    ∃ k, Run Next Bounded (boot 1 2 id fun _ => 0) k ∧
      semLog k.log = [.handed 1 0, .posted 0, .blocked 2 0, .blocked 1 0] ∧
      Ring k.links (.inl (.sem 0)) [.inr 2] := by
  obtain ⟨k, hrun, hlog⟩ := Run.of_guarded exec Bounded (boot 1 2 id fun _ => 0)
    [.create 0 1 1 0, .create 0 2 1 0, .enter 0, .trap 0 false, .park 0, .pick 0, .switch 0,
      .wait 0 0 5, .trap 0 false, .pick 0, .switch 0, .wait 0 0 0, .trap 0 false, .pick 0,
      .switch 0, .ret 0, .post 0 0, .postNext 0, .postNext 0, .postNext 0]
    (fun k => semLog k.log = [.handed 1 0, .posted 0, .blocked 2 0, .blocked 1 0])
    (by decide +kernel)
  obtain ⟨ts, hl, hr⟩ := waiters_in_order (fun _ => le_refl 0) hrun 0
  rw [hlog] at hl
  cases hl
  exact ⟨k, hrun, hlog, hr⟩

end
end Mdepx.Sched
