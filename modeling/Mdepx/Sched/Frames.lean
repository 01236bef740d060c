import Mdepx.Sched.Safety

namespace Mdepx.Sched
open Lib Function

/-! The stack frames that callouts point into, by the number of the call. -/

structure Frames (n : Nat) where
  kernel : Kernel n
  /-- How many of these calls each thread has made. -/
  calls : Nat → Nat
  /-- The call whose token the arg of `td_c` is. -/
  token : Nat → Nat
  /-- The call whose local variable `sleepC` is. -/
  sleeper : Nat → Nat
  /-- The local callouts of the calls before, as they were left. -/
  left : Nat → Nat → Callout n Unit

namespace Frames

def waits (f : Frames n) (k : Kernel n) (t usec : Nat) : Frames n where
  kernel := k
  calls := update f.calls t (f.calls t + 1)
  token :=
    if (k.td t).pc = .user ∨ usec = 0 then f.token
    else update f.token t (f.calls t + 1)
  sleeper := f.sleeper
  left := f.left

def sleeps (f : Frames n) (k : Kernel n) (t : Nat) : Frames n where
  kernel := k
  calls := update f.calls t (f.calls t + 1)
  token := f.token
  sleeper := update f.sleeper t (f.calls t + 1)
  left := update f.left t
    (update (f.left t) (f.sleeper t) (f.kernel.td t).sleepC)

def next (f : Frames n) (k : Kernel n) : Act n → Frames n
  | .wait c _ usec =>
    match f.kernel.caller c with
    | some t => f.waits k t usec
    | none => { f with kernel := k }
  | .tsleep c _ =>
    match f.kernel.caller c with
    | some t => f.sleeps k t
    | none => { f with kernel := k }
  | _ => { f with kernel := k }

def exec (f : Frames n) (a : Act n) : Except Stop (Frames n) :=
  (Sched.exec f.kernel a).map fun k => f.next k a

def Next (f : Frames n) (a : Act n) (f' : Frames n) : Prop := f.exec a = .ok f'

def boot (n nprio : Nat) (usecToTicks : Nat → Nat) (count : Nat → Int) : Frames n :=
  ⟨Sched.boot n nprio usecToTicks count, fun _ => 0, fun _ => 0, fun _ => 0,
    fun _ _ => .zero ()⟩

structure Lasting (f : Frames n) : Prop where
  semCb : ∀ t s, (f.kernel.td t).tdC.active = true → (f.kernel.td t).tdC.func = .semCb s →
    (∃ usec, (f.kernel.td t).pc.call = some (.semTimedwait s usec)) ∧ f.token t = f.calls t
  tsleepCb : ∀ t, (f.kernel.td t).sleepC.active = true →
    (f.kernel.td t).pc.call = some .tsleep ∧ f.sleeper t = f.calls t
  left : ∀ t i, (f.left t i).active = false
  dead : ∀ t, (f.kernel.td t).life = .dead →
    (f.kernel.td t).tdC.active = false ∧ (f.kernel.td t).sleepC.active = false

end Frames

structure Thread.Framed (th : Thread n) (calls token sleeper : Nat) : Prop where
  semCb : th.tdC.active = true → th.tdC.func = .semCb s →
    (∃ usec, th.pc.call = some (.semTimedwait s usec)) ∧ token = calls
  tsleepCb : th.sleepC.active = true → th.pc.call = some .tsleep ∧ sleeper = calls

def Thread.Loose (th : Thread n) : Prop :=
  (th.tdC.active = true → th.tdC.func = .schedCb) ∧ th.sleepC.active = false

section
variable {k k' : Kernel n} {q : Head → List Nat} {loc : Nat → Loc n} {th th' : Thread n}
  {f f' : Frames n}

theorem Thread.Loose.framed (h : th.Loose) : th.Framed calls token sleeper := by
  constructor
  · intro s ha hf
    rw [h.1 ha] at hf
    cases hf
  · intro ha
    rw [h.2] at ha
    cases ha

theorem cancel_active (co : Callout n φ) : (mdxCalloutCancel co).active = false := by
  unfold mdxCalloutCancel
  split
  · rfl
  · rename_i ha
    exact Bool.eq_false_iff.2 ha

theorem Thread.Framed.congr (h : th.Framed calls token sleeper)
    (hd : th'.tdC = th.tdC ∨ th'.tdC.active = false)
    (hs : th'.sleepC = th.sleepC ∨ th'.sleepC.active = false) (hc : th'.pc.call = th.pc.call) :
    th'.Framed calls token sleeper := by
  constructor
  · intro s ha hf
    rw [hc]
    rcases hd with hd | hd
    · rw [hd] at ha hf
      exact h.semCb ha hf
    · rw [hd] at ha
      cases ha
  · intro ha
    rw [hc]
    rcases hs with hs | hs
    · rw [hs] at ha
      exact h.tsleepCb ha
    · rw [hs] at ha
      cases ha

theorem Placed.loose (h : Placed k q loc) (hc : k.cpu c = ⟨.thread t, none⟩)
    (hp : ∀ call, (k.td t).pc ≠ .before call) : (k.td t).Loose := by
  have hg := h.good t
  rw [h.caller hc hp] at hg
  refine ⟨?_, hg.2.1.1⟩
  intro ha
  rcases hg.2.2.2 with ⟨hoff, -⟩ | ⟨-, -, hon⟩
  · rw [hoff] at ha
    cases ha
  · exact hon.2.2

theorem Placed.chosen_loose (h : Placed k q loc) (hc : k.cpu c = ⟨.chosen t, none⟩) :
    (k.td t).Loose := by
  have hg := h.good t
  rw [h.chosen hc] at hg
  refine ⟨?_, hg.2.2.2.1⟩
  intro ha
  rw [hg.2.2.1.1] at ha
  cases ha

def Frames.Fits (f : Frames n) (td : Nat → Thread n) : Prop :=
  ∀ t, (td t).Framed (f.calls t) (f.token t) (f.sleeper t)

theorem Frames.Fits.update (h : f.Fits k.td)
    (hth : th.Framed (f.calls t) (f.token t) (f.sleeper t)) :
    f.Fits (update k.td t th) := by
  intro u
  by_cases hu : u = t
  · subst hu
    rw [update_self]
    exact hth
  · rw [update_of_ne hu]
    exact h u

theorem Placed.framed_step (h : Placed k q loc) (hs : Step k a k') (hf : f.Fits k.td)
    (hw : ∀ c s usec, a ≠ .wait c s usec) (ht : ∀ c ticks, a ≠ .tsleep c ticks) :
    f.Fits k'.td := by
  cases hs with
  | release _ hp | reap _ hp | interrupt _ hp =>
    exact hf.update ((hf _).congr (.inl rfl) (.inl rfl) (trapPc_call hp))
  | quantum | late | timeout => exact hf.update ((hf _).congr (.inr rfl) (.inl rfl) rfl)
  | wakeup => exact hf.update ((hf _).congr (.inl rfl) (.inr rfl) rfl)
  | resume | requeue | pick | tryTake | tryFail | post | postTo => exact hf
  | switch | postAck | postWake => exact hf.update ((hf _).congr (.inl rfl) (.inl rfl) rfl)
  | switchTimed hc hq =>
    apply hf.update
    apply Thread.Loose.framed
    have hoff := (h.good_at (h.chosen hc)).2.2.1
    exact ⟨fun _ => (hoff.on_set _ _ hq).2.2, (h.chosen_loose hc).2⟩
  | take | block => exact absurd rfl (hw _ _ _)
  | postCancel => exact hf.update ((hf _).congr (.inr (cancel_active _)) (.inl rfl) rfl)
  | sleep => exact absurd rfl (ht _ _)
  | yield hc hp | enter hc hp | retSem hc hp | ret hc hp =>
    have hl := h.loose hc (by rw [hp]; simp)
    exact hf.update (Thread.Loose.framed ⟨hl.1, hl.2⟩)
  | terminate hc hp =>
    have hl := h.loose hc (by rw [hp]; simp)
    apply hf.update
    apply Thread.Loose.framed
    refine ⟨?_, hl.2⟩
    intro ha
    rw [cancel_active] at ha
    cases ha
  | create =>
    apply hf.update
    apply Thread.Loose.framed
    exact ⟨fun _ => rfl, rfl⟩

theorem Frames.Fits.waits {td td' : Nat → Thread n} (h : f.Fits td)
    (hne : ∀ u, u ≠ t → td' u = td u)
    (ht : (td' t).Framed (f.calls t + 1) ((f.waits k t usec).token t) (f.sleeper t)) :
    (f.waits k t usec).Fits td' := by
  intro u
  by_cases hu : u = t
  · subst hu
    show (td' u).Framed (Function.update f.calls u (f.calls u + 1) u) _ _
    rw [update_self]
    exact ht
  · have htok : (f.waits k t usec).token u = f.token u := by
      simp only [Frames.waits]
      split
      · rfl
      · exact update_of_ne hu _ _
    rw [hne u hu, htok]
    show (td u).Framed (Function.update f.calls t (f.calls t + 1) u) _ _
    rw [update_of_ne hu]
    exact h u

theorem Frames.Fits.sleeps {td td' : Nat → Thread n} (h : f.Fits td)
    (hne : ∀ u, u ≠ t → td' u = td u)
    (ht : (td' t).Framed (f.calls t + 1) (f.token t) (f.calls t + 1)) :
    (f.sleeps k t).Fits td' := by
  intro u
  simp only [Frames.sleeps]
  by_cases hu : u = t
  · subst hu
    rw [update_self, update_self]
    exact ht
  · rw [update_of_ne hu, update_of_ne hu, hne u hu]
    exact h u

theorem waiter_sleepC (c : Fin n) (s usec ticks : Nat) (th : Thread n) :
    (waiter c s usec ticks th).sleepC = th.sleepC := by
  unfold waiter
  simp only
  split
  · rfl
  · rfl

theorem waiter_framed (h : th.Loose) (hk : k.td t = waiter c s usec ticks th) :
    (k.td t).Framed (f.calls t + 1) ((f.waits k t usec).token t) sleeper := by
  constructor
  · intro s' ha hf
    by_cases hu : usec = 0
    · rw [hk] at ha
      simp only [waiter, if_pos hu] at ha
      rw [cancel_active] at ha
      cases ha
    · have hp : (k.td t).pc ≠ .user := by
        rw [hk]
        simp [waiter]
      have hs : s' = s := by
        rw [hk] at ha hf
        simp only [waiter, if_neg hu, mdxCalloutSetTicks, mdxCalloutInit, Bool.false_eq_true,
          if_false] at ha hf
        split at hf
        · rename_i hz
          rw [if_pos hz] at ha
          cases ha
        · cases hf
          rfl
      subst hs
      refine ⟨⟨usec, ?_⟩, ?_⟩
      · rw [hk]
        rfl
      · simp only [Frames.waits, hp, hu, or_self, if_false, update_self]
  · intro ha
    rw [hk, waiter_sleepC, h.2] at ha
    cases ha

theorem Placed.framed_wait (h : Placed f.kernel q loc) (hs : Step f.kernel (.wait c s usec) k')
    (hf : f.Fits f.kernel.td) : (f.next k' (.wait c s usec)).Fits k'.td := by
  cases hs with
  | take hc hp =>
    have hl := h.loose hc (by rw [hp]; simp)
    simp only [Frames.next, caller_of hc hp]
    exact hf.waits (fun _ _ => rfl) hl.framed
  | block hc hp =>
    have hl := h.loose hc (by rw [hp]; simp)
    simp only [Frames.next, caller_of hc hp]
    apply hf.waits fun u hu => update_of_ne hu _ _
    exact waiter_framed hl (setTd_td_self ..)

theorem Frames.Fits.sleep (hf : f.Fits f.kernel.td) (hs : Step f.kernel (.tsleep c ticks) k') :
    (f.next k' (.tsleep c ticks)).Fits k'.td := by
  cases hs with
  | sleep hc hp =>
    simp only [Frames.next, caller_of hc hp]
    apply hf.sleeps fun u hu => update_of_ne hu _ _
    rw [setTd_td_self]
    constructor
    · intro s ha
      rw [cancel_active] at ha
      cases ha
    · intro _
      exact ⟨rfl, rfl⟩

theorem Placed.dead (h : Placed k q loc) (hd : (k.td t).life = .dead) : (k.td t).Still := by
  have hg := h.good t
  generalize loc t = l at hg ⊢
  cases l with
  | dead => exact hg.2.1
  | _ =>
    exact absurd (hd.symm.trans hg.1) (by decide)

theorem next_kernel (f : Frames n) (k : Kernel n) (a : Act n) : (f.next k a).kernel = k := by
  unfold Frames.next
  split
  · split
    · rfl
    · rfl
  · split
    · rfl
    · rfl
  · rfl

theorem next_other (hw : ∀ c s usec, a ≠ .wait c s usec) (ht : ∀ c ticks, a ≠ .tsleep c ticks) :
    f.next k a = { f with kernel := k } := by
  cases a with
  | wait c s usec => exact absurd rfl (hw c s usec)
  | tsleep c ticks => exact absurd rfl (ht c ticks)
  | _ => rfl

theorem Placed.framed (h : Placed f.kernel q loc) (hs : Step f.kernel a k')
    (hf : f.Fits f.kernel.td) : (f.next k' a).Fits k'.td := by
  by_cases hw : ∃ c s usec, a = .wait c s usec
  · obtain ⟨c, s, usec, rfl⟩ := hw
    exact h.framed_wait hs hf
  by_cases ht : ∃ c ticks, a = .tsleep c ticks
  · obtain ⟨c, ticks, rfl⟩ := ht
    exact hf.sleep hs
  have hw (c s usec) : a ≠ .wait c s usec := fun he => hw ⟨c, s, usec, he⟩
  have ht (c ticks) : a ≠ .tsleep c ticks := fun he => ht ⟨c, ticks, he⟩
  rw [next_other hw ht]
  exact h.framed_step hs hf hw ht

theorem Placed.left_off (h : Placed f.kernel q loc) (hs : Step f.kernel a k')
    (hl : ∀ t i, (f.left t i).active = false) (t i : Nat) :
    ((f.next k' a).left t i).active = false := by
  cases hs with
  | take hc hp | block hc hp =>
    simp only [Frames.next, caller_of hc hp]
    exact hl t i
  | sleep hc hp =>
    have hoff := (h.loose hc (by rw [hp]; simp)).2
    simp only [Frames.next, caller_of hc hp, Frames.sleeps, update_apply]
    split
    · rw [update_apply]
      split
      · exact hoff
      · exact hl _ i
    · exact hl t i
  | _ => exact hl t i

def Frames.YieldsFree (f : Frames n) (a : Act n) : Prop := Sched.YieldsFree f.kernel a

instance (f : Frames n) (a : Act n) : Decidable (f.YieldsFree a) :=
  inferInstanceAs (Decidable (Sched.YieldsFree f.kernel a))

theorem run_framed
    (h : Run Frames.Next Frames.YieldsFree (Frames.boot n nprio usecToTicks count) f) :
    (∃ q loc, Placed f.kernel q loc) ∧ f.Fits f.kernel.td ∧ ∀ t i, (f.left t i).active = false := by
  apply h.invariant fun f => (∃ q loc, Placed f.kernel q loc) ∧ f.Fits f.kernel.td ∧
    ∀ t i, (f.left t i).active = false
  · refine ⟨⟨_, _, boot_placed n nprio usecToTicks count⟩, ?_, fun _ _ => rfl⟩
    intro t
    apply Thread.Loose.framed
    show (if t < n then mdxThreadInit else _ : Thread n).Loose
    split
    · exact ⟨fun _ => rfl, rfl⟩
    · exact ⟨fun _ => rfl, rfl⟩
  · rintro f a f' ⟨⟨q, loc, hp⟩, hf, hl⟩ hy hx
    obtain ⟨k, hk, rfl⟩ := map_ok hx
    have hs := exec_step hk
    obtain ⟨q', loc', ht⟩ := hp.step hy hs
    rw [next_kernel]
    exact ⟨⟨q', loc', ht.placed⟩, hp.framed hs hf, hp.left_off hs hl⟩

/-- No active callout outlives the frame it points into, or the thread it is embedded in. -/
theorem no_callout_outlives_frame
    (h : Run Frames.Next Frames.YieldsFree (Frames.boot n nprio usecToTicks count) f) :
    f.Lasting := by
  obtain ⟨⟨q, loc, hp⟩, hf, hl⟩ := run_framed h
  refine ⟨fun t s => (hf t).semCb, fun t => (hf t).tsleepCb, hl, ?_⟩
  intro t hd
  have hoff := hp.dead hd
  exact ⟨hoff.1.1, hoff.2.1⟩

theorem no_callout_outlives_frame_second_call :
    ∃ f, Run Frames.Next Frames.YieldsFree (Frames.boot 1 2 id fun _ => 0) f ∧
      (f.kernel.td 1).tdC.active = true ∧ (f.kernel.td 1).tdC.func = .semCb 0 ∧
      f.calls 1 = 2 ∧ f.token 1 = 2 := by
  obtain ⟨f, hrun, ha, hf, hc⟩ := Run.of_guarded Frames.exec Frames.YieldsFree
    (Frames.boot 1 2 id fun _ => 0)
    [.create 0 1 1 0, .enter 0, .trap 0 false, .park 0, .pick 0, .switch 0,
      .tsleep 0 5, .trap 0 false, .pick 0, .switch 0, .trap 0 true, .fireSleep 0 1, .park 0,
      .pick 0, .switch 0, .ret 0, .wait 0 0 5, .trap 0 false]
    (fun f => (f.kernel.td 1).tdC.active = true ∧ (f.kernel.td 1).tdC.func = .semCb 0 ∧
      f.calls 1 = 2) (by decide +kernel)
  exact ⟨f, hrun, ha, hf, hc, ((no_callout_outlives_frame hrun).semCb 1 0 ha hf).2.trans hc⟩

end
end Mdepx.Sched
