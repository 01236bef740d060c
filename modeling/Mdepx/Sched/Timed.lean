import Mdepx.Sched.Safety
import Mdepx.Callout.Cputime

namespace Mdepx.Sched
open Lib Cputime Function

/-! The scheduler on a timer of `mdx_callout_register`: whether a timed wait has a timeout. -/

def ticksOf (mt : MiTimer) (usec : Nat) : Nat :=
  ((mdxCalloutUsecToTicks mt (.ofNat usec)).getD 0).toNat

def Converts (mt : MiTimer) (k : Kernel n) : Act n → Prop
  | .wait _ s usec =>
    0 < (k.sem s).count ∨ usec = 0 ∨ (mdxCalloutUsecToTicks mt (.ofNat usec)).isSome
  | .create _ _ _ quantumUsec =>
    quantumUsec = 0 ∨ (mdxCalloutUsecToTicks mt (.ofNat quantumUsec)).isSome
  | _ => True

instance (mt : MiTimer) (k : Kernel n) : (a : Act n) → Decidable (Converts mt k a)
  | .wait .. => inferInstanceAs (Decidable (_ ∨ _ ∨ _))
  | .create .. => inferInstanceAs (Decidable (_ ∨ _))
  | .trap .. | .fire .. | .fireSleep .. | .park .. | .pick .. | .switch .. | .trywait ..
  | .post .. | .postNext .. | .tsleep .. | .yield .. | .terminate .. | .enter .. | .ret .. =>
    isTrue trivial

def Converting (mt : MiTimer) (k : Kernel n) (a : Act n) : Prop := YieldsFree k a ∧ Converts mt k a

instance (mt : MiTimer) (k : Kernel n) (a : Act n) : Decidable (Converting mt k a) :=
  inferInstanceAs (Decidable (_ ∧ _))

def OnTdList (k : Kernel n) (s t : Nat) : Prop := ∃ q, Queues k.links q ∧ t ∈ q (.sem s)

/-- A thread that `mdx_sem_timedwait (s, usec)` has put on a `td_list` has its `td_c` set to
`mdx_sem_cb`. -/
def TimedWaits (k : Kernel n) (usec : Nat) : Prop :=
  ∀ t s, OnTdList k s t → (k.td t).pc.call = some (.semTimedwait s usec) →
    ∃ c, (k.td t).tdC.On c (.semCb s)

structure Thread.Timed (th : Thread n) (ticks : Nat → Nat) : Prop where
  armed : th.state = .semWait ∨ th.state = .ack → th.pc.call = some (.semTimedwait s usec) →
    usec ≠ 0 → ticks usec ≠ 0 → ∃ c, th.tdC.On c (.semCb s)
  slept : th.state = .sleeping → th.pc.call = some .tsleep

section
variable {k k' : Kernel n} {q : Head → List Nat} {loc : Nat → Loc n} {ticks : Nat → Nat}
  {th th' : Thread n}

theorem Thread.Timed.congr (h : th.Timed ticks) (hs : th'.state = th.state)
    (hc : th'.pc.call = th.pc.call) (htd : th'.tdC = th.tdC) : th'.Timed ticks := by
  constructor
  · intro s usec hst hcall
    rw [hs] at hst
    rw [hc] at hcall
    rw [htd]
    exact h.armed hst hcall
  · intro hst
    rw [hs] at hst
    rw [hc]
    exact h.slept hst

theorem Thread.Timed.awake (h : th.state ∉ [.semWait, .ack, .sleeping]) : th.Timed ticks := by
  simp only [List.mem_cons, List.not_mem_nil, or_false, not_or] at h
  obtain ⟨hw, ha, hs⟩ := h
  exact ⟨fun hst => (hst.elim hw ha).elim, fun hst => (hs hst).elim⟩

theorem timed_update (h : ∀ u, (k.td u).Timed ticks) (hth : th.Timed ticks) (u : Nat) :
    (update k.td t th u).Timed ticks := by
  by_cases hu : u = t
  · subst hu
    rw [update_self]
    exact hth
  · rw [update_of_ne hu]
    exact h u

theorem Active.awake (h : TdState.Active st) : st ∉ [.semWait, .ack, .sleeping] := by
  rcases h with rfl | rfl | rfl
  · decide
  · decide
  · decide

theorem Thread.Timed.release {pc : Pc} (h : th.Timed ticks) (hp : trapPc th.pc intr = some pc)
    (hs : th.state = .semWait ∨ th.state = .sleeping) :
    Thread.Timed { th with pc := pc, state := .ack } ticks := by
  constructor
  · intro s usec _ hcall
    have hcall : th.pc.call = some (.semTimedwait s usec) := (trapPc_call hp).symm.trans hcall
    rcases hs with hs | hs
    · exact h.armed (.inl hs) hcall
    · rw [h.slept hs] at hcall
      cases hcall
  · intro hst
    cases hst

theorem Thread.Timed.interrupt {pc : Pc} (h : th.Timed ticks) (hp : trapPc th.pc intr = some pc) :
    Thread.Timed { th with pc := pc } ticks := h.congr rfl (trapPc_call hp) rfl

theorem Thread.Timed.wakeup (h : th.Timed ticks) (co : Callout n Unit) :
    Thread.Timed { th with sleepC := co } ticks := h.congr rfl rfl rfl

theorem Thread.Timed.picked (h : th.Timed ticks) : th.picked.Timed ticks := by
  by_cases hi : th.idle = true
  · exact h.congr (by simp [Thread.picked, hi]) rfl rfl
  · exact .awake (by simp [Thread.picked, hi])

theorem Thread.Timed.waiter (hoff : (mdxCalloutCancel th.tdC).Off) :
    (waiter c s usec (ticks usec) th).Timed ticks := by
  constructor
  · intro s' usec' _ hcall hu ht
    cases hcall
    refine ⟨c, ?_⟩
    simp only [Sched.waiter, if_neg hu]
    exact hoff.on_set c _ ht
  · intro hst
    cases hst

theorem Placed.timed_goOn (h : Placed k q loc) (hc : k.cpu c = ⟨.thread t, none⟩)
    (hp : ∀ call, (k.td t).pc ≠ .before call) (pc : Pc) :
    Thread.Timed { k.td t with pc := pc } ticks := by
  have hg := h.good t
  rw [h.caller hc hp] at hg
  exact .awake (Active.awake hg.2.2.1)

theorem Placed.timed_cancel (h : Placed k q loc) (hc : (k.cpu c).post = some ⟨t, s, .cancel⟩)
    (co : Callout n Func) : Thread.Timed { k.td t with tdC := co } ticks := by
  apply Thread.Timed.awake
  have hg := h.good t
  rw [h.cancelling hc] at hg
  rcases hg.2.2.2 with ⟨hst, -⟩ | ⟨hst, -⟩
  · simp [hst]
  · simp [hst]

theorem Placed.timed_step (h : Placed k q loc) (hs : Step k a k')
    (ht : ∀ t, (k.td t).Timed k.usecToTicks) (t : Nat) : (k'.td t).Timed k'.usecToTicks := by
  cases hs with
  | release hc hp hst => exact timed_update ht ((ht _).release hp hst) t
  | reap hc hp hst => exact timed_update ht (.awake (by simp [hst])) t
  | interrupt hc hp => exact timed_update ht ((ht _).interrupt hp) t
  | quantum | late | timeout | postAck | postWake | yield | terminate =>
    exact timed_update ht (.awake (by simp)) t
  | wakeup => exact timed_update ht ((ht _).wakeup _) t
  | resume | requeue | pick | take | tryTake | tryFail | post | postTo => exact ht t
  | switch => exact timed_update ht (ht _).picked t
  | switchTimed hc hq hi => exact timed_update ht (.awake (by simp [Thread.picked, hi])) t
  | block hc hp =>
    have hl := h.caller hc (by rw [hp]; simp)
    exact timed_update ht (.waiter (h.tdC_cancel hl)) t
  | postCancel hc => exact timed_update ht (h.timed_cancel hc _) t
  | sleep =>
    apply timed_update ht
    constructor
    · intro s usec hst
      rcases hst with hst | hst
      · cases hst
      · cases hst
    · intro _
      rfl
  | enter hc hp | retSem hc hp | ret hc hp =>
    exact timed_update ht (h.timed_goOn hc (by rw [hp]; simp) _) t
  | create => exact timed_update ht (.awake (by simp [mdxThreadSetup])) t

theorem step_ticks (hs : Step k a k') : k'.usecToTicks = k.usecToTicks := by
  cases hs with
  | _ => rfl

theorem run_timed (h : Run Next YieldsFree (boot n nprio ticks count) k) :
    k.usecToTicks = ticks ∧ ∃ q loc, Placed k q loc ∧ ∀ t, (k.td t).Timed ticks := by
  apply h.invariant fun k => k.usecToTicks = ticks ∧ ∃ q loc, Placed k q loc ∧
    ∀ t, (k.td t).Timed ticks
  · refine ⟨rfl, _, _, boot_placed n nprio ticks count, ?_⟩
    intro t
    apply Thread.Timed.awake
    show (if t < n then mdxThreadInit else _ : Thread n).state ∉ _
    split
    · simp [mdxThreadInit]
    · simp [mdxThreadInit]
  · rintro k a k' ⟨hk, q, loc, hp, ht⟩ hy hx
    obtain ⟨q', loc', htr⟩ := hp.step hy (exec_step hx)
    have hk' := (step_ticks (exec_step hx)).trans hk
    refine ⟨hk', q', loc', htr.placed, ?_⟩
    rw [← hk']
    apply hp.timed_step (exec_step hx)
    rw [hk]
    exact ht

theorem Placed.timedWaits (h : Placed k q loc) (ht : ∀ t, (k.td t).Timed ticks) (hu : usec ≠ 0)
    (hn : ticks usec ≠ 0) : TimedWaits k usec := by
  rintro t s ⟨q', hq', hmem⟩ hcall
  rw [← h.lined.queues.unique hq'] at hmem
  have hg := h.good t
  rcases h.in_sem hmem with ⟨d, hl⟩ | hl
  · rw [hl] at hg
    exact (ht t).armed (.inl hg.2.2.2.2.1) hcall hu hn
  · rw [hl] at hg
    exact (ht t).armed (.inr hg.2.2.2.1) hcall hu hn

theorem Placed.untimed (h : Placed k q loc) (hc : k.cpu c = ⟨.thread t, none⟩)
    (hp : (k.td t).pc = .user) (hi : (k.td t).idle = false) (hu : usec ≠ 0) :
    ¬TimedWaits (((k.setTd t (waiter c s usec 0 (k.td t))).enqueue (.sem s) t).note e) usec := by
  intro hw
  have hb := h.block hc hp hi s usec 0
  have hon :
      OnTdList (((k.setTd t (waiter c s usec 0 (k.td t))).enqueue (.sem s) t).note e) s t := by
    refine ⟨_, hb.lined.queues, ?_⟩
    rw [update_self]
    exact List.mem_append_right _ List.mem_cons_self
  have htd : (((k.setTd t (waiter c s usec 0 (k.td t))).enqueue (.sem s) t).note e).td t =
      waiter c s usec 0 (k.td t) := setTd_td_self ..
  obtain ⟨d, hon⟩ := hw t s hon (by rw [htd]; rfl)
  rw [htd] at hon
  have hoff : (waiter c s usec 0 (k.td t)).tdC.active = false := by
    simp [waiter, hu, mdxCalloutSetTicks, mdxCalloutInit]
  rw [hon.1] at hoff
  cases hoff

theorem untimed_run (mt : MiTimer) (hu : usec ≠ 0)
    (ht : mdxCalloutUsecToTicks mt (.ofNat usec) = some 0) :
    ∃ k, Run Next (Converting mt) (boot 1 2 (ticksOf mt) fun _ => 0) k ∧ ¬TimedWaits k usec := by
  obtain ⟨k, hrun, hc, hp, hi, hl, hn⟩ := Run.of_guarded exec (Converting mt)
    (boot 1 2 (ticksOf mt) fun _ => 0)
    [.create 0 1 1 0, .enter 0, .trap 0 false, .park 0, .pick 0, .switch 0]
    (fun k => k.cpu 0 = ⟨.thread 1, none⟩ ∧ (k.td 1).pc = .user ∧ (k.td 1).idle = false ∧
      (k.sem 0).lock = none ∧ (k.sem 0).count = 0) rfl
  obtain ⟨hk, q, loc, hpl, -⟩ := run_timed (hrun.mono fun _ _ ha => ha.1)
  have hticks : k.usecToTicks usec = 0 := by
    rw [hk, ticksOf, ht]
    rfl
  have hok : Converting mt k (.wait 0 0 usec) := by
    refine ⟨trivial, .inr (.inr ?_)⟩
    rw [ht]
    rfl
  have hx : Next k (.wait 0 0 usec) (((k.setTd 1 (waiter 0 0 usec 0 (k.td 1))).enqueue
      (.sem 0) 1).note (.sem (.blocked 1 0))) := by
    simp only [Next, exec, caller_of hc hp, mdxSemTimedwait, hi, hl, hn, hticks]
    rfl
  exact ⟨_, hrun.tail hok hx, hpl.untimed hc hp hi hu⟩

def Reached (cfg : Config) (mt : MiTimer) (k : Kernel n) : Prop :=
  ∃ mt' nprio count, mdxCalloutRegister cfg mt = some mt' ∧
    Run Next (Converting mt') (boot n nprio (ticksOf mt') count) k

/-- A wait for `usec` microseconds is timed in every state if and only if they are a tick or
more. -/
theorem timed_wait_has_timeout {mt mt' : MiTimer} {result : UInt32}
    (hreg : mdxCalloutRegister cfg mt = some mt') (hu : usec ≠ 0)
    (ht : mdxCalloutUsecToTicks mt' usec = some result) :
    (∀ n (k : Kernel n), Reached cfg mt k → TimedWaits k usec.toNat) ↔ result ≠ 0 := by
  have hu' : usec.toNat ≠ 0 := fun hz => hu (UInt32.toNat_inj.1 hz)
  have ht' : mdxCalloutUsecToTicks mt' (.ofNat usec.toNat) = some result := by
    rw [UInt32.ofNat_toNat]
    exact ht
  constructor
  · intro h hz
    subst hz
    obtain ⟨k, hrun, hk⟩ := untimed_run mt' hu' ht'
    exact hk (h 1 k ⟨mt', _, _, hreg, hrun⟩)
  · rintro hz n k ⟨mt₁, nprio, count, hreg₁, hrun⟩
    rw [hreg] at hreg₁
    cases hreg₁
    obtain ⟨-, q, loc, hp, hts⟩ := run_timed (hrun.mono fun _ _ ha => ha.1)
    apply hp.timedWaits hts hu'
    rw [ticksOf, ht']
    exact fun hn => hz (UInt32.toNat_inj.1 hn)

theorem timed_wait_has_timeout_gd32v :
    mdxCalloutUsecToTicks gd32vTimer 1000 = some 9 ∧
      ∀ n (k : Kernel n), Reached ⟨false, true⟩ gd32vTimer k → TimedWaits k 1000 := by
  have ht : mdxCalloutUsecToTicks gd32vTimer 1000 = some 9 := by decide +kernel
  have hreg : mdxCalloutRegister ⟨false, true⟩ gd32vTimer = some gd32vTimer := rfl
  exact ⟨ht, (timed_wait_has_timeout hreg (by decide) ht).2 (by decide)⟩

theorem short_wait_untimed :
    mdxCalloutUsecToTicks gd32vTimer 50 = some 0 ∧
      ∃ k : Kernel 1, Reached ⟨false, true⟩ gd32vTimer k ∧ ¬TimedWaits k 50 := by
  have ht : mdxCalloutUsecToTicks gd32vTimer 50 = some 0 := by decide +kernel
  obtain ⟨k, hrun, hk⟩ := untimed_run gd32vTimer (show 50 ≠ 0 by decide) ht
  exact ⟨ht, k, ⟨gd32vTimer, _, _, rfl, hrun⟩, hk⟩

end
end Mdepx.Sched
