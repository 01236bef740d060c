import Mdepx.Sched.Safety

namespace Mdepx.Sched
open Lib Function

/-! Runs in which any thread may yield. -/

/-- Without the lists that lead to a node by mistake. -/
def Callout.calm (co : Callout n Func) : Callout n Func :=
  if co.active = true ∧ co.func ≠ .schedCb then { co with linked := co.linked.take 1 }
  else ⟨false, [], co.func⟩

def Thread.calm (th : Thread n) : Thread n := { th with quantum := 0, tdC := th.tdC.calm }

/-- The scheduler with all quantum callouts taken out. -/
def Kernel.calm (k : Kernel n) : Kernel n := { k with td := fun t => (k.td t).calm }

section
variable {k k' : Kernel n} {q : Head → List Nat} {loc : Nat → Loc n} {co : Callout n Func}
  {th : Thread n}

theorem calm_setTd (k : Kernel n) (t : Nat) (th : Thread n) :
    (k.setTd t th).calm = k.calm.setTd t th.calm := by
  have htd : (fun u => (update k.td t th u).calm) =
      update (fun u => (k.td u).calm) t th.calm := by
    funext u
    by_cases hu : u = t
    · subst hu
      simp only [update_self]
    · simp only [update_of_ne hu]
  simp only [Kernel.calm, Kernel.setTd, htd]

section
variable (co : Callout n Func)

theorem Callout.calm_fired : co.fired.calm = ⟨false, [], co.func⟩ :=
  if_neg fun h => Bool.false_ne_true h.1

omit co in
theorem tail_take_one (l : List α) : (l.take 1).tail = [] := by
  cases l <;> rfl

theorem Callout.fired_calm : co.calm.fired = ⟨false, [], co.func⟩ := by
  unfold Callout.calm
  split
  · simp only [Callout.fired, tail_take_one]
  · rfl

theorem calm_cancel : (mdxCalloutCancel co).calm = mdxCalloutCancel co.calm := by
  cases ha : co.active with
  | false => simp [mdxCalloutCancel, Callout.calm, ha]
  | true =>
    by_cases hf : co.func = .schedCb <;>
      simp [mdxCalloutCancel, Callout.calm, ha, hf, tail_take_one]

theorem calm_set (h : co.active = false) (c : Fin n) (ticks s : Nat) :
    (mdxCalloutSetTicks (mdxCalloutInit co) c ticks (.semCb s)).calm =
      mdxCalloutSetTicks (mdxCalloutInit co.calm) c ticks (.semCb s) := by
  by_cases ht : ticks = 0 <;> simp [mdxCalloutSetTicks, mdxCalloutInit, Callout.calm, ht, h]

end

theorem calm_waiter (c : Fin n) (s usec ticks : Nat) (th : Thread n) :
    (waiter c s usec ticks th).calm = waiter c s usec ticks th.calm := by
  by_cases hu : usec = 0
  · simp only [waiter, Thread.calm, if_pos hu, calm_cancel]
  · simp only [waiter, Thread.calm, if_neg hu, calm_set _ (mdxCalloutCancel_active _), calm_cancel]

section
variable (k : Kernel n)

theorem calm_setCpu (c : Fin n) (x : Cpu) : (k.setCpu c x).calm = k.calm.setCpu c x := rfl

theorem calm_setSem (s : Nat) (x : Sem n) : (k.setSem s x).calm = k.calm.setSem s x := rfl

theorem calm_enqueue (i : Head) (t : Nat) : (k.enqueue i t).calm = k.calm.enqueue i t := rfl

theorem calm_dequeue (t : Nat) : (k.dequeue t).calm = k.calm.dequeue t := rfl

theorem calm_note (e : Event) : (k.note e).calm = k.calm.note e := rfl

end

theorem simulated (hs : Step k.calm a k₁) (he : k'.calm = k₁) : ∃ a, Step k.calm a k'.calm :=
  ⟨a, he ▸ hs⟩

theorem Step.calm (hs : Step k a k') :
    (∃ a', Step k.calm a' k'.calm) ∨ (∃ c t, a = .fire c t) ∨
    ∃ c t, k.cpu c = ⟨.chosen t, none⟩ ∧ (k.td t).quantum ≠ 0 ∧
      k' = (k.setTd t { (k.td t).picked with
      tdC := mdxCalloutSetTicks (mdxCalloutInit (k.td t).tdC) c (k.td t).quantum .schedCb
      }).setCpu c ⟨.thread t, none⟩ := by
  cases hs with
  | release hc hp hst =>
    refine .inl (simulated (.release (k := k.calm) hc hp hst) ?_)
    rw [calm_setCpu, calm_setTd]
    rfl
  | reap hc hp hst =>
    refine .inl (simulated (.reap (k := k.calm) hc hp hst) ?_)
    rw [calm_setCpu, calm_setTd]
    rfl
  | interrupt hc hp hst =>
    refine .inl (simulated (.interrupt (k := k.calm) hc hp hst) ?_)
    rw [calm_setCpu, calm_setTd]
    rfl
  | quantum | late | timeout => exact .inr (.inl ⟨_, _, rfl⟩)
  | wakeup hc hl hst hp =>
    refine .inl (simulated (.wakeup (k := k.calm) hc hl hst hp) ?_)
    rw [calm_enqueue, calm_setTd]
    rfl
  | resume hc hst => exact .inl (simulated (.resume (k := k.calm) hc hst) rfl)
  | requeue hc hst hp => exact .inl (simulated (.requeue (k := k.calm) hc hst hp) rfl)
  | pick hc hp => exact .inl (simulated (.pick (k := k.calm) hc hp) rfl)
  | switch hc =>
    refine .inl (simulated (.switch (k := k.calm) hc rfl) ?_)
    rw [calm_setCpu, calm_setTd]
    rfl
  | switchTimed hc hq => exact .inr (.inr ⟨_, _, hc, hq, rfl⟩)
  | take hc hp hk hn =>
    rename_i c s usec t
    have hs : Step k.calm (.wait c s usec) _ := .take hc hp hk hn
    exact .inl (simulated hs rfl)
  | block hc hp hi hk hn =>
    rename_i c s usec t
    have hs : Step k.calm (.wait c s usec) _ := .block hc hp hi hk hn
    refine .inl (simulated hs ?_)
    rw [calm_note, calm_enqueue, calm_setTd, calm_waiter]
    rfl
  | tryTake hk hn =>
    rename_i c s
    have hs : Step k.calm (.trywait c s) _ := .tryTake hk hn
    exact .inl (simulated hs rfl)
  | tryFail =>
    rename_i c s
    have hs : Step k.calm (.trywait c s) _ := .tryFail
    exact .inl (simulated hs rfl)
  | post hc hk hf => exact .inl (simulated (.post (k := k.calm) hc hk hf) rfl)
  | postTo hc hk hf => exact .inl (simulated (.postTo (k := k.calm) hc hk hf) rfl)
  | postAck hc hst =>
    refine .inl (simulated (.postAck (k := k.calm) hc hst) ?_)
    rw [calm_setCpu, calm_setSem, calm_setTd]
    rfl
  | postCancel hc =>
    refine .inl (simulated (.postCancel (k := k.calm) hc) ?_)
    rw [calm_setCpu, calm_setTd]
    simp only [Thread.calm, calm_cancel]
    rfl
  | postWake hc hst hp =>
    refine .inl (simulated (.postWake (k := k.calm) hc hst hp) ?_)
    rw [calm_enqueue, calm_setCpu, calm_setTd]
    rfl
  | sleep hc hp hn hi =>
    refine .inl (simulated (.sleep (k := k.calm) hc hp hn hi) ?_)
    rw [calm_setTd]
    simp only [Thread.calm, calm_cancel]
    rfl
  | yield hc hp =>
    refine .inl (simulated (.yield (k := k.calm) hc hp) ?_)
    rw [mdxThreadYield, calm_setTd]
    rfl
  | terminate hc hp =>
    refine .inl (simulated (.terminate (k := k.calm) hc hp) ?_)
    rw [mdxThreadTerminate, calm_setTd]
    simp only [Thread.calm, calm_cancel]
    rfl
  | enter hc hp =>
    refine .inl (simulated (.enter (k := k.calm) hc hp) ?_)
    rw [calm_setTd]
    rfl
  | create hl hp =>
    rename_i prio c t quantumUsec
    have hs : Step k.calm (.create c t prio 0) _ := .create hl hp
    refine .inl (simulated hs ?_)
    rw [calm_enqueue, calm_setTd]
    rfl
  | retSem hc hp =>
    refine .inl (simulated (.retSem (k := k.calm) hc hp) ?_)
    rw [calm_note, calm_setTd]
    rfl
  | ret hc hp hcall ht =>
    refine .inl (simulated (.ret (k := k.calm) hc hp hcall ht) ?_)
    rw [calm_setTd]
    rfl

theorem yieldsFree_calm (k : Kernel n) (a : Act n) : YieldsFree k.calm a := by
  cases a with
  | yield =>
    intro t _
    rfl
  | _ => trivial

theorem Callout.calm_fired_off (co : Callout n Func) : co.fired.calm.Off := by
  rw [Callout.calm_fired]
  exact ⟨rfl, rfl⟩

section
variable (h : Placed k.calm q loc)
include h

theorem Placed.calm_fire (hst : (k.td t).state ≠ .terminating)
    (hnew : ∀ l, Good (k.calm.td t) l → (k.td t).state ∈ l.states →
      Good (Thread.calm { k.td t with tdC := (k.td t).tdC.fired, state := st }) l) :
    Placed (k.setTd t { k.td t with tdC := (k.td t).tdC.fired, state := st }).calm q loc := by
  have hg := h.good t
  have hm := good_state hg
  rw [calm_setTd]
  apply h.setTd
  generalize loc t = l at hg hm ⊢
  cases l with
  | unborn => exact ⟨hg.1, ⟨(k.td t).tdC.calm_fired_off, hg.2.1.2⟩, hg.2.2⟩
  | dead => exact absurd hg.2.2 hst
  | _ => exact hnew _ hg (hm hg.1)

theorem Placed.calm_quantum (hst : (k.td t).state = .running) :
    Placed (k.setTd t { k.td t with tdC := (k.td t).tdC.fired, state := .ready }).calm q loc := by
  have hoff := (k.td t).tdC.calm_fired_off
  apply h.calm_fire (by simp [hst])
  intro l hg hm
  rw [hst] at hm
  cases l with
  | running => exact ⟨hg.1, hg.2.1, .inr (.inl rfl), .inl hoff⟩
  | _ => simp [Loc.states] at hm

theorem Placed.calm_late (hst : (k.td t).state = .semUnlock) :
    Placed (k.setTd t { k.td t with tdC := (k.td t).tdC.fired, state := .semUnlockAck }).calm
      q loc := by
  have hoff := (k.td t).tdC.calm_fired_off
  apply h.calm_fire (by simp [hst])
  intro l hg hm
  rw [hst] at hm
  cases l with
  | handed => exact ⟨hg.1, hg.2.1, Waits.off hg.2.2.1 rfl rfl rfl hoff, .inr ⟨rfl, hoff⟩⟩
  | freed => exact ⟨hg.1, ⟨hoff, hg.2.1.2⟩, Waits.off hg.2.2.1 rfl rfl rfl hoff, .inr rfl⟩
  | _ => simp [Loc.states] at hm

theorem Placed.calm_timeout (hl : loc t = .waiting s) (e : Event) :
    ∃ q' loc', Placed (((((k.dequeue t).setTd t
      { k.td t with tdC := (k.td t).tdC.fired, timeout := true, state := .wakeup }).note
        e)).enqueue (.runq (k.td t).prio) t).calm q' loc' := by
  have hp := h.timeout hl (e := e)
  have hth : Thread.calm
      { k.td t with tdC := (k.td t).tdC.fired, timeout := true, state := .wakeup } =
      { k.calm.td t with tdC := (k.calm.td t).tdC.fired, timeout := true, state := .wakeup } := by
    simp only [Kernel.calm, Thread.calm, Callout.calm_fired, Callout.fired_calm]
  rw [← hth] at hp
  rw [calm_enqueue, calm_note, calm_setTd, calm_dequeue]
  exact ⟨_, _, hp⟩

theorem Placed.calm_switch (hc : k.cpu c = ⟨.chosen t, none⟩)
    (hq : (k.td t).quantum ≠ 0) :
    ∃ loc', Placed ((k.setTd t { (k.td t).picked with
      tdC := mdxCalloutSetTicks (mdxCalloutInit (k.td t).tdC) c (k.td t).quantum .schedCb
      }).setCpu c ⟨.thread t, none⟩).calm q loc' := by
  have hl := h.chosen (c := c) (t := t) hc
  have hg := h.good_at hl
  obtain ⟨hlive, hst, -, hsleep⟩ := hg
  have hoff : (mdxCalloutSetTicks (mdxCalloutInit (k.td t).tdC) c (k.td t).quantum
      .schedCb).calm.Off := by
    rw [Callout.calm, if_neg]
    · exact ⟨rfl, rfl⟩
    · simp [mdxCalloutSetTicks, mdxCalloutInit, hq]
  have hnew : Good (Thread.calm { (k.td t).picked with
      tdC := mdxCalloutSetTicks (mdxCalloutInit (k.td t).tdC) c (k.td t).quantum .schedCb })
      (.running c) := ⟨hlive, hsleep, hst.picked, .inl hoff⟩
  rw [calm_setCpu, calm_setTd]
  exact ⟨_, h.stay hc hl hnew rfl rfl rfl rfl rfl rfl trivial⟩

end

theorem cancel_func (co : Callout n φ) : (mdxCalloutCancel co).func = co.func := by
  rw [mdxCalloutCancel]
  split <;> rfl

theorem cancel_linked (co : Callout n φ) :
    mdxCalloutCancel co = co ∨ (mdxCalloutCancel co).linked = co.linked.tail := by
  rw [mdxCalloutCancel]
  split
  · exact .inr rfl
  · exact .inl rfl

theorem TdState.not_active (h : st ∉ [.running, .ready, .yielding]) : ¬TdState.Active st := by
  rintro (rfl | rfl | rfl)
  all_goals exact h (by decide)

/-- The node of `td_c` is on one list at most, while it is set, if there is no quantum. If there is
one, `td_c` has the func of a wait only in that wait. -/
def Thread.Armed (th : Thread n) : Prop :=
  (th.quantum = 0 → th.tdC.linked = [] ∨ th.tdC.active = true ∧ ∃ c, th.tdC.linked = [c]) ∧
  (th.quantum ≠ 0 → ∀ s, th.tdC.func = .semCb s →
    (∃ usec, th.pc.call = some (.semTimedwait s usec)) ∧ ¬th.state.Active)

structure Settled (k : Kernel n) (q : Head → List Nat) (loc : Nat → Loc n) : Prop
    extends Placed k.calm q loc where
  armed : ∀ t, (k.td t).Armed

theorem armed_update (h : ∀ u, (k.td u).Armed) (hth : th.Armed) (u : Nat) :
    (update k.td t th u).Armed := by
  by_cases hu : u = t
  · subst hu
    rw [update_self]
    exact hth
  · rw [update_of_ne hu]
    exact h u

section
variable {th' : Thread n} (h : th.Armed) (hq : th'.quantum = th.quantum)
include h hq

theorem Thread.Armed.congr (hl : th'.tdC = th.tdC ∨ th'.tdC.linked = th.tdC.linked.tail)
    (hf : th'.tdC.func = th.tdC.func) (hpc : th'.pc.call = th.pc.call)
    (hst : th'.state.Active → th.state.Active) : th'.Armed := by
  constructor
  · intro hz
    have hone := h.1 (hq ▸ hz)
    rcases hl with hl | hl
    · rw [hl]
      exact hone
    · refine .inl (hl.trans ?_)
      rcases hone with hn | ⟨-, c, hc⟩
      · rw [hn]
        rfl
      · rw [hc]
        rfl
  · intro hn s hs
    obtain ⟨hcall, hactive⟩ := h.2 (hq ▸ hn) s (hf ▸ hs)
    exact ⟨hpc ▸ hcall, mt hst hactive⟩

omit hq in
theorem Thread.Armed.cancelled (hz : th.quantum = 0) :
    (mdxCalloutCancel th.tdC).linked = [] := by
  rcases h.1 hz with hnil | ⟨ha, c, hc⟩
  · rcases cancel_linked th.tdC with he | he
    · rw [he, hnil]
    · rw [he, hnil]
      rfl
  · simp [mdxCalloutCancel, ha, hc]

section
variable (hcall : th.quantum ≠ 0 → ∀ s, th.tdC.func ≠ .semCb s)
include hcall

theorem Thread.Armed.called
    (hl : th'.tdC = th.tdC ∨ th'.tdC = mdxCalloutCancel th.tdC) : th'.Armed := by
  constructor
  · intro hz
    rcases hl with hl | hl
    · rw [hl]
      exact h.1 (hq ▸ hz)
    · rw [hl]
      exact .inl (h.cancelled (hq ▸ hz))
  · intro hn s hs
    refine absurd ?_ (hcall (hq ▸ hn) s)
    rcases hl with hl | hl
    · rw [← hl]
      exact hs
    · rw [← cancel_func, ← hl]
      exact hs

omit hq in
theorem Thread.Armed.waiter (c : Fin n) (s usec ticks : Nat) :
    (waiter c s usec ticks th).Armed := by
  have hkept (s' : Nat) (hn : th.quantum ≠ 0) : (mdxCalloutCancel th.tdC).func ≠ .semCb s' := by
    rw [cancel_func]
    exact hcall hn s'
  by_cases hu : usec = 0
  · simp only [Sched.waiter, if_pos hu]
    exact ⟨fun hz => .inl (h.cancelled hz), fun hn s' hf => absurd hf (hkept s' hn)⟩
  by_cases ht : ticks = 0
  · simp only [Sched.waiter, if_neg hu, mdxCalloutSetTicks, mdxCalloutInit, ht, if_true,
      Bool.false_eq_true, if_false]
    exact ⟨fun hz => .inl (h.cancelled hz), fun hn s' hf => absurd hf (hkept s' hn)⟩
  · simp only [Sched.waiter, if_neg hu, mdxCalloutSetTicks, mdxCalloutInit, if_neg ht,
      Bool.false_eq_true, if_false]
    refine ⟨fun hz => .inr ⟨rfl, c, ?_⟩, fun _ s' hf => ?_⟩
    · exact congrArg (c :: ·) (h.cancelled hz)
    · cases hf
      exact ⟨⟨usec, rfl⟩, TdState.not_active (by simp)⟩

end
end

section
variable (h : Settled k q loc)
include h

theorem Settled.not_semCb (hc : k.cpu c = ⟨.thread t, none⟩)
    (hp : ∀ call, (k.td t).pc ≠ .before call) (hq : (k.td t).quantum ≠ 0) (s : Nat) :
    (k.td t).tdC.func ≠ .semCb s := by
  intro hf
  have hl := h.caller (t := t) hc hp
  exact ((h.armed t).2 hq s hf).2 (h.good_at hl).2.2.1

theorem Settled.armed_step (hs : Step k a k') (t : Nat) : (k'.td t).Armed := by
  have ha := h.armed
  have hkeep {th : Thread n} {u : Nat} (hq : th.quantum = (k.td u).quantum)
      (hl : th.tdC = (k.td u).tdC ∨ th.tdC.linked = (k.td u).tdC.linked.tail)
      (hf : th.tdC.func = (k.td u).tdC.func) (hpc : th.pc.call = (k.td u).pc.call)
      (hst : th.state.Active → (k.td u).state.Active) : (update k.td u th t).Armed :=
    armed_update ha ((ha u).congr hq hl hf hpc hst) t
  have hcalled {th : Thread n} {u : Nat} {c : Fin n} (hc : k.cpu c = ⟨.thread u, none⟩)
      (hp : ∀ call, (k.td u).pc ≠ .before call) (hq : th.quantum = (k.td u).quantum)
      (hl : th.tdC = (k.td u).tdC ∨ th.tdC = mdxCalloutCancel (k.td u).tdC) :
      (update k.td u th t).Armed :=
    armed_update ha ((ha u).called hq (h.not_semCb hc hp) hl) t
  cases hs with
  | release _ hp =>
    exact hkeep rfl (.inl rfl) rfl (trapPc_call hp) (absurd · (TdState.not_active (by simp)))
  | reap _ hp | interrupt _ hp => exact hkeep rfl (.inl rfl) rfl (trapPc_call hp) id
  | quantum _ _ _ hst => exact hkeep rfl (.inr rfl) rfl rfl fun _ => .inl hst
  | late | timeout => exact hkeep rfl (.inr rfl) rfl rfl (absurd · (TdState.not_active (by simp)))
  | wakeup => exact hkeep rfl (.inl rfl) rfl rfl id
  | resume | requeue | pick | take | tryTake | tryFail | post | postTo => exact ha t
  | switch _ hq =>
    apply armed_update ha
    exact ⟨fun _ => (ha _).1 hq, fun hn => absurd hq hn⟩
  | switchTimed _ hq =>
    apply armed_update ha
    refine ⟨fun hz => absurd hz hq, fun _ s hs => ?_⟩
    simp [mdxCalloutSetTicks, mdxCalloutInit, hq] at hs
  | block hc hp =>
    have hw := Thread.Armed.waiter (ha _) (h.not_semCb hc (by simp [hp]))
    exact armed_update ha (hw ..) t
  | postAck => exact hkeep rfl (.inl rfl) rfl rfl (absurd · (TdState.not_active (by simp)))
  | postCancel => exact hkeep rfl (cancel_linked _) (cancel_func _) rfl id
  | postWake => exact hkeep rfl (.inl rfl) rfl rfl (absurd · (TdState.not_active (by simp)))
  | sleep hc hp | terminate hc hp => exact hcalled hc (by simp [hp]) rfl (.inr rfl)
  | yield hc hp | enter hc hp | retSem hc hp | ret hc hp =>
    exact hcalled hc (by simp [hp]) rfl (.inl rfl)
  | create =>
    apply armed_update ha
    refine ⟨fun _ => .inl rfl, fun _ s hf => ?_⟩
    cases hf

theorem Settled.waiting_free (hq : (k.td t).quantum = 0)
    (hc : k.cpu c = ⟨.handler u r true, none⟩) (hl : c ∈ (k.td t).tdC.linked)
    (hf : (k.td t).tdC.func = .semCb s) (hk : (k.sem s).lock = none)
    (hst : (k.td t).state = .ack) : loc t = .waiting s := by
  obtain hn | ⟨hact, d, hd⟩ := (h.armed t).1 hq
  · rw [hn] at hl
    cases hl
  · have hcalm : (k.calm.td t).tdC = (k.td t).tdC := by
      simp only [Kernel.calm, Thread.calm, Callout.calm]
      rw [if_pos ⟨hact, by simp [hf]⟩, hd]
      exact congrArg (Callout.mk _ · _) hd.symm
    rcases h.fires_sem (t := t) hc (hcalm ▸ hl) (hcalm ▸ hf) hk with hw | ⟨p, -, hs⟩
    · exact hw
    · exact absurd (hst.symm.trans hs) (by decide)

theorem Settled.waiting_call (hcall : (k.td t).pc.call = some (.semTimedwait s usec))
    (hk : (k.sem s).lock = none) (hst : (k.td t).state = .ack) : loc t = .waiting s := by
  have hg := h.good t
  have hm := good_state hg
  rw [show (k.calm.td t).state = _ from hst] at hm
  have hqueued (hx : (k.td t).calm.Queued) : False := by
    rcases hx with (hx | hx) | ⟨-, ⟨-, hx⟩ | hx⟩
    · exact absurd (hst.symm.trans hx) (by decide)
    · exact absurd (hst.symm.trans hx) (by decide)
    · exact absurd (hcall.symm.trans hx) (by simp)
    · exact absurd (hst.symm.trans hx) (by decide)
  cases hloc : loc t with
  | waiting s' =>
    rw [hloc] at hg
    obtain ⟨-, usec', hcall', -⟩ := hg.2.2.1
    cases hcall.symm.trans hcall'
    rfl
  | spun s' p =>
    have hlock := (h.lock s' p).2 (h.spun_spinning hloc)
    rw [hloc] at hg
    obtain ⟨-, usec', hcall', -⟩ := hg.2.2.1
    cases hcall.symm.trans hcall'
    exact absurd (hk.symm.trans hlock) (by simp)
  | unborn =>
    rw [hloc] at hg
    rw [show (k.td t).pc = _ from hg.2.2] at hcall
    cases hcall
  | dead =>
    rw [hloc] at hg
    exact absurd (hst.symm.trans hg.2.2) (by decide)
  | queued =>
    rw [hloc] at hg
    exact (hqueued hg.2.2.1).elim
  | chosen =>
    rw [hloc] at hg
    exact (hqueued hg.2.1).elim
  | asleep =>
    rw [hloc] at hg
    exact absurd (hcall.symm.trans hg.2.2.2.1) (by simp)
  | _ =>
    rw [hloc] at hg hm
    exact absurd (hm hg.1) (by simp [Loc.states])

theorem Settled.waiting (hc : k.cpu c = ⟨.handler u r true, none⟩)
    (hl : c ∈ (k.td t).tdC.linked) (hf : (k.td t).tdC.func = .semCb s)
    (hk : (k.sem s).lock = none) (hst : (k.td t).state = .ack) : loc t = .waiting s := by
  by_cases hq : (k.td t).quantum = 0
  · exact h.waiting_free hq hc hl hf hk hst
  · obtain ⟨⟨usec, hcall⟩, -⟩ := (h.armed t).2 hq s hf
    exact h.waiting_call hcall hk hst

theorem Settled.calm_step (hs : Step k a k') : ∃ q' loc', Settled k' q' loc' := by
  have harm := h.armed_step hs
  have hplaced : ∃ q' loc', Placed k'.calm q' loc' := by
    rcases hs.calm with ⟨a', hs'⟩ | ⟨c, t, rfl⟩ | ⟨c, t, hc, hq, rfl⟩
    · obtain ⟨q', loc', ht⟩ := h.step (yieldsFree_calm k a') hs'
      exact ⟨q', loc', ht.placed⟩
    · cases hs with
      | quantum _ _ _ hst => exact ⟨q, loc, h.calm_quantum hst⟩
      | late _ _ _ _ hst => exact ⟨q, loc, h.calm_late hst⟩
      | timeout hc hl hf hk hst => exact h.calm_timeout (h.waiting hc hl hf hk hst) _
    · obtain ⟨loc', hp⟩ := h.calm_switch hc hq
      exact ⟨q, loc', hp⟩
  obtain ⟨q', loc', hp⟩ := hplaced
  exact ⟨q', loc', hp, harm⟩

end

theorem boot_calm (n nprio : Nat) (usecToTicks : Nat → Nat) (count : Nat → Int) :
    (boot n nprio usecToTicks count).calm = boot n nprio usecToTicks count := by
  have htd : (fun t => ((boot n nprio usecToTicks count).td t).calm) =
      (boot n nprio usecToTicks count).td := by
    funext t
    simp only [boot]
    split
    · rfl
    · rfl
  rw [Kernel.calm, htd]

theorem boot_armed (n nprio : Nat) (usecToTicks : Nat → Nat) (count : Nat → Int) (t : Nat) :
    ((boot n nprio usecToTicks count).td t).Armed := by
  simp only [boot]
  split
  · exact ⟨fun _ => .inl rfl, fun hn => absurd rfl hn⟩
  · exact ⟨fun _ => .inl rfl, fun hn => absurd rfl hn⟩

theorem boot_settled (n nprio : Nat) (usecToTicks : Nat → Nat) (count : Nat → Int) :
    Settled (boot n nprio usecToTicks count) (fun _ => []) (bootLoc n) := by
  refine ⟨?_, boot_armed n nprio usecToTicks count⟩
  rw [boot_calm]
  exact boot_placed n nprio usecToTicks count

theorem run_settled (h : Run Next (fun _ _ => True) (boot n nprio usecToTicks count) k) :
    ∃ q loc, Settled k q loc := by
  apply h.invariant fun k => ∃ q loc, Settled k q loc
  · exact ⟨_, _, boot_settled n nprio usecToTicks count⟩
  · rintro k a k' ⟨q, loc, hp⟩ - hx
    exact hp.calm_step (exec_step hx)

end
end Mdepx.Sched
