import Mdepx.Callout.Dispatch
import Mdepx.Callout.Register

namespace Mdepx.Callout
open Lib Function List
open Lib.Delta (deadlines due rest)

/-! The delta list of the code against the queue of absolute deadlines it stands for. -/

def passive : Nat → List FuncOp := fun _ => []

def hasFunc (s : St) (c : Nat) : Bool := (s.callout c).func.isSome

structure Passed (s s' : St) (e : Nat) (ds : List (Nat × Nat)) : Prop where
  queue : Queue s' (rest e ds)
  log : s'.log = ((due e ds).filter (hasFunc s)).reverse.map (.invoked · s.now) ++ s.log
  state : ∀ c ∈ due e ds, (s'.callout c).state = .fired
  others : ∀ c, c ∉ ids ds → s'.callout c = s.callout c
  cpuid : s'.cpuid = s.cpuid
  miTmr : s'.miTmr = s.miTmr
  now : s'.now = s.now
  savedAt : s'.savedAt = s.savedAt

theorem expireOne_self (s : St) (c : Nat) : (expireOne s c).callout c =
    { s.callout c with ticks := 0, state := .fired, active := false } :=
  update_self _ _ _

theorem expireOne_other (s : St) (h : x ≠ c) : (expireOne s c).callout x = s.callout x :=
  update_of_ne h _ _

theorem Passed.cons (hc : c ∉ ids ds) (hd : d ≤ e) (hs : t.callout = (expireOne s c).callout)
    (hlog : t.log = (if hasFunc s c then [Event.invoked c s.now] else []) ++ s.log)
    (hcpu : t.cpuid = s.cpuid) (hmi : t.miTmr = s.miTmr) (hnow : t.now = s.now)
    (hsa : t.savedAt = s.savedAt) (h : Passed t s' (e - d) ds) :
    Passed s s' e ((c, d) :: ds) := by
  have hfunc : hasFunc t = hasFunc s := by
    funext x
    rw [hasFunc, hs, expireOne_func, hasFunc]
  have hdue : due e ((c, d) :: ds) = c :: due (e - d) ds := by
    rw [due, if_pos hd]
  constructor
  · rw [rest, if_pos hd]
    exact h.queue
  · rw [h.log, hlog, hfunc, hnow, hdue]
    by_cases hf : hasFunc s c = true
    · simp [hf]
    · simp [hf]
  · intro x hx
    rw [hdue] at hx
    rcases mem_cons.1 hx with hx | hx
    · rw [hx, h.others c hc, hs, expireOne_self]
    · exact h.state x hx
  · intro x hx
    simp only [ids_cons, mem_cons, not_or] at hx
    rw [h.others x hx.2, hs, expireOne_other s hx.1]
  · exact h.cpuid.trans hcpu
  · exact h.miTmr.trans hmi
  · exact h.now.trans hnow
  · exact h.savedAt.trans hsa

theorem passive_rounds (fuel : Nat) (hq : Queue l.s ds) (hc : l.c = (ids ds).head?) :
    ∃ l', loopRounds fuel passive (ds.length + 1) l = some l' ∧ l'.c = none ∧
      Passed l.s l'.s l.ticksElapsed ds := by
  induction ds generalizing l with
  | nil =>
    refine ⟨l, loopRounds_done hc _, hc, hq, rfl, ?_, fun _ _ => rfl, rfl, rfl, rfl, rfl⟩
    intro c hm
    cases hm
  | cons p ds ih =>
    obtain ⟨c, d⟩ := p
    have hq' : Queue l.s ([] ++ (c, d) :: ds) := hq
    have hcd : c ∉ ids ds := by
      have hm := hq'.notMem_of_split
      rwa [nil_append] at hm
    by_cases hd : d ≤ l.ticksElapsed
    · cases hf : (l.s.callout c).func with
      | none =>
        obtain ⟨l', hl, hn, hp⟩ := ih (l := { l with
          s := expireOne l.s c, c := (ids ds).head?, ticksElapsed := l.ticksElapsed - d })
          (expireOne_spec hq') rfl
        refine ⟨l', ?_, hn, Passed.cons hcd hd rfl ?_ rfl rfl rfl rfl hp⟩
        · rw [length_cons, loopRounds, loopBody_null hq' hc hd hf, Option.bind_some, hl]
        · rw [hasFunc, hf]
          rfl
      | some =>
        obtain ⟨l', hl, hn, hp⟩ := ih (l := {
          s := firing l.s c, c := (ids ds).head?, ticksElapsed := l.ticksElapsed - d,
          fired := l.fired ++ [c] }) ((expireOne_spec hq').observe _) rfl
        refine ⟨l', ?_, hn, Passed.cons (t := firing l.s c) hcd hd rfl ?_ rfl rfl rfl rfl hp⟩
        · rw [length_cons, loopRounds, loopBody_fire hq' hc hd hf, passive, funcOps,
            Option.map_some, Option.bind_some, hl]
        · rw [hasFunc, hf]
          rfl
    · have hlt := Nat.lt_of_not_le hd
      have hdue : due l.ticksElapsed ((c, d) :: ds) = [] := by rw [due, if_neg hd]
      refine ⟨{ l with s := l.s.setTicks c (d - l.ticksElapsed), c := none }, ?_, rfl, ?_⟩
      · rw [loopRounds, loopBody_stop hq' hc hlt, Option.bind_some, loopRounds_done rfl]
      · constructor
        · rw [rest, if_neg hd]
          exact hq'.setTicks _
        · rw [hdue]
          rfl
        · rw [hdue]
          intro x hx
          cases hx
        · intro x hx
          simp only [ids_cons, mem_cons, not_or] at hx
          exact setTicks_other _ _ hx.1
        · rfl
        · rfl
        · rfl
        · rfl

def Ordered (stamp : Nat → Nat) (q : List (Nat × Nat)) : Prop :=
  q.Pairwise fun p r => p.2 < r.2 ∨ p.2 = r.2 ∧ stamp p.1 < stamp r.1

theorem Ordered.insert (h : Ordered stamp (deadlines 0 ds))
    (hc : ∀ x ∈ ids ds, stamp x < stamp c) :
    Ordered stamp (deadlines 0 (Delta.insert c n ds)) := by
  have hlt {p : Nat × Nat} (hp : p ∈ deadlines 0 ds) : stamp p.1 < stamp c := by
    apply hc
    have hm := mem_map_of_mem (f := Prod.fst) hp
    rwa [Delta.deadlines_fst] at hm
  rw [Ordered, Delta.deadlines_insert_filter, zero_add, pairwise_append,
    pairwise_cons]
  refine ⟨h.sublist filter_sublist, ⟨?_, h.sublist filter_sublist⟩, ?_⟩
  · intro r hr
    exact .inl (of_decide_eq_true (mem_filter.1 hr).2)
  · intro p hp r hr
    obtain ⟨hp, hpn⟩ := mem_filter.1 hp
    have hpn := of_decide_eq_true hpn
    rcases mem_cons.1 hr with hr | hr
    · rw [hr]
      rcases lt_or_eq_of_le hpn with hl | he
      · exact .inl hl
      · exact .inr ⟨he, hlt hp⟩
    · have hrn := of_decide_eq_true (mem_filter.1 hr).2
      exact .inl (lt_of_le_of_lt hpn hrn)

theorem Ordered.rest (h : Ordered stamp (deadlines 0 ds)) :
    Ordered stamp (deadlines 0 (rest e ds)) := by
  rw [Ordered, Delta.deadlines_rest_filter, pairwise_map]
  apply (h.sublist filter_sublist).imp_of_mem
  intro p r hp hr hpr
  have hpe := of_decide_eq_true (mem_filter.1 hp).2
  have hre := of_decide_eq_true (mem_filter.1 hr).2
  rcases hpr with hl | ⟨he, hs⟩
  · exact .inl (by dsimp only; omega)
  · exact .inr ⟨by dsimp only; omega, hs⟩

/-- Setting an inactive callout: no queued deadline changes, the new one is the ticks asked
for plus those elapsed and comes after every deadline not later than it, and a cancel right
after it restores the list. -/
def SetRefines (s : St) (ds : List (Nat × Nat)) (c n : Nat) (f : Option Nat) (a : Nat) : Prop :=
  ∀ fuel, ds.length < fuel → ∃ s' ds',
    mdxCalloutSetTicksLocked fuel s c n f a = some (s', MDX_OK) ∧ Queue s' ds' ∧
    Bounded ds' ∧ deadlines 0 ds' =
      (deadlines 0 ds).filter (fun p => p.2 ≤ n + elapsedNow s) ++
        (c, n + elapsedNow s) ::
        (deadlines 0 ds).filter (fun p => n + elapsedNow s < p.2) ∧
    (∀ stamp, Ordered stamp (deadlines 0 ds) → (∀ x ∈ ids ds, stamp x < stamp c) →
      Ordered stamp (deadlines 0 ds')) ∧
    ∃ s'', mdxCalloutCancel s' c = (s'', MDX_OK) ∧ Queue s'' ds

/-- Cancelling a queued callout removes it and leaves every other deadline as it is. -/
def CancelRefines (s : St) (ds : List (Nat × Nat)) (c : Nat) : Prop :=
  ∃ s' ds', mdxCalloutCancel s c = (s', MDX_OK) ∧ Queue s' ds' ∧ Bounded ds' ∧
    deadlines 0 ds' = (deadlines 0 ds).filter (fun p => p.1 ≠ c) ∧
    ∀ stamp, Ordered stamp (deadlines 0 ds) → Ordered stamp (deadlines 0 ds')

/-- A callback whose funcs touch no callout fires exactly the entries whose deadline is at
most the elapsed ticks, in order, brings the remaining deadlines that much nearer and arms the
timer for the first of them. -/
def CallbackRefines (s : St) (ds : List (Nat × Nat)) : Prop :=
  ∀ fuel n, ds.length < n → ∃ s' ds', mdxCalloutCallback fuel n passive s = some s' ∧
    Queue s' ds' ∧ Bounded ds' ∧
    deadlines 0 ds' = ((deadlines 0 ds).filter fun p => getElapsed s < p.2).map
      (fun p => (p.1, p.2 - getElapsed s)) ∧
    s'.log = ((((deadlines 0 ds).filter fun p => p.2 ≤ getElapsed s).map
      Prod.fst).filter (hasFunc s)).reverse.map (.invoked · s.now) ++ s.log ∧
    (∀ p ∈ deadlines 0 ds, p.2 ≤ getElapsed s →
      (s'.callout p.1).state = .fired ∧ (s'.callout p.1).active = false) ∧
    (∀ stamp, Ordered stamp (deadlines 0 ds) → Ordered stamp (deadlines 0 ds')) ∧
    TimerFor s' s.now s.miTmr.maxcnt ds'

section
variable (hq : Queue s ds) (hb : Bounded ds)
include hq hb

theorem set_refines (hm : s.miTmr.maxcnt < 2 ^ 32) (hc : (s.callout c).active = false) (hn0 : n ≠ 0)
    (hn : n + elapsedNow s < 2 ^ 32) : SetRefines s ds c n f a := by
  intro fuel hf
  have hcd : c ∉ ids ds := by
    intro hc'
    rw [(hq.active c).2 hc'] at hc
    cases hc
  obtain ⟨s', he, ha⟩ :=
    setTicksLocked_spec (f := f) (a := a) hq hcd hn0 (by omega) hm hf
  have hq' := ha.queue
  rw [u32_of_lt hn] at hq'
  have hcan := cancel_remove hq' (hb.insert hn) (mem_ids_insert.2 (.inl rfl))
  rw [Delta.remove_insert _ _ _ hcd] at hcan
  obtain ⟨s'', hce, hcq, -⟩ := hcan
  refine ⟨s', _, he, hq', hb.insert hn, ?_, ?_, s'', hce, hcq⟩
  · rw [Delta.deadlines_insert_filter, zero_add]
  · intro stamp ho hs
    exact ho.insert hs

theorem cancel_refines (hc : (s.callout c).active = true) : CancelRefines s ds c := by
  obtain ⟨s', he, hq', -⟩ := cancel_remove hq hb ((hq.active c).1 hc)
  have hd := Delta.deadlines_remove_filter c 0 ds hq.nodup
  refine ⟨s', _, he, hq', hb.remove hq.nodup c, hd, ?_⟩
  intro stamp ho
  rw [Ordered, hd]
  exact ho.sublist filter_sublist

theorem callback_refines (hd : ds ≠ []) : CallbackRefines s ds := by
  intro fuel n hn
  obtain ⟨l, hl, hc, hp⟩ :=
    passive_rounds fuel (callbackEnter_queue hq) (callbackEnter_cursor hq)
  obtain ⟨k, hk⟩ := Nat.exists_eq_add_of_le hn
  have hrun : loopRounds fuel passive n (callbackEnter s) = some l := by
    rw [hk, Nat.succ_eq_add_one, loopRounds_add, hl, Option.bind_some, loopRounds_done hc]
  have hexc : l.s.timerState = .exception := by
    rw [St.timerState, hp.miTmr, hp.cpuid]
    exact update_self _ _ _
  have hmax : l.s.miTmr.maxcnt = s.miTmr.maxcnt := by
    rw [hp.miTmr]
    rfl
  obtain ⟨hxq, hxlog, hxc, -, -, -, -, -, hxt⟩ := callbackExit_spec hp.queue hexc
  refine ⟨callbackExit l.s, rest (getElapsed s) ds, ?_, hxq, hb.rest _,
    Delta.deadlines_rest_filter _ _, ?_, ?_, fun stamp ho => ho.rest, ?_⟩
  · rw [callback_nonempty hq hd, hrun, Option.bind_some, if_pos hc]
  · rw [hxlog, hp.log, ← Delta.due_eq_filter]
    rfl
  · intro p hpd hpe
    have hdue : p.1 ∈ due (getElapsed s) ds := by
      rw [Delta.due_eq_filter]
      exact mem_map_of_mem (mem_filter.2 ⟨hpd, decide_eq_true hpe⟩)
    refine ⟨?_, ?_⟩
    · rw [hxc]
      exact hp.state p.1 hdue
    · rw [← Bool.not_eq_true, hxq.active]
      intro hm
      have hm : p.1 ∈ (deadlines 0 (rest (getElapsed s) ds)).map Prod.fst := by
        rw [Delta.deadlines_fst]
        exact hm
      rw [Delta.deadlines_rest_filter, map_map] at hm
      obtain ⟨q, hq', hqe⟩ := mem_map.1 hm
      obtain ⟨hqd, hlt⟩ := mem_filter.1 hq'
      have hnd : ((deadlines 0 ds).map Prod.fst).Nodup := by
        rw [Delta.deadlines_fst]
        exact hq.nodup
      have heq := inj_on_of_nodup_map hnd hqd hpd hqe
      rw [heq] at hlt
      exact Nat.not_lt.2 hpe (of_decide_eq_true hlt)
  · have hnow : l.s.now = s.now := hp.now
    rw [hnow, hmax] at hxt
    exact hxt

end

/-- The delta list refines the queue of absolute deadlines, in every timer state. -/
theorem delta_list_refines_deadlines (hq : Queue s ds) (hb : Bounded ds)
    (hm : s.miTmr.maxcnt < 2 ^ 32) :
    (∀ c n f a, (s.callout c).active = false → 1 ≤ n → n + elapsedNow s < 2 ^ 32 →
      SetRefines s ds c n f a) ∧
    (∀ c, (s.callout c).active = true → CancelRefines s ds c) ∧
    (ds ≠ [] → CallbackRefines s ds) := by
  refine ⟨?_, ?_, callback_refines hq hb⟩
  · intro c n f a hc hn0 hn
    exact set_refines hq hb hm hc (ne_of_gt hn0) hn
  · intro c hc
    exact cancel_refines hq hb hc

theorem delta_list_refines_deadlines_one_queued :
    ∃ s, Queue s [(1, 5)] ∧ SetRefines s [(1, 5)] 2 5 none 0 ∧ CancelRefines s [(1, 5)] 1 ∧
      CallbackRefines s [(1, 5)] := by
  have hf := boot_fresh (m := 65535) (by decide) (by decide)
  obtain ⟨s, hs, ha⟩ := setTicksLocked_spec (c := 1) (n := 5) (f := none) (a := 0) hf.queue
    not_mem_nil (by decide) (by decide) (by decide) Nat.zero_lt_one
  have hq : Queue s [(1, 5)] := ha.queue
  have hm : s.miTmr.maxcnt < 2 ^ 32 := by
    rw [ha.maxcnt]
    decide
  have he : (mdxCalloutSetTicksLocked 1 (boot 65535) 1 5 none 0).map (elapsedNow ·.1) =
      some 0 := by decide
  rw [hs, Option.map_some, Option.some.injEq] at he
  have h2 : (s.callout 2).active = false := by
    rw [← Bool.not_eq_true, hq.active]
    decide
  have h := delta_list_refines_deadlines hq (bounded_nil.insert (by decide)) hm
  refine ⟨s, hq, h.1 2 5 none 0 h2 (by decide) ?_, h.2.1 1 ((hq.active 1).2 (by decide)),
    h.2.2 (by simp)⟩
  rw [he]
  decide

/-- With no ticks at all the callout is not queued, so there is no deadline to speak of. -/
theorem no_ticks_not_queued : ¬SetRefines (boot 65535) [] 1 0 none 0 := by
  intro h
  obtain ⟨s', ds', he, hq, -, hd, -⟩ := h 1 Nat.zero_lt_one
  have hm : 1 ∈ (deadlines 0 ds').map Prod.fst := by
    rw [hd]
    simp
  rw [Delta.deadlines_fst] at hm
  have hs : (mdxCalloutSetTicksLocked 1 (boot 65535) 1 0 none 0).map
      (fun r => (r.1.callout 1).active) = some false := by decide
  rw [he, Option.map_some, Option.some.injEq, (hq.active 1).2 hm] at hs
  cases hs

end Mdepx.Callout
