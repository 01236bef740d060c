import Mdepx.Timer.Round

namespace Mdepx.Timer
open Lib Callout Function Option

variable {mt : Cputime.MiTimer}

structure Good (mt : Cputime.MiTimer) (y : Sys) (ds : List (Nat × Nat)) : Prop where
  queue : Queue y.s ds
  bounded : Bounded ds
  maxcnt : y.s.miTmr.maxcnt < 2 ^ 32
  sound : Sound mt y.s y.ts

section
variable (h : Good mt y ds)
include h

theorem Good.enter : Live mt (callbackEnter y.s).s (callbackEnter y.s).c y.ts ds := by
  refine ⟨.enter h.queue h.bounded h.maxcnt, h.sound.congr fun _ => rfl, ?_⟩
  intro x hx
  rw [callbackEnter_cursor h.queue] at hx
  exact .inl ((h.queue.active x).2 (List.mem_of_head? hx))

theorem Good.callback (hp : Proper mt y (.callback script))
    (hc : mdxCalloutCallback mt fuel n script y = some y') : ∃ ds', Good mt y' ds' := by
  rw [mdxCalloutCallback] at hc
  by_cases he : listEmpty y.s.links (.head y.s.cpuid) = true
  · rw [if_pos he] at hc
    cases hc
    exact ⟨ds, h⟩
  · rw [if_neg he] at hc
    obtain ⟨⟨l, ts⟩, hr, hend⟩ := bind_eq_some_iff.1 hc
    obtain ⟨⟨ds', hl⟩, -⟩ := h.enter.rounds hp hr
    by_cases hnone : l.c = none
    · simp only [if_pos hnone] at hend
      cases hend
      obtain ⟨hq, -, hcall, -, -, -, -, hm, -⟩ := callbackExit_spec hl.walk.queue hl.walk.exception
      refine ⟨ds', hq, hl.walk.bounded, hm ▸ hl.walk.maxcnt, hl.sound.congr ?_⟩
      intro x
      rw [shape, hcall]
      rfl
    · simp only [if_neg hnone] at hend
      cases hend

theorem Good.set (hn : n < 2 ^ 32) (hs : mdxCalloutSetTicksLocked fuel y.s c n f a = some (s', r)) :
    ∃ ds', Queue s' ds' ∧ Bounded ds' ∧ s'.miTmr.maxcnt < 2 ^ 32 := by
  rcases setTicksLocked_cases h.queue hn h.maxcnt hs with
    ⟨-, he, -⟩ | ⟨hc, -, he, -⟩ | ⟨-, -, ha, -⟩
  · subst he
    exact ⟨ds, h.queue, h.bounded, h.maxcnt⟩
  · subst he
    exact ⟨ds, marked_queue h.queue hc, h.bounded, h.maxcnt⟩
  · exact ⟨_, ha.queue, h.bounded.insert (u32_lt _), ha.maxcnt ▸ h.maxcnt⟩

theorem Good.cancel (hc : y.ts.history c = none) :
    ∃ ds', Good mt { y with s := (mdxCalloutCancel y.s c).1 } ds' := by
  have hsound := h.sound.touched hc (f := none) (by simp) (cancel_touched h.queue h.bounded c none)
  by_cases hmem : c ∈ ids ds
  · obtain ⟨s', he, hq, hs⟩ := cancel_remove h.queue h.bounded hmem
    rw [he] at hsound ⊢
    refine ⟨_, hq, h.bounded.remove h.queue.nodup c, ?_, hsound⟩
    rw [hs.miTmr]
    exact h.maxcnt
  · rw [cancel_inactive (h.queue.inactive hmem)]
    exact ⟨ds, h⟩

theorem Good.create (hi : (y.s.callout t).active = false) :
    Good mt (mdxTimerCreate y t heap c) ds := by
  have hout : t ∉ ids ds := by
    rw [← h.queue.active, hi]
    exact Bool.false_ne_true
  have hself : shape (mdxTimerCreate y t heap c).s t = ⟨false, c.func, c.arg⟩ := by
    simp only [shape, mdxTimerCreate, mdxCalloutInit, St.setCallout, update_self]
  have hother : ∀ x, x ≠ t → shape (mdxTimerCreate y t heap c).s x = shape y.s x := by
    intro x hx
    simp only [mdxTimerCreate, mdxCalloutInit, setCallout_shape_other _ hx]
  refine ⟨?_, h.bounded, h.maxcnt, h.sound.rewrite (.inl ⟨.inl rfl, rfl, ?_, rfl⟩) hother⟩
  · simp only [mdxTimerCreate, mdxCalloutInit, St.setCallout, update_self,
      update_idem]
    exact h.queue.setIdle hout rfl
  · rw [hself]

end

theorem Upheld.startable (h : Upheld mt s x t k) (hs : x.started = 0) :
    k.first = none ∧ k.heap.started = 0 ∧ Idle s x t k := by
  rcases h with ⟨hf, hi⟩ | ⟨p, -, -, ht⟩
  · have hz : k.heap.started = 0 := hi.timer ▸ hs
    exact ⟨hf.resolve_right (fun hne => hne hz), hz, hi⟩
  · rw [ht.timer] at hs
    cases hs

theorem mdxTimerStart_error (hs : (y.ts.timer t).started ≠ 0) :
    mdxTimerStart mt fuel y t p = some (y, MDX_ERROR) := if_neg hs

theorem mdxTimerStart_eq (hs : (y.ts.timer t).started = 0)
    (hn : Cputime.mdxCalloutUsecToTicks mt p = some n) :
    mdxTimerStart mt fuel y t p =
      (mdxCalloutSetTicksLocked fuel y.s t n.toNat (some tickFunc) t).map fun r =>
        (⟨r.1, y.ts.set t { y.ts.timer t with started := 1, periodUs := p }⟩, 0) := by
  rw [mdxTimerStart, if_pos hs]
  simp only [Timers.set, update_self, mdxCalloutSet, hn, bind_some,
    mdxCalloutSetTicks]
  cases mdxCalloutSetTicksLocked fuel y.s t n.toNat (some tickFunc) t with
  | none | some => rfl

theorem Good.notMem (h : Good mt y ds) (hi : (shape y.s t).active = false) : t ∉ ids ds := by
  rw [← h.queue.active]
  intro ha
  exact Bool.false_ne_true (hi.symm.trans ha)

theorem Good.start_returns (h : Good mt y ds) (hs : (y.ts.timer t).started = 0)
    (hi : (shape y.s t).active = false) (hp : Countable mt p) :
    ∃ N, ∀ fuel, N ≤ fuel → ∃ y', mdxTimerStart mt fuel y t p = some (y', 0) ∧
      shape y'.s t = ⟨true, some tickFunc, t⟩ := by
  obtain ⟨n, hn, hn0⟩ := hp
  refine ⟨ds.length + 1, fun fuel hfuel => ?_⟩
  obtain ⟨s', hset, ha⟩ := setTicksLocked_spec (f := some tickFunc) (a := t) h.queue
    (h.notMem hi) (fun he => hn0 (UInt32.toNat_inj.1 he)) n.toNat_lt h.maxcnt hfuel
  rw [mdxTimerStart_eq hs hn, hset]
  exact ⟨_, rfl, Armed.shape_self ha⟩

theorem Sound.start (h : Sound mt s ts) (hk : ts.history t = some k) (hf : k.first = none)
    (hz : k.heap.started = 0) (hi : Idle s (ts.timer t) t k) (hp : Countable mt p)
    (hself : shape s' t = ⟨true, some tickFunc, t⟩)
    (hother : ∀ x, x ≠ t → shape s' x = shape s x) :
    Sound mt s' ((ts.set t { ts.timer t with started := 1, periodUs := p }).note t
      fun h => { h with first := h.first.or (some p) }) := by
  rw [Timers.note, Timers.set, hk]
  refine h.rewrite (.inr ⟨p, ?_, hz, ?_, hself, hp⟩) hother
  · simp only [hf, none_or]
  · simp [hi.timer, hi.ticks]

theorem Sound.refused (h : Sound mt s ts) (hk : ts.history t = some k)
    (hs : (ts.timer t).started ≠ 0) :
    Sound mt s (ts.note t fun h => { h with first := h.first.or (some p) }) := by
  have hu : Upheld mt s (ts.timer t) t { k with first := k.first.or (some p) } := by
    rcases h.upheld t k hk with ⟨-, hi⟩ | ⟨q, hf, hz, ht⟩
    · exact .inl ⟨.inr (hi.timer ▸ hs), hi.timer, hi.inactive, hi.ticks⟩
    · refine .inr ⟨q, ?_, hz, ht.timer, ht.armed, ht.countable⟩
      rw [hf, some_or]
  have hr := h.rewrite hu fun _ _ => rfl
  rw [update_eq_self] at hr
  rw [Timers.note, hk]
  exact hr

theorem Good.start (h : Good mt y ds) (hp : Proper mt y (.start t p))
    (hs : mdxTimerStart mt fuel y t p = some (y', r)) : ∃ ds', Good mt (y'.started t p) ds' := by
  obtain ⟨hne, -, -, hcount⟩ := hp
  obtain ⟨k, hk⟩ := ne_none_iff_exists'.1 hne
  by_cases h0 : (y.ts.timer t).started = 0
  · obtain ⟨hf, hz, hi⟩ := (h.sound.upheld t k hk).startable h0
    obtain ⟨n, hn, hn0⟩ := hcount
    rw [mdxTimerStart_eq h0 hn] at hs
    obtain ⟨⟨s', r'⟩, hset, he⟩ := map_eq_some_iff.1 hs
    cases he
    obtain ⟨ds', hq, hb, hm⟩ := h.set n.toNat_lt hset
    rcases setTicksLocked_cases h.queue n.toNat_lt h.maxcnt hset with
      ⟨hin, -⟩ | ⟨-, hn', -⟩ | ⟨-, -, ha, -⟩
    · exact absurd hin (h.notMem hi.inactive)
    · exact absurd (UInt32.toNat_inj.1 hn') hn0
    · exact ⟨ds', hq, hb, hm, h.sound.start hk hf hz hi ⟨n, hn, hn0⟩ (Armed.shape_self ha)
        fun x hx => Armed.shape_other ha hx⟩
  · rw [mdxTimerStart_error h0] at hs
    cases hs
    exact ⟨ds, h.queue, h.bounded, h.maxcnt, h.sound.refused hk h0⟩

theorem Good.step (h : Good mt y ds) (hp : Proper mt y op) (hs : Step mt y op y') :
    ∃ ds', Good mt y' ds' := by
  cases hs with
  | wait =>
    exact ⟨ds, ⟨h.queue.ring, h.queue.ticks, h.queue.active, h.queue.cpu⟩, h.bounded, h.maxcnt,
      h.sound.congr fun _ => rfl⟩
  | set hset =>
    obtain ⟨hn, hc, hf⟩ := hp
    obtain ⟨ds', hq, hb, hm⟩ := h.set hn hset
    exact ⟨ds', hq, hb, hm, h.sound.touched hc hf (set_touched h.queue hn h.maxcnt hset)⟩
  | cancel => exact h.cancel hp
  | create => exact ⟨ds, h.create hp.1⟩
  | start hst => exact h.start hp hst
  | callback hc => exact h.callback hp hc

def NoTimers (ts : Timers) : Prop := ∀ t, ts.history t = none

theorem good_of_run (hs : Fresh s) (hn : NoTimers ts)
    (hr : Run (Step mt) (Proper mt) ⟨s, ts⟩ y) : ∃ ds, Good mt y ds := by
  refine hr.invariant (fun y => ∃ ds, Good mt y ds) ?_ ?_
  · refine ⟨[], hs.queue, bounded_nil, hs.maxcnt.2, ?_, ?_⟩
    · intro x ha
      exact absurd ((hs.queue.active x).1 ha) List.not_mem_nil
    · intro t h ht
      rw [hn t] at ht
      cases ht
  · rintro t i u ⟨ds, h⟩ hok hst
    exact h.step hok hst

def IsArmed (s : St) (t : Nat) : Prop :=
  (s.callout t).active = true ∧ (s.callout t).func = some tickFunc ∧ (s.callout t).arg = t

theorem isArmed_of_shape (h : shape s t = ⟨true, some tickFunc, t⟩) : IsArmed s t :=
  ⟨congrArg Shape.active h, congrArg Shape.func h, congrArg Shape.arg h⟩

theorem Ticking.count (h : Ticking mt s x t k p) (hc : k.heap.countUs = 0) :
    x.countUs.toNat = k.ticks * p.toNat % 2 ^ 64 := by
  rw [h.timer, hc, UInt64.zero_add, UInt64.toNat_mul, UInt64.toNat_ofNat', UInt32.toNat_toUInt64,
    Nat.mod_mul_mod]

theorem Sound.counts (h : Sound mt s ts) (hk : ts.history t = some k) (hz : k.heap.started = 0)
    (hc : k.heap.countUs = 0) (hf : k.first = some p) :
    IsArmed s t ∧ (ts.timer t).countUs.toNat = k.ticks * p.toNat % 2 ^ 64 := by
  rcases h.upheld t k hk with ⟨hno, -⟩ | ⟨q, hq, -, ht⟩
  · rcases hno with hno | hno
    · rw [hno] at hf
      cases hf
    · exact absurd hz hno
  · rw [hq] at hf
    cases hf
    exact ⟨isArmed_of_shape ht.armed, ht.count hc⟩

/-- A timer whose memory was zero when it was allocated: the first start arms it, no later one
does anything, and whenever its func has been invoked `k` times, be it in the middle of a pass,
it is armed and its count is `k` periods. -/
theorem timer_counts_periods (hs : Fresh s) (hn : NoTimers ts)
    (hr : Run (Step mt) (Proper mt) ⟨s, ts⟩ y) (hk : y.ts.history t = some k)
    (hz : k.heap.started = 0) (hc : k.heap.countUs = 0) :
    (k.first = none → ∀ p, Proper mt y (.start t p) → ∃ N, ∀ fuel, N ≤ fuel → ∃ y',
      mdxTimerStart mt fuel y t p = some (y', 0) ∧ IsArmed y'.s t) ∧
    (k.first ≠ none → ∀ fuel p, mdxTimerStart mt fuel y t p = some (y, MDX_ERROR)) ∧
    (∀ p, k.first = some p →
      IsArmed y.s t ∧ (mdxTimerCount y t).toNat = k.ticks * p.toNat % 2 ^ 64) ∧
    ∀ script fuel n l ts', Proper mt y (.callback script) →
      rounds mt fuel script n (callbackEnter y.s, y.ts) = some (l, ts') →
      (∀ k' p, ts'.history t = some k' → k.first = some p →
        IsArmed l.s t ∧ (mdxTimerCount ⟨l.s, ts'⟩ t).toNat = k'.ticks * p.toNat % 2 ^ 64) ∧
      (tickArg l = some t → ∃ N, ∀ fuel, N ≤ fuel → ∃ q,
        round mt fuel script (l, ts') = some q) := by
  obtain ⟨ds, hg⟩ := good_of_run hs hn hr
  refine ⟨?_, ?_, fun p hf => hg.sound.counts hk hz hc hf, ?_⟩
  · intro hf p hp
    rcases hg.sound.upheld t k hk with ⟨-, hi⟩ | ⟨q, hq, -⟩
    · have h0 : (y.ts.timer t).started = 0 := hi.timer ▸ hz
      obtain ⟨N, hN⟩ := hg.start_returns h0 hi.inactive hp.2.2.2
      refine ⟨N, fun fuel hfuel => ?_⟩
      obtain ⟨y', he, ha⟩ := hN fuel hfuel
      exact ⟨y', he, isArmed_of_shape ha⟩
    · rw [hf] at hq
      cases hq
  · intro hf fuel p
    apply mdxTimerStart_error
    intro h0
    exact hf ((hg.sound.upheld t k hk).startable h0).1
  · intro script fuel n l ts' hp hrounds
    obtain ⟨⟨ds', hl⟩, horigin⟩ := hg.enter.rounds hp hrounds
    refine ⟨fun k' p hk' hf => ?_, fun ht => hl.round_returns ht⟩
    have hsame := horigin t
    simp only [Timers.origin, hk, hk', map_some, Option.some.injEq, Prod.mk.injEq] at hsame
    obtain ⟨hheap, hfirst⟩ := hsame
    exact hl.sound.counts hk' (hheap ▸ hz) (hheap ▸ hc) (hfirst.trans hf)

def noTimers : Timers := ⟨fun _ => ⟨0, 0, 0⟩, fun _ => none⟩

def created (heap : MdxTimer) : Sys := mdxTimerCreate ⟨boot 0xffff, noTimers⟩ 0 heap unset

theorem created_run (heap : MdxTimer) :
    Run (Step Cputime.gd32vTimer) (Proper Cputime.gd32vTimer) ⟨boot 0xffff, noTimers⟩
      (created heap) := by
  have hok : Proper Cputime.gd32vTimer ⟨boot 0xffff, noTimers⟩ (.create 0 heap unset) := ⟨rfl, rfl⟩
  exact .tail (.refl _) hok .create

def tickedOnce : Option Sys :=
  (mdxTimerStart Cputime.gd32vTimer 9 (created ⟨0, 0, 0⟩) 0 1000).bind fun r =>
    let y := r.1.started 0 1000
    mdxCalloutCallback Cputime.gd32vTimer 9 9 (fun _ => [])
      { y with s := { y.s with now := y.s.now + 9 } }

theorem tickedOnce_run (h : tickedOnce = some y) :
    Run (Step Cputime.gd32vTimer) (Proper Cputime.gd32vTimer) ⟨boot 0xffff, noTimers⟩ y := by
  obtain ⟨⟨y₁, r⟩, hstart, hcall⟩ := bind_eq_some_iff.1 h
  have hok : Proper Cputime.gd32vTimer (created ⟨0, 0, 0⟩) (.start 0 1000) :=
    ⟨by decide, by decide, by decide, 9, by decide +kernel, by decide⟩
  have hwait : Proper Cputime.gd32vTimer (y₁.started 0 1000) (.wait 9) := trivial
  have h₁ := Run.tail (created_run ⟨0, 0, 0⟩) hok (.start hstart)
  refine .tail (.tail h₁ hwait .wait) ?_ (.callback hcall)
  intro i op hop
  cases hop

theorem timer_counts_periods_once :
    ∃ y, tickedOnce = some y ∧ IsArmed y.s 0 ∧ (mdxTimerCount y 0).toNat = 1000 ∧
      mdxTimerStart Cputime.gd32vTimer 9 y 0 5 = some (y, MDX_ERROR) := by
  have hev : tickedOnce.map (fun y => y.ts.history 0) =
      some (some ⟨⟨0, 0, 0⟩, some 1000, 1⟩) := by decide +kernel
  obtain ⟨y, hy, hh⟩ := map_eq_some_iff.1 hev
  obtain ⟨-, hlater, hcount, -⟩ := timer_counts_periods (boot_fresh (by decide) (by decide))
    (fun _ => rfl) (tickedOnce_run hy) hh rfl rfl
  obtain ⟨harmed, hn⟩ := hcount 1000 rfl
  exact ⟨y, hy, harmed, hn, hlater (by simp) 9 5⟩

/-- In memory that was used before, the first start of a timer may fail, and the count of one that
starts may begin anywhere. -/
theorem timer_counts_heap :
    (Run (Step Cputime.gd32vTimer) (Proper Cputime.gd32vTimer) ⟨boot 0xffff, noTimers⟩
        (created ⟨7, 1, 0⟩) ∧
      (created ⟨7, 1, 0⟩).ts.history 0 = some ⟨⟨7, 1, 0⟩, none, 0⟩ ∧
      mdxTimerStart Cputime.gd32vTimer 9 (created ⟨7, 1, 0⟩) 0 1000 =
        some (created ⟨7, 1, 0⟩, MDX_ERROR)) ∧
    Run (Step Cputime.gd32vTimer) (Proper Cputime.gd32vTimer) ⟨boot 0xffff, noTimers⟩
        (created ⟨7, 0, 0⟩) ∧
      (mdxTimerStart Cputime.gd32vTimer 9 (created ⟨7, 0, 0⟩) 0 1000).map
        (fun r => (r.2, mdxTimerCount r.1 0, r.1.ts.history 0)) =
          some (0, 7, some ⟨⟨7, 0, 0⟩, none, 0⟩) :=
  ⟨⟨created_run _, rfl, mdxTimerStart_error (by decide)⟩, created_run _, by decide +kernel⟩

end Mdepx.Timer
