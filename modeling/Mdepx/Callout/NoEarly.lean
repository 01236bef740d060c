import Mdepx.Callout.Punctual

namespace Mdepx.Callout
open Lib List

structure Sound (s : St) (ds : List (Nat × Nat)) : Prop where
  queue : Queue s ds
  bounded : Bounded ds
  maxcnt : s.miTmr.maxcnt < 2 ^ 32
  saved : s.miTmr.countSaved s.cpuid ≤ s.miTmr.maxcnt
  timer : s.timerState = .running ∨ s.timerState = .ready ∧ ds = []
  due : ∀ p ∈ Delta.deadlines 0 ds, DueBy s.log p.1 (elapsedNow s) (s.now + p.2)
  timely : timely s.log = true

theorem Fresh.sound (h : Fresh s) : Sound s [] := by
  refine ⟨h.queue, bounded_nil, h.maxcnt.2, ?_, .inr ⟨h.ready, rfl⟩, ?_, ?_⟩
  · rw [h.saved]
    exact Nat.zero_le _
  · intro p hp
    cases hp
  · rw [h.log]
    rfl

theorem Sound.wait (h : Sound s ds) (d : Nat) : Sound { s with now := s.now + d } ds := by
  refine ⟨⟨h.queue.ring, h.queue.ticks, h.queue.active, h.queue.cpu⟩, h.bounded, h.maxcnt,
    h.saved, h.timer, ?_, h.timely⟩
  intro p hp
  have he : elapsedNow { s with now := s.now + d } ≤ elapsedNow s + d := by
    have hw := getElapsed_wait h.maxcnt h.saved d
    have ht : St.timerState { s with now := s.now + d } = s.timerState := rfl
    unfold elapsedNow
    rw [ht]
    split
    · exact hw
    · exact Nat.zero_le _
  apply (h.due p hp).shift
  dsimp only
  omega

theorem Sound.set (h : Sound s ds) (hn : n + elapsedNow s < 2 ^ 32)
    (hs : mdxCalloutSetTicks fuel s c n f a = some (s', r)) : ∃ ds', Sound s' ds' := by
  rcases setTicksLocked_cases h.queue (by omega) h.maxcnt hs with
    ⟨-, he, -⟩ | ⟨hc, -, he, -⟩ | ⟨hc, hn0, ha, -⟩
  · subst he
    exact ⟨ds, h⟩
  · subst he
    exact ⟨ds, marked_queue h.queue hc, h.bounded, h.maxcnt, h.saved, h.timer, h.due, h.timely⟩
  · have hq := ha.queue
    rw [u32_of_lt hn] at hq
    have hcount : count s' = s'.now % (s.miTmr.maxcnt + 1) := by rw [count, ha.maxcnt]
    have hel : elapsedNow s' = elapsedNow s := by
      rcases h.timer with hr | ⟨hr, -⟩
      · obtain ⟨hmi, -, -⟩ := ha.running hr
        have ht : s'.timerState = s.timerState := by rw [St.timerState, hmi, ha.cpuid]; rfl
        unfold elapsedNow
        rw [ht, getElapsed, getElapsed, count, count, hmi, ha.cpuid, ha.now]
      · obtain ⟨hr', hsv, -, -⟩ := ha.ready hr
        have h0 : getElapsed s' = 0 := by
          apply getElapsed_saved
          rw [ha.cpuid, hsv, hcount, ha.now]
          rfl
        rw [elapsedNow, elapsedNow, hr, if_pos hr', h0]
        rfl
    refine ⟨_, hq, h.bounded.insert hn, ?_, ?_, ?_, ?_, ?_⟩
    · rw [ha.maxcnt]
      exact h.maxcnt
    · rcases h.timer with hr | ⟨hr, -⟩
      · rw [(ha.running hr).1, ha.cpuid]
        exact h.saved
      · rw [ha.cpuid, (ha.ready hr).2.1, ha.maxcnt]
        exact count_le s
    · left
      rcases h.timer with hr | ⟨hr, -⟩
      · rw [St.timerState, (ha.running hr).1, ha.cpuid]
        exact hr
      · exact (ha.ready hr).1
    · intro p hp
      rw [hel, ha.now, ha.log]
      rcases mem_deadlines_insert hp with hp | hp
      · apply (h.due p hp).armed
        intro hcp
        exact hc (hcp ▸ mem_ids_of_deadline hp)
      · rw [hp]
        apply dueBy_armed_self
        dsimp only
        omega
    · rw [ha.log]
      exact h.timely

theorem Sound.cancel (h : Sound s ds) (c : Nat) : ∃ ds', Sound (mdxCalloutCancel s c).1 ds' := by
  by_cases hc : c ∈ ids ds
  · obtain ⟨s', he, hq, hs⟩ := cancel_remove h.queue h.bounded hc
    have ht : s'.timerState = s.timerState := by rw [St.timerState, hs.miTmr, hs.cpuid]; rfl
    have hel : elapsedNow s' = elapsedNow s := by
      unfold elapsedNow
      rw [ht, getElapsed, getElapsed, count, count, hs.miTmr, hs.cpuid, hs.now]
    rw [he]
    refine ⟨_, hq, h.bounded.remove h.queue.nodup c, ?_, ?_, ?_, ?_, ?_⟩
    · rw [hs.miTmr]
      exact h.maxcnt
    · rw [hs.miTmr, hs.cpuid]
      exact h.saved
    · rw [ht]
      rcases h.timer with hr | ⟨hr, hd⟩
      · exact .inl hr
      · rw [hd] at hc
        cases hc
    · intro p hp
      rw [Delta.deadlines_remove_filter c 0 ds h.queue.nodup] at hp
      rw [hel, hs.now, hs.log]
      exact h.due p (mem_filter.1 hp).1
    · rw [hs.log]
      exact h.timely
  · rcases cancel_cases h.queue c with ⟨-, he⟩ | ⟨s', xs, d, ys, hd, -⟩
    · rw [he]
      exact ⟨ds, h⟩
    · rw [hd] at hc
      exact absurd (by simp) hc

theorem Sound.enter (h : Sound s ds) (hd : ds ≠ []) :
    Passing (callbackEnter s).s (callbackEnter s).c (callbackEnter s).ticksElapsed [] ds := by
  have hr : s.timerState = .running := by
    rcases h.timer with hr | ⟨-, he⟩
    · exact hr
    · exact absurd he hd
  refine ⟨callbackEnter_queue h.queue, callbackEnter_cursor h.queue, h.bounded, h.maxcnt,
    Function.update_self _ _ _, Function.update_self _ _ _, ?_, ?_, h.timely⟩
  · intro p hp
    cases hp
  · intro p hp
    have hdue := h.due p hp
    rw [elapsedNow, if_pos hr] at hdue
    refine ⟨hdue, ?_⟩
    rw [Delta.total, zero_add]
    exact (lt_or_ge _ _).symm

theorem Passing.exit (h : Passing s none e P R) : ∃ ds, Sound (callbackExit s) ds := by
  have hR : R = [] := by
    have hc := h.cursor
    cases R with
    | nil => rfl
    | cons => cases hc
  subst hR
  have hq := h.queue
  have hb := h.bounded
  rw [append_nil] at hq hb
  obtain ⟨hxq, hxlog, -, hxnow, hxcpu, -, hxs, hxm, hxt⟩ := callbackExit_spec hq h.exception
  have hel : elapsedNow (callbackExit s) = 0 := by
    have h0 : getElapsed (callbackExit s) = 0 := by
      apply getElapsed_saved
      rw [hxs, hxcpu, h.saved, count, count, hxnow, hxm]
    rw [elapsedNow, h0]
    exact ite_self 0
  refine ⟨P, hxq, hb, ?_, ?_, ?_, ?_, ?_⟩
  · rw [hxm]
    exact h.maxcnt
  · rw [hxs, hxcpu, hxm, h.saved]
    exact count_le s
  · cases P with
    | nil => exact .inr ⟨hxt.1, rfl⟩
    | cons => exact .inl hxt.1
  · intro p hp
    rw [hel, hxnow, hxlog]
    exact h.early p hp
  · rw [hxlog]
    exact h.timely

/-- What a run is made of: no set leaves `uint32_t`, and funcs only set callouts. -/
def Admissible (s : St) : Op → Prop
  | .wait _ => True
  | .set _ n _ _ => n + elapsedNow s < 2 ^ 32
  | .cancel _ => True
  | .callback script => ∀ i, ∀ op ∈ script i, op.arms = true

def Careful (s : St) (op : Op) : Prop :=
  Admissible s op ∧ ∀ script, op = .callback script →
    ∀ fuel n l, loopRounds fuel script n (callbackEnter s) = some l → RoundSafe fuel script l

theorem Sound.rounds (h : Sound s ds) (hd : ds ≠ []) (hc : Careful s (.callback script))
    (hl : loopRounds fuel script n (callbackEnter s) = some l) :
    ∃ P R, Passing l.s l.c l.ticksElapsed P R := by
  obtain ⟨harms, hsafe⟩ := hc
  refine loopRounds_reached (fun l => ∃ P R, Passing l.s l.c l.ticksElapsed P R) ?_
    ⟨[], ds, h.enter hd⟩ hl
  intro k l₁ l₂ hk hl₁ hb
  obtain ⟨P, R, hp⟩ := hl₁
  exact hp.round harms (hsafe script rfl fuel k l₁ hk) hb

theorem Sound.step (h : Sound s ds) (hc : Careful s op) (hs : Step s op s') :
    ∃ ds', Sound s' ds' := by
  cases hs with
  | wait => exact ⟨ds, h.wait _⟩
  | set hset => exact h.set hc.1 hset
  | cancel => exact h.cancel _
  | callback hcb =>
    by_cases hd : ds = []
    · subst hd
      rw [callback_empty h.queue] at hcb
      cases hcb
      exact ⟨[], h⟩
    · obtain ⟨l, hl, hn, he⟩ := callback_inv h.queue hd hcb
      obtain ⟨P, R, hp⟩ := h.rounds hd hc hl
      rw [hn] at hp
      subst he
      exact hp.exit

/-- No callout fires early in a run all of whose funcs set their callouts safely, neither in a
finished pass nor in one that is still under way. -/
theorem no_callout_fires_early (h₀ : Fresh s₀) (h : Run Step Careful s₀ s) :
    timely s.log = true ∧
    ∀ script, Careful s (.callback script) → ∀ fuel n l,
      loopRounds fuel script n (callbackEnter s) = some l → timely l.s.log = true := by
  have hinv : ∃ ds, Sound s ds :=
    h.invariant (fun s => ∃ ds, Sound s ds) ⟨[], h₀.sound⟩
      fun ⟨_, hs⟩ hc hst => hs.step hc hst
  obtain ⟨ds, hs⟩ := hinv
  refine ⟨hs.timely, ?_⟩
  intro script hc fuel n l hl
  by_cases hd : ds = []
  · subst hd
    rw [loopRounds_done (callbackEnter_cursor hs.queue)] at hl
    cases hl
    exact hs.timely
  · obtain ⟨P, R, hp⟩ := hs.rounds hd hc hl
    exact hp.timely

theorem opsSafe_last (fuel e : Nat) (s : St) (ops : List FuncOp) : OpsSafe fuel none e s ops := by
  induction ops generalizing s with
  | nil => exact trivial
  | cons op ops ih =>
    refine ⟨?_, fun s' _ => ih s'⟩
    intro x n f a _ _ _
    right
    intro P R _ hc r hr
    cases R with
    | nil => cases hr
    | cons => cases hc

theorem careful_singleton (hq : Queue s [p]) (harms : ∀ i, ∀ op ∈ script i, op.arms = true) :
    Careful s (.callback script) := by
  refine ⟨harms, ?_⟩
  intro script' he fuel n l hl
  cases he
  have hq' : Queue (callbackEnter s).s ([] ++ [p]) := callbackEnter_queue hq
  have hc := callbackEnter_cursor hq
  cases n with
  | zero =>
    cases hl
    intro c hcur _ _
    have hp : p.1 = c := Option.some.inj (hc.symm.trans hcur)
    subst hp
    rw [next_of_ring hq'.ring]
    exact opsSafe_last _ _ _ _
  | succ =>
    obtain ⟨l₁, hl₁, hl⟩ := Option.bind_eq_some_iff.1 hl
    have hdone : l₁.c = none := by
      rcases loopBody_cases hq' hc hl₁ with ⟨hR, -⟩ | ⟨c, d, R, hR, hcase⟩
      · cases hR
      · cases hR
        rcases hcase with ⟨-, he⟩ | ⟨-, -, he⟩ | ⟨-, f, s', -, -, he⟩
        · rw [he]
        · rw [he]
          rfl
        · rw [he]
          rfl
    rw [loopRounds_done hdone] at hl
    cases hl
    intro c hcur
    rw [hdone] at hcur
    cases hcur

theorem no_callout_fires_early_rearmed :
    ∃ s, Run Step Careful (boot 65535) s ∧ Event.invoked 0 5 ∈ s.log ∧ timely s.log = true := by
  have h₀ := boot_fresh (m := 65535) (by decide) (by decide)
  obtain ⟨s, hs, ha⟩ := setTicksLocked_spec (c := 0) (n := 5) (f := some 0) (a := 0) h₀.queue
    not_mem_nil (by decide) (by decide) (by decide) Nat.zero_lt_one
  have hq : Queue s [(0, 5)] := ha.queue
  have hq' : Queue { s with now := s.now + 5 } [(0, 5)] :=
    ⟨hq.ring, hq.ticks, hq.active, hq.cpu⟩
  let script : Nat → List FuncOp := fun _ => [.set 0 5 (some 0) 0]
  have harms : ∀ i, ∀ op ∈ script i, op.arms = true := by
    intro i op hop
    rw [mem_singleton.1 hop]
    decide
  have hrun : Run Step Careful (boot 65535) { s with now := s.now + 5 } := by
    refine .tail (i := Op.wait 5) (.tail (.refl _) ⟨?_, ?_⟩ (.set hs)) ⟨trivial, ?_⟩ .wait
    · show 5 + elapsedNow (boot 65535) < 2 ^ 32
      decide
    · intro _ he
      cases he
    · intro _ he
      cases he
  have hex : ((exec 9 9 (boot 65535) (.set 0 5 (some 0) 0)).bind fun s =>
      exec 9 9 { s with now := s.now + 5 } (.callback script)).map
      (fun s => decide (Event.invoked 0 5 ∈ s.log)) = some true := by decide +kernel
  have hset : exec 9 9 (boot 65535) (.set 0 5 (some 0) 0) = some s := by
    rw [exec, mdxCalloutSetTicks, setTicksLocked_mono (k := 8) hs]
    rfl
  rw [hset, Option.bind_some] at hex
  obtain ⟨s', hs', hmem⟩ := Option.map_eq_some_iff.1 hex
  have hrun' := Run.tail hrun (careful_singleton hq' harms) (exec_step hs')
  exact ⟨s', hrun', of_decide_eq_true hmem, (no_callout_fires_early h₀ hrun').1⟩

def execAdmissible (s : St) : Op → Option St
  | .set c n f a => if n + elapsedNow s < 2 ^ 32 then exec 9 9 s (.set c n f a) else none
  | op => exec 9 9 s op

theorem execAdmissible_step (h : execAdmissible s op = some t) :
    Step s op t ∧ ((∀ script, op ≠ .callback script) → Admissible s op) := by
  cases op with
  | wait d =>
    have hex : exec 9 9 s (.wait d) = some t := h
    exact ⟨exec_step hex, fun _ => trivial⟩
  | cancel c =>
    have hex : exec 9 9 s (.cancel c) = some t := h
    exact ⟨exec_step hex, fun _ => trivial⟩
  | callback script =>
    have hex : exec 9 9 s (.callback script) = some t := h
    exact ⟨exec_step hex, fun hne => absurd rfl (hne script)⟩
  | set c n f a =>
    rw [execAdmissible] at h
    split at h
    · rename_i hn
      exact ⟨exec_step h, fun _ => hn⟩
    · cases h

/-- The callback runs two ticks late, and the func of callout 0 sets callout 2 with 10 ticks.
Those two ticks are then taken off callout 2 as well, which fires after 8. -/
theorem late_callback_fires_early :
    ∃ s, Run Step Admissible (boot 65535) s ∧ Event.armed 2 7 10 ∈ s.log ∧
      Event.invoked 2 15 ∈ s.log ∧ timely s.log = false := by
  let ops : List Op := [.set 0 5 (some 0) 0, .set 1 10 (some 0) 0, .wait 7,
    .callback fun i => if i = 0 then [.set 2 10 (some 0) 0] else [], .wait 3, .callback passive,
    .wait 5, .callback passive]
  have hex : (ops.foldlM execAdmissible (boot 65535)).map (fun s =>
      decide (Event.armed 2 7 10 ∈ s.log ∧ Event.invoked 2 15 ∈ s.log ∧ timely s.log = false)) =
      some true := by decide +kernel
  obtain ⟨s, hs, hlog⟩ := Option.map_eq_some_iff.1 hex
  refine ⟨s, Run.of_foldlM ?_ hs, of_decide_eq_true hlog⟩
  intro op hop s t hst
  obtain ⟨hstep, hadm⟩ := execAdmissible_step hst
  refine ⟨?_, hstep⟩
  by_cases hcb : ∃ script, op = .callback script
  · obtain ⟨script, he⟩ := hcb
    subst he
    intro i o ho
    simp only [ops, mem_cons, reduceCtorEq, Op.callback.injEq, false_or, or_false,
      not_mem_nil] at hop
    rcases hop with h | h | h
    · subst h
      dsimp only at ho
      split at ho
      · rw [mem_singleton.1 ho]
        decide
      · cases ho
    · subst h
      cases ho
    · subst h
      cases ho
  · exact hadm fun script he => hcb ⟨script, he⟩

end Mdepx.Callout
