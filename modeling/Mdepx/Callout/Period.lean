import Mdepx.Callout.Walk

namespace Mdepx.Callout
open Lib List

/-! The period of the hardware counter, and how long the callouts rely on it. -/

/-- A step of a run in which the interrupt comes exactly when the programmed time is up: no
time passes beyond it, and the callback consumes it. -/
inductive TimedStep : St → Op → St → Prop where
  | wait : (∀ x, s.expiry = some x → s.now + d ≤ x) →
      TimedStep s (.wait d) { s with now := s.now + d }
  | set : n < 2 ^ 32 → mdxCalloutSetTicks fuel s c n f a = some (s', r) →
      TimedStep s (.set c n f a) s'
  | cancel : TimedStep s (.cancel c) (mdxCalloutCancel s c).1
  | callback : s.expiry = some s.now → (∀ i, ∀ op ∈ script i, op.fits) →
      mdxCalloutCallback fuel n script { s with expiry := none } = some s' →
      TimedStep s (.callback script) s'

def Evaluates (s : St) : Op → Prop
  | .wait _ => False
  | .set c n _ _ => s.timerState = .running ∧ (s.callout c).active = false ∧ 1 ≤ n
  | .cancel _ => False
  | .callback _ => s.timerState = .running ∧ s.expiry = some s.now ∧
      listEmpty s.links (.head s.cpuid) = false

def Frontmost (s : St) (n : Nat) : Prop :=
  ∀ x, first s s.cpuid = some x → u32 (n + elapsedNow s) < (s.callout x).ticks

/-- A new first callout of a running timer is due within the current period. -/
def InPeriod (s : St) : Op → Prop
  | .set c n _ _ => s.timerState = .running → (s.callout c).active = false → 1 ≤ n →
      Frontmost s n → s.now - s.savedAt + min n s.miTmr.maxcnt ≤ s.miTmr.maxcnt
  | _ => True

/-- The true time since `count_saved` was stored fits the counter, and `get_elapsed` is that
time, or one tick less when the counter has wrapped. -/
def Unambiguous (s : St) : Prop :=
  s.now - s.savedAt ≤ s.miTmr.maxcnt ∧
    getElapsed s ≤ s.now - s.savedAt ∧ s.now - s.savedAt ≤ getElapsed s + 1

structure Clocked (s : St) (ds : List (Nat × Nat)) : Prop where
  queue : Queue s ds
  bounded : Bounded ds
  maxcnt : s.miTmr.maxcnt < 2 ^ 32
  timer : s.timerState = .running ∨ s.timerState = .ready ∧ ds = []
  saved : s.timerState = .running →
    s.miTmr.countSaved s.cpuid = s.savedAt % (s.miTmr.maxcnt + 1) ∧ s.savedAt ≤ s.now
  armed : s.timerState = .running → ∀ x, s.expiry = some x →
    s.now ≤ x ∧ x ≤ s.savedAt + s.miTmr.maxcnt
  unarmed : s.timerState = .running → s.expiry = none → ds = []

theorem Clocked.unambiguous (h : Clocked s ds) (hr : s.timerState = .running)
    (hle : s.now - s.savedAt ≤ s.miTmr.maxcnt) : Unambiguous s := by
  obtain ⟨hs, hsn⟩ := h.saved hr
  have hlt : s.savedAt % (s.miTmr.maxcnt + 1) ≤ s.miTmr.maxcnt :=
    Nat.le_of_lt_succ (Nat.mod_lt _ (Nat.succ_pos _))
  have hcount : count s =
      (s.savedAt % (s.miTmr.maxcnt + 1) + (s.now - s.savedAt)) % (s.miTmr.maxcnt + 1) := by
    rw [Nat.mod_add_mod, Nat.add_sub_cancel' hsn]
    rfl
  have hel := getElapsed_eq h.maxcnt (hs ▸ hlt)
  rw [hs] at hel
  refine ⟨hle, ?_⟩
  rcases lt_or_ge (s.savedAt % (s.miTmr.maxcnt + 1) + (s.now - s.savedAt))
      (s.miTmr.maxcnt + 1) with hw | hw
  · rw [Nat.mod_eq_of_lt hw] at hcount
    rw [hel, hcount, if_neg (by omega)]
    omega
  · rw [Nat.mod_eq_sub_mod hw, Nat.mod_eq_of_lt (by omega)] at hcount
    rw [hel, hcount, if_pos (by omega)]
    omega

theorem Fresh.clocked (h : Fresh s) : Clocked s [] := by
  have hne : s.timerState ≠ .running := by
    rw [h.ready]
    decide
  exact ⟨h.queue, bounded_nil, h.maxcnt.2, .inr ⟨h.ready, rfl⟩, fun hr => absurd hr hne,
    fun hr => absurd hr hne, fun hr => absurd hr hne⟩

theorem Clocked.wait (h : Clocked s ds) (hd : ∀ x, s.expiry = some x → s.now + d ≤ x) :
    Clocked { s with now := s.now + d } ds := by
  refine ⟨⟨h.queue.ring, h.queue.ticks, h.queue.active, h.queue.cpu⟩, h.bounded, h.maxcnt,
    h.timer, ?_, ?_, h.unarmed⟩
  · intro hr
    obtain ⟨h1, h2⟩ := h.saved hr
    exact ⟨h1, le_trans h2 (Nat.le_add_right _ _)⟩
  · intro hr x hx
    exact ⟨hd x hx, (h.armed hr x hx).2⟩

theorem frontmost_iff (hq : Queue s ds) (hc : c ∉ ids ds) :
    (ids (Delta.insert c (u32 (n + elapsedNow s)) ds)).head? = some c ↔ Frontmost s n := by
  unfold Frontmost
  rw [first_of_ring hq.ring]
  cases ds with
  | nil => simp [Delta.insert]
  | cons p ds =>
    obtain ⟨x, d⟩ := p
    have hd : (s.callout x).ticks = d := hq.ticks (x, d) mem_cons_self
    have hxc : x ≠ c := by
      intro he
      apply hc
      rw [he]
      exact mem_cons_self
    simp only [ids_cons, head?_cons, Option.some.injEq, forall_eq', hd, Delta.insert]
    split
    · rename_i hlt
      simp [hlt]
    · rename_i hlt
      simp [hlt, hxc]

section
variable (h : Clocked s ds)
include h

theorem Clocked.set (hok : InPeriod s (.set c n f a)) (hn : n < 2 ^ 32)
    (hs : mdxCalloutSetTicks fuel s c n f a = some (s', r)) : ∃ ds', Clocked s' ds' := by
  rcases setTicksLocked_cases h.queue hn h.maxcnt hs with
    ⟨-, he, -⟩ | ⟨hc, -, he, -⟩ | ⟨hc, hn0, ha, -⟩
  · subst he
    exact ⟨ds, h⟩
  · subst he
    exact ⟨ds, marked_queue h.queue hc, h.bounded, h.maxcnt, h.timer, h.saved, h.armed,
      h.unarmed⟩
  · have hif : first s' s'.cpuid = some c ↔ Frontmost s n := by
      rw [first_of_ring ha.queue.ring, frontmost_iff h.queue hc]
    refine ⟨_, ha.queue, h.bounded.insert (u32_lt _), ?_, ?_, ?_, ?_, ?_⟩
    · rw [ha.maxcnt]
      exact h.maxcnt
    · left
      rcases h.timer with hr | ⟨hr, -⟩
      · rw [St.timerState, (ha.running hr).1, ha.cpuid]
        exact hr
      · exact (ha.ready hr).1
    · intro _
      rw [ha.maxcnt, ha.cpuid, ha.now]
      rcases h.timer with hr | ⟨hr, -⟩
      · obtain ⟨hmi, hsa, -⟩ := ha.running hr
        rw [hmi, hsa]
        exact h.saved hr
      · obtain ⟨-, hsv, hsa, -⟩ := ha.ready hr
        rw [hsv, hsa]
        exact ⟨rfl, le_rfl⟩
    · intro _ x hx
      rw [ha.now, ha.maxcnt]
      rcases h.timer with hr | ⟨hr, -⟩
      · obtain ⟨-, hsa, hexp⟩ := ha.running hr
        rw [hsa]
        rw [hexp] at hx
        split at hx
        · rename_i hfr
          cases hx
          have hle := hok hr (h.queue.inactive hc) (Nat.pos_of_ne_zero hn0) (hif.1 hfr)
          have hsn := (h.saved hr).2
          omega
        · exact h.armed hr x hx
      · obtain ⟨-, -, hsa, p, -, hexp⟩ := ha.ready hr
        rw [hexp] at hx
        cases hx
        rw [hsa]
        omega
    · intro _ hx
      rcases h.timer with hr | ⟨hr, -⟩
      · obtain ⟨-, -, hexp⟩ := ha.running hr
        rw [hexp] at hx
        split at hx
        · cases hx
        · -- Without a programmed time the list is empty, and the new callout comes first.
          rename_i hfr
          have hd := h.unarmed hr hx
          subst hd
          exact absurd (hif.2 ((frontmost_iff h.queue hc).1 rfl)) hfr
      · obtain ⟨-, -, -, p, -, hexp⟩ := ha.ready hr
        rw [hexp] at hx
        cases hx

theorem Clocked.cancel (c : Nat) : ∃ ds', Clocked (mdxCalloutCancel s c).1 ds' := by
  by_cases hc : c ∈ ids ds
  · obtain ⟨s', he, hq, hs⟩ := cancel_remove h.queue h.bounded hc
    have hr : s.timerState = .running := by
      rcases h.timer with hr | ⟨-, hd⟩
      · exact hr
      · rw [hd] at hc
        cases hc
    have ht := hs.sameTimer
    rw [he]
    refine ⟨_, hq, h.bounded.remove h.queue.nodup c, ?_, ?_, ?_, ?_, ?_⟩
    · rw [hs.miTmr]
      exact h.maxcnt
    · rw [ht.timerState]
      exact .inl hr
    · intro _
      rw [hs.miTmr, hs.cpuid, hs.savedAt, hs.now]
      exact h.saved hr
    · intro _ x hx
      rw [hs.expiry] at hx
      rw [hs.now, hs.savedAt, hs.miTmr]
      exact h.armed hr x hx
    · intro _ hx
      rw [hs.expiry] at hx
      rw [h.unarmed hr hx] at hc
      cases hc
  · rw [cancel_inactive (h.queue.inactive hc)]
    exact ⟨ds, h⟩

theorem Clocked.callback (hfit : ∀ i, ∀ op ∈ script i, op.fits)
    (hs : mdxCalloutCallback fuel n script { s with expiry := none } = some s') :
    ∃ ds', Clocked s' ds' := by
  have hq : Queue { s with expiry := none } ds :=
    ⟨h.queue.ring, h.queue.ticks, h.queue.active, h.queue.cpu⟩
  by_cases hd : ds = []
  · subst hd
    rw [callback_empty hq] at hs
    cases hs
    refine ⟨[], hq, h.bounded, h.maxcnt, h.timer, h.saved, ?_, fun _ _ => rfl⟩
    intro _ x hx
    cases hx
  · obtain ⟨t, ds', hqt, hbt, hexc, ht, he⟩ := callback_walk hq h.bounded hd h.maxcnt hfit hs
    obtain ⟨hxq, -, -, hxnow, hxcpu, hxsa, hxsv, hxm, hxt⟩ := callbackExit_spec hqt hexc
    have hnow : t.now = s.now := ht.now
    have hsa : t.savedAt = s.now := ht.savedAt
    have hmax : t.miTmr.maxcnt = s.miTmr.maxcnt := by rw [ht.miTmr]; rfl
    have hsv : t.miTmr.countSaved t.cpuid = count s := by
      rw [ht.miTmr, ht.cpuid]
      exact Function.update_self _ _ _
    subst he
    refine ⟨ds', hxq, hbt, ?_, ?_, ?_, ?_, ?_⟩
    · rw [hxm, hmax]
      exact h.maxcnt
    · cases ds' with
      | nil => exact .inr ⟨hxt.1, rfl⟩
      | cons => exact .inl hxt.1
    · intro _
      rw [hxsv, hxcpu, hxsa, hxm, hxnow, hsv, hsa, hnow, hmax]
      exact ⟨rfl, le_rfl⟩
    · intro _ x hx
      rw [hxnow, hxsa, hxm, hnow, hsa]
      cases ds' with
      | nil =>
        rw [hxt.2] at hx
        cases hx
      | cons =>
        rw [hxt.2, hnow] at hx
        cases hx
        omega
    · intro _ hx
      cases ds' with
      | nil => rfl
      | cons =>
        rw [hxt.2] at hx
        cases hx

theorem Clocked.step (hok : InPeriod s op) (hs : TimedStep s op s') : ∃ ds', Clocked s' ds' := by
  cases hs with
  | wait hd => exact ⟨ds, h.wait hd⟩
  | set hn hset => exact h.set hok hn hset
  | cancel => exact h.cancel _
  | callback _ hfit hcb => exact h.callback hfit hcb

end

/-- The counter never wraps unnoticed in a run in which every new first callout of a running
timer is due within the current period. -/
theorem counter_never_wraps_unnoticed (h₀ : Fresh s₀) (h : Run TimedStep InPeriod s₀ s)
    (hev : Evaluates s op) (hok : InPeriod s op) : Unambiguous s := by
  have hinv : ∃ ds, Clocked s ds :=
    h.invariant (fun s => ∃ ds, Clocked s ds) ⟨[], h₀.clocked⟩
      fun ⟨_, hs⟩ ho hst => hs.step ho hst
  obtain ⟨ds, hc⟩ := hinv
  have hrun : s.timerState = .running := by
    cases op with
    | wait d => cases hev
    | set c n f a => exact hev.1
    | cancel c => cases hev
    | callback script => exact hev.1
  apply hc.unambiguous hrun
  have harmed (hx : s.expiry ≠ none) : s.now - s.savedAt ≤ s.miTmr.maxcnt := by
    obtain ⟨x, hx⟩ := Option.ne_none_iff_exists'.1 hx
    have ha := hc.armed hrun x hx
    omega
  cases op with
  | wait d => cases hev
  | set c n f a =>
    obtain ⟨-, hact, hn⟩ := hev
    by_cases hx : s.expiry = none
    · have hd := hc.unarmed hrun hx
      subst hd
      have hfr : Frontmost s n := by
        intro y hy
        rw [first_of_ring hc.queue.ring] at hy
        cases hy
      have hle := hok hrun hact hn hfr
      omega
    · exact harmed hx
  | cancel c => cases hev
  | callback script =>
    apply harmed
    rw [hev.2.1]
    exact Option.some_ne_none _

theorem counter_never_wraps_unnoticed_first :
    ∃ s, Run TimedStep InPeriod (boot 65535) s ∧ Evaluates s (.callback passive) ∧
      Unambiguous s := by
  have h₀ := boot_fresh (m := 65535) (by decide) (by decide)
  obtain ⟨s, hs, ha⟩ := setTicksLocked_spec (c := 0) (n := 5) (f := none) (a := 0) h₀.queue
    not_mem_nil (by decide) (by decide) (by decide) Nat.zero_lt_one
  obtain ⟨hr, -, -, p, hp, hx⟩ := ha.ready (by decide)
  have hnow : s.now = 0 := ha.now
  cases hp
  have hx5 : s.expiry = some 5 := hx.trans (by decide)
  have hd : ∀ x, s.expiry = some x → s.now + 5 ≤ x := by
    intro x hx'
    rw [hx5] at hx'
    cases hx'
    rw [hnow]
  have hrun : Run TimedStep InPeriod (boot 65535) { s with now := s.now + 5 } := by
    refine .tail (i := Op.wait 5) (.tail (.refl _) ?_ (.set (by decide) hs)) trivial (.wait hd)
    intro hr
    exact absurd hr (by decide)
  have hev : Evaluates { s with now := s.now + 5 } (.callback passive) := by
    refine ⟨hr, ?_, ?_⟩
    · show s.expiry = some (s.now + 5)
      rw [hx5, hnow]
    · rw [← Bool.not_eq_true]
      intro he
      cases (listEmpty_iff ha.queue.ring).1 he
  exact ⟨_, hrun, hev, counter_never_wraps_unnoticed h₀ hrun hev trivial⟩

def timedExec (s : St) : Op → Option St
  | .wait d => if s.expiry.all (s.now + d ≤ ·) then some { s with now := s.now + d } else none
  | .set c n f a =>
    if n < 2 ^ 32 then (mdxCalloutSetTicks 9 s c n f a).map Prod.fst else none
  | _ => none

theorem timedExec_step (h : timedExec s op = some t) : TimedStep s op t := by
  cases op with
  | wait d =>
    rw [timedExec] at h
    split at h
    · rename_i hd
      cases h
      apply TimedStep.wait
      intro x hx
      rw [hx] at hd
      exact of_decide_eq_true hd
    · cases h
  | set c n f a =>
    rw [timedExec] at h
    split at h
    · rename_i hn
      obtain ⟨⟨t, r⟩, ht, he⟩ := Option.map_eq_some_iff.1 h
      cases he
      exact .set hn ht
    · cases h
  | cancel | callback => cases h

/-- A 16-bit counter: the first callout is far away, so the timer is programmed for a whole
period, and a second one set late in that period moves the interrupt past its end. When it
comes, 120000 ticks have passed and `get_elapsed` tells of 54464. -/
theorem second_callout_outlives_period :
    ∃ s, Run TimedStep (fun _ _ => True) (boot 65535) s ∧ Evaluates s (.callback passive) ∧
      s.now - s.savedAt = 120000 ∧ getElapsed s = 54464 ∧ ¬Unambiguous s := by
  let ops : List Op := [.set 0 200000 (some 0) 0, .wait 60000, .set 1 60000 (some 0) 0, .wait 60000]
  have hex : (ops.foldlM timedExec (boot 65535)).map (fun s => decide
      (s.timerState = .running ∧ s.expiry = some s.now ∧
        listEmpty s.links (.head s.cpuid) = false ∧ s.now - s.savedAt = 120000 ∧
        getElapsed s = 54464 ∧ s.miTmr.maxcnt = 65535)) = some true := by decide +kernel
  obtain ⟨s, hs, hb⟩ := Option.map_eq_some_iff.1 hex
  obtain ⟨h1, h2, h3, h4, h5, h6⟩ := of_decide_eq_true hb
  refine ⟨s, Run.of_foldlM (fun _ _ _ _ h => ⟨trivial, timedExec_step h⟩) hs, ⟨h1, h2, h3⟩, h4,
    h5, ?_⟩
  intro hu
  have hle := hu.1
  rw [h4, h6] at hle
  exact absurd hle (by decide)

end Mdepx.Callout
