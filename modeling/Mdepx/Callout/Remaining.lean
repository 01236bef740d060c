import Mdepx.Callout.Refine

namespace Mdepx.Callout
open Lib List Option

/-! `mdx_callout_ticks`: how long a callout has still to run. -/

section
variable {s : St} {ds : List (Nat × Nat)}

/-- The loop of `mdx_callout_ticks` from entry `c` on. `val` is an `int`, but it is only added to
and returned as a `uint32_t`, so that its 32 bits are all that matters. -/
def ticksLoop : Nat → St → Nat → Option Nat → Nat → Nat → Option Nat
  | 0, _, _, _, _, _ => none
  | _ + 1, _, _, none, _, val => some val
  | fuel + 1, s, c0, some c, ticksElapsed, val =>
    if (s.callout c).ticks ≤ ticksElapsed then
      if c = c0 then some val
      else ticksLoop fuel s c0 (next s s.cpuid c) (ticksElapsed - (s.callout c).ticks) val
    else
      let val := u32 (val + sub32 (s.callout c).ticks ticksElapsed)
      if c = c0 then some val else ticksLoop fuel s c0 (next s s.cpuid c) 0 val

def mdxCalloutTicks (fuel : Nat) (s : St) (c0 : Nat) : Option Nat :=
  if !(s.callout c0).active then some 0
  else ticksLoop fuel s c0 (first s s.cpuid) (getElapsed s) 0

theorem ticksLoop_spec (hr : Ring s.links (.head s.cpuid) (nodes (P ++ ds)))
    (ht : ∀ p ∈ ds, (s.callout p.1).ticks = p.2) (hc : (c0, D) ∈ Delta.deadlines t ds)
    (hD : D < 2 ^ 31) (he : e = e₀ - t) (hv : val = t - e₀) (hf : ds.length < fuel) :
    ticksLoop fuel s c0 (ids ds).head? e val = some (D - e₀) := by
  induction ds generalizing P fuel t e val with
  | nil => cases hc
  | cons p ds ih =>
    obtain ⟨c, d⟩ := p
    obtain ⟨fuel, rfl⟩ : ∃ k, fuel = k + 1 := ⟨fuel - 1, by simp at hf; omega⟩
    have hd : (s.callout c).ticks = d := ht (c, d) mem_cons_self
    have hnext : next s s.cpuid c = (ids ds).head? := next_of_ring hr
    have hr' : Ring s.links (.head s.cpuid) (nodes ((P ++ [(c, d)]) ++ ds)) := by
      rw [append_assoc]
      exact hr
    have ht' : ∀ p ∈ ds, (s.callout p.1).ticks = p.2 := fun p hp =>
      ht p (mem_cons_of_mem _ hp)
    have hnodup := nodup_ids_of_nodes hr.nodup_nodes
    have htD : t + d ≤ D := by
      rcases mem_cons.1 hc with hc | hc
      · rw [(Prod.mk.inj hc).2]
      · exact Delta.le_of_mem_deadlines hc
    have hlast (hcc : c = c0) : D = t + d := by
      rcases mem_cons.1 hc with hc | hc
      · exact (Prod.mk.inj hc).2
      · have hm : c ∈ ids ds := by
          rw [hcc]
          exact mem_ids_of_deadline hc
        simp only [ids_append, ids_cons, nodup_append, nodup_cons] at hnodup
        exact absurd hm hnodup.2.1.1
    have hrest (hcc : c ≠ c0) : (c0, D) ∈ Delta.deadlines (t + d) ds := by
      rcases mem_cons.1 hc with hc | hc
      · exact absurd (Prod.mk.inj hc).1.symm hcc
      · exact hc
    have hf' : ds.length < fuel := Nat.lt_of_succ_lt_succ hf
    simp only [ids_cons, List.head?_cons, ticksLoop, hd, hnext]
    by_cases hde : d ≤ e
    · rw [if_pos hde]
      by_cases hcc : c = c0
      · rw [if_pos hcc, hlast hcc]
        congr 1
        omega
      · rw [if_neg hcc]
        exact ih hr' ht' (hrest hcc) (by omega) (by omega) hf'
    · have hval : u32 (val + sub32 d e) = t + d - e₀ := by
        rw [sub32_of_le (by omega) (by omega), u32_of_lt (by omega)]
        omega
      rw [if_neg hde, hval]
      by_cases hcc : c = c0
      · rw [if_pos hcc, hlast hcc]
      · rw [if_neg hcc]
        exact ih hr' ht' (hrest hcc) (by omega) rfl hf'

theorem mdxCalloutTicks_eq (hq : Queue s ds) (hc : (c0, D) ∈ Delta.deadlines 0 ds)
    (hD : D < 2 ^ 31) (hf : ds.length < fuel) :
    mdxCalloutTicks fuel s c0 = some (D - getElapsed s) := by
  have hactive : (s.callout c0).active = true := (hq.active c0).2 (mem_ids_of_deadline hc)
  simp only [mdxCalloutTicks, hactive, Bool.not_true, Bool.false_eq_true, if_false]
  rw [first_of_ring hq.ring]
  exact ticksLoop_spec (P := []) hq.ring hq.ticks hc hD rfl (Nat.zero_sub _).symm hf

def Fires (fuel : Nat) (script : Nat → List FuncOp) (s : St) (c0 : Nat) : Prop :=
  ∃ m l, loopRounds fuel script m (callbackEnter s) = some l ∧ l.c = some c0 ∧
    (l.s.callout c0).ticks ≤ l.ticksElapsed

def funcs (s : St) (ds : List (Nat × Nat)) : Nat := (ds.filter fun p => hasFunc s p.1).length

theorem funcs_cons (s : St) (c d : Nat) (ds : List (Nat × Nat)) :
    funcs s ((c, d) :: ds) = (if hasFunc s c then 1 else 0) + funcs s ds := by
  unfold funcs
  by_cases hf : hasFunc s c = true
  · rw [filter_cons_of_pos (by exact hf), length_cons, if_pos hf, add_comm]
  · rw [filter_cons_of_neg (by exact hf), if_neg hf, zero_add]

theorem loopBody_quiet (fuel : Nat) (hq : Queue l.s ((c, d) :: ds)) (hc : l.c = some c)
    (hd : d ≤ l.ticksElapsed) (hs : hasFunc l.s c = true → script l.fired.length = []) :
    ∃ l', loopBody fuel script l = some l' ∧ Queue l'.s ds ∧ l'.c = (ids ds).head? ∧
      l'.ticksElapsed = l.ticksElapsed - d ∧
      l'.fired.length = l.fired.length + (if hasFunc l.s c then 1 else 0) ∧
      hasFunc l'.s = hasFunc l.s := by
  have hq' : Queue l.s ([] ++ (c, d) :: ds) := hq
  have hfunc : hasFunc (expireOne l.s c) = hasFunc l.s := by
    funext x
    rw [hasFunc, expireOne_func, hasFunc]
  cases hf : (l.s.callout c).func with
  | none =>
    have hno : hasFunc l.s c = false := by rw [hasFunc, hf, Option.isSome_none]
    refine ⟨_, loopBody_null hq' hc hd hf, expireOne_spec hq', rfl, rfl, ?_, hfunc⟩
    rw [hno]
    rfl
  | some =>
    have hyes : hasFunc l.s c = true := by rw [hasFunc, hf, Option.isSome_some]
    have hl : loopBody fuel script l = some {
        s := firing l.s c, c := (ids ds).head?, ticksElapsed := l.ticksElapsed - d,
        fired := l.fired ++ [c] } := by
      rw [loopBody_fire hq' hc hd hf, hs hyes, funcOps, map_some]
    refine ⟨_, hl, (expireOne_spec hq').observe _, rfl, rfl, ?_, hfunc⟩
    rw [hyes, length_append]
    rfl

theorem rounds_reach (hq : Queue l.s (pre ++ (c0, d) :: post))
    (hc : l.c = (ids (pre ++ (c0, d) :: post)).head?)
    (hd : Delta.total pre + d ≤ l.ticksElapsed)
    (hs : ∀ i < l.fired.length + funcs l.s pre, script i = []) :
    ∃ m l', loopRounds fuel script m l = some l' ∧ l'.c = some c0 ∧
      (l'.s.callout c0).ticks ≤ l'.ticksElapsed := by
  induction pre generalizing l with
  | nil =>
    refine ⟨0, l, rfl, hc, ?_⟩
    rw [hq.ticks (c0, d) mem_cons_self]
    simp only [Delta.total] at hd
    omega
  | cons p pre ih =>
    obtain ⟨c, x⟩ := p
    rw [funcs_cons] at hs
    simp only [Delta.total] at hd
    have hquiet : hasFunc l.s c = true → script l.fired.length = [] := by
      intro hf
      apply hs
      rw [if_pos hf]
      omega
    obtain ⟨l₁, hl, hq₁, hc₁, he₁, hn₁, hf₁⟩ :=
      loopBody_quiet fuel hq hc (by omega) hquiet
    have hs₁ : ∀ i < l₁.fired.length + funcs l₁.s pre, script i = [] := by
      intro i hi
      have hsame : funcs l₁.s pre = funcs l.s pre := by rw [funcs, hf₁, funcs]
      exact hs i (by omega)
    obtain ⟨m, l', hm, hrest⟩ := ih hq₁ hc₁ (by omega) hs₁
    refine ⟨m + 1, l', ?_, hrest⟩
    rw [loopRounds, hl, bind_some, hm]

theorem rounds_not_due (hq : Queue l.s (pre ++ (c0, d) :: post))
    (hc : l.c = (ids (pre ++ (c0, d) :: post)).head?)
    (hd : l.ticksElapsed < Delta.total pre + d)
    (hs : ∀ i < l.fired.length + funcs l.s pre, script i = [])
    (hm : loopRounds fuel script m l = some l') (hl' : l'.c = some c0) :
    l'.ticksElapsed < (l'.s.callout c0).ticks := by
  induction m generalizing l pre with
  | zero =>
    cases hm
    have hpre : pre = [] := by
      cases pre with
      | nil => rfl
      | cons p =>
        have hp : p.1 = c0 := Option.some.inj (hc.symm.trans hl')
        have hnodup := hq.nodup
        rw [cons_append, ids_cons, ids_append, ids_cons, hp] at hnodup
        exact absurd (by simp) (nodup_cons.1 hnodup).1
    subst hpre
    rw [hq.ticks (c0, d) mem_cons_self]
    simp only [Delta.total] at hd
    omega
  | succ m ih =>
    rw [loopRounds] at hm
    obtain ⟨l₁, hl, hm⟩ := bind_eq_some_iff.1 hm
    cases pre with
    | nil =>
      simp only [Delta.total, zero_add] at hd
      have hstop : loopBody fuel script l = _ := loopBody_stop (P := []) hq hc hd
      rw [hl] at hstop
      cases hstop
      rw [loopRounds_done rfl] at hm
      cases hm
      cases hl'
    | cons p pre =>
      obtain ⟨c, x⟩ := p
      rw [funcs_cons] at hs
      simp only [Delta.total] at hd
      by_cases hx : x ≤ l.ticksElapsed
      · have hquiet : hasFunc l.s c = true → script l.fired.length = [] := by
          intro hf
          apply hs
          rw [if_pos hf]
          omega
        obtain ⟨l₂, hl₂, hq₂, hc₂, he₂, hn₂, hf₂⟩ :=
          loopBody_quiet fuel hq hc hx hquiet
        have he : l₂ = l₁ := Option.some.inj (hl₂.symm.trans hl)
        subst he
        apply ih hq₂ hc₂ (by omega) _ hm
        intro i hi
        have hsame : funcs l₂.s pre = funcs l.s pre := by rw [funcs, hf₂, funcs]
        exact hs i (by omega)
      · have hstop : loopBody fuel script l = _ :=
          loopBody_stop (P := []) hq hc (Nat.lt_of_not_le hx)
        rw [hl] at hstop
        cases hstop
        rw [loopRounds_done rfl] at hm
        cases hm
        cases hl'

theorem fires_iff (hq : Queue s (pre ++ (c0, d) :: post))
    (hs : ∀ i < funcs s pre, script i = []) :
    Fires fuel script s c0 ↔ Delta.total pre + d ≤ getElapsed s := by
  have hq' := callbackEnter_queue hq
  have hc' := callbackEnter_cursor hq
  have hs' : ∀ i < (callbackEnter s).fired.length + funcs (callbackEnter s).s pre,
      script i = [] := by
    intro i hi
    have hnone : (callbackEnter s).fired.length = 0 := rfl
    have hsame : funcs (callbackEnter s).s pre = funcs s pre := rfl
    exact hs i (by omega)
  constructor
  · rintro ⟨m, l, hm, hl, hle⟩
    by_contra hlt
    have hnot := rounds_not_due hq' hc' (Nat.lt_of_not_le hlt) hs' hm hl
    omega
  · intro hle
    exact rounds_reach hq' hc' hle hs'

/-- The query agrees with the dispatch: when `get_elapsed` has gone on by `k` ticks, a callback
fires the callout exactly if the query had returned no more than `k`. What the funcs of the
callout itself and of those behind it do does not matter. -/
theorem remaining_ticks_exact (hq : Queue s (pre ++ (c0, d) :: post))
    (hD : Delta.total pre + d < 2 ^ 31) (hf : (pre ++ (c0, d) :: post).length < fuel) :
    ∃ r, mdxCalloutTicks fuel s c0 = some r ∧
      r = (if Delta.total pre + d ≤ getElapsed s then 0 else
        Delta.total pre + d - getElapsed s) ∧
      ∀ now k script, getElapsed { s with now := now } = getElapsed s + k →
        (∀ i < funcs s pre, script i = []) →
        (Fires fuel script { s with now := now } c0 ↔ r ≤ k) := by
  have hc : (c0, Delta.total pre + d) ∈ Delta.deadlines 0 (pre ++ (c0, d) :: post) := by
    rw [Delta.deadlines_append, zero_add]
    exact mem_append_right _ mem_cons_self
  refine ⟨_, mdxCalloutTicks_eq hq hc hD hf, ?_, ?_⟩
  · split
    · omega
    · rfl
  · intro now k script hk hs
    have hq' : Queue { s with now := now } (pre ++ (c0, d) :: post) :=
      ⟨hq.ring, hq.ticks, hq.active, hq.cpu⟩
    rw [fires_iff hq' hs, hk]
    omega

theorem remaining_ticks_exact_tied :
    ∃ s, Queue s ([(1, 5)] ++ (2, 0) :: []) ∧ getElapsed s = 1 ∧
      ∃ r, mdxCalloutTicks 3 s 2 = some r ∧ r = 4 ∧
        ∀ now k script, getElapsed { s with now := now } = getElapsed s + k →
          (∀ i < funcs s [(1, 5)], script i = []) →
          (Fires 3 script { s with now := now } 2 ↔ r ≤ k) := by
  have hfresh := boot_fresh (m := 65535) (by decide) (by decide)
  obtain ⟨s₁, hs₁, ha₁⟩ := setTicksLocked_spec (c := 1) (n := 5) (f := none) (a := 0)
    hfresh.queue not_mem_nil (by decide) (by decide) (by decide)
    (by decide : ([] : List (Nat × Nat)).length < 3)
  have hq₁ : Queue s₁ [(1, 5)] := ha₁.queue
  have hm₁ : s₁.miTmr.maxcnt < 2 ^ 32 := by
    rw [ha₁.maxcnt]
    decide
  have he₁ : (mdxCalloutSetTicksLocked 3 (boot 65535) 1 5 none 0).map (elapsedNow ·.1) =
      some 0 := by decide
  rw [hs₁, map_some, Option.some.injEq] at he₁
  obtain ⟨s₂, hs₂, ha₂⟩ := setTicksLocked_spec (c := 2) (n := 5) (f := none) (a := 0)
    hq₁ (by decide) (by decide) (by decide) hm₁ (by decide : [(1, 5)].length < 3)
  have hq₂ := ha₂.queue
  rw [he₁] at hq₂
  have hq : Queue { s₂ with now := 1 } ([(1, 5)] ++ (2, 0) :: []) :=
    ⟨hq₂.ring, hq₂.ticks, hq₂.active, hq₂.cpu⟩
  have hrun : ((mdxCalloutSetTicksLocked 3 (boot 65535) 1 5 none 0).bind fun r =>
      (mdxCalloutSetTicksLocked 3 r.1 2 5 none 0).map fun r =>
        getElapsed { r.1 with now := 1 }) = some 1 := by decide
  rw [hs₁, bind_some, hs₂, map_some, Option.some.injEq] at hrun
  obtain ⟨r, hr, hv, hfire⟩ := remaining_ticks_exact hq (by decide)
    (by decide : ([(1, 5)] ++ (2, 0) :: []).length < 3)
  rw [hrun] at hv
  exact ⟨_, hq, hrun, r, hr, hv, hfire⟩

end
end Mdepx.Callout
