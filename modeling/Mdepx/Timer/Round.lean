import Mdepx.Timer.Basic

namespace Mdepx.Timer
open Lib Callout Function List Option

/-! What a pass of the dispatch loop keeps of the timers. -/

structure Ticking (mt : Cputime.MiTimer) (s : St) (x : MdxTimer) (t : Nat) (h : History)
    (p : UInt32) : Prop where
  timer : x = ⟨h.heap.countUs + UInt64.ofNat h.ticks * p.toUInt64, 1, p⟩
  armed : shape s t = ⟨true, some tickFunc, t⟩
  countable : Countable mt p

structure Idle (s : St) (x : MdxTimer) (t : Nat) (h : History) : Prop where
  timer : x = h.heap
  inactive : (shape s t).active = false
  ticks : h.ticks = 0

def Upheld (mt : Cputime.MiTimer) (s : St) (x : MdxTimer) (t : Nat) (h : History) : Prop :=
  ((h.first = none ∨ h.heap.started ≠ 0) ∧ Idle s x t h) ∨
    ∃ p, h.first = some p ∧ h.heap.started = 0 ∧ Ticking mt s x t h p

variable {mt : Cputime.MiTimer}

theorem Upheld.congr (h : Upheld mt s x t k) (he : shape s' t = shape s t) :
    Upheld mt s' x t k := by
  rcases h with ⟨hf, hi⟩ | ⟨p, hf, hz, ht⟩
  · exact .inl ⟨hf, hi.timer, he ▸ hi.inactive, hi.ticks⟩
  · exact .inr ⟨p, hf, hz, ht.timer, he ▸ ht.armed, ht.countable⟩

theorem Upheld.ticking (h : Upheld mt s x t k) (ha : (shape s t).active = true) :
    ∃ p, k.first = some p ∧ k.heap.started = 0 ∧ Ticking mt s x t k p := by
  rcases h with ⟨-, hi⟩ | h
  · rw [hi.inactive] at ha
    cases ha
  · exact h

structure Sound (mt : Cputime.MiTimer) (s : St) (ts : Timers) : Prop where
  own : ∀ x, (shape s x).active = true → (shape s x).func = some tickFunc → ts.history x ≠ none
  upheld : ∀ t h, ts.history t = some h → Upheld mt s (ts.timer t) t h

def Reached (s : St) (c : Option Nat) : Prop :=
  ∀ x, c = some x → (shape s x).active = true ∨ (shape s x).func ≠ some tickFunc

theorem Sound.congr (h : Sound mt s ts) (he : ∀ x, shape s' x = shape s x) : Sound mt s' ts := by
  refine ⟨?_, fun t k hk => (h.upheld t k hk).congr (he t)⟩
  intro x
  rw [he x]
  exact h.own x

theorem Sound.rewrite (h : Sound mt s ts) (hu : Upheld mt s' x t k)
    (hother : ∀ x, x ≠ t → shape s' x = shape s x) :
    Sound mt s' ⟨update ts.timer t x, update ts.history t (some k)⟩ := by
  constructor
  · intro y ha hfn
    by_cases hy : y = t
    · simp only [hy, update_self]
      exact some_ne_none k
    · rw [hother y hy] at ha hfn
      simp only [update_of_ne hy]
      exact h.own y ha hfn
  · intro y j hj
    by_cases hy : y = t
    · subst hy
      simp only [update_self] at hj ⊢
      cases hj
      exact hu
    · simp only [update_of_ne hy] at hj ⊢
      exact (h.upheld y j hj).congr (hother y hy)

theorem Sound.touched (h : Sound mt s ts) (hc : ts.history c = none) (hf : f ≠ some tickFunc)
    (ht : Touched s s' c f) : Sound mt s' ts := by
  constructor
  · intro x ha hfn
    by_cases hx : x = c
    · subst hx
      rcases ht.self with he | ⟨-, he⟩ | he
      · rw [he] at ha hfn
        exact h.own x ha hfn
      · exact absurd (he.symm.trans hfn) hf
      · rw [he] at ha
        cases ha
    · rw [ht.other x hx] at ha hfn
      exact h.own x ha hfn
  · intro t k hk
    have htc : t ≠ c := fun he => by
      rw [he, hc] at hk
      cases hk
    exact (h.upheld t k hk).congr (ht.other t htc)

theorem Reached.touched (hr : Reached s cur) (h : Sound mt s ts) (hc : ts.history c = none)
    (ht : Touched s s' c f) : Reached s' cur := by
  intro x hx
  by_cases hxc : x = c
  · subst hxc
    rcases ht.self with he | ⟨he, -⟩ | he
    · rw [he]
      exact hr x hx
    · exact .inl he
    · rw [he]
      refine .inr (fun hfn => ?_)
      rcases hr x hx with ha | hne
      · exact h.own x ha hfn hc
      · exact hne hfn
  · rw [ht.other x hxc]
    exact hr x hx

structure Live (mt : Cputime.MiTimer) (s : St) (c : Option Nat) (ts : Timers)
    (ds : List (Nat × Nat)) : Prop where
  walk : Walk s c ds
  sound : Sound mt s ts
  reached : Reached s c

theorem Live.funcOps (h : Live mt s c ts ds) (hops : ∀ op ∈ ops, op.fits ∧ Foreign ts op)
    (hf : funcOps fuel s ops = some s') : ∃ ds', Live mt s' c ts ds' := by
  refine (funcOps_invariant (fun t ops => (∃ ds', Live mt t c ts ds') ∧
    ∀ op ∈ ops, op.fits ∧ Foreign ts op) ?_ ?_ ⟨⟨ds, h⟩, hops⟩ hf).1
  · intro t x n f a ops u r ⟨⟨ds₁, hl⟩, hops⟩ hx
    obtain ⟨⟨hfit, hown⟩, hrest⟩ := forall_mem_cons.1 hops
    obtain ⟨ds', hw, -⟩ := hl.walk.set hfit hx
    have hto := set_touched hl.walk.queue hfit hl.walk.maxcnt hx
    exact ⟨⟨ds', hw, hl.sound.touched hown.1 hown.2 hto,
      hl.reached.touched hl.sound hown.1 hto⟩, hrest⟩
  · intro t x ops ⟨⟨ds₁, hl⟩, hops⟩
    obtain ⟨⟨-, hown⟩, hrest⟩ := forall_mem_cons.1 hops
    obtain ⟨ds', hw, -⟩ := hl.walk.cancel x
    have hto := cancel_touched hl.walk.queue hl.walk.bounded x none
    exact ⟨⟨ds', hw, hl.sound.touched hown (by simp) hto,
      hl.reached.touched hl.sound hown hto⟩, hrest⟩

theorem next_cases (h : Walk s (some x) ds) (hn : next s s.cpuid x = some y) :
    (y ≠ x ∧ y ∈ ids ds) ∨ (y = x ∧ x ∉ ids ds) := by
  by_cases hx : x ∈ ids ds
  · obtain ⟨P, d, R, hd⟩ := exists_split hx
    subst hd
    rw [next_of_ring (p := (x, d)) h.queue.ring] at hn
    have hy : y ∈ ids R := mem_of_head? hn
    have hnot := h.queue.notMem_of_split
    rw [ids_append, mem_append, not_or] at hnot
    refine .inl ⟨fun he => hnot.2 (he ▸ hy), ?_⟩
    rw [ids_append, ids_cons]
    exact mem_append_right _ (mem_cons_of_mem _ hy)
  · rw [next_isolated (h.cursor x rfl hx)] at hn
    cases hn
    exact .inr ⟨rfl, hx⟩

theorem Reached.expire (hr : Reached s (some x)) (h : Walk s (some x) ds) :
    Reached (expireOne s x) (next s s.cpuid x) := by
  intro y hy
  rcases next_cases h hy with ⟨hne, hmem⟩ | ⟨he, hmem⟩
  · left
    rw [expireOne_shape_other s hne]
    exact (h.queue.active y).2 hmem
  · right
    subst he
    rw [expireOne_shape_self]
    rcases hr y rfl with ha | hne
    · exact absurd ((h.queue.active y).1 ha) hmem
    · exact hne

theorem Sound.expire (h : Sound mt s ts) (hx : (shape s x).func ≠ some tickFunc) :
    Sound mt (expireOne s x) ts := by
  constructor
  · intro y ha hfn
    by_cases hy : y = x
    · subst hy
      rw [expireOne_shape_self] at ha
      cases ha
    · rw [expireOne_shape_other s hy] at ha hfn
      exact h.own y ha hfn
  · intro t k hk
    by_cases ht : t = x
    · subst ht
      rcases h.upheld t k hk with ⟨hf, hi⟩ | ⟨p, -, -, htick⟩
      · refine .inl ⟨hf, hi.timer, ?_, hi.ticks⟩
        rw [expireOne_shape_self]
      · rw [htick.armed] at hx
        exact absurd rfl hx
    · exact (h.upheld t k hk).congr (expireOne_shape_other s ht)

section
variable {fuel : Nat} {script : Nat → List FuncOp} {l l' : Loop}
  {ts ts' : Timers} {ds : List (Nat × Nat)}

theorem Live.round_other (h : Live mt l.s l.c ts ds) (ht : tickArg l = none)
    (hscript : ∀ i, ∀ op ∈ script i, op.fits ∧ Foreign ts op)
    (hb : loopBody fuel script l = some l') : ∃ ds', Live mt l'.s l'.c ts ds' := by
  rcases loopBody_inv hb with ⟨-, he⟩ | ⟨x, hx, hcase⟩
  · subst he
    exact ⟨ds, h⟩
  rw [hx] at h
  rcases hcase with ⟨hd, he⟩ | ⟨-, hfn, he⟩ | ⟨hd, f, s', hfn, hf, he⟩
  · subst he
    obtain ⟨ds', hw⟩ := h.walk.stop hd
    refine ⟨ds', hw, h.sound.congr (setTicks_shape _ _ _), ?_⟩
    intro y hy
    cases hy
  · subst he
    obtain ⟨ds', hw⟩ := h.walk.expire
    have hne : (shape l.s x).func ≠ some tickFunc := fun he => by
      rw [shape, hfn] at he
      cases he
    exact ⟨ds', hw, h.sound.expire hne, h.reached.expire h.walk⟩
  · subst he
    have hne : (shape l.s x).func ≠ some tickFunc := fun he => by
      rw [tickArg, hx, bind_some, if_pos ⟨hd, he⟩] at ht
      cases ht
    obtain ⟨ds', hw⟩ := h.walk.expire
    have hfire : Live mt (firing l.s x) (next l.s l.s.cpuid x) ts ds' :=
      ⟨⟨hw.queue.observe _, hw.bounded, hw.cursor, hw.maxcnt, hw.exception⟩,
        (h.sound.expire hne).congr fun _ => rfl, h.reached.expire h.walk⟩
    exact hfire.funcOps (hscript _) hf

theorem Live.ticking (h : Live mt l.s l.c ts ds) (ht : tickArg l = some t) :
    l.c = some t ∧ (l.s.callout t).ticks ≤ l.ticksElapsed ∧ ∃ k p, ts.history t = some k ∧
      k.first = some p ∧ k.heap.started = 0 ∧ Ticking mt l.s (ts.timer t) t k p := by
  obtain ⟨x, hx, hif⟩ := bind_eq_some_iff.1 ht
  by_cases hdue : (l.s.callout x).ticks ≤ l.ticksElapsed ∧ (l.s.callout x).func = some tickFunc
  · rw [if_pos hdue] at hif
    have harg : (l.s.callout x).arg = t := Option.some.inj hif
    have hact := (h.reached x hx).resolve_right (fun hne => hne hdue.2)
    obtain ⟨k, hk⟩ := ne_none_iff_exists'.1 (h.sound.own x hact hdue.2)
    obtain ⟨p, hf, hz, htick⟩ := (h.sound.upheld x k hk).ticking hact
    have hxt : x = t := by
      have hown : (shape l.s x).arg = x := by rw [htick.armed]
      exact hown.symm.trans harg
    subst hxt
    exact ⟨hx, hdue.1, k, p, hk, hf, hz, htick⟩
  · rw [if_neg hdue] at hif
    cases hif

theorem mdxTimerTick_eq (h : Ticking mt s x t k p) :
    ∃ n : UInt32, n ≠ 0 ∧ mdxTimerTick mt x t =
      some (⟨k.heap.countUs + UInt64.ofNat (k.ticks + 1) * p.toUInt64, 1, p⟩,
        [.set t n.toNat (some tickFunc) t]) := by
  obtain ⟨n, hn, hn0⟩ := h.countable
  refine ⟨n, hn0, ?_⟩
  have hcount : k.heap.countUs + UInt64.ofNat k.ticks * p.toUInt64 + p.toUInt64 =
      k.heap.countUs + UInt64.ofNat (k.ticks + 1) * p.toUInt64 := by
    rw [UInt64.ofNat_add, UInt64.add_mul, UInt64.add_assoc]
    simp
  rw [mdxTimerTick, h.timer]
  simp only [hn, hcount]
  rfl

theorem Live.expire_self (h : Live mt l.s l.c ts ds) (ht : tickArg l = some t) :
    ∃ ds', Walk (firing l.s t) (next l.s l.s.cpuid t) ds' ∧ t ∉ ids ds' := by
  obtain ⟨hc, -⟩ := h.ticking ht
  have hwalk := h.walk
  rw [hc] at hwalk
  obtain ⟨ds', hw⟩ := hwalk.expire
  have hq : Queue (firing l.s t) ds' := hw.queue.observe _
  refine ⟨ds', ⟨hq, hw.bounded, hw.cursor, hw.maxcnt, hw.exception⟩, ?_⟩
  have hoff : ((firing l.s t).callout t).active = false :=
    congrArg Shape.active (expireOne_shape_self l.s t)
  rw [← hq.active, hoff]
  exact Bool.false_ne_true

theorem loopBody_tick (hc : l.c = some t) (hdue : (l.s.callout t).ticks ≤ l.ticksElapsed)
    (hfn : (l.s.callout t).func = some tickFunc) :
    loopBody fuel (fun _ => [.set t n (some tickFunc) t]) l =
      (mdxCalloutSetTicksLocked fuel (firing l.s t) t n (some tickFunc) t).map fun r =>
        ⟨r.1, next l.s l.s.cpuid t, l.ticksElapsed - (l.s.callout t).ticks, l.fired ++ [t]⟩ := by
  have hfn' : ((expireOne l.s t).callout t).func = some tickFunc :=
    (expireOne_func l.s t t).trans hfn
  have hnow : (expireOne l.s t).observe (.invoked t (expireOne l.s t).now) = firing l.s t := rfl
  rw [loopBody, hc]
  simp only [if_pos hdue, hfn', hnow, funcOps, funcOp]
  cases mdxCalloutSetTicksLocked fuel (firing l.s t) t n (some tickFunc) t with
  | none | some => rfl

section
variable (h : Live mt l.s l.c ts ds) (ht : tickArg l = some t)
include h ht

theorem Live.loopBody_eq :
    loopBody fuel (fun _ => [.set t n (some tickFunc) t]) l =
      (mdxCalloutSetTicksLocked fuel (firing l.s t) t n (some tickFunc) t).map fun r =>
        ⟨r.1, next l.s l.s.cpuid t, l.ticksElapsed - (l.s.callout t).ticks, l.fired ++ [t]⟩ := by
  obtain ⟨hc, hdue, k, p, -, -, -, htick⟩ := h.ticking ht
  exact loopBody_tick hc hdue (congrArg Shape.func htick.armed)

theorem Live.rearm_returns (hn : n ≠ 0) (hn32 : n < 2 ^ 32) : ∃ N, ∀ fuel, N ≤ fuel → ∃ l',
      loopBody fuel (fun _ => [.set t n (some tickFunc) t]) l = some l' := by
  obtain ⟨ds', hw, hout⟩ := h.expire_self ht
  refine ⟨ds'.length + 1, fun fuel hfuel => ?_⟩
  obtain ⟨s', hset, -⟩ := setTicksLocked_spec (f := some tickFunc) (a := t) hw.queue hout hn
    hn32 hw.maxcnt hfuel
  rw [h.loopBody_eq ht, hset]
  exact ⟨_, rfl⟩

theorem Live.rearm (hn : n ≠ 0) (hn32 : n < 2 ^ 32)
    (hb : loopBody fuel (fun _ => [.set t n (some tickFunc) t]) l = some l') :
    (∃ ds', Walk l'.s l'.c ds') ∧ Reached l'.s l'.c ∧ shape l'.s t = ⟨true, some tickFunc, t⟩ ∧
      ∀ x, x ≠ t → shape l'.s x = shape l.s x := by
  obtain ⟨hc, -⟩ := h.ticking ht
  obtain ⟨ds', hw, hout⟩ := h.expire_self ht
  rw [h.loopBody_eq ht] at hb
  obtain ⟨⟨s', r⟩, hset, he⟩ := map_eq_some_iff.1 hb
  subst he
  rcases setTicksLocked_cases hw.queue hn32 hw.maxcnt hset with
    ⟨hin, -⟩ | ⟨-, hn0, -⟩ | ⟨-, -, ha, -⟩
  · exact absurd hin hout
  · exact absurd hn0 hn
  · have hself := Armed.shape_self ha
    have hother : ∀ x, x ≠ t → shape s' x = shape l.s x := fun x hx =>
      (Armed.shape_other ha hx).trans (expireOne_shape_other l.s hx)
    refine ⟨⟨_, hw.arm hout ha⟩, ?_, hself, hother⟩
    intro y hy
    by_cases hyt : y = t
    · subst hyt
      exact .inl (congrArg Shape.active hself)
    · rw [hc] at h
      have hy' := h.reached.expire h.walk y hy
      rw [expireOne_shape_other l.s hyt, ← hother y hyt] at hy'
      exact hy'

end

theorem Sound.tick (h : Sound mt s ts) (hk : ts.history t = some k) (hf : k.first = some p)
    (hz : k.heap.started = 0) (hp : Countable mt p)
    (hself : shape s' t = ⟨true, some tickFunc, t⟩)
    (hother : ∀ x, x ≠ t → shape s' x = shape s x) :
    Sound mt s' ((ts.set t ⟨k.heap.countUs + UInt64.ofNat (k.ticks + 1) * p.toUInt64, 1, p⟩).note t
      fun h => { h with ticks := h.ticks + 1 }) := by
  rw [Timers.note, Timers.set, hk]
  exact h.rewrite (.inr ⟨p, hf, hz, rfl, hself, hp⟩) hother

theorem Live.round_returns (h : Live mt l.s l.c ts ds) (ht : tickArg l = some t) :
    ∃ N, ∀ fuel, N ≤ fuel → ∃ q, round mt fuel script (l, ts) = some q := by
  obtain ⟨-, -, k, p, -, -, -, htick⟩ := h.ticking ht
  obtain ⟨n, hn, hmt⟩ := mdxTimerTick_eq htick
  have hn0 : n.toNat ≠ 0 := fun he => hn (UInt32.toNat_inj.1 he)
  obtain ⟨N, hN⟩ := h.rearm_returns ht hn0 n.toNat_lt
  refine ⟨N, fun fuel hfuel => ?_⟩
  obtain ⟨l', hb⟩ := hN fuel hfuel
  rw [round, ht]
  simp only [hmt, hb, bind_eq_bind, bind_some]
  exact ⟨_, rfl⟩

theorem Live.round (h : Live mt l.s l.c ts ds)
    (hscript : ∀ i, ∀ op ∈ script i, op.fits ∧ Foreign ts op)
    (hr : round mt fuel script (l, ts) = some (l', ts')) :
    (∃ ds', Live mt l'.s l'.c ts' ds') ∧ ∀ c, ts'.origin c = ts.origin c := by
  cases ht : tickArg l with
  | none =>
    rw [Timer.round, ht] at hr
    obtain ⟨l₁, hb, he⟩ := map_eq_some_iff.1 hr
    cases he
    exact ⟨h.round_other ht hscript hb, fun _ => rfl⟩
  | some t =>
    obtain ⟨-, -, k, p, hk, hf, hz, htick⟩ := h.ticking ht
    obtain ⟨n, hn, hmt⟩ := mdxTimerTick_eq htick
    have hn0 : n.toNat ≠ 0 := fun he => hn (UInt32.toNat_inj.1 he)
    rw [Timer.round, ht] at hr
    simp only [hmt, bind_eq_bind, bind_some] at hr
    obtain ⟨l₁, hb, he⟩ := bind_eq_some_iff.1 hr
    cases he
    obtain ⟨⟨ds', hw⟩, hre, hself, hother⟩ := h.rearm ht hn0 n.toNat_lt hb
    refine ⟨⟨ds', hw, h.sound.tick hk hf hz htick.countable hself hother, hre⟩, ?_⟩
    intro c
    by_cases hc : c = t
    · subst hc
      simp [Timers.origin, Timers.note, Timers.set, hk]
    · simp only [Timers.origin, Timers.note, Timers.set, update_of_ne hc]

theorem history_none (h : ts'.origin c = ts.origin c) (hc : ts.history c = none) :
    ts'.history c = none := by
  rw [Timers.origin, Timers.origin, hc, map_none] at h
  exact map_eq_none_iff.1 h

theorem Foreign.congr (h : ∀ c, ts'.origin c = ts.origin c) (hop : Foreign ts op) :
    Foreign ts' op := by
  cases op with
  | set c => exact ⟨history_none (h c) hop.1, hop.2⟩
  | cancel c => exact history_none (h c) hop

theorem Live.rounds (h : Live mt l.s l.c ts ds)
    (hscript : ∀ i, ∀ op ∈ script i, op.fits ∧ Foreign ts op)
    (hr : rounds mt fuel script n (l, ts) = some (l', ts')) :
    (∃ ds', Live mt l'.s l'.c ts' ds') ∧ ∀ c, ts'.origin c = ts.origin c := by
  induction n generalizing l ts ds with
  | zero =>
    cases hr
    exact ⟨⟨ds, h⟩, fun _ => rfl⟩
  | succ n ih =>
    obtain ⟨⟨l₁, ts₁⟩, h₁, hrest⟩ := bind_eq_some_iff.1 hr
    obtain ⟨⟨ds₁, hl₁⟩, hsame⟩ := h.round hscript h₁
    have hscript₁ : ∀ i, ∀ op ∈ script i, op.fits ∧ Foreign ts₁ op := fun i op hop =>
      ⟨(hscript i op hop).1, (hscript i op hop).2.congr hsame⟩
    obtain ⟨hl', hsame'⟩ := ih hl₁ hscript₁ hrest
    exact ⟨hl', fun c => (hsame' c).trans (hsame c)⟩

end

end Mdepx.Timer
