import Mdepx.Callout.Clean

namespace Mdepx.Callout
open Lib List

/-! The account of a pass whose funcs do nothing but cancel, and the place of its loop. -/

def FuncOp.cancels : FuncOp → Bool
  | .set _ _ _ _ => false
  | .cancel _ => true

def fires (new : List Event) (t x : Nat) : Nat := new.count (.invoked x t)

def drops (new : List Event) (t x : Nat) : Nat := new.count (.cancelled x t)

/-- Of the callouts queued at the start of a pass, every due one has been invoked once, unless
it was cancelled before its turn; no other callout has been invoked. -/
def Exact (s₀ : St) (ds₀ : List (Nat × Nat)) (s : St) : Prop :=
  ∃ new, s.log = new ++ s₀.log ∧
    (∀ p ∈ Delta.deadlines 0 ds₀, drops new s₀.now p.1 ≤ 1 ∧
      fires new s₀.now p.1 =
        if p.2 ≤ getElapsed s₀ ∧ hasFunc s₀ p.1 = true ∧ drops new s₀.now p.1 = 0 then 1 else 0) ∧
    ∀ x, x ∉ ids ds₀ → fires new s₀.now x = 0

structure Tally (s₀ : St) (ds₀ : List (Nat × Nat)) (s : St) (e : Nat) (R : List (Nat × Nat))
    (new : List Event) : Prop where
  nodup : (ids ds₀).Nodup
  queue : Queue s R
  bounded : Bounded R
  now : s.now = s₀.now
  func : ∀ x, (s.callout x).func = (s₀.callout x).func
  log : s.log = new ++ s₀.log
  left : e ≤ getElapsed s₀
  due : ∀ p ∈ Delta.deadlines 0 R,
    (p.1, p.2 + (getElapsed s₀ - e)) ∈ Delta.deadlines 0 ds₀
  waiting : ∀ x ∈ ids R, drops new s₀.now x = 0 ∧ fires new s₀.now x = 0
  settled : ∀ p ∈ Delta.deadlines 0 ds₀, p.1 ∉ ids R →
    drops new s₀.now p.1 = 1 ∧ fires new s₀.now p.1 = 0 ∨
    drops new s₀.now p.1 = 0 ∧ p.2 ≤ getElapsed s₀ ∧
      fires new s₀.now p.1 = if hasFunc s₀ p.1 = true then 1 else 0
  foreign : ∀ x, x ∉ ids ds₀ → fires new s₀.now x = 0

theorem Tally.start (hq : Queue s ds) (hb : Bounded ds) :
    Tally s ds (callbackEnter s).s (callbackEnter s).ticksElapsed ds [] := by
  refine ⟨hq.nodup, callbackEnter_queue hq, hb, rfl, fun _ => rfl, rfl, le_rfl, ?_,
    fun _ _ => ⟨rfl, rfl⟩, ?_, fun _ _ => rfl⟩
  · intro p hp
    rw [show (callbackEnter s).ticksElapsed = getElapsed s from rfl, Nat.sub_self]
    exact hp
  · intro p hp hmem
    exact absurd (mem_ids_of_deadline hp) hmem

section
variable (new : List Event) (t x y : Nat)

theorem drops_cancelled :
    drops (.cancelled x t :: new) t y = drops new t y + if x = y then 1 else 0 := by
  simp [drops, count_cons]

theorem fires_cancelled : fires (.cancelled x t :: new) t y = fires new t y := by
  simp [fires]

theorem drops_invoked : drops (.invoked x t :: new) t y = drops new t y := by
  simp [drops]

theorem fires_invoked :
    fires (.invoked x t :: new) t y = fires new t y + if x = y then 1 else 0 := by
  simp [fires, count_cons]

end

theorem Tally.cancel (h : Tally s₀ ds₀ s e R new) (x : Nat) :
    ∃ new', Tally s₀ ds₀ (mdxCalloutCancel s x).1 e (Delta.remove x R) new' := by
  by_cases hx : x ∈ ids R
  · obtain ⟨s', he, hq, hs⟩ := cancel_remove h.queue h.bounded hx
    have hnd := h.queue.nodup
    rw [he]
    refine ⟨.cancelled x s₀.now :: new, h.nodup, hq, h.bounded.remove hnd x, hs.now.trans h.now,
      fun y => (hs.func y).trans (h.func y), ?_, h.left, ?_, ?_, ?_, ?_⟩
    · rw [hs.log, h.log, h.now]
      rfl
    · intro p hp
      rw [Delta.deadlines_remove_filter x 0 R hnd] at hp
      exact h.due p (mem_filter.1 hp).1
    · intro y hy
      have hxy : x ≠ y := fun hc => notMem_ids_remove hnd (hc ▸ hy)
      rw [drops_cancelled, fires_cancelled, if_neg hxy]
      exact h.waiting y (mem_ids_remove hy)
    · intro p hp hmem
      rw [drops_cancelled, fires_cancelled]
      by_cases hxp : x = p.1
      · rw [if_pos hxp, ← hxp]
        obtain ⟨h1, h2⟩ := h.waiting x hx
        exact .inl ⟨by rw [h1], h2⟩
      · rw [if_neg hxp]
        exact h.settled p hp fun hm => hmem (mem_ids_remove_of_ne (Ne.symm hxp) hm)
    · intro y hy
      rw [fires_cancelled]
      exact h.foreign y hy
  · rw [cancel_inactive (h.queue.inactive hx), Delta.remove_of_notMem hx]
    exact ⟨new, h⟩

theorem deadline_unique (hnd : (ids ds).Nodup) (hp : p ∈ Delta.deadlines 0 ds)
    (hq : q ∈ Delta.deadlines 0 ds) (h : p.1 = q.1) : p = q := by
  have hnd' : ((Delta.deadlines 0 ds).map Prod.fst).Nodup := by
    rw [Delta.deadlines_fst]
    exact hnd
  exact inj_on_of_nodup_map hnd' hp hq h

theorem Tally.take {t : St} (h : Tally s₀ ds₀ s e ((x, d) :: R) new) (hd : d ≤ e)
    (hq : Queue t R) (hnow : t.now = s.now) (hfunc : ∀ y, (t.callout y).func = (s.callout y).func)
    (hlog : t.log = new' ++ s₀.log) (hdrops : ∀ y, drops new' s₀.now y = drops new s₀.now y)
    (hfires : ∀ y, fires new' s₀.now y =
      fires new s₀.now y + if x = y ∧ hasFunc s₀ x = true then 1 else 0) :
    Tally s₀ ds₀ t (e - d) R new' := by
  have hq₀ : Queue s ([] ++ (x, d) :: R) := h.queue
  have hxR : x ∉ ids R := hq₀.notMem_of_split
  have hle := h.left
  have hxd := h.due (x, 0 + d) mem_cons_self
  obtain ⟨hx0, hx1⟩ := h.waiting x mem_cons_self
  have hother {y : Nat} (hy : y ≠ x) : fires new' s₀.now y = fires new s₀.now y := by
    rw [hfires, if_neg fun hc => hy hc.1.symm, add_zero]
  refine ⟨h.nodup, hq, Bounded.drop (P := []) h.bounded, hnow.trans h.now,
    fun y => (hfunc y).trans (h.func y), hlog, by omega, ?_, ?_, ?_, ?_⟩
  · intro p hp
    have hp' : (p.1, p.2 + d) ∈ Delta.deadlines 0 ((x, d) :: R) := by
      rw [Delta.deadlines, zero_add]
      apply mem_cons_of_mem
      apply Delta.mem_deadlines_shift (le_refl d)
      rw [Nat.sub_self]
      exact hp
    have hm := h.due _ hp'
    have he : p.2 + d + (getElapsed s₀ - e) = p.2 + (getElapsed s₀ - (e - d)) := by omega
    rw [← he]
    exact hm
  · intro y hy
    have hyx : y ≠ x := fun hc => hxR (hc ▸ hy)
    rw [hdrops, hother hyx]
    exact h.waiting y (mem_cons_of_mem _ hy)
  · intro p hp hmem
    by_cases hpx : p.1 = x
    · right
      have heq := deadline_unique h.nodup hp hxd hpx
      rw [hdrops, hfires, hpx, hx0, hx1, heq]
      refine ⟨rfl, ?_, ?_⟩
      · dsimp only
        omega
      · simp
    · rw [hdrops, hother hpx]
      apply h.settled p hp
      rw [ids_cons, mem_cons, not_or]
      exact ⟨hpx, hmem⟩
  · intro y hy
    have hyx : y ≠ x := by
      intro hc
      apply hy
      rw [hc]
      exact mem_ids_of_deadline hxd
    rw [hother hyx]
    exact h.foreign y hy

theorem Tally.exact (h : Tally s₀ ds₀ s e R new) (hR : ∀ p ∈ Delta.deadlines 0 R, e < p.2) :
    Exact s₀ ds₀ s := by
  refine ⟨new, h.log, ?_, h.foreign⟩
  intro p hp
  by_cases hm : p.1 ∈ ids R
  · obtain ⟨h0, h1⟩ := h.waiting p.1 hm
    have hlate : getElapsed s₀ < p.2 := by
      unfold ids at hm
      rw [← Delta.deadlines_fst 0] at hm
      obtain ⟨q, hq, hqp⟩ := mem_map.1 hm
      have heq := deadline_unique h.nodup hp (h.due q hq) hqp.symm
      have hlt := hR q hq
      have hle := h.left
      rw [heq]
      dsimp only
      omega
    rw [h0, h1, if_neg fun hc => Nat.not_le.2 hlate hc.1]
    exact ⟨Nat.zero_le _, rfl⟩
  · rcases h.settled p hp hm with ⟨h0, h1⟩ | ⟨h0, hdue, h1⟩
    · rw [h0, h1, if_neg fun hc => absurd hc.2.2 Nat.one_ne_zero]
      exact ⟨le_rfl, rfl⟩
    · rw [h0, h1]
      simp [hdue]

def Ahead (s : St) (R : List (Nat × Nat)) (e : Nat) (c : Option Nat) : Prop :=
  c = (ids R).head? ∨ ∃ x, c = some x ∧ x ∉ ids R ∧ Ring s.links (.node x) [] ∧
    e < (s.callout x).ticks ∧ ∀ p ∈ Delta.deadlines 0 R, e < p.2

def Stuck (s : St) (R : List (Nat × Nat)) (e : Nat) (c : Option Nat) : Prop :=
  ∃ x, c = some x ∧ x ∉ ids R ∧ Ring s.links (.node x) [] ∧ (s.callout x).ticks ≤ e

theorem cancel_outside (hq : Queue s R) (hb : Bounded R) (hy : y ∉ ids R)
    (hr : Ring s.links (.node y) []) (x : Nat) :
    y ∉ ids (Delta.remove x R) ∧ Ring (mdxCalloutCancel s x).1.links (.node y) [] ∧
      (mdxCalloutCancel s x).1.callout y = s.callout y := by
  by_cases hx : x ∈ ids R
  · obtain ⟨s', he, -, hs⟩ := cancel_remove hq hb hx
    rw [he]
    exact ⟨fun hm => hy (mem_ids_remove hm), hs.isolated hq hx hr hy, hs.idle y (hq.inactive hy)⟩
  · rw [cancel_inactive (hq.inactive hx), Delta.remove_of_notMem hx]
    exact ⟨hy, hr, rfl⟩

theorem Stuck.cancel (h : Stuck s R e c) (hq : Queue s R) (hb : Bounded R) (x : Nat) :
    Stuck (mdxCalloutCancel s x).1 (Delta.remove x R) e c := by
  obtain ⟨y, hc, hy, hr, ht⟩ := h
  obtain ⟨hy', hr', hcall⟩ := cancel_outside hq hb hy hr x
  exact ⟨y, hc, hy', hr', hcall ▸ ht⟩

theorem late_of_head (hd : e < d) (hp : p ∈ Delta.deadlines 0 ((t, d) :: R)) : e < p.2 := by
  rw [Delta.deadlines, zero_add] at hp
  rcases mem_cons.1 hp with hp | hp
  · rw [hp]
    exact hd
  · exact lt_of_lt_of_le hd (Delta.le_of_mem_deadlines hp)

theorem late_remove (hnd : (ids R).Nodup) (h : ∀ p ∈ Delta.deadlines 0 R, e < p.2) (x : Nat) :
    ∀ p ∈ Delta.deadlines 0 (Delta.remove x R), e < p.2 := by
  intro p hp
  rw [Delta.deadlines_remove_filter x 0 R hnd] at hp
  exact h p (mem_filter.1 hp).1

theorem Ahead.cancel (h : Ahead s R e c) (hq : Queue s R) (hb : Bounded R) (x : Nat) :
    ((c = some x → (s.callout x).active = true → e < (s.callout x).ticks) →
      Ahead (mdxCalloutCancel s x).1 (Delta.remove x R) e c) ∧
    (¬(c = some x → (s.callout x).active = true → e < (s.callout x).ticks) →
      Stuck (mdxCalloutCancel s x).1 (Delta.remove x R) e c) := by
  have hnd := hq.nodup
  rcases h with hc | ⟨y, hc, hy, hr, ht, hlate⟩
  · by_cases hx : x ∈ ids R
    · obtain ⟨s', he, -, hs⟩ := cancel_remove hq hb hx
      rw [he]
      cases R with
      | nil => cases hx
      | cons q =>
        obtain ⟨t, d⟩ := q
        have htd : (s.callout t).ticks = d := hq.ticks (t, d) mem_cons_self
        by_cases hxt : x = t
        · subst hxt
          have hself : (s'.callout x).ticks = d := by
            rw [hs.self]
            exact htd
          have hact := (hq.active x).2 hx
          constructor
          · intro hsafe
            have hlt := hsafe hc hact
            rw [htd] at hlt
            exact .inr ⟨x, hc, notMem_ids_remove hnd, hs.isolated_self, hself.symm ▸ hlt,
              late_remove hnd (fun p hp => late_of_head hlt hp) x⟩
          · intro hsafe
            refine ⟨x, hc, notMem_ids_remove hnd, hs.isolated_self, ?_⟩
            rw [hself]
            by_contra hlt
            apply hsafe
            intro _ _
            rw [htd]
            omega
        · have hct : c ≠ some x := by
            rw [hc]
            intro heq
            exact hxt (Option.some.inj heq).symm
          refine ⟨fun _ => .inl ?_, fun hsafe => absurd (fun heq => absurd heq hct) hsafe⟩
          rw [hc, Delta.remove, if_neg (Ne.symm hxt)]
          rfl
    · rw [cancel_inactive (hq.inactive hx), Delta.remove_of_notMem hx]
      refine ⟨fun _ => .inl hc, fun hsafe => absurd (fun _ hact => ?_) hsafe⟩
      exact absurd ((hq.active x).1 hact) hx
  · obtain ⟨hy', hr', hcall⟩ := cancel_outside hq hb hy hr x
    refine ⟨fun _ => .inr ⟨y, hc, hy', hr', hcall.symm ▸ ht, late_remove hnd hlate x⟩, ?_⟩
    intro hsafe
    refine absurd (fun heq hact => ?_) hsafe
    rw [hc] at heq
    cases heq
    exact absurd ((hq.active x).1 hact) hy

end Mdepx.Callout
