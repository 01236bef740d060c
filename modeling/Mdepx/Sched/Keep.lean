import Mdepx.Sched.Place

namespace Mdepx.Sched
open Lib Function

/-! Every step keeps the places of the threads. -/

section
variable {k k' : Kernel n} {q : Head → List Nat} {loc : Nat → Loc n} {l l₀ : Loc n}

theorem good_update (h : ∀ u, Good (k.td u) (loc u)) (hg : Good th l) (u : Nat) :
    Good (update k.td t th u) (update loc t l u) := by
  by_cases hu : u = t
  · subst hu
    rw [update_self, update_self]
    exact hg
  · rw [update_of_ne hu, update_of_ne hu]
    exact h u

theorem good_move (h : ∀ u, Good (k.td u) (loc u)) (hg : Good (k.td t) l) (u : Nat) :
    Good (k.td u) (update loc t l u) := by
  have hu := good_update (t := t) h hg u
  rw [update_eq_self] at hu
  exact hu

theorem Placed.good_at (h : Placed k q loc) (hl : loc t = l) : Good (k.td t) l := hl ▸ h.good t

theorem spinning_congr {x y : Cpu} (h : x.post = y.post) : x.spinning = y.spinning := by
  unfold Cpu.spinning
  rw [h]

section
variable (h : Placed k q loc)
include h

theorem Placed.lock_setCpu (hx : x.post = (k.cpu c).post) :
    Matches (Sem.lock ∘ k.sem) (Cpu.spinning ∘ update k.cpu c x) := by
  rw [comp_update, spinning_congr hx]
  have he : update (Cpu.spinning ∘ k.cpu) c (k.cpu c).spinning = Cpu.spinning ∘ k.cpu :=
    update_eq_self c (Cpu.spinning ∘ k.cpu)
  rw [he]
  exact h.lock

theorem Placed.posting_setCpu (hx : x.post = (k.cpu c).post) :
    Seating Loc.post Cpu.posting FitsPost (update k.cpu c x) loc := by
  apply h.posting.same
  · rw [Cpu.posting, hx]
    rfl
  · intro l hl
    rw [FitsPost, hx]
    exact hl

theorem Placed.setTd (hg : Good th (loc t)) : Placed (k.setTd t th) q loc := by
  refine ⟨h.lined, h.seated, h.posting, ?_, h.lock⟩
  intro u
  have hu := good_update (t := t) h.good hg u
  rw [update_eq_self] at hu
  exact hu

theorem Placed.note : Placed (k.note e) q loc :=
  ⟨h.lined, h.seated, h.posting, h.good, h.lock⟩

theorem Placed.setCount (s : Nat) (count : Int) :
    Placed (k.setSem s { k.sem s with count := count }) q loc := by
  refine ⟨h.lined, h.seated, h.posting, h.good, ?_⟩
  have he : Sem.lock ∘ update k.sem s { k.sem s with count := count } =
      Sem.lock ∘ k.sem := by
    rw [comp_update]
    exact update_eq_self s (Sem.lock ∘ k.sem)
  rw [Kernel.setSem, he]
  exact h.lock

theorem Placed.leave (hc : k.cpu c = ⟨ctx, none⟩) (hl : loc t = l₀) (hg : Good th l)
    (ht : l₀.cpu = some c) (hcpu : l.cpu = none) (hhead : l.head = l₀.head)
    (hpost : l.post = l₀.post) (hphase : l.phase = l₀.phase) (hctx : ctx'.td = none) :
    Placed ((k.setTd t th).setCpu c ⟨ctx', none⟩) q (update loc t l) := by
  subst hl
  have hp : (none : Option Post) = (k.cpu c).post := by rw [hc]
  refine ⟨h.lined.keep hhead, h.seated.leave ht hcpu hctx, ?_, good_update h.good hg, ?_⟩
  · apply (h.posting_setCpu hp).keep hpost
    intro d _ hf
    rw [FitsPost, hphase]
    exact hf
  · exact h.lock_setCpu hp

theorem Placed.stay (hc : k.cpu c = ⟨ctx, none⟩) (hl : loc t = l₀) (hg : Good th l)
    (ht : l₀.cpu = some c) (hcpu : l.cpu = some c) (hhead : l.head = l₀.head) (hp0 : l₀.post = none)
    (hpost : l.post = none) (hctx : ctx'.td = some t) (hfit : FitsCtx ⟨ctx', none⟩ l) :
    Placed ((k.setTd t th).setCpu c ⟨ctx', none⟩) q (update loc t l) := by
  subst hl
  have hp : (none : Option Post) = (k.cpu c).post := by rw [hc]
  refine ⟨h.lined.keep hhead, h.seated.stay ht hcpu hctx hfit, ?_, good_update h.good hg, ?_⟩
  · exact (h.posting_setCpu hp).vacant hp0 hpost
  · exact h.lock_setCpu hp

end

theorem trapPc_call (h : trapPc pc intr = some pc') : pc'.call = pc.call := by
  unfold trapPc at h
  split at h
  · cases h
    rfl
  · split at h
    · cases h
      rfl
    · cases h

theorem Waits.trap (h : Thread.Waits th s) (hp : trapPc th.pc intr = some pc) :
    Thread.Waits { th with pc := pc, state := .ack } s := by
  obtain ⟨hi, usec, hc, hw⟩ := h
  exact ⟨hi, usec, (trapPc_call hp).trans hc, hw⟩

theorem Waits.off {th th' : Thread n} (h : Thread.Waits th s) (hp : th'.pc = th.pc)
    (hi : th'.idle = th.idle) (ht : th'.timeout = th.timeout)
    (hoff : th'.tdC.Off) : th'.Waits s := by
  obtain ⟨hid, usec, hc, -, htime⟩ := h
  rw [← hp] at hc
  rw [← hi] at hid
  rw [← ht] at htime
  exact ⟨hid, usec, hc, fun _ => hoff, htime⟩

section
variable (h : Placed k q loc) (hc : k.cpu c = ⟨.thread t, none⟩)
include h hc

theorem Placed.release (hp : trapPc (k.td t).pc intr = some pc)
    (hs : (k.td t).state = .semWait ∨ (k.td t).state = .sleeping) :
    ∃ loc', Placed ((k.setTd t { k.td t with pc := pc, state := .ack }).setCpu c
      ⟨.handler t true intr, none⟩) q loc' := by
  have hg := h.good t
  rcases h.thread hc with hl | ⟨s, hl⟩ | ⟨s, p, hl⟩ | hl | hl
  · rw [hl] at hg
    refine absurd ?_ hg.2.2.1.notMem
    rcases hs with hs | hs
    · simp [hs]
    · simp [hs]
  · rw [hl] at hg
    obtain ⟨hlive, hoff, hw, -, -, hon⟩ := hg
    have hnew : Good { k.td t with pc := pc, state := .ack } (.waiting s) :=
      ⟨hlive, hoff, Waits.trap hw hp, rfl, c, hon⟩
    exact ⟨_, h.leave hc hl hnew rfl rfl rfl rfl rfl rfl⟩
  · rw [hl] at hg
    obtain ⟨hlive, hoff, hw, -, -, hon⟩ := hg
    have hnew : Good { k.td t with pc := pc, state := .ack } (.spun s p) :=
      ⟨hlive, hoff, Waits.trap hw hp, rfl, c, hon⟩
    exact ⟨_, h.leave hc hl hnew rfl rfl rfl rfl rfl rfl⟩
  · rw [hl] at hg
    obtain ⟨hlive, hoff, hcall, -, hi, hon⟩ := hg
    have hnew : Good { k.td t with pc := pc, state := .ack } .asleep :=
      ⟨hlive, hoff, rfl, (trapPc_call hp).trans (by rw [hcall]; rfl), hi, c, hon⟩
    exact ⟨_, h.leave hc hl hnew rfl rfl rfl rfl rfl rfl⟩
  · rw [hl] at hg
    obtain ⟨-, -, -, hst⟩ := hg
    rw [hst] at hs
    rcases hs with hs | hs
    · cases hs
    · cases hs

theorem Placed.reap (hs : (k.td t).state = .terminating) :
    ∃ loc', Placed ((k.setTd t { k.td t with pc := pc, life := .dead }).setCpu c
      ⟨.handler t true intr, none⟩) q loc' := by
  have hg := h.good t
  rcases h.thread hc with hl | ⟨s, hl⟩ | ⟨s, p, hl⟩ | hl | hl
  · rw [hl] at hg
    refine absurd ?_ hg.2.2.1.notMem
    simp [hs]
  · rw [hl] at hg
    exact absurd (hs.symm.trans hg.2.2.2.2.1) (by decide)
  · rw [hl] at hg
    exact absurd (hs.symm.trans hg.2.2.2.2.1) (by decide)
  · rw [hl] at hg
    exact absurd (hs.symm.trans hg.2.2.2.1) (by decide)
  · rw [hl] at hg
    have hnew : Good { k.td t with pc := pc, life := .dead } .dead :=
      ⟨rfl, hg.2.1, hs⟩
    exact ⟨_, h.leave hc hl hnew rfl rfl rfl rfl rfl rfl⟩

theorem Placed.interrupt (hs : (k.td t).state ∉ [.semWait, .sleeping, .terminating]) :
    ∃ loc', Placed ((k.setTd t { k.td t with pc := pc }).setCpu c
      ⟨.handler t false intr, none⟩) q loc' := by
  have hg := h.good t
  rcases h.thread hc with hl | ⟨s, hl⟩ | ⟨s, p, hl⟩ | hl | hl
  · rw [hl] at hg
    have hnew : Good { k.td t with pc := pc } (.running c) := hg
    exact ⟨_, h.stay hc hl hnew rfl rfl rfl rfl rfl rfl trivial⟩
  · rw [hl] at hg
    simp [hg.2.2.2.2.1] at hs
  · rw [hl] at hg
    simp [hg.2.2.2.2.1] at hs
  · rw [hl] at hg
    simp [hg.2.2.2.1] at hs
  · rw [hl] at hg
    simp [hg.2.2.2] at hs

end

theorem Placed.resume (h : Placed k q loc) (hc : k.cpu c = ⟨.handler t false intr, none⟩) :
    ∃ loc', Placed (k.setCpu c ⟨.thread t, none⟩) q loc' := by
  have hl := h.interrupted hc
  have hg := h.good_at hl
  have hnew : Placed ((k.setTd t (k.td t)).setCpu c ⟨.thread t, none⟩) q
      (update loc t (.running c)) :=
    h.stay hc hl hg rfl rfl rfl rfl rfl rfl trivial
  rw [Kernel.setTd, update_eq_self] at hnew
  exact ⟨_, hnew⟩

theorem Thread.Queued.picked (h : Thread.Queued th) : th.picked.state.Active := by
  simp only [Thread.picked]
  split
  · rename_i hi
    rcases h with hst | ⟨hn, -⟩
    · exact .inr hst
    · rw [hi] at hn
      cases hn
  · exact .inl rfl

section
variable (h : Placed k q loc)
include h

theorem Placed.switch (hc : k.cpu c = ⟨.chosen t, none⟩) :
    ∃ loc', Placed ((k.setTd t (k.td t).picked).setCpu c ⟨.thread t, none⟩) q loc' := by
  have hl := h.chosen hc
  have hg := h.good_at hl
  obtain ⟨hlive, hst, hoff, hsleep⟩ := hg
  have hnew : Good (k.td t).picked (.running c) := ⟨hlive, hsleep, hst.picked, .inl hoff⟩
  exact ⟨_, h.stay hc hl hnew rfl rfl rfl rfl rfl rfl trivial⟩

theorem Placed.switchTimed (hc : k.cpu c = ⟨.chosen t, none⟩)
    (hq : (k.td t).quantum ≠ 0) (hi : (k.td t).idle = false) :
    ∃ loc', Placed ((k.setTd t { (k.td t).picked with
      tdC := mdxCalloutSetTicks (mdxCalloutInit (k.td t).tdC) c (k.td t).quantum .schedCb
      }).setCpu c ⟨.thread t, none⟩) q loc' := by
  have hl := h.chosen hc
  have hg := h.good_at hl
  obtain ⟨hlive, hst, hoff, hsleep⟩ := hg
  have hrun : (k.td t).picked.state = .running := by
    simp only [Thread.picked, hi, Bool.false_eq_true, if_false]
  have hnew : Good { (k.td t).picked with
      tdC := mdxCalloutSetTicks (mdxCalloutInit (k.td t).tdC) c (k.td t).quantum .schedCb }
      (.running c) :=
    ⟨hlive, hsleep, .inl hrun, .inr ⟨hrun, hq, hoff.on_set _ _ hq⟩⟩
  exact ⟨_, h.stay hc hl hnew rfl rfl rfl rfl rfl rfl trivial⟩

theorem Placed.not_thread (hc : k.cpu c = ⟨.handler u r i, none⟩)
    (hl : (loc t).cpu = some c) : u = t ∧ r = false ∧ loc t = .running c := by
  have htd := (h.seated.held t c).1 hl
  rw [comp_apply, hc] at htd
  cases r with
  | true => cases htd
  | false =>
    cases htd
    exact ⟨rfl, rfl, h.interrupted hc⟩

theorem Placed.tdC_linked (hl : c ∈ (k.td t).tdC.linked) :
    loc t = .running c ∧ (k.td t).state = .running ∧ (k.td t).tdC.func = .schedCb ∨
    ∃ s, (k.td t).tdC.func = .semCb s ∧ (loc t = .entering s c ∨ (∃ p, loc t = .grabbed s p c) ∨
      loc t = .waiting s ∨ (∃ p, loc t = .spun s p) ∨
      ∃ p, loc t = .handed s p ∧ (k.td t).state = .semUnlock) := by
  have hg := h.good t
  generalize loc t = l at hg ⊢
  cases l with
  | running =>
    obtain ⟨-, -, -, hoff | ⟨hst, -, hon⟩⟩ := hg
    · exact absurd hl hoff.not_linked
    · obtain ⟨hcd, hf⟩ := Callout.Only.linked (.inr hon) hl
      rw [hcd]
      exact .inl ⟨rfl, hst, hf⟩
  | entering s =>
    obtain ⟨hcd, hf⟩ := hg.2.2.2.2.2.linked hl
    rw [hcd]
    exact .inr ⟨s, hf, .inl rfl⟩
  | grabbed s p =>
    obtain ⟨hcd, hf⟩ := hg.2.2.2.2.2.linked hl
    rw [hcd]
    exact .inr ⟨s, hf, .inr (.inl ⟨p, rfl⟩)⟩
  | waiting s =>
    obtain ⟨-, -, -, -, d, hon⟩ := hg
    exact .inr ⟨s, (hon.linked hl).2, .inr (.inr (.inl rfl))⟩
  | spun s p =>
    obtain ⟨-, -, -, -, d, hon⟩ := hg
    exact .inr ⟨s, (hon.linked hl).2, .inr (.inr (.inr (.inl ⟨p, rfl⟩)))⟩
  | handed s p =>
    obtain ⟨-, -, -, ⟨hst, d, hon⟩ | ⟨-, hoff⟩⟩ := hg
    · exact .inr ⟨s, (hon.linked hl).2, .inr (.inr (.inr (.inr ⟨p, rfl, hst⟩)))⟩
    · exact absurd hl hoff.not_linked
  | unborn | dead | freed | ending => exact absurd hl hg.2.1.1.not_linked
  | resting | asleep => exact absurd hl hg.2.1.not_linked
  | queued =>
    exact absurd hl hg.2.2.2.1.not_linked
  | chosen =>
    exact absurd hl hg.2.2.1.not_linked

theorem Placed.sleepC_linked (hl : c ∈ (k.td t).sleepC.linked) :
    loc t = .resting c ∨ loc t = .asleep := by
  have hg := h.good t
  generalize loc t = l at hg ⊢
  cases l with
  | resting =>
    obtain ⟨hcd, -⟩ := Callout.Only.linked (.inr hg.2.2.2.2.2) hl
    rw [hcd]
    exact .inl rfl
  | asleep => exact .inr rfl
  | unborn | dead | freed | ending => exact absurd hl hg.2.1.2.not_linked
  | queued =>
    exact absurd hl hg.2.2.2.2.not_linked
  | chosen =>
    exact absurd hl hg.2.2.2.not_linked
  | _ =>
    exact absurd hl hg.2.1.not_linked

theorem Placed.spun_spinning (hl : loc t = .spun s p) :
    (k.cpu p).spinning = some s := by
  have hp : (k.cpu p).posting = some t := by
    apply (h.posting.held t p).1
    rw [comp_apply, hl]
    rfl
  have hfit := h.posting.fits p t hp
  obtain ⟨⟨t', s', ph⟩, hx, hxt⟩ := Option.map_eq_some_iff.1 hp
  rw [FitsPost, hx, hl] at hfit
  cases hxt
  cases hfit
  rw [Cpu.spinning, hx]

section
variable (hc : k.cpu c = ⟨.handler u r true, none⟩)
include hc

theorem Placed.fires_sched (hl : c ∈ (k.td t).tdC.linked) (hf : (k.td t).tdC.func = .schedCb) :
    loc t = .running c ∧ u = t ∧ r = false ∧ (k.td t).state = .running := by
  rcases h.tdC_linked hl with ⟨hlt, hst, -⟩ | ⟨s, hs, -⟩
  · obtain ⟨hu, hr, -⟩ := h.not_thread (t := t) hc (by rw [hlt]; rfl)
    exact ⟨hlt, hu, hr, hst⟩
  · rw [hf] at hs
    cases hs

theorem Placed.fires_sem (hl : c ∈ (k.td t).tdC.linked) (hf : (k.td t).tdC.func = .semCb s)
    (hk : (k.sem s).lock = none) :
    loc t = .waiting s ∨ ∃ p, loc t = .handed s p ∧ (k.td t).state = .semUnlock := by
  rcases h.tdC_linked hl with ⟨-, -, hs⟩ | ⟨s', hs, hlt⟩
  · rw [hf] at hs
    cases hs
  · rw [hf] at hs
    cases hs
    rcases hlt with hlt | ⟨p, hlt⟩ | hlt | ⟨p, hlt⟩ | hlt
    · obtain ⟨-, -, hr⟩ := h.not_thread (t := t) hc (by rw [hlt]; rfl)
      rw [hlt] at hr
      cases hr
    · obtain ⟨-, -, hr⟩ := h.not_thread (t := t) hc (by rw [hlt]; rfl)
      rw [hlt] at hr
      cases hr
    · exact .inl hlt
    · have hlock := (h.lock s p).2 (h.spun_spinning hlt)
      rw [comp_apply, hk] at hlock
      cases hlock
    · exact .inr hlt

theorem Placed.fires_sleep (hl : c ∈ (k.td t).sleepC.linked) : loc t = .asleep := by
  rcases h.sleepC_linked hl with hlt | hlt
  · obtain ⟨-, -, hr⟩ := h.not_thread (t := t) hc (by rw [hlt]; rfl)
    rw [hlt] at hr
    cases hr
  · exact hlt

end

theorem Placed.quantum (hl : loc t = .running c) :
    Placed (k.setTd t { k.td t with tdC := (k.td t).tdC.fired, state := .ready }) q loc := by
  obtain ⟨hlive, hsleep, -, hco⟩ := h.good_at hl
  have hoff : (k.td t).tdC.fired.Off := Callout.Only.fired (hco.imp_right fun hon => hon.2.2)
  apply h.setTd
  rw [hl]
  exact ⟨hlive, hsleep, .inr (.inl rfl), .inl hoff⟩

theorem Placed.late (hl : loc t = .handed s p) :
    Placed (k.setTd t { k.td t with tdC := (k.td t).tdC.fired, state := .semUnlockAck }) q loc := by
  obtain ⟨hlive, hsleep, hw, hst⟩ := h.good_at hl
  have hoff : (k.td t).tdC.fired.Off := by
    rcases hst with ⟨-, d, hco⟩ | ⟨-, hco⟩
    · exact hco.fired
    · exact Callout.Only.fired (c := p) (f := .schedCb) (.inl hco)
  apply h.setTd
  rw [hl]
  exact ⟨hlive, hsleep, Waits.off hw rfl rfl rfl hoff, .inr ⟨rfl, hoff⟩⟩

theorem Placed.timeout (hl : loc t = .waiting s) :
    Placed (((((k.dequeue t).setTd t
        { k.td t with tdC := (k.td t).tdC.fired, timeout := true, state := .wakeup }).note
          e)).enqueue (.runq (k.td t).prio) t)
      (update (update q (.sem s) ((q (.sem s)).erase t))
        (.runq (k.td t).prio) (q (.runq (k.td t).prio) ++ [t]))
      (update loc t (.queued (k.td t).prio)) := by
  have hg := h.good_at hl
  obtain ⟨hlive, hsleep, hw, -, d, hco⟩ := hg
  refine ⟨?_, ?_, ?_, good_update h.good ?_, h.lock⟩
  · exact h.lined.transfer (by rw [hl]; rfl) (by simp) rfl
  · exact h.seated.vacant (by rw [hl]; rfl) rfl
  · exact h.posting.vacant (by rw [hl]; rfl) rfl
  · exact ⟨hlive, rfl, .inr ⟨hw.1, .inr rfl⟩, hco.fired, hsleep⟩

theorem Placed.enqueue (hl : loc t = l₀) (hg : Good th (.queued p))
    (hhead : l₀.head = none) (hcpu : l₀.cpu = none) (hpost : l₀.post = none) :
    Placed ((k.setTd t th).enqueue (.runq p) t)
      (update q (.runq p) (q (.runq p) ++ [t])) (update loc t (.queued p)) := by
  subst hl
  exact ⟨h.lined.append hhead rfl, h.seated.vacant hcpu rfl, h.posting.vacant hpost rfl,
    good_update h.good hg, h.lock⟩

theorem Placed.wakeup (hl : loc t = .asleep) :
    Placed ((k.setTd t { k.td t with sleepC := (k.td t).sleepC.fired }).enqueue
        (.runq (k.td t).prio) t)
      (update q (.runq (k.td t).prio) (q (.runq (k.td t).prio) ++ [t]))
      (update loc t (.queued (k.td t).prio)) := by
  have hg := h.good_at hl
  obtain ⟨hlive, hoff, hst, hcall, hi, d, hon⟩ := hg
  have hnew : Good { k.td t with sleepC := (k.td t).sleepC.fired } (.queued (k.td t).prio) :=
    ⟨hlive, rfl, .inr ⟨hi, .inl ⟨hst, hcall⟩⟩, hoff, Callout.Only.fired (.inr hon)⟩
  exact h.enqueue hl hnew rfl rfl rfl

theorem Placed.unborn (hlife : (k.td t).life = .unborn) :
    loc t = .unborn := by
  have hg := h.good t
  cases hlt : loc t with
  | unborn => rfl
  | _ =>
    rw [hlt] at hg
    exact absurd (hlife.symm.trans hg.1) (by decide)

theorem Placed.create (hlife : (k.td t).life = .unborn) :
    Placed ((k.setTd t (mdxThreadSetup k prio quantumUsec)).enqueue (.runq prio) t)
      (update q (.runq prio) (q (.runq prio) ++ [t]))
      (update loc t (.queued prio)) := by
  have hnew : Good (mdxThreadSetup k prio quantumUsec) (.queued prio) :=
    ⟨rfl, rfl, .inl (.inl rfl), Callout.off_zero _, Callout.off_zero _⟩
  exact h.enqueue (h.unborn hlife) hnew rfl rfl rfl

theorem Placed.requeue (hc : k.cpu c = ⟨.handler t false intr, none⟩)
    (hs : (k.td t).state = .yielding ∨ (k.td t).state = .ready) :
    Placed ((k.enqueue (.runq (k.td t).prio) t).setCpu c ⟨.handler t true false, none⟩)
      (update q (.runq (k.td t).prio) (q (.runq (k.td t).prio) ++ [t]))
      (update loc t (.queued (k.td t).prio)) := by
  have hl := h.interrupted hc
  have hg := h.good_at hl
  obtain ⟨hlive, hsleep, -, hoff⟩ := hg
  have hoff : (k.td t).tdC.Off := by
    rcases hoff with hoff | ⟨hst, -⟩
    · exact hoff
    · rw [hst] at hs
      rcases hs with hs | hs
      · cases hs
      · cases hs
  have hnew : Good (k.td t) (.queued (k.td t).prio) := ⟨hlive, rfl, .inl hs.symm, hoff, hsleep⟩
  have hp : (none : Option Post) = (k.cpu c).post := by rw [hc]
  refine ⟨h.lined.append (by rw [hl]; rfl) rfl, ?_, ?_, ?_, ?_⟩
  · exact h.seated.leave (by rw [hl]; rfl) rfl rfl
  · exact (h.posting_setCpu hp).vacant (by rw [hl]; rfl) rfl
  · exact good_move h.good hnew
  · exact h.lock_setCpu hp

end

theorem firstOf_eq (hq : Queues m q) (hf : firstOf m i = some t) : ∃ ts, q i = t :: ts := by
  unfold firstOf at hf
  split at hf
  · cases hf
  · rename_i he
    obtain ⟨u, us, hqi, hn⟩ := hq.next_head (Bool.eq_false_iff.2 he)
    rw [hn] at hf
    cases hf
    exact ⟨us, hqi⟩

theorem firstOf_none (hq : Queues m q) (hf : firstOf m i = none) : q i = [] := by
  unfold firstOf at hf
  split at hf
  · rename_i he
    exact (hq.empty_iff i).1 he
  · rename_i he
    obtain ⟨u, us, hqi, hn⟩ := hq.next_head (Bool.eq_false_iff.2 he)
    rw [hn] at hf
    cases hf

theorem mdxSchedPick_eq (hq : Queues m q) (hp : mdxSchedPick m i = some t) :
    ∃ p ts, q (.runq p) = t :: ts := by
  induction i with
  | zero => cases hp
  | succ i ih =>
    simp only [mdxSchedPick] at hp
    split at hp
    · rename_i u hf
      cases hp
      obtain ⟨ts, hts⟩ := firstOf_eq hq hf
      exact ⟨i, ts, hts⟩
    · exact ih hp

section
variable (h : Placed k q loc)
include h

theorem Placed.in_runq (ht : t ∈ q (.runq p)) : loc t = .queued p := by
  have hh := (h.lined.filed t (.runq p)).2 ht
  rw [comp_apply] at hh
  generalize loc t = l at hh ⊢
  cases l with
  | queued =>
    cases hh
    rfl
  | _ =>
    cases hh

theorem Placed.in_sem (ht : t ∈ q (.sem s)) :
    (∃ d, loc t = .entering s d) ∨ loc t = .waiting s := by
  have hh := (h.lined.filed t (.sem s)).2 ht
  rw [comp_apply] at hh
  generalize loc t = l at hh ⊢
  cases l with
  | entering s' d =>
    cases hh
    exact .inl ⟨d, rfl⟩
  | waiting =>
    cases hh
    exact .inr rfl
  | _ =>
    cases hh

theorem Placed.pick (hc : k.cpu c = ⟨.handler u true intr, none⟩)
    (ht : t ∈ q (.runq p)) :
    Placed ((k.dequeue t).setCpu c ⟨.chosen t, none⟩)
      (update q (.runq p) ((q (.runq p)).erase t))
      (update loc t (.chosen c)) := by
  have hl := h.in_runq ht
  have hg := h.good_at hl
  have hnew : Good (k.td t) (.chosen c) := ⟨hg.1, hg.2.2⟩
  have hp : (none : Option Post) = (k.cpu c).post := by rw [hc]
  refine ⟨h.lined.remove (by rw [hl]; rfl) rfl, ?_, ?_, ?_, ?_⟩
  · exact h.seated.enter (by rw [hl]; rfl) (by rw [hc]; rfl) rfl rfl trivial
  · exact (h.posting_setCpu hp).vacant (by rw [hl]; rfl) rfl
  · exact good_move h.good hnew
  · exact h.lock_setCpu hp

theorem Placed.put (hc : k.cpu c = ⟨.thread t, none⟩)
    (hl : loc t = .running c) (hg : Good th l) (hcpu : l.cpu = some c) (hhead : l.head = none)
    (hpost : l.post = none) (hfit : FitsCtx ⟨.thread t, none⟩ l) :
    Placed (k.setTd t th) q (update loc t l) := by
  have hseat : (loc t).cpu = some c := by
    rw [hl]
    rfl
  refine ⟨h.lined.keep ?_, h.seated.keep (hcpu.trans hseat.symm) ?_,
    h.posting.vacant (by rw [hl]; rfl) hpost, good_update h.good hg, h.lock⟩
  · rw [hl, hhead]
    rfl
  · intro d hd _
    rw [hseat] at hd
    cases hd
    rw [hc]
    exact hfit

theorem Placed.tdC_cancel (hl : loc t = .running c) :
    (mdxCalloutCancel (k.td t).tdC).Off := by
  have hg := h.good_at hl
  obtain ⟨-, -, -, hoff | ⟨-, -, hon⟩⟩ := hg
  · exact Callout.Only.cancel (c := c) (f := .schedCb) (.inl hoff)
  · exact Callout.Only.cancel (.inr hon)

section
variable (hc : k.cpu c = ⟨.thread t, none⟩) (hp : (k.td t).pc = .user)
include hc hp

theorem Placed.sleep (hn : ticks ≠ 0) (hi : (k.td t).idle = false) :
    ∃ loc', Placed (k.setTd t { k.td t with
        sleepC := mdxCalloutSetTicks (mdxCalloutInit (k.td t).sleepC) c ticks ()
        state := .sleeping
        tdC := mdxCalloutCancel (k.td t).tdC
        pc := .before .tsleep }) q loc' := by
  have hl := h.caller hc (by rw [hp]; simp)
  have hg := h.good_at hl
  have hnew : Good { k.td t with
        sleepC := mdxCalloutSetTicks (mdxCalloutInit (k.td t).sleepC) c ticks ()
        state := .sleeping
        tdC := mdxCalloutCancel (k.td t).tdC
        pc := .before .tsleep } (.resting c) :=
    ⟨hg.1, h.tdC_cancel hl, rfl, rfl, hi, hg.2.1.on_set _ _ hn⟩
  exact ⟨_, h.put hc hl hnew rfl rfl rfl trivial⟩

theorem Placed.terminate : ∃ loc', Placed (mdxThreadTerminate k t) q loc' := by
  have hl := h.caller hc (by rw [hp]; simp)
  have hg := h.good_at hl
  have hnew : Good { k.td t with
      state := .terminating
      tdC := mdxCalloutCancel (k.td t).tdC
      pc := .before .threadTerminate } (.ending c) :=
    ⟨hg.1, ⟨h.tdC_cancel hl, hg.2.1⟩, ⟨_, rfl⟩, rfl⟩
  exact ⟨_, h.put hc hl hnew rfl rfl rfl trivial⟩

theorem Placed.yield (hq : (k.td t).quantum = 0) : Placed (mdxThreadYield k t) q loc := by
  have hl := h.caller hc (by rw [hp]; simp)
  have hg := h.good_at hl
  obtain ⟨hlive, hsleep, -, hoff⟩ := hg
  apply h.setTd
  rw [hl]
  refine ⟨hlive, hsleep, .inr (.inr rfl), .inl ?_⟩
  rcases hoff with hoff | ⟨-, hne, -⟩
  · exact hoff
  · exact absurd hq hne

end

theorem Placed.goOn (hc : k.cpu c = ⟨.thread t, none⟩)
    (hp : ∀ call, (k.td t).pc ≠ .before call) (pc : Pc) :
    Placed (k.setTd t { k.td t with pc := pc }) q loc := by
  have hl := h.caller hc hp
  have hg := h.good t
  apply h.setTd
  rw [hl] at hg ⊢
  exact hg

end

theorem waiter_good (hlive : th.life = .live) (hsleep : th.sleepC.Off) (hi : th.idle = false)
    (hoff : (mdxCalloutCancel th.tdC).Off) (c : Fin n) (s usec ticks : Nat) :
    Good (waiter c s usec ticks th) (.entering s c) := by
  unfold waiter
  dsimp only
  split
  · rename_i hu
    exact ⟨hlive, hsleep, ⟨hi, usec, rfl, fun _ => hoff, fun hn => absurd hu hn⟩, ⟨_, rfl⟩, rfl,
      .inl hoff⟩
  · rename_i hu
    exact ⟨hlive, hsleep, ⟨hi, usec, rfl, fun hn => absurd hn hu, fun _ => rfl⟩, ⟨_, rfl⟩, rfl,
      hoff.set c ticks _⟩

theorem Placed.block (h : Placed k q loc) (hc : k.cpu c = ⟨.thread t, none⟩)
    (hp : (k.td t).pc = .user) (hi : (k.td t).idle = false) (s usec ticks : Nat) :
    Placed ((k.setTd t (waiter c s usec ticks (k.td t))).enqueue (.sem s) t)
      (update q (.sem s) (q (.sem s) ++ [t])) (update loc t (.entering s c)) := by
  have hl := h.caller hc (by rw [hp]; simp)
  have hg := h.good_at hl
  have hnew := waiter_good hg.1 hg.2.1 hi (h.tdC_cancel hl) c s usec ticks
  refine ⟨h.lined.append (by rw [hl]; rfl) rfl, h.seated.keep (by rw [hl]; rfl) ?_,
    h.posting.vacant (by rw [hl]; rfl) rfl, good_update h.good hnew, h.lock⟩
  intro d hd _
  rw [hl] at hd
  cases hd
  rw [hc]
  trivial

theorem seated_setPost (h : Placed k q loc) (p : Option Post) :
    Seating Loc.cpu Cpu.td FitsCtx (update k.cpu c { k.cpu c with post := p }) loc :=
  h.seated.same rfl fun _ hf => hf

theorem FitsCtx.grabbed (h : FitsCtx x (.entering s d : Loc n)) : FitsCtx x (.grabbed s c d) := by
  obtain ⟨ctx, post⟩ := x
  cases ctx with
  | thread => trivial
  | handler t r =>
    cases r with
    | true | false => exact h.elim
  | chosen => exact h.elim

section
variable (h : Placed k q loc)
include h

theorem Placed.postTo (hc : (k.cpu c).post = none) (hk : (k.sem s).lock = none)
    (ht : t ∈ q (.sem s)) :
    ∃ loc', Placed ((((k.dequeue t).setSem s { k.sem s with lock := some c }).setCpu c
        { k.cpu c with post := some ⟨t, s, .spin⟩ }))
      (update q (.sem s) ((q (.sem s)).erase t)) loc' := by
  have hlock : Matches (Sem.lock ∘ update k.sem s { k.sem s with lock := some c })
      (Cpu.spinning ∘ update k.cpu c { k.cpu c with post := some ⟨t, s, .spin⟩ }) := by
    rw [comp_update, comp_update]
    apply h.lock.assign hk
    rw [comp_apply, Cpu.spinning, hc]
  have hfree : (k.cpu c).posting = none := by
    rw [Cpu.posting, hc]
    rfl
  have hg := h.good t
  rcases h.in_sem ht with ⟨d, hl⟩ | hl
  · rw [hl] at hg
    have hnew : Good (k.td t) (.grabbed s c d) := hg
    refine ⟨_, h.lined.remove (l := .grabbed s c d) (by rw [hl]; rfl) rfl, ?_, ?_, ?_, hlock⟩
    · apply (seated_setPost h _).keep
      · rw [hl]
        rfl
      · intro e _ hf
        rw [hl] at hf
        exact hf.grabbed
    · exact h.posting.enter (by rw [hl]; rfl) hfree rfl rfl rfl
    · exact good_move h.good hnew
  · rw [hl] at hg
    have hnew : Good (k.td t) (.spun s c) := hg
    refine ⟨_, h.lined.remove (l := .spun s c) (by rw [hl]; rfl) rfl, ?_, ?_, ?_, hlock⟩
    · exact (seated_setPost h _).vacant (by rw [hl]; rfl) rfl
    · exact h.posting.enter (by rw [hl]; rfl) hfree rfl rfl rfl
    · exact good_move h.good hnew

theorem Placed.postOn (hl : loc t = l₀) (hg : Good th l) (ht : l₀.post = some c)
    (hpost : l.post = some c) (hphase : l.phase = some (s, ph)) (hhead : l.head = l₀.head)
    (hcpu : l₀.cpu = none) (hcpu' : l.cpu = none) :
    Lined k.links q (update loc t l) ∧
    Seating Loc.cpu Cpu.td FitsCtx
      (update k.cpu c { k.cpu c with post := some ⟨t, s, ph⟩ }) (update loc t l) ∧
    Seating Loc.post Cpu.posting FitsPost
      (update k.cpu c { k.cpu c with post := some ⟨t, s, ph⟩ }) (update loc t l) ∧
    ∀ u, Good (update k.td t th u) (update loc t l u) := by
  subst hl
  exact ⟨h.lined.keep hhead, (seated_setPost h _).vacant hcpu hcpu',
    h.posting.stay ht hpost rfl hphase.symm, good_update h.good hg⟩

theorem Placed.postAck (hc : (k.cpu c).post = some ⟨t, s, .spin⟩) (hs : (k.td t).state = .ack) :
    ∃ loc', Placed (((k.setTd t { k.td t with state := .semUnlock }).setSem s
      { k.sem s with lock := none }).setCpu c { k.cpu c with post := some ⟨t, s, .cancel⟩ })
      q loc' := by
  have hg := h.good t
  rcases h.spinning hc with ⟨d, hl⟩ | hl
  · rw [hl] at hg
    exact absurd (hs.symm.trans hg.2.2.2.2.1) (by decide)
  · rw [hl] at hg
    obtain ⟨hlive, hsleep, hw, -, hon⟩ := hg
    have hnew : Good { k.td t with state := .semUnlock } (.handed s c) :=
      ⟨hlive, hsleep, hw, .inl ⟨rfl, hon⟩⟩
    obtain ⟨hline, hseat, hpost, hgood⟩ := h.postOn hl hnew rfl rfl rfl rfl rfl rfl
    refine ⟨_, hline, hseat, hpost, hgood, ?_⟩
    show Matches (Sem.lock ∘ update k.sem s { k.sem s with lock := none })
      (Cpu.spinning ∘ update k.cpu c { k.cpu c with post := some ⟨t, s, .cancel⟩ })
    rw [comp_update, comp_update]
    apply h.lock.release
    apply (h.lock s c).2
    rw [comp_apply, Cpu.spinning, hc]

theorem Placed.lock_setPost (hold : (k.cpu c).spinning = none) (hx : x.spinning = none) :
    Matches (Sem.lock ∘ k.sem) (Cpu.spinning ∘ update k.cpu c x) := by
  rw [comp_update, hx]
  have he : update (Cpu.spinning ∘ k.cpu) c none = Cpu.spinning ∘ k.cpu := by
    rw [← hold]
    exact update_eq_self c (Cpu.spinning ∘ k.cpu)
  rw [he]
  exact h.lock

theorem Placed.postCancel (hc : (k.cpu c).post = some ⟨t, s, .cancel⟩) :
    ∃ loc', Placed ((k.setTd t { k.td t with tdC := mdxCalloutCancel (k.td t).tdC }).setCpu c
      { k.cpu c with post := some ⟨t, s, .wake⟩ }) q loc' := by
  have hl := h.cancelling hc
  have hg := h.good_at hl
  obtain ⟨hlive, hsleep, hw, hst⟩ := hg
  have hnew : Good { k.td t with tdC := mdxCalloutCancel (k.td t).tdC } (.freed s c) := by
    rcases hst with ⟨hst, d, hon⟩ | ⟨hst, hoff⟩
    · exact ⟨hlive, ⟨hon.cancel, hsleep⟩, Waits.off hw rfl rfl rfl hon.cancel, .inl hst⟩
    · have hoff := Callout.Only.cancel (c := c) (f := .semCb s) (.inl hoff)
      exact ⟨hlive, ⟨hoff, hsleep⟩, Waits.off hw rfl rfl rfl hoff, .inr hst⟩
  obtain ⟨hline, hseat, hpost, hgood⟩ := h.postOn hl hnew rfl rfl rfl rfl rfl rfl
  refine ⟨_, hline, hseat, hpost, hgood, h.lock_setPost ?_ rfl⟩
  rw [Cpu.spinning, hc]

theorem Placed.postWake (hc : (k.cpu c).post = some ⟨t, s, .wake⟩) :
    Placed (((k.setTd t { k.td t with state := .wakeup }).setCpu c
        { k.cpu c with post := none }).enqueue (.runq (k.td t).prio) t)
      (update q (.runq (k.td t).prio) (q (.runq (k.td t).prio) ++ [t]))
      (update loc t (.queued (k.td t).prio)) := by
  have hl := h.waking hc
  have hg := h.good_at hl
  obtain ⟨hlive, hstill, hw, -⟩ := hg
  have hnew : Good { k.td t with state := .wakeup } (.queued (k.td t).prio) :=
    ⟨hlive, rfl, .inr ⟨hw.1, .inr rfl⟩, hstill⟩
  refine ⟨h.lined.append (by rw [hl]; rfl) rfl, (seated_setPost h _).vacant (by rw [hl]; rfl) rfl,
    h.posting.leave (by rw [hl]; rfl) rfl rfl, good_update h.good hnew, h.lock_setPost ?_ rfl⟩
  rw [Cpu.spinning, hc]

end

end
end Mdepx.Sched
