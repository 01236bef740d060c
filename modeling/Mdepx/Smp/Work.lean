import Mdepx.Smp.Avail

namespace Mdepx.Avail
open Lib Bool
open List hiding count
open Function (update update_self update_of_ne)
open Sched (Kernel Thread Ctx Head Loc Settled Step Runqs OnRunq added Alike mdxSchedPick)

section
variable {k k' : Kernel n} {q : Head → List Nat} {loc : Nat → Loc n} {c d : Fin n}

structure Ranked (k : Kernel n) : Prop where
  unborn : ∀ t, (k.td t).life = .unborn → (k.td t).idle = false
  idle : ∀ t, (k.td t).idle = true → (k.td t).prio = 0 ∧ (k.td t).state ≠ .running
  work : ∀ t, (k.td t).life = .live → (k.td t).idle = false → 1 ≤ (k.td t).prio
  bound : ∀ t, OnRunq k t → (k.td t).prio < k.nprio

theorem Ranked.idle_eq (h : Ranked k) (hs : Step k a k') (t : Nat) :
    (k'.td t).idle = (k.td t).idle := by
  rcases hs.alike t with ha | ⟨c, prio, quantumUsec, -, hl, hth⟩
  · exact ha.idle
  · rw [hth, h.unborn t hl]
    rfl

theorem Ranked.step (h : Ranked k) (hp : Settled k q loc) (hs : Step k a k')
    (ha : ∀ c t prio quantumUsec, a = .create c t prio quantumUsec → 1 ≤ prio) : Ranked k' := by
  refine ⟨?_, ?_, ?_, ?_⟩
  · intro t hl
    rw [h.idle_eq hs]
    rcases hs.alike t with hk | ⟨c, prio, quantumUsec, -, hu, -⟩
    · apply h.unborn t
      rcases hk.life with hx | hx
      · exact hx.symm.trans hl
      · rw [hx] at hl
        cases hl
    · exact h.unborn t hu
  · intro t hi
    rw [h.idle_eq hs] at hi
    rcases hs.alike t with hk | ⟨c, prio, quantumUsec, -, hu, -⟩
    · refine ⟨hk.prio.trans (h.idle t hi).1, ?_⟩
      intro hst
      rcases hk.state hst with hx | hx
      · exact (h.idle t hi).2 hx
      · rw [hi] at hx
        cases hx
    · rw [h.unborn t hu] at hi
      cases hi
  · intro t hl hi
    rcases hs.alike t with hk | ⟨c, prio, quantumUsec, hc, -, hth⟩
    · rw [hk.prio]
      apply h.work t
      · rcases hk.life with hx | hx
        · exact hx.symm.trans hl
        · rw [hx] at hl
          cases hl
      · exact hk.idle.symm.trans hi
    · rw [hth]
      exact ha c t prio quantumUsec hc
  · intro t ht
    have hold (ht : OnRunq k t) : (k'.td t).prio < k'.nprio := by
      rcases hs.alike t with hk | ⟨c, prio, quantumUsec, hc, hu, -⟩
      · rw [hk.prio, hs.nprio]
        exact h.bound t ht
      · obtain ⟨p, hl, -⟩ := hp.onRunq ht
        rw [hp.unborn (t := t) hu] at hl
        cases hl
    cases hs.runqs hp with
    | added hadd hu hlt hq =>
      rcases (hq t).1 ht with hx | hx
      · exact hold hx
      · rw [hx]
        exact hlt
    | picked _ _ _ hq => exact hold ((hq t).1 ht).1
    | same _ _ hq => exact hold ((hq t).1 ht)

theorem Ranked.picked_idle (h : Ranked k) (hp : Settled k q loc)
    (hk : mdxSchedPick k.links k.nprio = some t) (hi : (k.td t).idle = true) (hu : OnRunq k u) :
    (k.td u).idle = true := by
  by_contra hn
  have hle := hp.picked_top hk hu (h.bound u hu)
  obtain ⟨p, hl, -⟩ := hp.onRunq hu
  have hg := hp.good u
  rw [hl] at hg
  have hpos := h.work u hg.1 (eq_false_iff.2 hn)
  rw [(h.idle t hi).1] at hle
  omega

structure Works (k : Kernel n) (ts : List Nat) : Prop where
  nodup : ts.Nodup
  mem_iff : ∀ t, t ∈ ts ↔ OnRunq k t ∧ (k.td t).idle = false

section
variable (h : Works k ts) (hidle : ∀ t, (k'.td t).idle = (k.td t).idle)
include h hidle

theorem Works.same (hq : ∀ t, OnRunq k' t ↔ OnRunq k t) : Works k' ts := by
  refine ⟨h.nodup, ?_⟩
  intro t
  rw [hq, hidle]
  exact h.mem_iff t

theorem Works.added (hu : ¬OnRunq k u) (hq : ∀ t, OnRunq k' t ↔ OnRunq k t ∨ t = u)
    (hi : (k.td u).idle = false) : Works k' (u :: ts) := by
  refine ⟨nodup_cons.2 ⟨fun hm => hu ((h.mem_iff u).1 hm).1, h.nodup⟩, ?_⟩
  intro t
  rw [mem_cons, hq, hidle, h.mem_iff t]
  constructor
  · rintro (rfl | ht)
    · exact ⟨.inr rfl, hi⟩
    · exact ⟨.inl ht.1, ht.2⟩
  · rintro ⟨ht | ht, hx⟩
    · exact .inr ⟨ht, hx⟩
    · exact .inl ht

theorem Works.added_idle (hq : ∀ t, OnRunq k' t ↔ OnRunq k t ∨ t = u) (hi : (k.td u).idle = true) :
    Works k' ts := by
  refine ⟨h.nodup, ?_⟩
  intro t
  rw [hq, hidle, h.mem_iff t]
  constructor
  · exact fun ht => ⟨.inl ht.1, ht.2⟩
  · rintro ⟨ht | rfl, hx⟩
    · exact ⟨ht, hx⟩
    · rw [hi] at hx
      cases hx

theorem Works.picked (hu : OnRunq k u) (hq : ∀ t, OnRunq k' t ↔ OnRunq k t ∧ t ≠ u)
    (hi : (k.td u).idle = false) : ∃ ts', Works k' ts' ∧ ts'.length + 1 = ts.length := by
  have hm := (h.mem_iff u).2 ⟨hu, hi⟩
  refine ⟨ts.erase u, ⟨h.nodup.erase u, ?_⟩, ?_⟩
  · intro t
    rw [h.nodup.mem_erase_iff, hq, hidle, h.mem_iff t]
    constructor
    · exact fun ht => ⟨⟨ht.2.1, ht.1⟩, ht.2.2⟩
    · exact fun ht => ⟨ht.1.2, ht.1.1, ht.2⟩
  · rw [length_erase_of_mem hm]
    have := length_pos_of_mem hm
    omega

end

def picking (k : Kernel n) (c : Fin n) : Bool :=
  match (k.cpu c).ctx with
  | .handler _ true _ => true
  | .handler t false _ => (k.td t).idle
  | .thread _ | .chosen _ => false

def takers (k : Kernel n) : Nat := ∑ c, (picking k c).toNat

theorem picking_congr (hctx : (k'.cpu c).ctx = (k.cpu c).ctx)
    (hidle : ∀ t, (k'.td t).idle = (k.td t).idle) : picking k' c = picking k c := by
  simp only [picking, hctx, hidle]

theorem idleOn_congr (hctx : (k'.cpu c).ctx = (k.cpu c).ctx)
    (hidle : ∀ t, (k'.td t).idle = (k.td t).idle) : idleOn k' c = idleOn k c := by
  simp only [idleOn, hctx, hidle]

theorem takers_change (h : ∀ d, d ≠ c → picking k' d = picking k d) :
    takers k' + (picking k c).toNat = takers k + (picking k' c).toNat := by
  have hoff : ∀ d, d ≠ c → (picking k' d).toNat = (picking k d).toNat := by
    intro d hd
    rw [h d hd]
  exact sum_change hoff

theorem ctx_setCpu_of_ne (k : Kernel n) (hd : d ≠ c) (x : Sched.Cpu) :
    ((k.setCpu c x).cpu d).ctx = (k.cpu d).ctx := by
  simp only [Kernel.setCpu, update_of_ne hd]

theorem ctx_setCpu_self (k : Kernel n) (c : Fin n) (x : Sched.Cpu) :
    ((k.setCpu c x).cpu c).ctx = x.ctx := by
  simp only [Kernel.setCpu, update_self]

theorem takers_le (hidle : ∀ t, (k'.td t).idle = (k.td t).idle)
    (hctx : ∀ d, d ≠ c → (k'.cpu d).ctx = (k.cpu d).ctx)
    (hc : picking k c = true → picking k' c = true) : takers k ≤ takers k' := by
  have hsum := takers_change (c := c) fun d hd => picking_congr (hctx d hd) hidle
  have hle : (picking k c).toNat ≤ (picking k' c).toNat := by
    cases hx : picking k c with
    | false => exact Nat.zero_le _
    | true => rw [hc hx]
  omega

theorem Step.keeps (h : Ranked k) (hs : Step k a k') (ht : ∀ c intr, a ≠ .trap c intr)
    (hp : ∀ c, a ≠ .pick c) :
    takers k ≤ takers k' ∧ ∀ d, idleOn k d = true → idleOn k' d = true := by
  have hidle := h.idle_eq hs
  by_cases hsw : a.switches = false
  · have hctx := hs.ctx hsw
    refine ⟨?_, ?_⟩
    · apply le_of_eq
      apply Finset.sum_congr rfl
      intro d _
      rw [picking_congr (hctx d) hidle]
    · intro d hd
      rw [idleOn_congr (hctx d) hidle]
      exact hd
  · have hone {c : Fin n} (hctx : ∀ d, d ≠ c → (k'.cpu d).ctx = (k.cpu d).ctx)
        (hpick : picking k c = true → picking k' c = true)
        (hon : idleOn k c = true → idleOn k' c = true) :
        takers k ≤ takers k' ∧ ∀ d, idleOn k d = true → idleOn k' d = true := by
      refine ⟨takers_le hidle hctx hpick, ?_⟩
      intro d hd
      by_cases hdc : d = c
      · rw [hdc] at hd ⊢
        exact hon hd
      · rw [idleOn_congr (hctx d hdc) hidle]
        exact hd
    cases hs with
    | release | reap | interrupt => exact absurd rfl (ht _ _)
    | pick => exact absurd rfl (hp _)
    | resume hc hst =>
      rename_i c t intr
      apply hone (c := c) fun d hd => ctx_setCpu_of_ne k hd _
      · intro hx
        simp only [picking, hc] at hx
        exact absurd hst (h.idle t hx).2
      · intro hx
        simp only [idleOn, hc] at hx
        cases hx
    | requeue hc hst hprio =>
      rename_i c t intr
      apply hone (c := c) fun d hd => ctx_setCpu_of_ne _ hd _
      · intro _
        simp only [picking, ctx_setCpu_self]
      · intro hx
        simp only [idleOn, hc] at hx
        cases hx
    | switch hc | switchTimed hc =>
      apply hone fun d hd => ctx_setCpu_of_ne _ hd _
      · intro hx
        simp only [picking, hc] at hx
        cases hx
      · intro hx
        simp only [idleOn, hc] at hx
        simp only [idleOn, ctx_setCpu_self]
        exact (hidle _).trans hx
    | _ => exact absurd rfl hsw

end

section
variable {m m' : Machine n} {k' : Kernel n} {q : Head → List Nat} {loc : Nat → Loc n} {c d : Fin n}

structure Balanced (m : Machine n) : Prop where
  nodup : m.pcpuList.Nodup
  idle : ∀ c ∈ m.pcpuList, idleOn m.kernel c = true
  work : ∃ ts, Works m.kernel ts ∧
    (m.pcpuList = [] ∨ ts.length ≤ m.pcpuList.countP m.pendingIpis + takers m.kernel)

theorem mdxSchedCpuNotify_ok (h : mdxSchedCpuNotify m c = .ok m') (hs : signals m = true)
    (hn : m.pcpuList.Nodup) :
    m'.kernel = m.kernel ∧ m'.pcpuList = m.pcpuList ∧ (m.pcpuList = [] ∨
      m.pcpuList.countP m'.pendingIpis = m.pcpuList.countP m.pendingIpis + 1) := by
  unfold mdxSchedCpuNotify at h
  split at h
  · rename_i hl
    cases h
    exact ⟨rfl, rfl, .inl hl⟩
  · rename_i p l hl
    split at h
    · cases h
    · cases h
      refine ⟨rfl, rfl, .inr ?_⟩
      rw [hl] at hn ⊢
      have hp : m.pendingIpis p = false := by
        simp only [signals, hl, not_eq_true'] at hs
        exact hs
      have hrest : l.countP (update m.pendingIpis p true) = l.countP m.pendingIpis := by
        apply countP_congr
        intro d hd
        have hdp : d ≠ p := by
          rintro rfl
          exact (nodup_cons.1 hn).1 hd
        rw [update_of_ne hdp]
      rw [countP_cons_of_pos (update_self p true m.pendingIpis), hrest,
        countP_cons_of_neg (by rw [hp]; exact false_ne_true)]

theorem mdxSchedAdd_kernel (h : mdxSchedAdd m c t = .ok m') : m'.kernel = m.kernel := by
  unfold mdxSchedAdd mdxSchedCpuNotify at h
  split at h
  · cases h
    rfl
  · split at h
    · cases h
      rfl
    · split at h
      · cases h
      · cases h
        rfl

theorem Balanced.other (h : Balanced m) (hr : Ranked m.kernel) (hp : Settled m.kernel q loc)
    (hs : Step m.kernel a k') (ht : ∀ c intr, a ≠ .trap c intr) (hpk : ∀ c, a ≠ .pick c)
    (hheard : ∀ c t, added m.kernel a = some (c, t) → (m.kernel.td t).idle = false →
      signals m = true)
    (hsome : ∀ c t, added m.kernel a = some (c, t) →
      mdxSchedAdd { m with kernel := k' } c t = .ok m')
    (hnone : added m.kernel a = none → m' = { m with kernel := k' }) : Balanced m' := by
  obtain ⟨htakers, hon⟩ := Step.keeps hr hs ht hpk
  have hidle := hr.idle_eq hs
  obtain ⟨ts, hts, hle⟩ := h.work
  cases hs.runqs hp with
  | picked hpick => exact absurd hpick (hpk _)
  | same ha _ hq =>
    rw [hnone ha]
    refine ⟨h.nodup, fun c hc => hon c (h.idle c hc), ts, hts.same hidle hq, ?_⟩
    rcases hle with hle | hle
    · exact .inl hle
    · exact .inr (hle.trans (Nat.add_le_add_left htakers _))
  | @added c u ha hu _ hq =>
    have hx := hsome c u ha
    unfold mdxSchedAdd at hx
    cases hi : (m.kernel.td u).idle with
    | true =>
      rw [if_pos ((hidle u).trans hi)] at hx
      cases hx
      refine ⟨h.nodup, fun c hc => hon c (h.idle c hc), ts, hts.added_idle hidle hq hi, ?_⟩
      rcases hle with hle | hle
      · exact .inl hle
      · exact .inr (hle.trans (Nat.add_le_add_left htakers _))
    | false =>
      rw [if_neg (eq_false_iff.1 ((hidle u).trans hi))] at hx
      have hsig : signals { m with kernel := k' } = true := hheard c u ha hi
      obtain ⟨hk, hl, hcount⟩ := mdxSchedCpuNotify_ok hx hsig h.nodup
      refine ⟨hl ▸ h.nodup, ?_, u :: ts, ?_, ?_⟩
      · rw [hk, hl]
        exact fun c hc => hon c (h.idle c hc)
      · rw [hk]
        exact hts.added hidle hu hq hi
      · rw [hl, hk]
        rcases hcount with hcount | hcount
        · exact .inl hcount
        · rcases hle with hle | hle
          · exact .inl hle
          · right
            have hcount : m.pcpuList.countP m'.pendingIpis =
              m.pcpuList.countP m.pendingIpis + 1 := hcount
            rw [hcount, length_cons]
            show _ ≤ _ + takers k'
            omega

theorem Step.trapped {k k' : Kernel n} (hs : Step k (.trap c intr) k') :
    ∃ t r, (k.cpu c).ctx = .thread t ∧ (k'.cpu c).ctx = .handler t r intr ∧
      ∀ d, d ≠ c → (k'.cpu d).ctx = (k.cpu d).ctx := by
  cases hs with
  | release hc | reap hc =>
    exact ⟨_, true, congrArg Sched.Cpu.ctx hc, ctx_setCpu_self _ c _,
      fun d hd => ctx_setCpu_of_ne _ hd _⟩
  | interrupt hc =>
    exact ⟨_, false, congrArg Sched.Cpu.ctx hc, ctx_setCpu_self _ c _,
      fun d hd => ctx_setCpu_of_ne _ hd _⟩

theorem countP_erase_le (p : Fin n → Bool) (l : List (Fin n)) (c : Fin n) :
    l.countP p ≤ (l.erase c).countP p + 1 := by
  rw [countP_erase]
  split
  · omega
  · omega

section
variable (h : Balanced m) (hr : Ranked m.kernel) (hp : Settled m.kernel q loc)
  (hs : Step m.kernel (.trap c intr) k')
include h hr hp hs

theorem Balanced.trapped (hpend : ∀ d, d ≠ c → pend d = m.pendingIpis d) (hl : l.Sublist m.pcpuList)
    (hc : c ∉ l)
    (hle : m.pcpuList.countP m.pendingIpis + takers m.kernel ≤ l.countP m.pendingIpis + takers k') :
    Balanced ⟨k', l, pend⟩ := by
  have hidle := hr.idle_eq hs
  obtain ⟨t, r, -, -, hctx⟩ := Step.trapped hs
  have hne {d : Fin n} (hd : d ∈ l) : d ≠ c := fun he => hc (he ▸ hd)
  have hcount : l.countP pend = l.countP m.pendingIpis := by
    apply countP_congr
    intro d hd
    rw [hpend d (hne hd)]
  obtain ⟨ts, hts, hwork⟩ := h.work
  refine ⟨h.nodup.sublist hl, ?_, ts, ?_, ?_⟩
  · intro d hd
    rw [idleOn_congr (hctx d (hne hd)) hidle]
    exact h.idle d (hl.subset hd)
  · cases hs.runqs hp with
    | same _ _ hq => exact hts.same hidle hq
    | added ha | picked ha => cases ha
  · rcases hwork with hwork | hwork
    · left
      rw [hwork] at hl
      exact sublist_nil.1 hl
    · right
      show ts.length ≤ l.countP pend + takers k'
      omega

theorem Balanced.trap_idle (hi : idleOn m.kernel c = true)
    (hpend : ∀ d, d ≠ c → pend d = m.pendingIpis d) : Balanced ⟨k', m.pcpuList.erase c, pend⟩ := by
  have hidle := hr.idle_eq hs
  obtain ⟨t, r, hold, hnew, hctx⟩ := Step.trapped hs
  have htakers : takers k' = takers m.kernel + 1 := by
    have hsum := takers_change (c := c) fun d hd => picking_congr (hctx d hd) hidle
    have h0 : picking m.kernel c = false := by simp only [picking, hold]
    have h1 : picking k' c = true := by
      simp only [idleOn, hold] at hi
      cases r with
      | true => simp only [picking, hnew]
      | false =>
        simp only [picking, hnew]
        exact (hidle t).trans hi
    rw [h0, h1] at hsum
    exact hsum
  have hcount := countP_erase_le m.pendingIpis m.pcpuList c
  apply h.trapped hr hp hs hpend erase_sublist h.nodup.not_mem_erase
  omega

theorem Balanced.trap (hi : idleOn m.kernel c = false)
    (hpend : ∀ d, d ≠ c → pend d = m.pendingIpis d) : Balanced ⟨k', m.pcpuList, pend⟩ := by
  obtain ⟨t, r, hold, -, hctx⟩ := Step.trapped hs
  have hc : c ∉ m.pcpuList := by
    intro hc
    rw [h.idle c hc] at hi
    cases hi
  apply h.trapped hr hp hs hpend (List.Sublist.refl _) hc
  apply Nat.add_le_add_left
  apply takers_le (hr.idle_eq hs) hctx
  intro hx
  simp only [picking, hold] at hx
  cases hx

end

theorem Balanced.pick (h : Balanced m) (hr : Ranked m.kernel) (hp : Settled m.kernel q loc)
    (hs : Step m.kernel (.pick c) k') :
    Balanced ⟨k', if idleOn k' c then m.pcpuList ++ [c] else m.pcpuList, m.pendingIpis⟩ := by
  have hidle := hr.idle_eq hs
  have hrunqs := hs.runqs hp
  obtain ⟨ts, hts, hle⟩ := h.work
  cases hs with
  | pick hc hpk =>
    rename_i t u intr
    have hctx (d : Fin n) (hd : d ≠ c) :=
      ctx_setCpu_of_ne (m.kernel.dequeue t) hd ⟨.chosen t, none⟩
    have hne {d : Fin n} (hd : d ∈ m.pcpuList) : d ≠ c := by
      rintro rfl
      have := h.idle d hd
      simp only [idleOn, hc] at this
      cases this
    have hon : idleOn ((m.kernel.dequeue t).setCpu c ⟨.chosen t, none⟩) c =
        (m.kernel.td t).idle := by
      simp only [idleOn, ctx_setCpu_self]
      rfl
    have hlist {d : Fin n} (hd : d ∈ m.pcpuList) :
        idleOn ((m.kernel.dequeue t).setCpu c ⟨.chosen t, none⟩) d = true := by
      rw [idleOn_congr (hctx d (hne hd)) fun _ => rfl]
      exact h.idle d hd
    have htakers : takers ((m.kernel.dequeue t).setCpu c ⟨.chosen t, none⟩) + 1 =
        takers m.kernel := by
      have hsum := takers_change (c := c) fun d hd =>
        picking_congr (k := m.kernel) (hctx d hd) fun _ => rfl
      have h1 : picking m.kernel c = true := by simp only [picking, hc]
      have h0 : picking ((m.kernel.dequeue t).setCpu c ⟨.chosen t, none⟩) c = false := by
        simp only [picking, ctx_setCpu_self]
      rw [h0, h1] at hsum
      exact hsum
    cases hrunqs with
    | added ha => cases ha
    | same _ ha => exact absurd rfl (ha c)
    | @picked c' v _ hv hu hq =>
      obtain rfl : t = v := Option.some.inj (hpk.symm.trans hv)
      rw [hon]
      cases hi : (m.kernel.td t).idle with
      | true =>
        have hnil : ts = [] := by
          apply eq_nil_iff_forall_not_mem.2
          intro x hx
          obtain ⟨hx, hwork⟩ := (hts.mem_iff x).1 hx
          rw [hr.picked_idle hp hv hi hx] at hwork
          cases hwork
        subst hnil
        refine ⟨?_, ?_, [], ⟨nodup_nil, ?_⟩, .inr (Nat.zero_le _)⟩
        · show (m.pcpuList ++ [c]).Nodup
          rw [nodup_append]
          refine ⟨h.nodup, nodup_singleton c, ?_⟩
          intro x hx y hy
          rw [mem_singleton.1 hy]
          exact hne hx
        · intro d hd
          rcases mem_append.1 hd with hd | hd
          · exact hlist hd
          · rw [mem_singleton.1 hd, hon]
            exact hi
        · intro x
          refine iff_of_false not_mem_nil ?_
          rintro ⟨hx, hwork⟩
          exact not_mem_nil ((hts.mem_iff x).2 ⟨((hq x).1 hx).1, hwork⟩)
      | false =>
        obtain ⟨ts', hts', hlen⟩ := hts.picked hidle hu hq hi
        refine ⟨h.nodup, fun d hd => hlist hd, ts', hts', ?_⟩
        rcases hle with hle | hle
        · exact .inl hle
        · right
          show ts'.length ≤ m.pcpuList.countP m.pendingIpis +
            takers ((m.kernel.dequeue t).setCpu c ⟨.chosen t, none⟩)
          omega

structure Inv (m : Machine n) : Prop where
  placed : ∃ q loc, Settled m.kernel q loc
  ranked : Ranked m.kernel
  balanced : Balanced m

theorem heard_create (h : Heard m (.sched (.create c t prio quantumUsec))) : 1 ≤ prio := by
  simp only [Heard, heard, and_eq_true, decide_eq_true_eq] at h
  exact h.1

theorem heard_signals (h : Heard m (.sched a)) (ha : added m.kernel a = some (c, t))
    (hi : (m.kernel.td t).idle = false) : signals m = true := by
  simp only [Heard, heard, Bool.and_eq_true, ha, hi, Bool.false_or] at h
  exact h.2

theorem Inv.trap (h : Inv m) (hpend : ∀ d, d ≠ c → pend d = m.pendingIpis d)
    (hx : sched ⟨m.kernel, m.pcpuList, pend⟩ (.trap c intr) = .ok m') : Inv m' := by
  obtain ⟨q, loc, hp⟩ := h.placed
  simp only [sched] at hx
  cases hk : Sched.exec m.kernel (.trap c intr) with
  | error =>
    rw [hk] at hx
    cases hx
  | ok =>
    have hs := Sched.exec_step hk
    have hplaced := hp.calm_step hs
    have hranked := h.ranked.step hp hs (by rintro _ _ _ _ ⟨⟩)
    simp only [hk] at hx
    cases hi : idleOn m.kernel c with
    | true =>
      rw [hi, if_pos rfl] at hx
      cases hx
      exact ⟨hplaced, hranked, h.balanced.trap_idle h.ranked hp hs hi hpend⟩
    | false =>
      rw [hi, if_neg Bool.false_ne_true] at hx
      cases hx
      exact ⟨hplaced, hranked, h.balanced.trap h.ranked hp hs hi hpend⟩

theorem Inv.step (h : Inv m) (hok : Heard m a) (hx : Next m a m') : Inv m' := by
  cases a with
  | ipi =>
    simp only [Next, exec] at hx
    split at hx
    · exact h.trap (fun d hd => update_of_ne hd _ _) hx
    · cases hx
  | sched a =>
    obtain ⟨q, loc, hp⟩ := h.placed
    have hx : sched m a = .ok m' := hx
    have hcreate (c : Fin n) (t prio quantumUsec : Nat) (ha : a = .create c t prio quantumUsec) :
        1 ≤ prio := by
      subst ha
      exact heard_create hok
    by_cases htrap : ∃ c intr, a = .trap c intr
    · obtain ⟨c, intr, rfl⟩ := htrap
      exact h.trap (fun _ _ => rfl) hx
    unfold sched at hx
    split at hx
    · cases hx
    · rename_i k hk
      have hs := Sched.exec_step hk
      have hplaced := hp.calm_step hs
      have hranked := h.ranked.step hp hs hcreate
      split at hx
      · exact absurd ⟨_, _, rfl⟩ htrap
      · rename_i c
        have hb := h.balanced.pick h.ranked hp hs
        split at hx
        · rename_i hi
          cases hx
          rw [if_pos hi] at hb
          exact ⟨hplaced, hranked, hb⟩
        · rename_i hi
          cases hx
          rw [if_neg hi] at hb
          exact ⟨hplaced, hranked, hb⟩
      · rename_i ht hpk
        have hkernel : m'.kernel = k := by
          split at hx
          · exact mdxSchedAdd_kernel hx
          · cases hx
            rfl
        refine ⟨hkernel ▸ hplaced, hkernel ▸ hranked, ?_⟩
        apply h.balanced.other h.ranked hp hs (fun c intr he => ht c intr he)
          (fun c he => hpk c he) (fun c t ha hi => heard_signals hok ha hi)
        · intro c t ha
          simp only [ha] at hx
          exact hx
        · intro ha
          simp only [ha] at hx
          cases hx
          rfl

theorem boot_onRunq (n nprio : Nat) (usecToTicks : Nat → Nat) (count : Nat → Int) (t : Nat) :
    ¬OnRunq (Sched.boot n nprio usecToTicks count) t := by
  intro ht
  have hp := Sched.boot_placed n nprio usecToTicks count
  obtain ⟨p, hm⟩ := (Sched.onRunq_iff hp.lined.queues).1 ht
  cases hm

theorem boot_ranked (n nprio : Nat) (usecToTicks : Nat → Nat) (count : Nat → Int) :
    Ranked (Sched.boot n nprio usecToTicks count) := by
  refine ⟨?_, ?_, ?_, ?_⟩
  · intro t hl
    simp only [Sched.boot] at hl ⊢
    split at hl
    · cases hl
    · rename_i ht
      rw [if_neg ht]
  · intro t hi
    simp only [Sched.boot] at hi ⊢
    split at hi
    · rename_i ht
      rw [if_pos ht]
      exact ⟨rfl, by rintro ⟨⟩⟩
    · cases hi
  · intro t hl hi
    simp only [Sched.boot] at hl hi
    split at hi
    · cases hi
    · rename_i ht
      rw [if_neg ht] at hl
      cases hl
  · exact fun t ht => absurd ht (boot_onRunq n nprio usecToTicks count t)

theorem boot_inv (hnodup : avail.Nodup) : Inv (boot n nprio usecToTicks count avail) := by
  refine ⟨?_, boot_ranked n nprio usecToTicks count, hnodup, ?_, [], ⟨nodup_nil, ?_⟩,
    .inr (Nat.zero_le _)⟩
  · exact ⟨_, _, Sched.boot_settled n nprio usecToTicks count⟩
  · intro c _
    simp only [boot, idleOn, Sched.boot, c.isLt, if_true]
    rfl
  · intro t
    exact iff_of_false not_mem_nil
      fun h => boot_onRunq n nprio usecToTicks count t h.1

theorem run_inv (hnodup : avail.Nodup)
    (h : Run Next Heard (boot n nprio usecToTicks count avail) m) : Inv m :=
  h.invariant Inv (boot_inv hnodup) fun h hok hx => h.step hok hx

theorem Quiet.takers (h : Quiet m) : takers m.kernel = 0 := by
  apply Finset.sum_eq_zero
  intro c _
  obtain ⟨⟨t, ht⟩, -⟩ := h c
  simp only [picking, ht]
  rfl

theorem Quiet.pending (h : Quiet m) : m.pcpuList.countP m.pendingIpis = 0 := by
  apply countP_eq_zero.2
  intro c _ hc
  rw [(h c).2] at hc
  cases hc

theorem sched_kernel (h : sched m a = .ok m') : Sched.Next m.kernel a m'.kernel := by
  unfold sched at h
  split at h
  · cases h
  · rename_i k hk
    have hkernel : m'.kernel = k := by
      split at h
      · split at h <;> cases h <;> rfl
      · split at h <;> cases h <;> rfl
      · split at h
        · exact mdxSchedAdd_kernel h
        · cases h
          rfl
    rw [hkernel]
    exact hk

theorem exec_kernel (h : Next m a m') : ∃ a', Sched.Next m.kernel a' m'.kernel := by
  cases a with
  | sched a => exact ⟨a, sched_kernel h⟩
  | ipi =>
    simp only [Next, exec] at h
    split at h
    · have hk := sched_kernel h
      exact ⟨_, hk⟩
    · cases h

theorem run_kernel (h : Run Next ok (boot n nprio usecToTicks count avail) m) :
    Run Sched.Next (fun _ _ => True) (Sched.boot n nprio usecToTicks count) m.kernel := by
  induction h with
  | refl => exact .refl _
  | tail _ _ hx ih =>
    obtain ⟨a', hx⟩ := exec_kernel hx
    exact .tail ih trivial hx

theorem onRunq_first (h : Run Next ok (boot n nprio usecToTicks count avail) m)
    (hf : Sched.firstOf m.kernel.links (.runq p) = some t) : OnRunq m.kernel t := by
  obtain ⟨q, loc, hp⟩ := Sched.run_settled (run_kernel h)
  obtain ⟨ts, hq⟩ := Sched.firstOf_eq hp.lined.queues hf
  refine ⟨q, hp.lined.queues, p, ?_⟩
  rw [hq]
  exact mem_cons_self

/-- No CPU idles while work waits, in every run in which the threads are above the idle threads
and no IPI is sent to a CPU that has one pending. -/
theorem no_cpu_idles_while_work_waits (hnodup : avail.Nodup)
    (h : Run Next Heard (boot n nprio usecToTicks count avail) m) (hquiet : Quiet m) :
    m.pcpuList = [] ∨ ¬WorkWaits m.kernel := by
  obtain ⟨ts, hts, hle⟩ := (run_inv hnodup h).balanced.work
  rcases hle with hle | hle
  · exact .inl hle
  · right
    rintro ⟨t, ht, hi⟩
    rw [hquiet.pending, hquiet.takers] at hle
    have := length_pos_of_mem ((hts.mem_iff t).2 ⟨ht, hi⟩)
    omega

end

def quiet (m : Machine n) : Bool :=
  decide (∀ c, !m.pendingIpis c && match (m.kernel.cpu c).ctx with
    | .thread _ => true
    | _ => false)

theorem quiet_iff (m : Machine n) : quiet m = true ↔ Quiet m := by
  simp only [quiet, Quiet, decide_eq_true_eq, and_eq_true, not_eq_true']
  apply forall_congr'
  intro c
  cases (m.kernel.cpu c).ctx with
  | thread t => exact ⟨fun h => ⟨⟨t, rfl⟩, h.1⟩, fun h => ⟨h.2, rfl⟩⟩
  | handler | chosen => exact ⟨fun h => absurd h.2 false_ne_true, fun ⟨⟨_, h⟩, _⟩ => nomatch h⟩

def passes (c : Fin n) (a : Act n) : List (Act n) :=
  [a, .sched (.park c), .sched (.pick c), .sched (.switch c)]

def startup : List (Act 3) :=
  [.sched (.enter 1)] ++ passes 1 (.sched (.trap 1 false)) ++
    [.sched (.enter 2)] ++ passes 2 (.sched (.trap 2 false)) ++
    [.sched (.create 0 3 1 0), .sched (.enter 0)] ++ passes 0 (.sched (.trap 0 false)) ++
    passes 1 (.ipi 1)

theorem no_cpu_idles_while_work_waits_taken :
    ∃ m, Run Next Heard (boot 3 2 id (fun _ => 0) [1, 2]) m ∧ Quiet m ∧ m.pcpuList = [1] ∧
      (m.pcpuList = [] ∨ ¬WorkWaits m.kernel) := by
  obtain ⟨m, hrun, hquiet, hlist⟩ := Run.of_guarded exec Heard (boot 3 2 id (fun _ => 0) [1, 2])
    (startup ++ [.sched (.create 0 4 1 0)] ++ passes 2 (.ipi 2))
    (fun m => quiet m = true ∧ m.pcpuList = [1]) (by decide +kernel)
  have hquiet := (quiet_iff m).1 hquiet
  exact ⟨m, hrun, hquiet, hlist, no_cpu_idles_while_work_waits (by decide) hrun hquiet⟩

/-- CPU 0 adds two threads before CPU 2 has taken the IPI for the first one: both IPIs go to CPU
2, and CPU 1 stays idle while the second thread waits. -/
theorem cpu_idles_while_work_waits :
    ∃ m, Run Next (fun _ _ => True) (boot 3 2 id (fun _ => 0) [1, 2]) m ∧ Quiet m ∧
      m.pcpuList ≠ [] ∧ WorkWaits m.kernel := by
  obtain ⟨m, hrun, hquiet, hlist, hfirst, hidle⟩ := Run.of_guarded exec (fun _ _ => True)
    (boot 3 2 id (fun _ => 0) [1, 2])
    (startup ++ [.sched (.create 0 4 1 0), .sched (.create 0 5 1 0)] ++ passes 2 (.ipi 2))
    (fun m => quiet m = true ∧ m.pcpuList ≠ [] ∧
      Sched.firstOf m.kernel.links (.runq 1) = some 5 ∧ (m.kernel.td 5).idle = false)
    (by decide +kernel)
  exact ⟨m, hrun, (quiet_iff m).1 hquiet, hlist, 5, onRunq_first hrun hfirst, hidle⟩

end Mdepx.Avail
