import Mdepx.Smp.Barrier

namespace Mdepx.Smp
open List
open Function (update update_self update_of_ne)

variable {s t : State n φ α} {r r' : Call n φ α} {part : Fin n → Part φ} {c c' d : Fin n}

theorem Unsent.open_ (h : Unsent part) (hf : s.func = some (r.no, r.fn)) (ha : s.arg = some r.arg)
    (hn : s.ncpus = r.ncpus) (h0 : s.room0 = 0) (h1 : s.room1 = 0) : Open s r part := by
  have hnone (p : Part φ → Bool) (hp : p .out = false ∧ p .due = false) (d : Fin n) :
      p (part d) = false := by
    rcases h d with hd | hd <;> rw [hd]
    · exact hp.1
    · exact hp.2
  refine ⟨hf, ha, hn, ?_, ?_, ?_, ?_, ?_⟩
  · rw [h0]
    symm
    apply Finset.sum_eq_zero
    intro d _
    rw [hnone Part.entered ⟨rfl, rfl⟩ d]
    rfl
  · rw [h1]
    symm
    apply Finset.sum_eq_zero
    intro d _
    rw [hnone Part.left ⟨rfl, rfl⟩ d]
    rfl
  · intro d hd
    rw [hnone Part.past ⟨rfl, rfl⟩ d] at hd
    cases hd
  · intro d f hd
    rcases h d with he | he <;> rw [he] at hd <;> cases hd
  · intro d i hd
    rcases h d with he | he <;> rw [he] at hd <;> cases hd

theorem Unsent.sending (h : Unsent part) (hnodup : ps.Nodup)
    (hon : ∀ d, part d = .due → d ∈ ps) : Sending part c ps :=
  ⟨hnodup, h c, fun d _ _ => h d, fun d _ hd => hon d hd⟩

theorem Sending.skip (h : Sending part c (p :: ps)) (hp : part p = .due → p = c) :
    Sending part c ps := by
  refine ⟨(nodup_cons.1 h.nodup).2, h.caller, ?_, ?_⟩
  · exact fun d hd => h.rest d (mem_cons_of_mem _ hd)
  · intro d hdc hd
    rcases mem_cons.1 (h.due d hdc hd) with rfl | hm
    · exact absurd (hp hd) hdc
    · exact hm

theorem Sending.send (h : Sending part c (p :: ps)) (hp : p ≠ c) :
    Sending (update part p .sent) c ps := by
  obtain ⟨hnot, hnodup⟩ := nodup_cons.1 h.nodup
  refine ⟨hnodup, ?_, ?_, ?_⟩
  · rw [update_of_ne hp.symm]
    exact h.caller
  · intro d hd hdc
    have hdp : d ≠ p := by
      rintro rfl
      exact hnot hd
    rw [update_of_ne hdp]
    exact h.rest d (mem_cons_of_mem _ hd) hdc
  · intro d hdc hd
    by_cases hdp : d = p
    · rw [hdp, update_self] at hd
      cases hd
    · rw [update_of_ne hdp] at hd
      rcases mem_cons.1 (h.due d hdc hd) with rfl | hm
      · exact absurd rfl hdp
      · exact hm

theorem Tells.due_iff (h : Tells log r d p) (hp : p = .out ∨ p = .due) : p = .due ↔ r.cpus d := by
  rw [← h.member]
  rcases hp with hp | hp <;> rw [hp]
  · exact iff_of_false (by rintro ⟨⟩) Bool.false_ne_true
  · exact iff_of_true rfl rfl

theorem Open.all_left (h : Open s r part) (hm : ∀ d, Tells s.log r d (part d))
    (hroom : ¬s.room1 < r.ncpus) (d : Fin n) : part d = .out ∨ part d = .done := by
  rw [h.room1] at hroom
  have hall := Lib.all_of_sum_le (p := fun d => (part d).left) (q := r.cpus) ?_
    (Nat.le_of_not_lt hroom) d
  · cases hp : part d with
    | out => exact .inl rfl
    | done => exact .inr rfl
    | due | sent | on _ =>
      have hmem : r.cpus d = true := by
        rw [← (hm d).member, hp]
        rfl
      have := hall hmem
      rw [hp] at this
      cases this
  · intro e he
    rw [← (hm e).member]
    cases hp : part e with
    | out =>
      rw [hp] at he
      cases he
    | _ => rfl

theorem Same.caller (ha : t.pcpuAll = s.pcpuAll) (hc : t.calls = s.calls) (hl : t.lock = s.lock)
    (hcpu : t.cpu = update s.cpu c ⟨b', a⟩) (hb : (s.cpu c).base = b)
    (hcall : b'.call = b.call) (hholds : b'.holds = b.holds) : Same s t := by
  apply Same.setCpu ha hc hl hcpu
  · rw [hb]
    exact hcall
  · rw [hb]
    exact hholds

theorem act_update {cpu : Fin n → Cpu n φ α} (hc : cpu c = ⟨b, none⟩) (b' : Base n φ α)
    (d : Fin n) : (update cpu c ⟨b', none⟩ d).act = (cpu d).act := by
  by_cases hdc : d = c
  · rw [hdc, update_self, hc]
  · rw [update_of_ne hdc]

theorem base_update_of_holds {cpu : Fin n → Cpu n φ α} (hc : cpu c = ⟨b, a⟩)
    (hb : b.holds = none) (k : Cpu n φ α) (hh : (cpu d).base.holds = some r) :
    (update cpu c k d).base = (cpu d).base := by
  have hdc : d ≠ c := by
    rintro rfl
    rw [hc, hb] at hh
    cases hh
  rw [update_of_ne hdc]

theorem Inv.fits_caller (h : Inv s parts) (hc : s.cpu c = ⟨b, none⟩) (b' : Base n φ α) (d : Fin n) :
    Fits (s.pendingIpis d).tryst (update s.cpu c ⟨b', none⟩ d).act (current s parts d) := by
  rw [act_update hc]
  exact h.fits d

theorem Inv.raised_update (h : Inv s parts) (hc : s.cpu c = ⟨b, none⟩)
    (hsw : b ≠ .software) (hb : ∀ r ps, b ≠ .setSip r d ps) (k : Cpu n φ α)
    (hd : (s.pendingIpis d).tryst) :
    s.sip d = true ∨ (update s.cpu c k d).base = .software ∨
      ∃ e r ps, (update s.cpu c k e).base = .setSip r d ps := by
  rcases h.raised d hd with hx | hx | ⟨e, r, ps, hx⟩
  · exact .inl hx
  · refine .inr (.inl ?_)
    have hdc : d ≠ c := by
      rintro rfl
      rw [hc] at hx
      exact hsw hx
    rw [update_of_ne hdc]
    exact hx
  · refine .inr (.inr ⟨e, r, ps, ?_⟩)
    have hec : e ≠ c := by
      rintro rfl
      rw [hc] at hx
      exact hb r ps hx
    rw [update_of_ne hec]
    exact hx

def Base.raises : Base n φ α → Bool
  | .software | .setSip _ _ _ => true
  | _ => false

section
variable (h : Inv s parts)
include h

theorem Inv.raised_caller (hc : s.cpu c = ⟨b, none⟩) (hb : b.raises = false)
    (k : Cpu n φ α) (d : Fin n) (hd : (s.pendingIpis d).tryst) :
    s.sip d = true ∨ (update s.cpu c k d).base = .software ∨
      ∃ e r ps, (update s.cpu c k e).base = .setSip r d ps := by
  apply h.raised_update hc _ _ k hd
  · rintro rfl
    cases hb
  · rintro _ _ rfl
    cases hb

theorem Inv.caller (hc : s.cpu c = ⟨b, none⟩) (hh : b.holds = some r)
    (hcpu : t.cpu = update s.cpu c ⟨b', none⟩) (hcall : b'.call = b.call)
    (hholds : b'.holds = b.holds)
    (hall : t.pcpuAll = s.pcpuAll) (hcalls : t.calls = s.calls) (hl : t.lock = s.lock)
    (hpend : t.pendingIpis = s.pendingIpis) (hlog : t.log = s.log)
    (hraised : ∀ d, (s.pendingIpis d).tryst → t.sip d = true ∨
      (t.cpu d).base = .software ∨ ∃ e r ps, (t.cpu e).base = .setSip r d ps)
    (hsess : r ∈ s.calls → (∀ d, Tells s.log r d (parts r.no d)) →
      Session s c (parts r.no) b → Session t c (parts r.no) b') :
    ∃ parts', Inv t parts' := by
  have hb : (s.cpu c).base = b := congrArg Cpu.base hc
  have hh' : (s.cpu c).base.holds = some r := by rw [hb]; exact hh
  have hr := h.booked.holder_mem hh'
  suffices hx : Carries s t c r (parts r.no) from ⟨_, h.carry hh' hx⟩
  refine ⟨.caller hall hcalls hl hcpu hb hcall hholds, .inl hlog, ?_, ?_, ?_, ?_⟩
  · rw [hlog]
    exact h.told r hr
  · intro d
    have hfit := h.fits_holder hh' d
    rw [hpend, hcpu]
    by_cases hd : d = c
    · subst hd
      rw [update_self]
      rw [hc] at hfit
      exact hfit
    · rw [update_of_ne hd]
      exact hfit
  · rw [hcpu, update_self]
    apply hsess hr (h.told r hr)
    rw [← hb]
    exact h.session c r hh'
  · rw [hpend]
    exact hraised

theorem Inv.setFunc (hc : s.cpu c = ⟨.setFunc r, none⟩) :
    ∃ parts', Inv ({ s with func := some (r.no, r.fn) }.setCpu c (.setArg r) none) parts' := by
  exact h.caller hc rfl rfl rfl rfl rfl rfl rfl rfl rfl (h.raised_caller hc rfl _)
    fun _ _ hs => ⟨hs, rfl⟩

theorem Inv.setArg (hc : s.cpu c = ⟨.setArg r, none⟩) :
    ∃ parts', Inv ({ s with arg := some r.arg }.setCpu c (.setNcpus r) none) parts' := by
  exact h.caller hc rfl rfl rfl rfl rfl rfl rfl rfl rfl (h.raised_caller hc rfl _)
    fun _ _ hs => ⟨hs.1, hs.2, rfl⟩

theorem Inv.setNcpus (hc : s.cpu c = ⟨.setNcpus r, none⟩) :
    ∃ parts', Inv ({ s with ncpus := r.ncpus }.setCpu c (.clearLeft r) none) parts' := by
  exact h.caller hc rfl rfl rfl rfl rfl rfl rfl rfl rfl (h.raised_caller hc rfl _)
    fun _ _ hs => ⟨hs.1, hs.2.1, hs.2.2, rfl⟩

theorem Inv.clearLeft (hc : s.cpu c = ⟨.clearLeft r, none⟩) :
    ∃ parts', Inv ({ s with room1 := 0 }.setCpu c (.clearEntered r) none) parts' := by
  exact h.caller hc rfl rfl rfl rfl rfl rfl rfl rfl rfl (h.raised_caller hc rfl _)
    fun _ _ hs => ⟨hs.1, hs.2.1, hs.2.2.1, hs.2.2.2, rfl⟩

theorem Inv.clearEntered (hc : s.cpu c = ⟨.clearEntered r, none⟩) :
    ∃ parts', Inv ({ s with room0 := 0 }.setCpu c (.sendIpi r s.pcpuAll) none) parts' := by
  refine h.caller hc rfl rfl rfl rfl rfl rfl rfl rfl rfl (h.raised_caller hc rfl _) ?_
  intro hr htold hs
  obtain ⟨hu, hf, ha, hn, h1⟩ := hs
  refine ⟨hu.open_ hf ha hn rfl h1, hu.sending h.booked.nodup ?_⟩
  intro d hd
  exact (h.booked.valid r hr).2 d (((htold d).due_iff (.inr hd)).1 hd)

theorem Inv.sendIpi_nil (hc : s.cpu c = ⟨.sendIpi r [], none⟩) :
    ∃ parts', Inv (s.setCpu c (.own r) none) parts' := by
  exact h.caller hc rfl rfl rfl rfl rfl rfl rfl rfl rfl (h.raised_caller hc rfl _)
    fun _ _ hs => ⟨hs.1.vars ⟨rfl, rfl, rfl, rfl, rfl⟩, hs.2⟩

theorem Inv.sendIpi_skip (hc : s.cpu c = ⟨.sendIpi r (p :: ps), none⟩)
    (hp : ¬(r.cpus p ∧ p ≠ c)) : ∃ parts', Inv (s.setCpu c (.sendIpi r ps) none) parts' := by
  refine h.caller hc rfl rfl rfl rfl rfl rfl rfl rfl rfl (h.raised_caller hc rfl _) ?_
  intro _ htold hs
  refine ⟨hs.1.vars ⟨rfl, rfl, rfl, rfl, rfl⟩, hs.2.skip ?_⟩
  intro hd
  by_contra hpc
  exact hp ⟨((htold p).due_iff (.inr hd)).1 hd, hpc⟩

theorem Inv.setSip (hc : s.cpu c = ⟨.setSip r p ps, none⟩) :
    ∃ parts', Inv ({ s with sip := update s.sip p true }.setCpu c (.sendIpi r ps) none)
      parts' := by
  refine h.caller hc rfl rfl rfl rfl rfl rfl rfl rfl rfl ?_ ?_
  · intro d hd
    show update s.sip p true d = true ∨ (update s.cpu c _ d).base = .software ∨
      ∃ e r ps, (update s.cpu c _ e).base = .setSip r d ps
    by_cases hdp : d = p
    · subst hdp
      rw [update_self]
      exact .inl rfl
    · rw [update_of_ne hdp]
      apply h.raised_update hc (by rintro ⟨⟩) _ _ hd
      rintro _ _ ⟨⟩
      exact hdp rfl
  · exact fun _ _ hs => ⟨hs.1.vars ⟨rfl, rfl, rfl, rfl, rfl⟩, hs.2⟩

theorem Inv.own_out (hc : s.cpu c = ⟨.own r, none⟩) (hm : ¬r.cpus c) :
    ∃ parts', Inv (s.setCpu c (.collect r) none) parts' := by
  refine h.caller hc rfl rfl rfl rfl rfl rfl rfl rfl rfl (h.raised_caller hc rfl _) ?_
  intro _ htold hs
  have hout : parts r.no c = .out := by
    rcases hs.2.caller with hp | hp
    · exact hp
    · exact absurd (((htold c).due_iff (.inr hp)).1 hp) hm
  refine ⟨hs.1.vars ⟨rfl, rfl, rfl, rfl, rfl⟩, ?_, ?_⟩
  · rw [hout]
    rintro ⟨⟩
  · intro d hd
    by_cases hdc : d = c
    · rw [hdc, hout] at hd
      cases hd
    · cases hs.2.due d hdc hd

theorem Inv.collect (hc : s.cpu c = ⟨.collect r, none⟩)
    (hroom : ¬s.room1 < r.ncpus) : ∃ parts', Inv (s.setCpu c (.unlock r) none) parts' := by
  exact h.caller hc rfl rfl rfl rfl rfl rfl rfl rfl rfl (h.raised_caller hc rfl _)
    fun _ htold hs => ⟨hs.1.vars ⟨rfl, rfl, rfl, rfl, rfl⟩, hs.1.all_left htold hroom⟩

theorem Inv.told_update (hr : r ∈ s.calls) (hp : parts r.no p = .due)
    (hm : q.member = true) (he : q.entered = false) (hs : q.started = false)
    (hf : q.finished = false) (d : Fin n) : Tells s.log r d (update (parts r.no) p q d) := by
  have htold := h.told r hr d
  by_cases hd : d = p
  · subst hd
    rw [hp] at htold
    rw [update_self]
    exact htold.silent hm he hs hf
  · rw [update_of_ne hd]
    exact htold

theorem Inv.sendIpi (hc : s.cpu c = ⟨.sendIpi r (p :: ps), none⟩)
    (hp : r.cpus p ∧ p ≠ c) :
    ∃ parts', Inv ((s.setIpis p { s.pendingIpis p with tryst := true }).setCpu c
      (.setSip r p ps) none) parts' := by
  have hb : (s.cpu c).base = .sendIpi r (p :: ps) := congrArg Cpu.base hc
  have hh : (s.cpu c).base.holds = some r := by rw [hb]; rfl
  have hr := h.booked.holder_mem hh
  have hs : Session s c (parts r.no) (.sendIpi r (p :: ps)) := hb ▸ h.session c r hh
  have hdue : parts r.no p = .due :=
    ((h.told r hr p).due_iff (hs.2.rest p mem_cons_self hp.2)).2 hp.1
  suffices hx : Carries s _ c r (update (parts r.no) p .sent) from ⟨_, h.carry hh hx⟩
  refine ⟨.caller rfl rfl rfl rfl hb rfl rfl, .inl rfl, ?_, ?_, ?_, ?_⟩
  · exact h.told_update hr hdue rfl rfl rfl rfl
  · intro d
    show Fits (update s.pendingIpis p _ d).tryst (update s.cpu c _ d).act _
    have hfit := h.fits_holder hh d
    by_cases hd : d = p
    · subst hd
      rw [update_self, update_self, update_of_ne hp.2]
      rw [hdue] at hfit
      exact ⟨rfl, hfit.act⟩
    · rw [update_of_ne hd, update_of_ne hd]
      by_cases hdc : d = c
      · subst hdc
        rw [update_self]
        rw [hc] at hfit
        exact hfit
      · rw [update_of_ne hdc]
        exact hfit
  · show Session _ c _ (update s.cpu c _ c).base
    rw [update_self]
    exact ⟨hs.1.summon ⟨rfl, rfl, rfl, rfl, rfl⟩ (.inl hdue) (.inl rfl), hs.2.send hp.2⟩
  · intro d hd
    have hd : (update s.pendingIpis p { s.pendingIpis p with tryst := true } d).tryst
      = true := hd
    show s.sip d = true ∨ (update s.cpu c _ d).base = .software ∨
      ∃ e r ps, (update s.cpu c _ e).base = .setSip r d ps
    by_cases hdp : d = p
    · subst hdp
      refine .inr (.inr ⟨c, r, ps, ?_⟩)
      rw [update_self]
    · rw [update_of_ne hdp] at hd
      exact h.raised_caller hc rfl _ d hd

theorem Inv.own (hc : s.cpu c = ⟨.own r, none⟩) (hm : r.cpus c) :
    ∃ parts', Inv (s.setCpu c (.collect r) (some .enter)) parts' := by
  have hb : (s.cpu c).base = .own r := congrArg Cpu.base hc
  have hh : (s.cpu c).base.holds = some r := by rw [hb]; rfl
  have hr := h.booked.holder_mem hh
  have hs : Session s c (parts r.no) (.own r) := hb ▸ h.session c r hh
  have hdue : parts r.no c = .due := ((h.told r hr c).due_iff hs.2.caller).2 hm
  suffices hx : Carries s _ c r (update (parts r.no) c (.on .enter)) from
    ⟨_, h.carry hh hx⟩
  refine ⟨.caller rfl rfl rfl rfl hb rfl rfl, .inl rfl, ?_, ?_, ?_, ?_⟩
  · exact h.told_update hr hdue rfl rfl rfl rfl
  · intro d
    show Fits (s.pendingIpis d).tryst (update s.cpu c _ d).act _
    have hfit := h.fits_holder hh d
    by_cases hd : d = c
    · subst hd
      rw [update_self, update_self]
      rw [hdue] at hfit
      exact ⟨hfit.tryst, rfl⟩
    · rw [update_of_ne hd, update_of_ne hd]
      exact hfit
  · show Session _ c _ (update s.cpu c _ c).base
    rw [update_self]
    refine ⟨hs.1.summon ⟨rfl, rfl, rfl, rfl, rfl⟩ (.inl hdue) (.inr rfl), ?_, ?_⟩
    · rw [update_self]
      rintro ⟨⟩
    · intro d hd
      by_cases hdc : d = c
      · rw [hdc, update_self] at hd
        cases hd
      · rw [update_of_ne hdc] at hd
        cases hs.2.due d hdc hd
  · exact h.raised_caller hc rfl _

theorem Inv.intr (hc : s.cpu c = ⟨.idle, none⟩) :
    Inv ({ s with sip := update s.sip c false }.setCpu c .software none) parts := by
  refine h.outside (.caller rfl rfl rfl rfl (congrArg Cpu.base hc) rfl rfl)
    ⟨rfl, rfl, rfl, rfl, rfl⟩ rfl ?_ ?_ ?_
  · exact h.fits_caller hc _
  · exact fun d r hh => base_update_of_holds hc rfl _ hh
  · intro d hd
    show update s.sip c false d = true ∨
      (update s.cpu c ⟨.software, none⟩ d).base = .software ∨
      ∃ e r ps, (update s.cpu c _ e).base = .setSip r d ps
    by_cases hdc : d = c
    · subst hdc
      rw [update_self]
      rw [update_self]
      exact .inr (.inl rfl)
    · rw [update_of_ne hdc]
      exact h.raised_caller hc rfl _ d hd

theorem Inv.notify (c : Fin n) :
    Inv ({ s with sip := update s.sip c true }.setIpis c
      { s.pendingIpis c with ipi := true }) parts := by
  have htryst (d : Fin n) : (update s.pendingIpis c
      { s.pendingIpis c with ipi := true } d).tryst = (s.pendingIpis d).tryst := by
    by_cases hd : d = c
    · subst hd
      rw [update_self]
    · rw [update_of_ne hd]
  refine h.outside ⟨rfl, rfl, rfl, fun _ => rfl, fun _ => rfl⟩ ⟨rfl, rfl, rfl, rfl, rfl⟩ rfl ?_
    (fun _ _ _ => rfl) ?_
  · intro d
    show Fits (update s.pendingIpis c _ d).tryst _ _
    rw [htryst]
    exact h.fits d
  · intro d hd
    have hd : (s.pendingIpis d).tryst = true := (htryst d).symm.trans hd
    show update s.sip c true d = true ∨ _
    by_cases hdc : d = c
    · subst hdc
      rw [update_self]
      exact .inl rfl
    · rw [update_of_ne hdc]
      exact h.raised d hd

theorem Inv.trylock_fails (hc : s.cpu c = ⟨.trylock r, none⟩) :
    Inv (s.setCpu c (.poll r) none) parts := by
  refine h.outside (.caller rfl rfl rfl rfl (congrArg Cpu.base hc) rfl rfl)
    ⟨rfl, rfl, rfl, rfl, rfl⟩ rfl ?_ ?_ ?_
  · exact h.fits_caller hc _
  · exact fun d r hh => base_update_of_holds hc rfl _ hh
  · exact h.raised_caller hc rfl _

end

theorem Booked.not_held (h : Booked s) (hl : s.lock = none) (c : Fin n) :
    (s.cpu c).base.holds = none := by
  cases hb : (s.cpu c).base.holds with
  | none => rfl
  | some r =>
    have := h.held c r hb
    rw [hl] at this
    cases this

theorem Booked.trylock (h : Booked s) (hl : s.lock = none) (hc : s.cpu c = ⟨.trylock r, none⟩) :
    Booked ({ s with lock := some r.no }.setCpu c (.setFunc r) none) where
  nodup := h.nodup
  numbered := h.numbered
  valid := h.valid
  begun := by
    intro d r' hd
    have hd : (update s.cpu c ⟨.setFunc r, none⟩ d).base.call = some r' := hd
    apply h.begun d r'
    by_cases hdc : d = c
    · subst hdc
      rw [update_self] at hd
      rw [hc]
      exact hd
    · rw [update_of_ne hdc] at hd
      exact hd
  pending := by
    intro r' hr'
    show _ ∨ (update s.cpu c ⟨.setFunc r, none⟩ r'.cpuid).base.call = some r'
    rcases h.pending r' hr' with hx | hx
    · exact .inl hx
    · right
      by_cases hdc : r'.cpuid = c
      · rw [hdc, hc] at hx
        rw [hdc, update_self]
        exact hx
      · rw [update_of_ne hdc]
        exact hx
  held := by
    intro d r' hd
    have hd : (update s.cpu c ⟨.setFunc r, none⟩ d).base.holds = some r' := hd
    by_cases hdc : d = c
    · rw [hdc, update_self] at hd
      cases hd
      rfl
    · rw [update_of_ne hdc, h.not_held hl d] at hd
      cases hd
  holder := by
    rintro i ⟨⟩
    refine ⟨c, r, ?_, rfl⟩
    show (update s.cpu c ⟨.setFunc r, none⟩ c).base.holds = some r
    rw [update_self]
    rfl
  known := h.known

theorem Inv.trylock (h : Inv s parts) (hl : s.lock = none) (hc : s.cpu c = ⟨.trylock r, none⟩) :
    Inv ({ s with lock := some r.no }.setCpu c (.setFunc r) none) parts := by
  obtain ⟨hr, -, hret⟩ := h.booked.begun c r (by rw [hc]; rfl)
  have hunsent : Unsent (parts r.no) := by
    apply h.waiting r hr _ hret
    rw [hl]
    rintro ⟨⟩
  refine ⟨h.booked.trylock hl hc, h.told, ?_, h.ended, ?_, ?_, ?_, h.ordered⟩
  · intro r' hr' _ hret'
    apply h.waiting r' hr' _ hret'
    rw [hl]
    rintro ⟨⟩
  · intro d
    show Fits _ (update s.cpu c _ d).act (parts r.no d)
    have hfit := h.fits d
    simp only [current, hl] at hfit
    rw [act_update hc]
    rcases hunsent d with hd | hd <;> rw [hd] <;> exact ⟨hfit.tryst, hfit.act⟩
  · intro d r' hd
    have hd : (update s.cpu c ⟨.setFunc r, none⟩ d).base.holds = some r' := hd
    show Session _ d _ (update s.cpu c ⟨.setFunc r, none⟩ d).base
    by_cases hdc : d = c
    · subst hdc
      rw [update_self] at hd ⊢
      cases hd
      exact hunsent
    · rw [update_of_ne hdc, h.booked.not_held hl d] at hd
      cases hd
  · exact h.raised_caller hc rfl _

theorem Booked.idle_holds (h : Booked s) (hh : (s.cpu c).base.holds = some r) (d : Fin n)
    (r' : Call n φ α) : (update s.cpu c ⟨.idle, none⟩ d).base.holds ≠ some r' := by
  intro hd
  by_cases hdc : d = c
  · rw [hdc, update_self] at hd
    cases hd
  · rw [update_of_ne hdc] at hd
    exact hdc (h.holder_unique hh hd).1

theorem Booked.unlock (h : Booked s) (hc : s.cpu c = ⟨.unlock r, none⟩) :
    Booked ({ s with lock := none }.setCpu c .idle none |>.note (.returned r.no)) := by
  have hh : (s.cpu c).base.holds = some r := by rw [hc]; rfl
  have hr := h.holder_mem hh
  have hcpuid := (h.begun c r (Base.call_of_holds hh)).2.1
  refine ⟨h.nodup, h.numbered, h.valid, ?_, ?_, ?_, ?_, ?_⟩
  · intro d r' hd
    have hd : (update s.cpu c ⟨.idle, none⟩ d).base.call = some r' := hd
    by_cases hdc : d = c
    · rw [hdc, update_self] at hd
      cases hd
    · rw [update_of_ne hdc] at hd
      obtain ⟨hr', hid, hret⟩ := h.begun d r' hd
      refine ⟨hr', hid, ?_⟩
      intro hm
      rcases mem_cons.1 hm with hm | hm
      · cases h.unique hr' hr (Event.returned.inj hm)
        exact hdc (hid.symm.trans hcpuid)
      · exact hret hm
  · intro r' hr'
    show _ ∨ (update s.cpu c ⟨.idle, none⟩ r'.cpuid).base.call = some r'
    rcases h.pending r' hr' with hx | hx
    · exact .inl (mem_cons_of_mem _ hx)
    · by_cases hdc : r'.cpuid = c
      · rw [hdc, hc] at hx
        cases hx
        exact .inl mem_cons_self
      · rw [update_of_ne hdc]
        exact .inr hx
  · exact fun d r' hd => absurd hd (h.idle_holds hh d r')
  · rintro i ⟨⟩
  · intro e he i hi
    rcases mem_cons.1 he with rfl | he
    · cases hi
      exact h.no_lt hr
    · exact h.known e he i hi

theorem Inv.unlock (h : Inv s parts) (hc : s.cpu c = ⟨.unlock r, none⟩) :
    Inv ({ s with lock := none }.setCpu c .idle none |>.note (.returned r.no)) parts := by
  have hb : (s.cpu c).base = .unlock r := congrArg Cpu.base hc
  have hh : (s.cpu c).base.holds = some r := by rw [hb]; rfl
  have hr := h.booked.holder_mem hh
  have hlock := h.booked.held c r hh
  have hs : Session s c (parts r.no) (.unlock r) := hb ▸ h.session c r hh
  refine ⟨h.booked.unlock hc, ?_, ?_, ?_, ?_, ?_, ?_, ?_⟩
  · exact fun r' hr' d => (h.told r' hr' d).other (.inr (by rintro ⟨⟩))
  · intro r' hr' _ hret
    have hno : r'.no ≠ r.no := by
      intro hno
      rw [hno] at hret
      exact hret mem_cons_self
    apply h.waiting r' hr'
    · rw [hlock]
      exact fun hx => hno (Option.some.inj hx).symm
    · exact fun hx => hret (mem_cons_of_mem _ hx)
  · intro r' hr' hret
    rcases mem_cons.1 hret with hx | hx
    · cases h.booked.unique hr' hr (Event.returned.inj hx)
      exact hs.2
    · exact h.ended r' hr' hx
  · intro d
    show Fits _ (update s.cpu c _ d).act Part.out
    have hfit := h.fits_holder hh d
    rw [act_update hc]
    rcases hs.2 d with hd | hd <;> rw [hd] at hfit <;> exact ⟨hfit.tryst, hfit.act⟩
  · exact fun d r' hd => absurd hd (h.booked.idle_holds hh d r')
  · exact h.raised_caller hc rfl _
  · apply Lib.Grown.cons _ h.ordered
    intro r' hr' hno d hd
    cases h.booked.unique hr' hr hno
    apply (h.told r hr d).finished.2
    rcases hs.2 d with hp | hp <;> rw [hp]
    · have hm := (h.told r hr d).member
      rw [hp, hd] at hm
      cases hm
    · rfl

theorem Booked.call (h : Booked s) (hc : s.cpu c = ⟨.idle, none⟩) (hno : r.no = s.calls.length)
    (hid : r.cpuid = c) (hn : 0 < r.ncpus) (hon : ∀ d, r.cpus d → d ∈ s.pcpuAll) :
    Booked ({ s with calls := s.calls ++ [r] }.setCpu c (.trylock r) none) := by
  refine ⟨h.nodup, ?_, ?_, ?_, ?_, ?_, ?_, ?_⟩
  · intro j r' hj
    have hj : (s.calls ++ [r])[j]? = some r' := hj
    rw [List.getElem?_append] at hj
    split at hj
    · exact h.numbered j r' hj
    · rename_i hlt
      obtain ⟨hx, hx'⟩ := List.getElem?_eq_some_iff.1 hj
      have hx : j - s.calls.length < 1 := hx
      have hj0 : j - s.calls.length = 0 := by omega
      simp only [hj0, getElem_cons_zero] at hx'
      rw [← hx', hno]
      omega
  · intro r' hr'
    rcases mem_append.1 hr' with hx | hx
    · exact h.valid r' hx
    · cases mem_singleton.1 hx
      exact ⟨hn, hon⟩
  · intro d r' hd
    have hd : (update s.cpu c ⟨.trylock r, none⟩ d).base.call = some r' := hd
    by_cases hdc : d = c
    · rw [hdc, update_self] at hd
      cases hd
      refine ⟨mem_append_right _ mem_cons_self, hid.trans hdc.symm, ?_⟩
      intro hm
      exact absurd (h.known _ hm r.no rfl) (by rw [hno]; exact lt_irrefl _)
    · rw [update_of_ne hdc] at hd
      obtain ⟨hr', hid', hret⟩ := h.begun d r' hd
      exact ⟨mem_append_left _ hr', hid', hret⟩
  · intro r' hr'
    show _ ∨ (update s.cpu c ⟨.trylock r, none⟩ r'.cpuid).base.call = some r'
    rcases mem_append.1 hr' with hx | hx
    · rcases h.pending r' hx with hp | hp
      · exact .inl hp
      · right
        have hdc : r'.cpuid ≠ c := by
          intro hdc
          rw [hdc, hc] at hp
          cases hp
        rw [update_of_ne hdc]
        exact hp
    · cases mem_singleton.1 hx
      right
      rw [hid, update_self]
      rfl
  · intro d r' hd
    have hd : (update s.cpu c ⟨.trylock r, none⟩ d).base.holds = some r' := hd
    by_cases hdc : d = c
    · rw [hdc, update_self] at hd
      cases hd
    · rw [update_of_ne hdc] at hd
      exact h.held d r' hd
  · intro i hi
    obtain ⟨d, r', hd, hr'⟩ := h.holder i hi
    refine ⟨d, r', ?_, hr'⟩
    show (update s.cpu c ⟨.trylock r, none⟩ d).base.holds = some r'
    have hdc : d ≠ c := by
      rintro rfl
      rw [hc] at hd
      cases hd
    rw [update_of_ne hdc]
    exact hd
  · intro e he i hi
    have hlt := h.known e he i hi
    show i < (s.calls ++ [r]).length
    rw [length_append]
    exact Nat.lt_add_right _ hlt

theorem Booked.tells_new (h : Booked s) (hno : r.no = s.calls.length) (d : Fin n) :
    Tells s.log r d (if r.cpus d then .due else .out) := by
  have hnone (e : Event n φ α) (he : e.call = some r.no) : e ∉ s.log := by
    intro hm
    have := h.known e hm r.no he
    omega
  have hstarts : starts s.log d r.no = 0 := by
    apply countP_eq_zero.2
    intro e he
    cases e with
    | started =>
      simp only [decide_eq_true_eq, not_and]
      rintro - rfl
      exact hnone _ rfl he
    | _ => exact Bool.false_ne_true
  by_cases hd : r.cpus d
  · rw [if_pos hd]
    refine ⟨hd.symm, ?_, hstarts, ?_, ?_⟩
    · exact iff_of_false (hnone _ rfl) Bool.false_ne_true
    · exact iff_of_false (hnone _ rfl) Bool.false_ne_true
    · exact fun fn arg hm => absurd hm (hnone _ rfl)
  · rw [if_neg hd]
    refine ⟨(Bool.eq_false_iff.2 hd).symm, ?_, hstarts, ?_, ?_⟩
    · exact iff_of_false (hnone _ rfl) Bool.false_ne_true
    · exact iff_of_false (hnone _ rfl) Bool.false_ne_true
    · exact fun fn arg hm => absurd hm (hnone _ rfl)

theorem Inv.call (h : Inv s parts) (hc : s.cpu c = ⟨.idle, none⟩) (hno : r.no = s.calls.length)
    (hid : r.cpuid = c) (hn : 0 < r.ncpus) (hon : ∀ d, r.cpus d → d ∈ s.pcpuAll) :
    ∃ parts', Inv ({ s with calls := s.calls ++ [r] }.setCpu c (.trylock r) none) parts' := by
  have hold {r' : Call n φ α} (hr' : r' ∈ s.calls) : r'.no ≠ r.no := by
    have := h.booked.no_lt hr'
    omega
  have hlock {i : Nat} (hi : s.lock = some i) : i ≠ r.no := by
    obtain ⟨d, r', hd, rfl⟩ := h.booked.holder i hi
    exact hold (h.booked.holder_mem hd)
  refine ⟨update parts r.no fun d => if r.cpus d then .due else .out,
    h.booked.call hc hno hid hn hon, ?_, ?_, ?_, ?_, ?_, ?_, ?_⟩
  · intro r' hr' d
    rcases mem_append.1 hr' with hx | hx
    · rw [update_of_ne (hold hx)]
      exact h.told r' hx d
    · cases mem_singleton.1 hx
      rw [update_self]
      exact h.booked.tells_new hno d
  · intro r' hr' hl hret
    rcases mem_append.1 hr' with hx | hx
    · rw [update_of_ne (hold hx)]
      exact h.waiting r' hx hl hret
    · cases mem_singleton.1 hx
      rw [update_self]
      intro d
      by_cases hd : r.cpus d
      · exact .inr (if_pos hd)
      · exact .inl (if_neg hd)
  · intro r' hr' hret
    rcases mem_append.1 hr' with hx | hx
    · rw [update_of_ne (hold hx)]
      exact h.ended r' hx hret
    · cases mem_singleton.1 hx
      have := h.booked.known _ hret r.no rfl
      omega
  · intro d
    have hfit := h.fits_caller hc (.trylock r) d
    cases hl : s.lock with
    | none =>
      simp only [current, hl] at hfit
      simp only [current, State.setCpu]
      exact hfit
    | some =>
      simp only [current, hl] at hfit
      simp only [current, State.setCpu, update_of_ne (hlock hl)]
      exact hfit
  · intro d r' hd
    have hd : (update s.cpu c ⟨.trylock r, none⟩ d).base.holds = some r' := hd
    show Session _ d _ (update s.cpu c ⟨.trylock r, none⟩ d).base
    by_cases hdc : d = c
    · rw [hdc, update_self] at hd
      cases hd
    · rw [update_of_ne hdc] at hd ⊢
      rw [update_of_ne (hold (h.booked.holder_mem hd))]
      exact (h.session d r' hd).vars ⟨rfl, rfl, rfl, rfl, rfl⟩
  · exact h.raised_caller hc rfl _
  · apply h.ordered.imp
    intro e he l ht
    have hnew (i : Nat) (hi : e.call = some i) {r' : Call n φ α} (hr' : r' ∈ s.calls ++ [r])
        (hx : r'.no = i) : r' ∈ s.calls := by
      rcases mem_append.1 hr' with hm | hm
      · exact hm
      · cases mem_singleton.1 hm
        have := h.booked.known e he i hi
        omega
    cases e with
    | started _ i | returned i => exact fun r' hr' hx => ht r' (hnew i rfl hr' hx) hx
    | entered _ _ | finished _ _ => trivial

end Mdepx.Smp
