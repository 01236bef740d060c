import Mdepx.Smp.Caller

namespace Mdepx.Smp
open Function (update update_self update_of_ne)
open List

variable {s t : State n φ α} {r r' : Call n φ α} {part : Fin n → Part φ} {c c' d : Fin n}

theorem setCpu_self : (s.setCpu c b a).cpu c = ⟨b, a⟩ := update_self c _ _

theorem exec_act (hc : s.cpu c = ⟨b, some st⟩) :
    exec s (.step c) = smpRendezvousAction s c b st := by
  simp only [exec, hc]

theorem exec_base (hc : s.cpu c = ⟨b, none⟩) : exec s (.step c) = smpRendezvousCpus s c b := by
  simp only [exec, hc]

theorem Inv.step_act (h : Inv s parts) (hc : s.cpu c = ⟨b, some st⟩)
    (hs : smpRendezvousAction s c b st = .ok t) : ∃ parts', Inv t parts' := by
  cases st with
  | enter =>
    cases hs
    exact h.enter hc
  | gather =>
    simp only [smpRendezvousAction] at hs
    split at hs
    · cases hs
      exact ⟨parts, h⟩
    · rename_i hroom
      cases hs
      exact h.gather hc hroom
  | loadFunc =>
    simp only [smpRendezvousAction] at hs
    split at hs
    · cases hs
    · rename_i f hf
      cases hs
      exact h.loadFunc hc hf
  | loadArg =>
    cases hs
    exact h.loadArg hc
  | running =>
    cases hs
    exact h.running hc
  | leave =>
    cases hs
    exact h.leave hc

theorem Inv.step_base (h : Inv s parts) (hc : s.cpu c = ⟨b, none⟩)
    (hs : smpRendezvousCpus s c b = .ok t) : ∃ parts', Inv t parts' := by
  cases b with
  | idle => cases hs
  | software | poll =>
    cases hs
    apply h.handle
    · rw [hc]
    · rw [hc]
      rfl
    · rw [hc]
      rfl
    · rw [hc]
      exact .inr rfl
  | trylock r =>
    simp only [smpRendezvousCpus] at hs
    split at hs
    · rename_i hl
      cases hs
      exact ⟨parts, h.trylock hl hc⟩
    · cases hs
      exact ⟨parts, h.trylock_fails hc⟩
  | setFunc =>
    cases hs
    exact h.setFunc hc
  | setArg =>
    cases hs
    exact h.setArg hc
  | setNcpus =>
    cases hs
    exact h.setNcpus hc
  | clearLeft =>
    cases hs
    exact h.clearLeft hc
  | clearEntered =>
    cases hs
    exact h.clearEntered hc
  | sendIpi r ps =>
    cases ps with
    | nil =>
      cases hs
      exact h.sendIpi_nil hc
    | cons p ps =>
      simp only [smpRendezvousCpus] at hs
      split at hs
      · rename_i hp
        cases hs
        exact h.sendIpi hc hp
      · rename_i hp
        cases hs
        exact h.sendIpi_skip hc hp
  | setSip =>
    cases hs
    exact h.setSip hc
  | own r =>
    simp only [smpRendezvousCpus] at hs
    split at hs
    · rename_i hm
      cases hs
      exact h.own hc hm
    · rename_i hm
      cases hs
      exact h.own_out hc hm
  | collect r =>
    simp only [smpRendezvousCpus] at hs
    split at hs
    · cases hs
      exact ⟨parts, h⟩
    · rename_i hroom
      cases hs
      exact h.collect hc hroom
  | unlock =>
    simp only [smpRendezvousCpus] at hs
    split at hs
    · cases hs
    · cases hs
      exact ⟨parts, h.unlock hc⟩

theorem Inv.step (h : Inv s parts) (hok : Online s a) (hs : Next s a t) :
    ∃ parts', Inv t parts' := by
  cases a with
  | call c cpus fn arg =>
    simp only [Next, exec] at hs
    split at hs
    · rename_i hc
      split at hs
      · cases hs
      · rename_i hn
        cases hs
        exact h.call hc rfl rfl (pos_of_ne_zero hn) hok
    · cases hs
  | intr c =>
    simp only [Next, exec] at hs
    split at hs
    · rename_i hc
      split at hs
      · cases hs
        exact ⟨parts, h.intr hc⟩
      · cases hs
    · cases hs
  | notify c =>
    cases hs
    exact ⟨parts, h.notify c⟩
  | step c =>
    cases hc : s.cpu c with
    | mk b act =>
      cases act with
      | none => exact h.step_base hc ((exec_base hc).symm.trans hs)
      | some => exact h.step_act hc ((exec_act hc).symm.trans hs)

theorem boot_inv (hnodup : pcpuAll.Nodup) : Inv (boot φ α pcpuAll) fun _ (_ : Fin n) => .out := by
  refine ⟨⟨hnodup, ?_, ?_, ?_, ?_, ?_, ?_, ?_⟩, ?_, ?_, ?_, ?_, ?_, ?_, .nil⟩
  · rintro j r ⟨⟩
  · rintro r ⟨⟩
  · rintro c r ⟨⟩
  · rintro r ⟨⟩
  · rintro c r ⟨⟩
  · rintro i ⟨⟩
  · rintro e ⟨⟩
  · rintro r ⟨⟩
  · rintro r ⟨⟩
  · rintro r ⟨⟩
  · exact fun c => ⟨rfl, rfl⟩
  · rintro c r ⟨⟩
  · rintro p ⟨⟩

theorem run_inv (h : Lib.Run Next Online s t) (hs : ∃ parts, Inv s parts) :
    ∃ parts, Inv t parts := by
  apply h.invariant (fun s => ∃ parts, Inv s parts) hs
  intro s a t hs hok hst
  obtain ⟨parts, hs⟩ := hs
  exact hs.step hok hst

def Stage.weight : Stage φ → Nat
  | .enter => 6
  | .gather => 5
  | .loadFunc => 4
  | .loadArg _ => 3
  | .running _ => 2
  | .leave => 1

def load (k : Cpu n φ α) (i : Ipis) : Nat := k.act.elim 0 Stage.weight + 7 * i.tryst.toNat

def Base.weight (m : Nat) : Base n φ α → Nat
  | .idle | .software | .trylock _ | .poll _ => 0
  | .setFunc _ => 10 * m + 25
  | .setArg _ => 10 * m + 24
  | .setNcpus _ => 10 * m + 23
  | .clearLeft _ => 10 * m + 22
  | .clearEntered _ => 10 * m + 21
  | .sendIpi _ ps => 10 * ps.length + 20
  | .setSip _ _ ps => 10 * ps.length + 21
  | .own _ => 19
  | .collect _ => 2
  | .unlock _ => 1

def State.todo (s : State n φ α) (c : Fin n) : Nat :=
  (s.cpu c).base.weight s.pcpuAll.length + ∑ d, load (s.cpu d) (s.pendingIpis d)

theorem todo_lt (hall : t.pcpuAll = s.pcpuAll)
    (hoff : ∀ e, e ≠ d → load (t.cpu e) (t.pendingIpis e) = load (s.cpu e) (s.pendingIpis e))
    (hlt : (t.cpu c).base.weight s.pcpuAll.length + load (t.cpu d) (t.pendingIpis d) <
      (s.cpu c).base.weight s.pcpuAll.length + load (s.cpu d) (s.pendingIpis d)) :
    t.todo c < s.todo c := by
  have hsum := Lib.sum_change hoff
  unfold State.todo
  rw [hall]
  omega

def Advances (s : State n φ α) (c : Fin n) (r : Call n φ α) : Prop :=
  ∃ t, Lib.Run Next Online s t ∧ (t.cpu c).base.holds = some r ∧ t.todo c < s.todo c

theorem run_step (h : exec s (.step c) = .ok t) : Lib.Run Next Online s t := by
  have hok : Online s (.step c) := trivial
  exact .tail (.refl s) hok h

theorem Advances.caller (hc : s.cpu c = ⟨b, none⟩) (hs : smpRendezvousCpus s c b = .ok t)
    (hall : t.pcpuAll = s.pcpuAll) (hcpu : t.cpu = update s.cpu c ⟨b', none⟩)
    (hpend : t.pendingIpis = s.pendingIpis) (hh : b'.holds = some r)
    (hlt : b'.weight s.pcpuAll.length < b.weight s.pcpuAll.length) : Advances s c r := by
  refine ⟨t, run_step ((exec_base hc).trans hs), ?_, ?_⟩
  · rw [hcpu, update_self]
    exact hh
  · apply todo_lt (d := c) hall
    · intro e he
      rw [hcpu, hpend, update_of_ne he]
    · rw [hcpu, hpend, update_self, hc]
      exact Nat.add_lt_add_right hlt _

theorem Advances.act (hh : (s.cpu c).base.holds = some r) (hd : s.cpu d = ⟨b, some st⟩)
    (hs : smpRendezvousAction s d b st = .ok t) (hall : t.pcpuAll = s.pcpuAll)
    (hcpu : t.cpu = update s.cpu d ⟨b, a⟩) (hpend : t.pendingIpis = s.pendingIpis)
    (hlt : a.elim 0 Stage.weight < st.weight) : Advances s c r := by
  have hbase : (t.cpu c).base = (s.cpu c).base := by
    rw [hcpu]
    by_cases hcd : c = d
    · rw [hcd, update_self, hd]
    · rw [update_of_ne hcd]
  refine ⟨t, run_step ((exec_act hd).trans hs), ?_, ?_⟩
  · rw [hbase]
    exact hh
  · apply todo_lt (d := d) hall
    · intro e he
      rw [hcpu, hpend, update_of_ne he]
    · rw [hbase, hcpu, hpend, update_self, hd]
      apply Nat.add_lt_add_left
      exact Nat.add_lt_add_right hlt _

theorem Open.not_lt (h : Open s r part) (hm : ∀ d, Tells s.log r d (part d))
    (hall : ∀ d, (part d).member → (part d).entered) : ¬s.room0 < s.ncpus := by
  rw [h.ncpus, h.room0, Nat.not_lt]
  apply Finset.sum_le_sum
  intro d _
  cases hd : r.cpus d with
  | false => exact Nat.zero_le _
  | true => rw [hall d ((hm d).member.trans hd)]

theorem Open.act_advances (h : Open s r part) (hh : (s.cpu c).base.holds = some r)
    (hd : s.cpu d = ⟨b, some st⟩) (hroom : st = .gather → ¬s.room0 < s.ncpus) :
    Advances s c r := by
  cases st with
  | enter => exact .act hh hd rfl rfl rfl rfl (Nat.lt_succ_self 5)
  | gather =>
    have hs : smpRendezvousAction s d b .gather = .ok (s.setCpu d b (some .loadFunc)) := by
      simp only [smpRendezvousAction, if_neg (hroom rfl)]
    exact .act hh hd hs rfl rfl rfl (Nat.lt_succ_self 4)
  | loadFunc =>
    have hs : smpRendezvousAction s d b .loadFunc =
        .ok (s.setCpu d b (some (.loadArg (r.no, r.fn)))) := by
      simp only [smpRendezvousAction, h.func]
    exact .act hh hd hs rfl rfl rfl (Nat.lt_succ_self 3)
  | loadArg => exact .act hh hd rfl rfl rfl rfl (Nat.lt_succ_self 2)
  | running => exact .act hh hd rfl rfl rfl rfl (Nat.lt_succ_self 1)
  | leave => exact .act hh hd rfl rfl rfl rfl (Nat.lt_succ_self 0)

theorem Advances.take (hh : (s.cpu c).base.holds = some r) (hcd : c ≠ d)
    (hact : (s.cpu d).act = none) (ht : (s.pendingIpis d).tryst = true)
    (hrun : Lib.Run Next Online s u) (hall : u.pcpuAll = s.pcpuAll)
    (hcpu : ∀ e, e ≠ d → u.cpu e = s.cpu e) (hpend : u.pendingIpis = s.pendingIpis)
    (hs : exec u (.step d) = .ok (ipiHandler u d b)) : Advances s c r := by
  have htu : (u.pendingIpis d).tryst = true := by
    rw [hpend]
    exact ht
  rw [ipiHandler, if_pos htu] at hs
  have hcpu' (e : Fin n) (he : e ≠ d) :
      update u.cpu d ⟨b, some .enter⟩ e = s.cpu e := by
    rw [update_of_ne he]
    exact hcpu e he
  refine ⟨_, hrun.trans (run_step hs), ?_, ?_⟩
  · show (update u.cpu d ⟨b, some .enter⟩ c).base.holds = some r
    rw [hcpu' c hcd]
    exact hh
  · refine todo_lt (d := d) hall ?_ ?_
    · intro e he
      show load (update u.cpu d ⟨b, some .enter⟩ e)
        (update u.pendingIpis d ⟨false, false⟩ e) = _
      rw [hcpu' e he, update_of_ne he, hpend]
    · show (update u.cpu d ⟨b, some .enter⟩ c).base.weight _ +
        load (update u.cpu d ⟨b, some .enter⟩ d)
          (update u.pendingIpis d ⟨false, false⟩ d) < _
      rw [hcpu' c hcd, update_self, update_self]
      apply Nat.add_lt_add_left
      rw [load, load, hact, ht]
      exact Nat.lt_succ_self 6

theorem Inv.called_advances (h : Inv s parts) (hc : s.cpu c = ⟨.collect r, a⟩)
    (hd : parts r.no d = .sent) : Advances s c r := by
  have hb : (s.cpu c).base = .collect r := congrArg Cpu.base hc
  have hh : (s.cpu c).base.holds = some r := by rw [hb]; rfl
  have hs : Session s c (parts r.no) (.collect r) := hb ▸ h.session c r hh
  have hcd : c ≠ d := by
    rintro rfl
    exact hs.2.1 hd
  have hfit := h.fits_holder hh d
  rw [hd] at hfit
  have hlock := h.booked.held c r hh
  have hfree : (s.cpu d).base.holds = none := by
    cases hx : (s.cpu d).base.holds with
    | none => rfl
    | some => exact absurd (h.booked.holder_unique hh hx).1.symm hcd
  have htake {u : State n φ α} {b : Base n φ α} := Advances.take (u := u) (b := b) hh hcd hfit.act
    hfit.tryst
  cases hk : s.cpu d with
  | mk b act =>
    rw [hk] at hfit hfree
    obtain rfl : act = none := hfit.act
    cases b with
    | idle =>
      have hsip : s.sip d = true := by
        rcases h.raised d hfit.tryst with hx | hx | ⟨e, r', ps, hx⟩
        · exact hx
        · rw [hk] at hx
          cases hx
        · have hr' : (s.cpu e).base.holds = some r' := by rw [hx]; rfl
          rw [(h.booked.holder_unique hh hr').1, hb] at hx
          cases hx
      have hok : Online s (.intr d) := trivial
      have hintr : Next s (.intr d)
          ({ s with sip := update s.sip d false }.setCpu d .software none) := by
        simp only [Next, exec, hk, hsip, if_true]
      apply htake (.tail (.refl s) hok hintr) rfl (fun e he => update_of_ne he _ _) rfl
      exact exec_base setCpu_self
    | software | poll => exact htake (.refl s) rfl (fun _ _ => rfl) rfl (exec_base hk)
    | trylock r' =>
      have hpoll : exec s (.step d) = .ok (s.setCpu d (.poll r') none) := by
        rw [exec_base hk]
        simp only [smpRendezvousCpus, hlock]
      apply htake (run_step hpoll) rfl (fun e he => update_of_ne he _ _) rfl
      exact exec_base setCpu_self
    | setFunc _ | setArg _ | setNcpus _ | clearLeft _ | clearEntered _ | sendIpi _ _
    | setSip _ _ _ | own _ | collect _ | unlock _ => cases hfree

theorem Inv.collect_advances (h : Inv s parts) (hc : s.cpu c = ⟨.collect r, a⟩) :
    Advances s c r := by
  have hb : (s.cpu c).base = .collect r := congrArg Cpu.base hc
  have hh : (s.cpu c).base.holds = some r := by rw [hb]; rfl
  have hs : Session s c (parts r.no) (.collect r) := hb ▸ h.session c r hh
  have htold := h.told r (h.booked.holder_mem hh)
  have hon {d : Fin n} {st : Stage φ} (hd : parts r.no d = .on st) :
      s.cpu d = ⟨(s.cpu d).base, some st⟩ := by
    have hfit := h.fits_holder hh d
    rw [hd] at hfit
    rw [← show (s.cpu d).act = some st from hfit.act]
  by_cases hsent : ∃ d, parts r.no d = .sent
  · obtain ⟨d, hd⟩ := hsent
    exact h.called_advances hc hd
  by_cases henter : ∃ d, parts r.no d = .on .enter
  · obtain ⟨d, hd⟩ := henter
    exact hs.1.act_advances hh (hon hd) (by rintro ⟨⟩)
  have hentered (d : Fin n) (hm : (parts r.no d).member) : (parts r.no d).entered := by
    cases hd : parts r.no d with
    | out =>
      rw [hd] at hm
      cases hm
    | due => exact absurd hd (hs.2.2 d)
    | sent => exact absurd ⟨d, hd⟩ hsent
    | done => rfl
    | on st =>
      cases st with
      | enter => exact absurd ⟨d, hd⟩ henter
      | _ => rfl
  by_cases hact : ∃ d st, parts r.no d = .on st
  · obtain ⟨d, st, hd⟩ := hact
    exact hs.1.act_advances hh (hon hd) fun _ => hs.1.not_lt htold hentered
  have hdone (d : Fin n) : parts r.no d = .out ∨ parts r.no d = .done := by
    cases hd : parts r.no d with
    | out => exact .inl rfl
    | due => exact absurd hd (hs.2.2 d)
    | sent => exact absurd ⟨d, hd⟩ hsent
    | done => exact .inr rfl
    | on st => exact absurd ⟨d, st, hd⟩ hact
  have hroom : ¬s.room1 < r.ncpus := by
    rw [hs.1.room1, not_lt]
    apply Finset.sum_le_sum
    intro d _
    rw [← (htold d).member]
    rcases hdone d with hd | hd <;> rw [hd] <;> exact le_rfl
  have ha : a = none := by
    have hfit := (h.fits_holder hh c).act
    rw [hc] at hfit
    rcases hdone c with hd | hd <;> rw [hd] at hfit <;> exact hfit
  subst ha
  have hstep : smpRendezvousCpus s c (.collect r) = .ok (s.setCpu c (.unlock r) none) := by
    simp only [smpRendezvousCpus, if_neg hroom]
  exact .caller hc hstep rfl rfl rfl rfl (Nat.lt_succ_self 1)

theorem Inv.send_advances (h : Inv s parts) (hc : s.cpu c = ⟨.sendIpi r ps, none⟩) :
    Advances s c r := by
  cases ps with
  | nil => exact .caller hc rfl rfl rfl rfl rfl (Nat.lt_succ_self 19)
  | cons p ps =>
    by_cases hp : r.cpus p ∧ p ≠ c
    · have hb : (s.cpu c).base = .sendIpi r (p :: ps) := congrArg Cpu.base hc
      have hh : (s.cpu c).base.holds = some r := by rw [hb]; rfl
      have hs : Session s c (parts r.no) (.sendIpi r (p :: ps)) := hb ▸ h.session c r hh
      have hfit := h.fits_holder hh p
      have hload : load (s.cpu p) (s.pendingIpis p) = 0 := by
        rcases hs.2.rest p mem_cons_self hp.2 with hx | hx <;> rw [hx] at hfit <;>
          rw [load, hfit.act, hfit.tryst] <;> rfl
      have hact : (s.cpu p).act = none := by
        rcases hs.2.rest p mem_cons_self hp.2 with hx | hx <;> rw [hx] at hfit <;>
          exact hfit.act
      have hstep : smpRendezvousCpus s c (.sendIpi r (p :: ps)) =
          .ok ((s.setIpis p { s.pendingIpis p with tryst := true }).setCpu c
            (.setSip r p ps) none) := by
        simp only [smpRendezvousCpus, if_pos hp]
      refine ⟨_, run_step ((exec_base hc).trans hstep), ?_, ?_⟩
      · rw [setCpu_self]
        rfl
      · refine todo_lt (d := p) rfl ?_ ?_
        · intro e he
          show load (update s.cpu c _ e) (update s.pendingIpis p _ e) = _
          rw [update_of_ne he]
          by_cases hec : e = c
          · subst hec
            rw [update_self, hc]
            rfl
          · rw [update_of_ne hec]
        · rw [setCpu_self, hload, hb]
          show 10 * ps.length + 21 + load (update s.cpu c _ p)
            (update s.pendingIpis p _ p) < 10 * (ps.length + 1) + 20 + 0
          rw [update_of_ne hp.2, update_self, load, hact]
          show 10 * ps.length + 21 + (0 + 7 * 1) < _
          omega
    · have hstep : smpRendezvousCpus s c (.sendIpi r (p :: ps)) =
          .ok (s.setCpu c (.sendIpi r ps) none) := by
        simp only [smpRendezvousCpus, if_neg hp]
      apply Advances.caller hc hstep rfl rfl rfl rfl
      show 10 * ps.length + 20 < 10 * (ps.length + 1) + 20
      omega

theorem Advances.own (hc : s.cpu c = ⟨.own r, none⟩) : Advances s c r := by
  by_cases hm : r.cpus c
  · have hstep : smpRendezvousCpus s c (.own r) =
        .ok (s.setCpu c (.collect r) (some .enter)) := by
      simp only [smpRendezvousCpus, if_pos hm]
    refine ⟨_, run_step ((exec_base hc).trans hstep), ?_, ?_⟩
    · rw [setCpu_self]
      rfl
    · refine todo_lt (d := c) rfl ?_ ?_
      · intro e he
        show load (update s.cpu c _ e) (s.pendingIpis e) = _
        rw [update_of_ne he]
      · rw [setCpu_self, hc]
        show 2 + (6 + 7 * (s.pendingIpis c).tryst.toNat) <
          19 + (0 + 7 * (s.pendingIpis c).tryst.toNat)
        omega
  · have hstep : smpRendezvousCpus s c (.own r) = .ok (s.setCpu c (.collect r) none) := by
      simp only [smpRendezvousCpus, if_neg hm]
    apply Advances.caller hc hstep rfl rfl rfl rfl
    show 2 < 19
    omega

theorem Inv.caller_act (h : Inv s parts) (hc : s.cpu c = ⟨b, a⟩) (hh : b.holds = some r)
    (hp : parts r.no c = .out ∨ parts r.no c = .due ∨ parts r.no c = .done) : a = none := by
  have hh' : (s.cpu c).base.holds = some r := by rw [hc]; exact hh
  have hfit := (h.fits_holder hh' c).act
  rw [hc] at hfit
  rcases hp with hp | hp | hp <;> rw [hp] at hfit <;> exact hfit

theorem Inv.advances (h : Inv s parts) (hh : (s.cpu c).base.holds = some r) :
    Advances s c r ∨
      ∃ t, Lib.Run Next Online s t ∧ .returned r.no ∈ t.log ∧ t.lock = none := by
  have hs := h.session c r hh
  cases hc : s.cpu c with
  | mk b a =>
    rw [hc] at hh hs
    have hunsent (hu : Unsent (parts r.no)) : a = none := by
      apply h.caller_act hc hh
      rcases hu c with hx | hx
      · exact .inl hx
      · exact .inr (.inl hx)
    have hsending {ps : List (Fin n)} (hu : Sending (parts r.no) c ps) : a = none := by
      apply h.caller_act hc hh
      rcases hu.caller with hx | hx
      · exact .inl hx
      · exact .inr (.inl hx)
    cases b with
    | idle | software | trylock _ | poll _ => cases hh
    | setFunc =>
      cases hh
      obtain rfl := hunsent hs
      exact .inl (.caller hc rfl rfl rfl rfl rfl (Nat.lt_succ_self _))
    | setArg | setNcpus | clearLeft | clearEntered =>
      cases hh
      obtain rfl := hunsent hs.1
      exact .inl (.caller hc rfl rfl rfl rfl rfl (Nat.lt_succ_self _))
    | sendIpi =>
      cases hh
      obtain rfl := hsending hs.2
      exact .inl (h.send_advances hc)
    | setSip =>
      cases hh
      obtain rfl := hsending hs.2
      exact .inl (.caller hc rfl rfl rfl rfl rfl (Nat.lt_succ_self _))
    | own =>
      cases hh
      obtain rfl := hsending hs.2
      exact .inl (.own hc)
    | collect =>
      cases hh
      exact .inl (h.collect_advances hc)
    | unlock r =>
      cases hh
      have ha : a = none := by
        apply h.caller_act hc rfl
        rcases hs.2 c with hx | hx
        · exact .inl hx
        · exact .inr (.inr hx)
      subst ha
      have hlock := h.booked.held c r (by rw [hc]; rfl)
      have hstep : smpRendezvousCpus s c (.unlock r) =
          .ok ({ s with lock := none }.setCpu c .idle none |>.note (.returned r.no)) := by
        simp only [smpRendezvousCpus, hlock]
      exact .inr ⟨_, run_step ((exec_base hc).trans hstep), mem_cons_self, rfl⟩

theorem Inv.completes (h : Inv s parts) (hh : (s.cpu c).base.holds = some r) :
    ∃ t, Lib.Run Next Online s t ∧ .returned r.no ∈ t.log ∧ t.lock = none := by
  induction hm : s.todo c using Nat.strongRecOn generalizing s parts with
  | ind m ih =>
    rcases h.advances hh with ⟨t, hrun, hht, hlt⟩ | hx
    · obtain ⟨parts', ht⟩ := run_inv hrun ⟨parts, h⟩
      obtain ⟨u, hrun', hu⟩ := ih (t.todo c) (hm ▸ hlt) ht hht rfl
      exact ⟨u, hrun.trans hrun', hu⟩
    · exact hx

theorem ipiHandler_calls : (ipiHandler s c b).calls = s.calls := by
  unfold ipiHandler
  split <;> rfl

theorem ipiHandler_lock : (ipiHandler s c b).lock = s.lock := by
  unfold ipiHandler
  split <;> rfl

theorem smpRendezvousAction_calls (h : smpRendezvousAction s c b st = .ok t) :
    t.calls = s.calls := by
  cases st with
  | gather | loadFunc =>
    simp only [smpRendezvousAction] at h
    split at h <;> cases h <;> rfl
  | _ =>
    cases h
    rfl

theorem smpRendezvousCpus_calls (h : smpRendezvousCpus s c b = .ok t) : t.calls = s.calls := by
  cases b with
  | idle => cases h
  | software | poll _ =>
    cases h
    exact ipiHandler_calls
  | trylock _ | own _ | collect _ | unlock _ =>
    simp only [smpRendezvousCpus] at h
    split at h <;> cases h <;> rfl
  | sendIpi r ps =>
    cases ps with
    | nil =>
      cases h
      rfl
    | cons =>
      simp only [smpRendezvousCpus] at h
      split at h <;> cases h <;> rfl
  | _ =>
    cases h
    rfl

theorem step_calls (h : Next s a t) (hr : r ∈ s.calls) : r ∈ t.calls := by
  cases a with
  | call =>
    simp only [Next, exec] at h
    split at h
    · split at h
      · cases h
      · cases h
        exact mem_append_left _ hr
    · cases h
  | intr =>
    simp only [Next, exec] at h
    split at h
    · split at h <;> cases h
      exact hr
    · cases h
  | notify =>
    cases h
    exact hr
  | step =>
    simp only [Next, exec] at h
    split at h
    · rw [smpRendezvousAction_calls h]
      exact hr
    · rw [smpRendezvousCpus_calls h]
      exact hr

theorem run_calls (h : Lib.Run Next Online s t) (hr : r ∈ s.calls) : r ∈ t.calls :=
  h.invariant (fun s => r ∈ s.calls) hr fun hr _ hst => step_calls hst hr

theorem Inv.trylock_completes (h : Inv s parts) (hl : s.lock = none)
    (hc : s.cpu c = ⟨.trylock r, none⟩) :
    ∃ t, Lib.Run Next Online s t ∧ .returned r.no ∈ t.log := by
  have hstep : smpRendezvousCpus s c (.trylock r) =
      .ok ({ s with lock := some r.no }.setCpu c (.setFunc r) none) := by
    simp only [smpRendezvousCpus, hl]
  have hrun := run_step ((exec_base hc).trans hstep)
  obtain ⟨parts', hinv⟩ := run_inv hrun ⟨parts, h⟩
  obtain ⟨t, hrun', hret, -⟩ := hinv.completes (c := c) (r := r) (by rw [setCpu_self]; rfl)
  exact ⟨t, hrun.trans hrun', hret⟩

theorem Inv.waiter_completes (h : Inv s parts) (hl : s.lock = none)
    (hc : (s.cpu c).base.call = some r) :
    ∃ t, Lib.Run Next Online s t ∧ .returned r.no ∈ t.log := by
  have hfit := h.fits c
  have hfree := h.booked.not_held hl c
  simp only [current, hl] at hfit
  cases hk : s.cpu c with
  | mk b a =>
    rw [hk] at hc hfree hfit
    obtain rfl : a = none := hfit.act
    cases b with
    | idle | software => cases hc
    | trylock =>
      cases hc
      exact h.trylock_completes hl hk
    | poll =>
      cases hc
      have hrun := run_step (exec_base hk)
      obtain ⟨parts', hinv⟩ := run_inv hrun ⟨parts, h⟩
      have hcpu : (ipiHandler s c (.trylock r)).cpu c = ⟨.trylock r, none⟩ := by
        rw [ipiHandler, hfit.tryst]
        exact setCpu_self
      obtain ⟨t, hrun', hret⟩ := hinv.trylock_completes (ipiHandler_lock.trans hl) hcpu
      exact ⟨t, hrun.trans hrun', hret⟩
    | setFunc _ | setArg _ | setNcpus _ | clearLeft _ | clearEntered _ | sendIpi _ _
    | setSip _ _ _ | own _ | collect _ | unlock _ => cases hfree

theorem Inv.call_completes (h : Inv s parts) (hr : r ∈ s.calls) :
    ∃ t, Lib.Run Next Online s t ∧ .returned r.no ∈ t.log := by
  have hwait {u : State n φ α} {parts' : Nat → Fin n → Part φ} (hu : Inv u parts')
      (hl : u.lock = none) (hr : r ∈ u.calls) :
      ∃ t, Lib.Run Next Online u t ∧ .returned r.no ∈ t.log := by
    rcases hu.booked.pending r hr with hret | hcall
    · exact ⟨u, .refl u, hret⟩
    · exact hu.waiter_completes hl hcall
  cases hl : s.lock with
  | none => exact hwait h hl hr
  | some i =>
    obtain ⟨c, r', hh, -⟩ := h.booked.holder i hl
    obtain ⟨u, hrun, -, hu⟩ := h.completes hh
    obtain ⟨parts', hinv⟩ := run_inv hrun ⟨parts, h⟩
    obtain ⟨t, hrun', hret⟩ := hwait hinv hu (run_calls hrun hr)
    exact ⟨t, hrun.trans hrun', hret⟩

/-- The log of an exactly-once barrier: each CPU of the mask of the call number `i` starts its
function with its argument once, and no other CPU does; all of them have entered before the
first one starts, and all of them have finished before the call returns. -/
structure Barrier (log : List (Event n φ α)) (i : Nat) (r : Call n φ α) : Prop where
  at_most_once : ∀ c, starts log c i ≤ (r.cpus c).toNat
  once : .returned i ∈ log → ∀ c, starts log c i = (r.cpus c).toNat
  values : ∀ c fn arg, .started c i fn arg ∈ log → fn = r.fn ∧ arg = some r.arg
  gathered : ∀ l l' c fn arg, log = l ++ .started c i fn arg :: l' →
    ∀ d, r.cpus d → .entered d (some i) ∈ l'
  finished : ∀ l l', log = l ++ .returned i :: l' → ∀ d, r.cpus d → .finished d i ∈ l'

theorem Tells.starts_le (h : Tells log r c p) : starts log c r.no ≤ (r.cpus c).toNat := by
  rw [h.started, ← h.member]
  cases p with
  | out => exact le_rfl
  | _ => exact Bool.toNat_le _

theorem Inv.barrier (h : Inv s parts) (hr : r ∈ s.calls) : Barrier s.log r.no r where
  at_most_once := fun c => (h.told r hr c).starts_le
  once := by
    intro hret c
    rw [(h.told r hr c).started, ← (h.told r hr c).member]
    rcases h.ended r hr hret c with hp | hp <;> rw [hp] <;> rfl
  values := fun c => (h.told r hr c).values
  gathered := by
    intro l l' c fn arg hlog
    have hgrown := h.ordered
    rw [hlog] at hgrown
    exact hgrown.past r hr rfl
  finished := by
    intro l l' hlog
    have hgrown := h.ordered
    rw [hlog] at hgrown
    exact hgrown.past r hr rfl

/-- Every call of smp_rendezvous_cpus is an exactly-once barrier, in every run, and can be
completed from every state of it. -/
theorem smp_rendezvous_exactly_once {pcpuAll : List (Fin n)} (hnodup : pcpuAll.Nodup)
    (h : Lib.Run Next Online (boot φ α pcpuAll) s) (hr : s.calls[i]? = some r) :
    Barrier s.log i r ∧ ∃ t, Lib.Run Next Online s t ∧ .returned i ∈ t.log := by
  obtain ⟨parts, hinv⟩ := run_inv h ⟨_, boot_inv hnodup⟩
  have hmem : r ∈ s.calls := mem_of_getElem? hr
  have hno := hinv.booked.numbered i r hr
  subst hno
  exact ⟨hinv.barrier hmem, hinv.call_completes hmem⟩

theorem smp_rendezvous_exactly_once_crossed :
    ∃ (s : State 2 Nat Nat) (r : Call 2 Nat Nat),
      Lib.Run Next Online (boot Nat Nat [0, 1]) s ∧ s.calls[1]? = some r ∧
        .returned 0 ∈ s.log ∧ .returned 1 ∈ s.log ∧ Barrier s.log 1 r ∧
        ∃ t, Lib.Run Next Online s t ∧ .returned 1 ∈ t.log := by
  obtain ⟨s, hrun, hlen, h0, h1⟩ := Lib.Run.of_guarded exec Online (boot Nat Nat [0, 1])
    (flatten [[.call 0 (fun _ => true) 7 1, .call 1 (fun c => c = 0) 8 2, .step 0, .step 1],
      replicate 7 (.step 0), [.step 1], replicate 3 (.step 0), [.step 1],
      replicate 6 (.step 0), replicate 5 (.step 1), replicate 2 (.step 0),
      replicate 9 (.step 1), [.intr 0], replicate 7 (.step 0),
      replicate 4 (.step 1)])
    (fun s : State 2 Nat Nat => s.calls.length = 2 ∧ .returned 0 ∈ s.log ∧ .returned 1 ∈ s.log)
    (by decide +kernel)
  have hr : s.calls[1]? = some (s.calls.get ⟨1, by omega⟩) := getElem?_eq_getElem _
  exact ⟨s, _, hrun, hr, h0, h1, smp_rendezvous_exactly_once (by decide) hrun hr⟩

end Mdepx.Smp
