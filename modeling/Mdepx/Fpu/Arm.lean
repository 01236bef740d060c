import Mdepx.Sched.Current
import Mdepx.Lib.Context

namespace Mdepx.Vfp
open Lib Sched Function

/-! `arm_exception` with `MDX_ARM_VFP`, over the scheduler with one CPU. -/

structure VfpState where
  reg : Fin 32 → UInt32
  fpscr : UInt32

structure Machine where
  kernel : Kernel 1
  regs : VfpState
  access : Bool
  pcbVfp : Nat → VfpState
  /-- `PCB_FLAGS_FPU`. -/
  fpu : Nat → Bool
  fpuWasEnabled : Bool
  /-- The registers a thread had at its last exception. -/
  left : Nat → VfpState

/-- An interrupt, the `svc` of `md_thread_yield`, or the fault of an FPU instruction without
access. -/
inductive Exc where
  | irq | svc | nocp
deriving DecidableEq

inductive Act where
  | compute (regs : VfpState)
  | exception (exc : Exc)
  | nested
  | sched (a : Sched.Act 1)

inductive Stop where
  | sched (s : Sched.Stop) | nocp | hardfault

/-- Only the access bits: the automatic saving of the context is always switched off. -/
def vfpControl (m : Machine) (enable : Bool) : Machine := { m with access := enable }

def handleException (m : Machine) (t : Nat) : Exc → Except Stop Machine
  | .nocp =>
    if m.access then .error .nocp
    else if m.fpu t then .error .hardfault
    else .ok { vfpControl m true with fpu := update m.fpu t true }
  | _ => .ok m

def fpuCheckAndSave (m : Machine) (t : Nat) : Machine × Bool :=
  if m.fpu t then
    (if savable (m.kernel.td t).state then
      { m with pcbVfp := update m.pcbVfp t m.regs }
    else m, true)
  else (m, false)

def restoreFpu (m : Machine) (t : Nat) (fpuWasEnabled : Bool) : Machine :=
  if m.fpu t then
    let m := if fpuWasEnabled = false then vfpControl m true else m
    { m with regs := m.pcbVfp t }
  else if fpuWasEnabled = true then vfpControl m false
  else m

def ack (k : Kernel 1) : Exc → Exec 1
  | .irq => trap k 0 true
  | .svc => trap k 0 false
  | .nocp => fault k 0

def enter (m : Machine) (exc : Exc) : Except Stop Machine :=
  match m.kernel.cpu 0 with
  | ⟨.thread t, none⟩ => do
    let k ← (ack m.kernel exc).mapError .sched
    let m' ← handleException { m with kernel := k } t exc
    return { m' with left := update m.left t m.regs }
  | _ => .error (.sched .busy)

def pick (m : Machine) : Except Stop Machine :=
  match m.kernel.cpu 0 with
  | ⟨.handler t true _, none⟩ => do
    let r := fpuCheckAndSave m t
    let k ← (Sched.pick r.1.kernel 0).mapError .sched
    return { r.1 with
      kernel := k
      fpuWasEnabled := r.2 }
  | _ => .error (.sched .busy)

def switch (m : Machine) : Except Stop Machine :=
  match m.kernel.cpu 0 with
  | ⟨.chosen t, none⟩ => do
    let k ← (Sched.switch m.kernel 0).mapError .sched
    return restoreFpu { m with kernel := k } t m.fpuWasEnabled
  | _ => .error (.sched .busy)

def exec (m : Machine) : Act → Except Stop Machine
  | .compute regs =>
    match (m.kernel.cpu 0).ctx with
    | .thread _ => if m.access then .ok { m with regs := regs } else .error .nocp
    | _ => .error (.sched .busy)
  | .exception exc => enter m exc
  | .nested =>
    match (m.kernel.cpu 0).ctx with
    | .thread t => handleException m t .nocp
    | _ => .error (.sched .busy)
  | .sched (.trap ..) => .error (.sched .busy)
  | .sched (.pick _) => pick m
  | .sched (.switch _) => switch m
  | .sched a => ((Sched.exec m.kernel a).mapError .sched).map fun k => { m with kernel := k }

def Next (m : Machine) (a : Act) (m' : Machine) : Prop := exec m a = .ok m'

def boot (nprio : Nat) (usecToTicks : Nat → Nat) (count : Nat → Int) (regs : VfpState) :
    Machine where
  kernel := Sched.boot 1 nprio usecToTicks count
  regs := regs
  access := false
  pcbVfp _ := ⟨fun _ => 0, 0⟩
  fpu _ := false
  fpuWasEnabled := false
  left _ := ⟨fun _ => 0, 0⟩

/-- A thread that the CPU goes on with or switches to finds the registers it left. -/
def Resumes (m m' : Machine) : Prop :=
  ∀ t, (m.kernel.cpu 0).ctx ≠ .thread t → (m'.kernel.cpu 0).ctx = .thread t → m'.fpu t = true →
    m'.regs = m'.left t

/-- The thread on the CPU has access to the FPU if and only if it uses it. -/
def Accesses (m : Machine) : Prop :=
  ∀ t, (m.kernel.cpu 0).ctx = .thread t → (m.access = true ↔ m.fpu t = true)

/-- No thread that uses the FPU leaves the CPU to sleep or to wait, nor does it begin to use it
in the exception in which it leaves. -/
def Stays (m : Machine) : Act → Prop
  | .exception exc => ∀ t ∈ (m.kernel.cpu 0).td,
    (m.kernel.td t).state = .semWait ∨ (m.kernel.td t).state = .sleeping →
      m.fpu t = false ∧ exc ≠ .nocp
  | _ => True

instance (m : Machine) : (a : Act) → Decidable (Stays m a)
  | .exception exc => inferInstanceAs (Decidable (∀ t ∈ (m.kernel.cpu 0).td,
    (m.kernel.td t).state = .semWait ∨ (m.kernel.td t).state = .sleeping →
      m.fpu t = false ∧ exc ≠ .nocp))
  | .compute _ | .nested | .sched _ => isTrue trivial

def owner : Ctx → Option Nat
  | .thread t | .handler t _ _ => some t
  | .chosen _ => none

structure Safe (m : Machine) : Prop where
  placed : ∃ q loc, Settled m.kernel q loc
  access : ∀ t, owner (m.kernel.cpu 0).ctx = some t → m.access = m.fpu t
  chosen : ∀ t, (m.kernel.cpu 0).ctx = .chosen t → m.access = m.fpuWasEnabled
  kept : Kept m.fpu m.kernel.Dead (fun c => owner (m.kernel.cpu c).ctx) m.pcbVfp m.left
  handling : ∀ t r i, (m.kernel.cpu 0).ctx = .handler t r i → m.left t = m.regs ∧
    (r = true → m.fpu t = true → m.kernel.Dead t ∨ (m.kernel.td t).Parked)

section
variable {m m' : Machine} {k k' : Kernel 1}

def handled (m : Machine) (t : Nat) (exc : Exc) : Machine := { m with
  access := if exc = .nocp then true else m.access
  fpu := if exc = .nocp then update m.fpu t true else m.fpu }

theorem handleException_ok (h : handleException m t exc = .ok m') : m' = handled m t exc := by
  cases exc with
  | nocp =>
    simp only [handleException] at h
    split at h
    · cases h
    · split at h
      · cases h
      · cases h
        rfl
  | irq | svc =>
    cases h
    rfl

theorem handled_fpu (hu : u ≠ t) : (handled m t exc).fpu u = m.fpu u := by
  simp only [handled]
  split
  · exact update_of_ne hu _ _
  · rfl

theorem handled_access (h : m.access = m.fpu t) :
    (handled m t exc).access = (handled m t exc).fpu t := by
  simp only [handled]
  split
  · rw [update_self]
  · exact h

theorem enter_ok (h : enter m exc = .ok m') :
    ∃ t k, m.kernel.cpu 0 = ⟨.thread t, none⟩ ∧ ack m.kernel exc = .ok k ∧
      m' = { handled m t exc with
        kernel := k
        left := update m.left t m.regs } := by
  unfold enter at h
  split at h
  · rename_i t hc
    obtain ⟨k, hk, h⟩ := bind_ok_iff.1 h
    obtain ⟨m₁, hm, h⟩ := bind_ok_iff.1 h
    cases h
    rw [handleException_ok hm]
    exact ⟨t, k, hc, mapError_ok hk, rfl⟩
  · cases h

def saved (m : Machine) (t : Nat) : Nat → VfpState :=
  if m.fpu t = true ∧ savable (m.kernel.td t).state = true then
    update m.pcbVfp t m.regs
  else m.pcbVfp

theorem fpuCheckAndSave_eq (m : Machine) (t : Nat) :
    fpuCheckAndSave m t = ({ m with pcbVfp := saved m t }, m.fpu t) := by
  unfold fpuCheckAndSave saved
  cases hf : m.fpu t with
  | false => simp
  | true =>
    cases hs : savable (m.kernel.td t).state with
    | false | true => simp

theorem saved_of_ne (hu : u ≠ t) : saved m t u = m.pcbVfp u := by
  unfold saved
  split
  · exact update_of_ne hu _ _
  · rfl

theorem saved_self (hf : m.fpu t = true) (hs : (m.kernel.td t).Parked) : saved m t t = m.regs := by
  have hsav : savable (m.kernel.td t).state = true := by
    rcases hs with hs | hs
    · rw [hs]
      rfl
    · rw [hs]
      rfl
  unfold saved
  rw [if_pos ⟨hf, hsav⟩, update_self]

theorem pick_ok (h : pick m = .ok m') :
    ∃ t i k, m.kernel.cpu 0 = ⟨.handler t true i, none⟩ ∧ Sched.pick m.kernel 0 = .ok k ∧
      m' = { m with
        kernel := k
        pcbVfp := saved m t
        fpuWasEnabled := m.fpu t } := by
  unfold pick at h
  split at h
  · rename_i t i hc
    rw [fpuCheckAndSave_eq] at h
    obtain ⟨k, hk, h⟩ := bind_ok_iff.1 h
    cases h
    exact ⟨t, i, k, hc, mapError_ok hk, rfl⟩
  · cases h

theorem restoreFpu_eq (h : m.access = was) :
    restoreFpu m t was = { m with
      access := m.fpu t
      regs := if m.fpu t then m.pcbVfp t else m.regs } := by
  unfold restoreFpu vfpControl
  subst h
  cases hf : m.fpu t with
  | true =>
    cases ha : m.access with
    | true => simp [ha]
    | false => simp
  | false =>
    cases ha : m.access with
    | true => simp
    | false =>
      simp only [Bool.false_eq_true, if_false]
      rw [← ha]

theorem switch_ok (h : switch m = .ok m') :
    ∃ t k, m.kernel.cpu 0 = ⟨.chosen t, none⟩ ∧ Sched.switch m.kernel 0 = .ok k ∧
      m' = restoreFpu { m with kernel := k } t m.fpuWasEnabled := by
  unfold switch at h
  split at h
  · rename_i t hc
    obtain ⟨k, hk, h⟩ := bind_ok_iff.1 h
    cases h
    exact ⟨t, k, hc, mapError_ok hk, rfl⟩
  · cases h

theorem ack_acked (hc : k.cpu 0 = ⟨.thread t, none⟩) (h : ack k exc = .ok k') :
    Acked k 0 t k' := by
  cases exc with
  | irq => exact trap_acked hc (show trap k 0 true = .ok k' from h)
  | svc => exact trap_acked hc (show trap k 0 false = .ok k' from h)
  | nocp => exact fault_acked hc h

theorem ack_settled (hp : Settled k q loc) (hc : k.cpu 0 = ⟨.thread t, none⟩)
    (h : ack k exc = .ok k') : ∃ q loc, Settled k' q loc := by
  cases exc with
  | irq => exact hp.calm_step (trap_step (show trap k 0 true = .ok k' from h))
  | svc => exact hp.calm_step (trap_step (show trap k 0 false = .ok k' from h))
  | nocp =>
    obtain ⟨k₁, r, i, hk, hc₁, rfl⟩ := fault_ok h hc
    obtain ⟨q', loc', hp'⟩ := hp.calm_step (trap_step hk)
    exact ⟨q', loc', hp'.setIntr hc₁ false⟩

theorem Resumes.of_ctx
    (h : ∀ t, (m'.kernel.cpu 0).ctx = .thread t → (m.kernel.cpu 0).ctx = .thread t) :
    Resumes m m' := by
  intro t hne hctx
  exact absurd (h t hctx) hne

theorem Safe.kept_of (h : Safe m) (hd : ∀ s, m.kernel.Dead s → k.Dead s)
    (ho : owner (m.kernel.cpu 0).ctx = some t) (ho' : owner (k.cpu 0).ctx = some t)
    {fpu : Nat → Bool} {pcb left : Nat → VfpState} (hf : ∀ s, s ≠ t → fpu s = m.fpu s)
    (hp : ∀ s, s ≠ t → pcb s = m.pcbVfp s) (hl : ∀ s, s ≠ t → left s = m.left s) :
    Kept fpu k.Dead (fun c => owner (k.cpu c).ctx) pcb left := by
  intro s hs hn hoff
  have hst : s ≠ t := by
    rintro rfl
    exact hoff 0 ho'
  rw [hp s hst, hl s hst]
  rw [hf s hst] at hs
  apply h.kept s hs fun hds => hn (hd s hds)
  intro c hc
  rw [Fin.fin_one_eq_zero c] at hc
  exact hst (Option.some.inj (hc.symm.trans ho))

theorem Safe.enter (h : Safe m) (hok : Stays m (.exception exc)) (hx : enter m exc = .ok m') :
    Safe m' ∧ Resumes m m' := by
  obtain ⟨t, k, hc, hk, rfl⟩ := enter_ok hx
  obtain ⟨q, loc, hp⟩ := h.placed
  have hp' := ack_settled hp hc hk
  obtain ⟨hdead, -, r, i, hcpu, hr⟩ := ack_acked hc hk
  have hctx : (k.cpu 0).ctx = .handler t r i := by rw [hcpu, update_self]
  have ho : owner (m.kernel.cpu 0).ctx = some t := by
    rw [hc]
    rfl
  have ho' : owner (k.cpu 0).ctx = some t := by
    rw [hctx]
    rfl
  refine ⟨⟨hp', ?_, ?_, ?_, ?_⟩, Resumes.of_ctx ?_⟩
  · intro u hu
    change owner (k.cpu 0).ctx = some u at hu
    rw [ho', Option.some.injEq] at hu
    subst hu
    exact handled_access (h.access t ho)
  · intro u hu
    change (k.cpu 0).ctx = .chosen u at hu
    rw [hctx] at hu
    cases hu
  · exact h.kept_of hdead ho ho' (fun s hs => handled_fpu hs) (fun _ _ => rfl)
      fun s hs => update_of_ne hs _ _
  · intro u r' j hu
    change (k.cpu 0).ctx = .handler u r' j at hu
    rw [hctx] at hu
    cases hu
    refine ⟨update_self _ _ _, ?_⟩
    intro hrt hf
    rcases hr hrt with hd | hst
    · exact .inl hd
    · obtain ⟨hoff, hne⟩ := hok t (by rw [hc]; rfl) hst
      change (handled m t exc).fpu t = true at hf
      simp only [handled, if_neg hne, hoff] at hf
      cases hf
  · intro u hu
    change (k.cpu 0).ctx = .thread u at hu
    rw [hctx] at hu
    cases hu

theorem Safe.nested (h : Safe m) (hc : (m.kernel.cpu 0).ctx = .thread t)
    (hx : handleException m t .nocp = .ok m') : Safe m' ∧ Resumes m m' := by
  rw [handleException_ok hx]
  have ho : owner (m.kernel.cpu 0).ctx = some t := by
    rw [hc]
    rfl
  refine ⟨⟨h.placed, ?_, ?_, ?_, ?_⟩, Resumes.of_ctx fun _ hu => hu⟩
  · intro u hu
    have htu := Option.some.inj (ho.symm.trans hu)
    subst htu
    exact handled_access (h.access t ho)
  · intro u hu
    have hcu := hc.symm.trans hu
    cases hcu
  · exact h.kept_of (fun _ hd => hd) ho ho (fun s hs => handled_fpu hs) (fun _ _ => rfl)
      fun _ _ => rfl
  · intro u r i hu
    have hcu := hc.symm.trans hu
    cases hcu

theorem Safe.compute (h : Safe m) (hc : (m.kernel.cpu 0).ctx = .thread t) (regs : VfpState) :
    Safe { m with regs := regs } := by
  refine ⟨h.placed, h.access, h.chosen, h.kept, ?_⟩
  intro u r i hu
  have hcu := hc.symm.trans hu
  cases hcu

theorem pick_cpu (hs : Step k (.pick 0) k') :
    ∃ t, k'.cpu = update k.cpu 0 ⟨.chosen t, none⟩ := by
  cases hs with
  | pick => exact ⟨_, rfl⟩

theorem Safe.pick (h : Safe m) (hx : pick m = .ok m') : Safe m' ∧ Resumes m m' := by
  obtain ⟨t, i, k, hc, hk, rfl⟩ := pick_ok hx
  have hs := pick_step hk
  obtain ⟨u, hcpu⟩ := pick_cpu hs
  have hu : (k.cpu 0).ctx = .chosen u := by rw [hcpu, update_self]
  obtain ⟨q, loc, hp⟩ := h.placed
  have ho : owner (m.kernel.cpu 0).ctx = some t := by
    rw [hc]
    rfl
  obtain ⟨hleft, hpark⟩ := h.handling t true i (by rw [hc])
  refine ⟨⟨hp.calm_step hs, ?_, ?_, ?_, ?_⟩, Resumes.of_ctx ?_⟩
  · intro s hso
    change owner (k.cpu 0).ctx = some s at hso
    rw [hu] at hso
    cases hso
  · intro s _
    exact h.access t ho
  · intro s hf hn _
    show saved m t s = m.left s
    by_cases hst : s = t
    · subst hst
      rcases hpark rfl hf with hd | hpk
      · exact absurd (hs.dead hd) hn
      · rw [saved_self (m := m) hf hpk, hleft]
    · rw [saved_of_ne hst]
      apply h.kept s hf fun hd => hn (hs.dead hd)
      intro c hcs
      rw [Fin.fin_one_eq_zero c] at hcs
      exact hst (Option.some.inj (hcs.symm.trans ho))
  · intro s r j hso
    change (k.cpu 0).ctx = .handler s r j at hso
    rw [hu] at hso
    cases hso
  · intro s hso
    change (k.cpu 0).ctx = .thread s at hso
    rw [hu] at hso
    cases hso

theorem switch_cpu (hs : Step k (.switch 0) k') (hc : k.cpu 0 = ⟨.chosen t, none⟩) :
    (k'.cpu 0).ctx = .thread t := by
  cases hs with
  | switch hc' | switchTimed hc' =>
    rw [hc] at hc'
    cases hc'
    simp only [Kernel.setCpu, update_self]

theorem Safe.switch (h : Safe m) (hx : switch m = .ok m') : Safe m' ∧ Resumes m m' := by
  obtain ⟨t, k, hc, hk, rfl⟩ := switch_ok hx
  have hs := switch_step hk
  have hctx := switch_cpu hs hc
  obtain ⟨q, loc, hp⟩ := h.placed
  have hch : (m.kernel.cpu 0).ctx = .chosen t := by rw [hc]
  have hfree (s : Nat) (c : Fin 1) : owner (m.kernel.cpu c).ctx ≠ some s := by
    rw [Fin.fin_one_eq_zero c, hch]
    nofun
  rw [restoreFpu_eq (m := { m with kernel := k }) (h.chosen t hch)]
  refine ⟨⟨hp.calm_step hs, ?_, ?_, ?_, ?_⟩, ?_⟩
  · intro s hso
    change owner (k.cpu 0).ctx = some s at hso
    rw [hctx] at hso
    cases hso
    rfl
  · intro s hso
    change (k.cpu 0).ctx = .chosen s at hso
    rw [hctx] at hso
    cases hso
  · intro s hf hn _
    exact h.kept s hf (fun hd => hn (hs.dead hd)) (hfree s)
  · intro s r j hso
    change (k.cpu 0).ctx = .handler s r j at hso
    rw [hctx] at hso
    cases hso
  · intro s _ hso hf
    change (k.cpu 0).ctx = .thread s at hso
    rw [hctx] at hso
    cases hso
    change m.fpu t = true at hf
    show (if m.fpu t then m.pcbVfp t else m.regs) = m.left t
    rw [if_pos hf]
    exact h.kept t hf (hp.chosen_free hc).1 (hfree t)

theorem Safe.stay (h : Safe m) (hp : ∃ q loc, Settled k q loc)
    (hd : ∀ s, m.kernel.Dead s → k.Dead s) (hc : (m.kernel.cpu 0).ctx = .handler t r i)
    (hctx : (k.cpu 0).ctx = .thread t ∨
      (k.cpu 0).ctx = .handler t true j ∧ (k.td t).Parked) :
    Safe { m with kernel := k } ∧ Resumes m { m with kernel := k } := by
  have hleft := (h.handling t r i hc).1
  have ho : owner (m.kernel.cpu 0).ctx = some t := by
    rw [hc]
    rfl
  have ho' : owner (k.cpu 0).ctx = some t := by
    rcases hctx with hx | ⟨hx, -⟩
    · rw [hx]
      rfl
    · rw [hx]
      rfl
  refine ⟨⟨hp, ?_, ?_, ?_, ?_⟩, ?_⟩
  · intro u hu
    have htu := Option.some.inj (ho'.symm.trans hu)
    subst htu
    exact h.access t ho
  · intro u hu
    rcases hctx with hx | ⟨hx, -⟩
    · have hcu := hx.symm.trans hu
      cases hcu
    · have hcu := hx.symm.trans hu
      cases hcu
  · exact h.kept_of hd ho ho' (fun _ _ => rfl) (fun _ _ => rfl) fun _ _ => rfl
  · intro u r' j' hu
    rcases hctx with hx | ⟨hx, hpk⟩
    · have hcu := hx.symm.trans hu
      cases hcu
    · have hcu := hx.symm.trans hu
      cases hcu
      exact ⟨hleft, fun _ _ => .inr hpk⟩
  · intro u _ hu _
    rcases hctx with hx | ⟨hx, -⟩
    · have hcu := hx.symm.trans hu
      cases hcu
      exact hleft.symm
    · have hcu := hx.symm.trans hu
      cases hcu

theorem Safe.park (h : Safe m) (hs : Step m.kernel (.park c) k) :
    Safe { m with kernel := k } ∧ Resumes m { m with kernel := k } := by
  obtain ⟨q, loc, hp⟩ := h.placed
  have hp' := hp.calm_step hs
  have hdead : ∀ s, m.kernel.Dead s → k.Dead s := fun s => hs.dead
  have hc0 := Fin.fin_one_eq_zero c
  subst hc0
  cases hs with
  | resume hc =>
    apply h.stay (j := false) hp' hdead (by rw [hc])
    left
    simp only [Kernel.setCpu, update_self]
  | requeue hc hst =>
    apply h.stay (j := false) hp' hdead (by rw [hc])
    right
    refine ⟨?_, hst⟩
    simp only [Kernel.setCpu, update_self]

theorem Safe.sched (h : Safe m) (hs : Step m.kernel a k) (ha : a.switches = false) :
    Safe { m with kernel := k } ∧ Resumes m { m with kernel := k } := by
  have hctx := hs.ctx ha
  obtain ⟨q, loc, hp⟩ := h.placed
  refine ⟨⟨hp.calm_step hs, ?_, ?_, ?_, ?_⟩, Resumes.of_ctx ?_⟩
  · intro t ht
    rw [hctx 0] at ht
    exact h.access t ht
  · intro t ht
    rw [hctx 0] at ht
    exact h.chosen t ht
  · apply h.kept.mono fun s => hs.dead
    intro c t ht
    refine ⟨c, ?_⟩
    rw [hctx c]
    exact ht
  · intro t r i ht
    rw [hctx 0] at ht
    obtain ⟨hl, hpk⟩ := h.handling t r i ht
    refine ⟨hl, ?_⟩
    intro hr hf
    rcases hpk hr hf with hd | hpk
    · exact .inl (hs.dead hd)
    · refine .inr (hs.parked ha hpk ?_)
      intro c hc
      rw [Fin.fin_one_eq_zero c, ht] at hc
      cases hc
  · intro t ht
    rw [hctx 0] at ht
    exact ht

theorem Safe.step (h : Safe m) (hok : Stays m a) (hx : Next m a m') : Safe m' ∧ Resumes m m' := by
  have hother {b : Sched.Act 1} (hb : b.switches = false)
      (hx : ((Sched.exec m.kernel b).mapError Stop.sched).map
        (fun k => { m with kernel := k }) = .ok m') : Safe m' ∧ Resumes m m' := by
    obtain ⟨k, hk, rfl⟩ := map_ok hx
    exact h.sched (exec_step (mapError_ok hk)) hb
  cases a with
  | compute regs =>
    simp only [Next, exec] at hx
    split at hx
    · rename_i t hc
      split at hx
      · cases hx
        exact ⟨h.compute hc regs, Resumes.of_ctx fun _ hu => hu⟩
      · cases hx
    · cases hx
  | exception => exact h.enter hok hx
  | nested =>
    simp only [Next, exec] at hx
    split at hx
    · rename_i t hc
      exact h.nested hc hx
    · cases hx
  | sched b =>
    cases b with
    | trap => cases hx
    | pick => exact h.pick hx
    | switch => exact h.switch hx
    | park =>
      obtain ⟨k, hk, rfl⟩ := map_ok hx
      exact h.park (park_step (mapError_ok hk))
    | _ => exact hother rfl hx

theorem boot_safe (nprio : Nat) (usecToTicks : Nat → Nat) (count : Nat → Int)
    (regs : VfpState) : Safe (boot nprio usecToTicks count regs) := by
  refine ⟨?_, fun _ _ => rfl, fun _ _ => rfl, ?_, ?_⟩
  · exact ⟨_, _, boot_settled 1 nprio usecToTicks count⟩
  · intro t ht
    cases ht
  · intro t r i hc
    cases hc

/-- As long as no thread that uses the FPU leaves the CPU to sleep or to wait, every such thread
resumes with the registers it left, and the thread on the CPU has access if and only if it uses the
FPU. -/
theorem fpu_context_survives
    (h : Run Next Stays (boot nprio usecToTicks count regs) m) :
    Accesses m ∧ ∀ a m', Stays m a → Next m a m' → Resumes m m' := by
  have hsafe : Safe m := h.invariant Safe (boot_safe nprio usecToTicks count regs)
    fun hs hok hx => (hs.step hok hx).1
  constructor
  · intro t ht
    rw [hsafe.access t (by rw [ht]; rfl)]
  · intro a m' hok hx
    exact (hsafe.step hok hx).2

theorem restoreFpu_kernel (m : Machine) (t : Nat) (was : Bool) :
    (restoreFpu m t was).kernel = m.kernel ∧ (restoreFpu m t was).fpu = m.fpu ∧
      (restoreFpu m t was).left = m.left := by
  unfold restoreFpu vfpControl
  split
  · split
    · exact ⟨rfl, rfl, rfl⟩
    · exact ⟨rfl, rfl, rfl⟩
  · split
    · exact ⟨rfl, rfl, rfl⟩
    · exact ⟨rfl, rfl, rfl⟩

theorem restoreFpu_regs (hf : m.fpu t = true) : (restoreFpu m t was).regs = m.pcbVfp t := by
  unfold restoreFpu vfpControl
  rw [if_pos hf]
  split
  · rfl
  · rfl

theorem switch_next (hc : m.kernel.cpu 0 = ⟨.chosen t, none⟩) (hq : (m.kernel.td t).quantum = 0)
    (hf : m.fpu t = true) :
    ∃ m', Next m (.sched (.switch 0)) m' ∧ (m'.kernel.cpu 0).ctx = .thread t ∧
      m'.fpu t = true ∧ m'.left = m.left ∧ m'.regs = m.pcbVfp t := by
  have hq' : (m.kernel.td t).picked.quantum = 0 := hq
  have hx : Next m (.sched (.switch 0)) (restoreFpu { m with
      kernel := (m.kernel.setTd t (m.kernel.td t).picked).setCpu 0 ⟨.thread t, none⟩ } t
        m.fpuWasEnabled) := by
    simp only [Next, exec, switch, Sched.switch, hc, mdxSchedNextSwitch, hq']
    rfl
  obtain ⟨hk, hfpu, hleft⟩ := restoreFpu_kernel { m with
    kernel := (m.kernel.setTd t (m.kernel.td t).picked).setCpu 0 ⟨.thread t, none⟩ } t
      m.fpuWasEnabled
  refine ⟨_, hx, ?_, (congrFun hfpu t).trans hf, hleft, restoreFpu_regs hf⟩
  rw [hk]
  simp only [Kernel.setCpu, update_self]

theorem fpu_context_survives_yield :
    ∃ m m', Run Next Stays (boot 2 id (fun _ => 0) ⟨fun _ => 0, 0⟩) m ∧
      Next m (.sched (.switch 0)) m' ∧ (m'.kernel.cpu 0).ctx = .thread 1 ∧
      m'.regs.reg 0 = 7 := by
  obtain ⟨m, hrun, hc, hq, hf, hl⟩ := Run.of_guarded exec Stays
    (boot 2 id (fun _ => 0) ⟨fun _ => 0, 0⟩)
    [.sched (.create 0 1 1 0), .sched (.create 0 2 1 0), .sched (.enter 0), .exception .svc,
      .sched (.park 0), .sched (.pick 0), .sched (.switch 0),
      .exception .nocp, .sched (.park 0), .compute ⟨fun _ => 7, 0⟩, .sched (.yield 0),
      .exception .svc, .sched (.park 0), .sched (.pick 0), .sched (.switch 0),
      .exception .nocp, .sched (.park 0), .compute ⟨fun _ => 9, 0⟩, .sched (.yield 0),
      .exception .svc, .sched (.park 0), .sched (.pick 0)]
    (fun m => m.kernel.cpu 0 = ⟨.chosen 1, none⟩ ∧ (m.kernel.td 1).quantum = 0 ∧
      m.fpu 1 = true ∧ (m.left 1).reg 0 = 7) (by decide +kernel)
  obtain ⟨m', hx, hctx, hf', hleft, -⟩ := switch_next hc hq hf
  have hok : Stays m (.sched (.switch 0)) := trivial
  refine ⟨m, m', hrun, hx, hctx, ?_⟩
  rw [(fpu_context_survives hrun).2 _ m' hok hx 1 (by rw [hc]; simp) hctx hf', hleft]
  exact hl

/-- A thread that uses the FPU sleeps: `mdx_sched_ack` has changed its state before
`fpu_check_and_save` looks at it, so that nothing is saved, and it resumes with zeroes. -/
theorem fpu_context_lost_asleep :
    ∃ m m', Run Next (fun _ _ => True) (boot 2 id (fun _ => 0) ⟨fun _ => 0, 0⟩) m ∧
      Next m (.sched (.switch 0)) m' ∧ ¬Resumes m m' := by
  obtain ⟨m, hrun, hc, hq, hf, hl, hp⟩ := Run.of_guarded exec (fun _ _ => True)
    (boot 2 id (fun _ => 0) ⟨fun _ => 0, 0⟩)
    [.sched (.create 0 1 1 0), .sched (.enter 0), .exception .svc, .sched (.park 0),
      .sched (.pick 0), .sched (.switch 0), .exception .nocp, .sched (.park 0),
      .compute ⟨fun _ => 7, 0⟩, .sched (.tsleep 0 5), .exception .svc, .sched (.pick 0),
      .sched (.switch 0), .exception .irq, .sched (.fireSleep 0 1), .sched (.park 0),
      .sched (.pick 0)]
    (fun m => m.kernel.cpu 0 = ⟨.chosen 1, none⟩ ∧ (m.kernel.td 1).quantum = 0 ∧
      m.fpu 1 = true ∧ (m.left 1).reg 0 = 7 ∧ (m.pcbVfp 1).reg 0 = 0) (by decide +kernel)
  obtain ⟨m', hx, hctx, hf', hleft, hregs⟩ := switch_next hc hq hf
  refine ⟨m, m', hrun, hx, ?_⟩
  intro hres
  have he := hres 1 (by rw [hc]; simp) hctx hf'
  rw [hleft, hregs] at he
  have h7 : (m.pcbVfp 1).reg 0 = (m.left 1).reg 0 := congrArg (fun s => s.reg 0) he
  rw [hl, hp] at h7
  cases h7

end
end Mdepx.Vfp
