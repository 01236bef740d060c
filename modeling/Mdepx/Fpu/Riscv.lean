import Mdepx.Sched.Current
import Mdepx.Lib.Context

namespace Mdepx.Fpe
open Lib Sched Function

/-! `riscv_exception` with `MDX_RISCV_FPE`, over the scheduler. -/

structure Regs where
  f : Fin 32 → UInt64
  fcsr : UInt64

def Regs.clear : Regs := ⟨fun _ => 0, 0⟩

structure Machine (n : Nat) where
  kernel : Kernel n
  regs : Fin n → Regs
  /-- `pcb_x` and `pcb_fcsr`. -/
  pcbX : Nat → Regs
  /-- `PCB_FLAGS_FPE_ENABLED`. -/
  enabled : Nat → Bool
  fpeSaved : Fin n → Bool
  /-- The CPU is between its second `fpe_check_and_save` and `mdx_sched_park`. -/
  checked : Fin n → Bool
  /-- The registers a thread had at its last exception. -/
  left : Nat → Regs
  /-- Whether that was its first use of the FPU. -/
  first : Nat → Bool

inductive Exc where
  | intr | ecall | illegal
deriving DecidableEq

inductive Act (n : Nat) where
  | compute (c : Fin n) (regs : Regs)
  | exception (c : Fin n) (exc : Exc)
  /-- The second `fpe_check_and_save`, if the thread has not been released. -/
  | check (c : Fin n)
  | sched (a : Sched.Act n)

inductive Stop where
  | sched (s : Sched.Stop) | illegalInstruction

def fpeCheckAndSave (m : Machine n) (c : Fin n) (t : Nat) : Machine n × Bool :=
  if savable (m.kernel.td t).state then
    (if m.enabled t then { m with pcbX := update m.pcbX t (m.regs c) } else m, true)
  else (m, false)

def handleException (m : Machine n) (c : Fin n) (t : Nat) : Exc → Except Stop (Machine n)
  | .illegal =>
    if m.enabled t then .error .illegalInstruction
    else .ok { m with
      regs := update m.regs c .clear
      enabled := update m.enabled t true }
  | _ => .ok m

def ack (k : Kernel n) (c : Fin n) : Exc → Exec n
  | .intr => trap k c true
  | .ecall => trap k c false
  | .illegal => fault k c

def enter (m : Machine n) (c : Fin n) (exc : Exc) : Except Stop (Machine n) :=
  match m.kernel.cpu c with
  | ⟨.thread t, none⟩ => do
    let r := fpeCheckAndSave m c t
    let m' ← handleException r.1 c t exc
    let k ← (ack m'.kernel c exc).mapError .sched
    return { m' with
      kernel := k
      fpeSaved := update m.fpeSaved c r.2
      checked := update m.checked c false
      left := update m.left t (m.regs c)
      first := update m.first t (decide (exc = .illegal)) }
  | _ => .error (.sched .busy)

def check (m : Machine n) (c : Fin n) : Except Stop (Machine n) :=
  match m.kernel.cpu c with
  | ⟨.handler t false _, none⟩ =>
    if m.checked c then .error (.sched .busy)
    else
      let m := if m.fpeSaved c then m else (fpeCheckAndSave m c t).1
      .ok { m with checked := update m.checked c true }
  | _ => .error (.sched .busy)

def park (m : Machine n) (c : Fin n) : Except Stop (Machine n) :=
  if m.checked c then do
    let k ← (Sched.park m.kernel c).mapError .sched
    return { m with kernel := k, checked := update m.checked c false }
  else .error (.sched .busy)

def switch (m : Machine n) (c : Fin n) : Except Stop (Machine n) :=
  match m.kernel.cpu c with
  | ⟨.chosen t, none⟩ => do
    let k ← (Sched.switch m.kernel c).mapError .sched
    return { m with
      kernel := k
      regs := if m.enabled t then update m.regs c (m.pcbX t) else m.regs }
  | _ => .error (.sched .busy)

def exec (m : Machine n) : Act n → Except Stop (Machine n)
  | .compute c regs =>
    match (m.kernel.cpu c).ctx with
    | .thread t =>
      if m.enabled t then .ok { m with regs := update m.regs c regs }
      else .error .illegalInstruction
    | _ => .error (.sched .busy)
  | .exception c exc => enter m c exc
  | .check c => check m c
  | .sched (.trap ..) => .error (.sched .busy)
  | .sched (.park c) => park m c
  | .sched (.switch c) => switch m c
  | .sched a =>
    if m.checked a.cpu then .error (.sched .busy)
    else ((Sched.exec m.kernel a).mapError .sched).map fun k => { m with kernel := k }

def Next (m : Machine n) (a : Act n) (m' : Machine n) : Prop := exec m a = .ok m'

def boot (nprio : Nat) (usecToTicks : Nat → Nat) (count : Nat → Int) (regs : Fin n → Regs) :
    Machine n where
  kernel := Sched.boot n nprio usecToTicks count
  regs := regs
  pcbX _ := .clear
  enabled _ := false
  fpeSaved _ := false
  checked _ := false
  left _ := .clear
  first _ := false

/-- What a thread is owed when it goes on: the registers of its last exception, or cleared ones
if that was its first use of the FPU. -/
def Machine.owed (m : Machine n) (t : Nat) : Regs := if m.first t then .clear else m.left t

/-- A thread that a CPU goes on with or switches to finds the registers it is owed. -/
def Resumes (m m' : Machine n) : Prop :=
  ∀ c t, (m.kernel.cpu c).ctx ≠ .thread t → (m'.kernel.cpu c).ctx = .thread t →
    m'.enabled t = true → m'.regs c = m'.owed t

def YieldsFree (m : Machine n) : Act n → Prop
  | .sched a => Sched.YieldsFree m.kernel a
  | _ => True

instance (m : Machine n) : (a : Act n) → Decidable (YieldsFree m a)
  | .sched a => inferInstanceAs (Decidable (Sched.YieldsFree m.kernel a))
  | .compute .. | .exception .. | .check .. => isTrue trivial

structure Safe (m : Machine n) : Prop where
  placed : ∃ q loc, Placed m.kernel q loc
  fresh : ∀ t, m.enabled t = false → m.pcbX t = .clear
  kept : Kept m.enabled m.kernel.Dead m.kernel.current m.pcbX m.owed
  handling : ∀ c t i, (m.kernel.cpu c).ctx = .handler t false i → m.enabled t = true →
    m.regs c = m.owed t ∧ (m.fpeSaved c = true → m.pcbX t = m.owed t) ∧
      (m.checked c = true → savable (m.kernel.td t).state = true → m.pcbX t = m.owed t)

section
variable {m m' : Machine n} {k k' : Kernel n} {c d : Fin n}

def saved (m : Machine n) (c : Fin n) (t : Nat) : Nat → Regs :=
  if savable (m.kernel.td t).state = true ∧ m.enabled t = true then
    update m.pcbX t (m.regs c)
  else m.pcbX

theorem fpeCheckAndSave_eq (m : Machine n) (c : Fin n) (t : Nat) :
    fpeCheckAndSave m c t =
      ({ m with pcbX := saved m c t }, savable (m.kernel.td t).state) := by
  unfold fpeCheckAndSave saved
  cases hr : savable (m.kernel.td t).state with
  | false => simp
  | true =>
    cases he : m.enabled t with
    | false | true => simp

theorem saved_self (hr : savable (m.kernel.td t).state = true) (he : m.enabled t = true) :
    saved m c t t = m.regs c := by
  unfold saved
  rw [if_pos ⟨hr, he⟩, update_self]

theorem saved_of_ne (hu : u ≠ t) : saved m c t u = m.pcbX u := by
  unfold saved
  split
  · exact update_of_ne hu _ _
  · rfl

theorem saved_disabled (he : m.enabled t = false) : saved m c t = m.pcbX := by
  unfold saved
  rw [if_neg]
  rintro ⟨-, ht⟩
  rw [he] at ht
  cases ht

def entered (m : Machine n) (c : Fin n) (t : Nat) (exc : Exc) (k : Kernel n) : Machine n where
  kernel := k
  regs := if exc = .illegal then update m.regs c .clear else m.regs
  pcbX := saved m c t
  enabled := if exc = .illegal then update m.enabled t true else m.enabled
  fpeSaved := update m.fpeSaved c (savable (m.kernel.td t).state)
  checked := update m.checked c false
  left := update m.left t (m.regs c)
  first := update m.first t (decide (exc = .illegal))

theorem handleException_ok (h : handleException m c t exc = .ok m') :
    (exc = .illegal → m.enabled t = false) ∧ m' = { m with
      regs := if exc = .illegal then update m.regs c .clear else m.regs
      enabled := if exc = .illegal then update m.enabled t true else m.enabled } := by
  cases exc with
  | illegal =>
    simp only [handleException] at h
    split at h
    · cases h
    · rename_i he
      cases h
      exact ⟨fun _ => Bool.eq_false_iff.2 he, rfl⟩
  | intr | ecall =>
    cases h
    exact ⟨nofun, rfl⟩

theorem enter_ok (h : enter m c exc = .ok m') :
    ∃ t k, m.kernel.cpu c = ⟨.thread t, none⟩ ∧ ack m.kernel c exc = .ok k ∧
      (exc = .illegal → m.enabled t = false) ∧ m' = entered m c t exc k := by
  unfold enter at h
  split at h
  · rename_i t hc
    rw [fpeCheckAndSave_eq] at h
    obtain ⟨m₁, hm, h⟩ := bind_ok_iff.1 h
    obtain ⟨k, hk, h⟩ := bind_ok_iff.1 h
    obtain ⟨he, rfl⟩ := handleException_ok hm
    cases h
    exact ⟨t, k, hc, mapError_ok hk, he, rfl⟩
  · cases h

def savedLate (m : Machine n) (c : Fin n) (t : Nat) : Nat → Regs :=
  if m.fpeSaved c then m.pcbX else saved m c t

theorem check_ok (h : check m c = .ok m') :
    ∃ t i, m.kernel.cpu c = ⟨.handler t false i, none⟩ ∧
      m' = { m with pcbX := savedLate m c t, checked := update m.checked c true } := by
  unfold check at h
  split at h
  · rename_i t i hc
    rw [fpeCheckAndSave_eq] at h
    split at h
    · cases h
    · cases h
      refine ⟨t, i, hc, ?_⟩
      cases hs : m.fpeSaved c with
      | true | false => simp [savedLate, hs]
  · cases h

theorem park_ok (h : park m c = .ok m') :
    m.checked c = true ∧ ∃ k, Sched.park m.kernel c = .ok k ∧
      m' = { m with kernel := k, checked := update m.checked c false } := by
  unfold park at h
  split at h
  · rename_i hch
    obtain ⟨k, hk, h⟩ := bind_ok_iff.1 h
    cases h
    exact ⟨hch, k, mapError_ok hk, rfl⟩
  · cases h

theorem switch_ok (h : switch m c = .ok m') :
    ∃ t k, m.kernel.cpu c = ⟨.chosen t, none⟩ ∧ Sched.switch m.kernel c = .ok k ∧
      m' = { m with
        kernel := k
        regs := if m.enabled t then update m.regs c (m.pcbX t) else m.regs } := by
  unfold switch at h
  split at h
  · rename_i t hc
    obtain ⟨k, hk, h⟩ := bind_ok_iff.1 h
    cases h
    exact ⟨t, k, hc, mapError_ok hk, rfl⟩
  · cases h

theorem ack_acked (hc : k.cpu c = ⟨.thread t, none⟩) (h : ack k c exc = .ok k') :
    Acked k c t k' := by
  cases exc with
  | intr => exact trap_acked hc (show trap k c true = .ok k' from h)
  | ecall => exact trap_acked hc (show trap k c false = .ok k' from h)
  | illegal => exact fault_acked hc h

theorem ack_placed (hp : Placed k q loc) (hc : k.cpu c = ⟨.thread t, none⟩)
    (h : ack k c exc = .ok k') : ∃ q loc, Placed k' q loc := by
  cases exc with
  | intr => exact hp.next (trap_step (show trap k c true = .ok k' from h)) trivial
  | ecall => exact hp.next (trap_step (show trap k c false = .ok k' from h)) trivial
  | illegal =>
    obtain ⟨k₁, r, i, hk, hc₁, rfl⟩ := fault_ok h hc
    obtain ⟨q', loc', hp'⟩ := hp.next (trap_step hk) trivial
    exact ⟨q', loc', hp'.setIntr hc₁ false⟩

theorem savable_of (h : k'.Dead t ∨ (k.td t).state = .semWait ∨ (k.td t).state = .sleeping) :
    k'.Dead t ∨ savable (k.td t).state = true := by
  rcases h with h | h | h
  · exact .inl h
  · exact .inr (by rw [h]; rfl)
  · exact .inr (by rw [h]; rfl)

theorem entered_enabled (hu : u ≠ t) : (entered m c t exc k).enabled u = m.enabled u := by
  simp only [entered]
  split
  · exact update_of_ne hu _ _
  · rfl

theorem entered_owed (hu : u ≠ t) : (entered m c t exc k).owed u = m.owed u := by
  simp only [Machine.owed, entered, update_of_ne hu]

theorem Safe.entered_saved (h : Safe m) (he : exc = .illegal → m.enabled t = false)
    (hr : savable (m.kernel.td t).state = true)
    (hen : (entered m c t exc k).enabled t = true) :
    saved m c t t = (entered m c t exc k).owed t := by
  simp only [Machine.owed, entered, update_self, decide_eq_true_eq]
  split
  · rename_i hi
    rw [saved_disabled (he hi)]
    exact h.fresh t (he hi)
  · rename_i hi
    simp only [entered, if_neg hi] at hen
    exact saved_self hr hen

theorem entered_regs : (entered m c t exc k).regs c = (entered m c t exc k).owed t := by
  simp only [Machine.owed, entered, update_self, decide_eq_true_eq]
  split
  · rw [update_self]
  · rfl

theorem entered_regs_ne (hd : d ≠ c) : (entered m c t exc k).regs d = m.regs d := by
  simp only [entered]
  split
  · exact update_of_ne hd _ _
  · rfl

section
variable {k : Kernel n} (hc : k.cpu = update k'.cpu c x)
include hc

theorem current_eq (hd : d ≠ c) : k.current d = k'.current d := by
  rw [Kernel.current, hc, update_of_ne hd]
  rfl

theorem current_self : k.current c = x.ctx.current := by
  rw [Kernel.current, hc, update_self]

theorem ctx_of_update (hd : (k.cpu d).ctx = y) (hx : x.ctx ≠ y) : d ≠ c ∧ (k'.cpu d).ctx = y := by
  have hdc : d ≠ c := by
    rintro rfl
    rw [hc, update_self] at hd
    exact hx hd
  rw [hc, update_of_ne hdc] at hd
  exact ⟨hdc, hd⟩

end

theorem Safe.other (h : Safe m) (hc : m.kernel.current c = some t)
    (hu : m.kernel.current d = some u) (hd : d ≠ c) : u ≠ t := by
  obtain ⟨q, loc, hp⟩ := h.placed
  rintro rfl
  exact hd (hp.current_unique hu hc)

theorem Safe.enter_fresh (h : Safe m) (hu : (entered m c t exc k).enabled u = false) :
    (entered m c t exc k).pcbX u = .clear := by
  show saved m c t u = .clear
  by_cases hut : u = t
  · subst hut
    have hni : exc ≠ .illegal := by
      rintro rfl
      simp [entered] at hu
    simp only [entered, if_neg hni] at hu
    rw [saved_disabled hu]
    exact h.fresh u hu
  · rw [entered_enabled hut] at hu
    rw [saved_of_ne hut]
    exact h.fresh u hu

section
variable (h : Safe m) (hcur : m.kernel.current c = some t)
include h hcur

theorem Safe.kept_of_ne (hdead : ∀ s, m.kernel.Dead s → k.Dead s)
    (hcpu : k.cpu = update m.kernel.cpu c x) (hut : u ≠ t) (hu : m.enabled u = true)
    (hn : ¬k.Dead u) (hoff : ∀ d, k.current d ≠ some u) : m.pcbX u = m.owed u := by
  apply h.kept u hu fun hd => hn (hdead u hd)
  intro d hd
  by_cases hdc : d = c
  · subst hdc
    rw [hcur, Option.some.injEq] at hd
    exact hut hd.symm
  · exact hoff d ((current_eq hcpu hdc).trans hd)

theorem Safe.enter_kept (he : exc = .illegal → m.enabled t = false)
    (hdead : ∀ s, m.kernel.Dead s → k.Dead s)
    (hcpu : k.cpu = update m.kernel.cpu c ⟨.handler t r i, none⟩)
    (hr : r = true → k.Dead t ∨ savable (m.kernel.td t).state = true) :
    Kept (entered m c t exc k).enabled k.Dead k.current (saved m c t)
      (entered m c t exc k).owed := by
  intro u hu hn hoff
  by_cases hut : u = t
  · subst hut
    have hrt : r = true := by
      cases r with
      | true => rfl
      | false => exact absurd (current_self hcpu) (hoff c)
    rcases hr hrt with hd | hrel
    · exact absurd hd hn
    · exact h.entered_saved he hrel hu
  · rw [entered_enabled hut] at hu
    rw [entered_owed hut, saved_of_ne hut]
    exact h.kept_of_ne hcur hdead hcpu hut hu hn hoff

theorem Safe.enter_handling (he : exc = .illegal → m.enabled t = false)
    (hothers : ∀ u, u ≠ t → k.td u = m.kernel.td u)
    (hcpu : k.cpu = update m.kernel.cpu c ⟨.handler t r i, none⟩)
    (hctx : (k.cpu d).ctx = .handler u false j) (hu : (entered m c t exc k).enabled u = true) :
    (entered m c t exc k).regs d = (entered m c t exc k).owed u ∧
      ((entered m c t exc k).fpeSaved d = true →
        saved m c t u = (entered m c t exc k).owed u) ∧
      ((entered m c t exc k).checked d = true → savable (k.td u).state = true →
        saved m c t u = (entered m c t exc k).owed u) := by
  by_cases hdc : d = c
  · subst hdc
    rw [hcpu, update_self] at hctx
    cases hctx
    refine ⟨entered_regs, ?_, ?_⟩
    · intro hs
      simp only [entered, update_self] at hs
      exact h.entered_saved he hs hu
    · intro hs
      simp only [entered, update_self] at hs
      cases hs
  · rw [hcpu, update_of_ne hdc] at hctx
    have hut : u ≠ t := by
      apply h.other hcur _ hdc
      rw [Kernel.current, hctx]
      rfl
    rw [entered_enabled hut] at hu
    rw [entered_regs_ne hdc, entered_owed hut, saved_of_ne hut, hothers u hut]
    simp only [entered, update_of_ne hdc]
    exact h.handling d u j hctx hu

end

theorem Resumes.of_ctx
    (h : ∀ d t, (m'.kernel.cpu d).ctx = .thread t → (m.kernel.cpu d).ctx = .thread t) :
    Resumes m m' := by
  intro d t hne hctx
  exact absurd (h d t hctx) hne

theorem Safe.enter (h : Safe m) (hx : enter m c exc = .ok m') : Safe m' ∧ Resumes m m' := by
  obtain ⟨t, k, hc, hk, he, rfl⟩ := enter_ok hx
  obtain ⟨q, loc, hp⟩ := h.placed
  have hp' := ack_placed hp hc hk
  obtain ⟨hdead, hothers, r, i, hcpu, hr⟩ := ack_acked hc hk
  have hcur : m.kernel.current c = some t := by
    rw [Kernel.current, hc]
    rfl
  refine ⟨⟨hp', fun u => h.enter_fresh,
    h.enter_kept hcur he hdead hcpu fun hrt => savable_of (hr hrt),
    fun d u j => h.enter_handling hcur he hothers hcpu⟩, Resumes.of_ctx ?_⟩
  intro d u hctx
  exact (ctx_of_update hcpu hctx (by simp)).2

theorem savedLate_of_ne (hu : u ≠ t) : savedLate m c t u = m.pcbX u := by
  unfold savedLate
  split
  · rfl
  · exact saved_of_ne hu

theorem savedLate_disabled (he : m.enabled t = false) : savedLate m c t = m.pcbX := by
  unfold savedLate
  split
  · rfl
  · exact saved_disabled he

section
variable (h : Safe m)
include h

theorem Safe.savedLate_self (hctx : (m.kernel.cpu c).ctx = .handler t false i)
    (hr : savable (m.kernel.td t).state = true) (he : m.enabled t = true) :
    savedLate m c t t = m.owed t := by
  obtain ⟨h1, h2⟩ := h.handling c t i hctx he
  unfold savedLate
  split
  · rename_i hs
    exact h2.1 hs
  · rw [saved_self hr he]
    exact h1

theorem Safe.late_fresh (hu : m.enabled u = false) : savedLate m c t u = .clear := by
  by_cases hut : u = t
  · subst hut
    rw [savedLate_disabled hu]
    exact h.fresh u hu
  · rw [savedLate_of_ne hut]
    exact h.fresh u hu

theorem Safe.check (hx : check m c = .ok m') : Safe m' ∧ Resumes m m' := by
  obtain ⟨t, i, hc, rfl⟩ := check_ok hx
  have hcur : m.kernel.current c = some t := by
    rw [Kernel.current, hc]
    rfl
  have hctx : (m.kernel.cpu c).ctx = .handler t false i := by rw [hc]
  refine ⟨⟨h.placed, fun u => h.late_fresh, ?_, ?_⟩, Resumes.of_ctx fun _ _ hd => hd⟩
  · intro u hu hn hoff
    have hut : u ≠ t := by
      rintro rfl
      exact hoff c hcur
    exact (savedLate_of_ne hut).trans (h.kept u hu hn hoff)
  · intro d u j hd hu
    obtain ⟨hregs, hsaved, hchecked⟩ := h.handling d u j hd hu
    show m.regs d = m.owed u ∧ (m.fpeSaved d = true → savedLate m c t u = m.owed u) ∧
      (update m.checked c true d = true → savable (m.kernel.td u).state = true →
        savedLate m c t u = m.owed u)
    by_cases hdc : d = c
    · subst hdc
      cases hctx.symm.trans hd
      refine ⟨hregs, fun hs => ?_, fun _ hr => h.savedLate_self hctx hr hu⟩
      rw [savedLate, if_pos hs]
      exact hsaved hs
    · have hut : u ≠ t := by
        apply h.other hcur _ hdc
        rw [Kernel.current, hd]
        rfl
      rw [savedLate_of_ne hut, update_of_ne hdc]
      exact ⟨hregs, hsaved, hchecked⟩

section
variable (hc : m.kernel.cpu c = ⟨.handler t false i, none⟩) (hp : ∃ q loc, Placed k q loc)
  (hdead : ∀ s, m.kernel.Dead s → k.Dead s) (htd : k.td = m.kernel.td)
include hc hp hdead htd

theorem Safe.parked (hcpu : k.cpu = update m.kernel.cpu c ⟨x, none⟩)
    (hx : x = .thread t ∨ x = .handler t true j ∧
      (m.enabled t = true → m.pcbX t = m.owed t)) :
    Safe { m with kernel := k, checked := update m.checked c false } := by
  have hcur : m.kernel.current c = some t := by
    rw [Kernel.current, hc]
    rfl
  refine ⟨hp, h.fresh, ?_, ?_⟩
  · intro u hu hn hoff
    by_cases hut : u = t
    · subst hut
      rcases hx with rfl | ⟨-, hx⟩
      · exact absurd (current_self hcpu) (hoff c)
      · exact hx hu
    · exact h.kept_of_ne hcur hdead hcpu hut hu hn hoff
  · intro d u j hd
    have hne : x ≠ .handler u false j := by
      rcases hx with rfl | ⟨rfl, -⟩
      · simp
      · simp
    obtain ⟨hdc, hd⟩ := ctx_of_update hcpu hd hne
    show _ → _ ∧ _ ∧ (update m.checked c false d = true → savable (k.td u).state = true → _)
    rw [update_of_ne hdc, htd]
    exact h.handling d u j hd

end

theorem Safe.park (hx : park m c = .ok m') : Safe m' ∧ Resumes m m' := by
  obtain ⟨hch, k, hk, rfl⟩ := park_ok hx
  have hs := park_step hk
  have hdead : ∀ s, m.kernel.Dead s → k.Dead s := fun s => hs.dead
  obtain ⟨q, loc, hp⟩ := h.placed
  have hp' := hp.next hs trivial
  cases hs with
  | resume hc =>
    rename_i t i hst
    refine ⟨h.parked (j := false) hc hp' hdead rfl rfl (.inl rfl), ?_⟩
    intro d u hne hd hu
    change (update m.kernel.cpu c ⟨.thread t, none⟩ d).ctx = .thread u at hd
    by_cases hdc : d = c
    · subst hdc
      rw [update_self] at hd
      cases hd
      exact (h.handling d t i (by rw [hc]) hu).1
    · rw [update_of_ne hdc] at hd
      exact absurd hd hne
  | requeue hc hst =>
    rename_i t i hprio
    have hr : savable (m.kernel.td t).state = true := by
      rcases hst with hst | hst
      · rw [hst]
        rfl
      · rw [hst]
        rfl
    have hkept (hu : m.enabled t = true) : m.pcbX t = m.owed t :=
      (h.handling c t i (by rw [hc]) hu).2.2 hch hr
    refine ⟨h.parked hc hp' hdead rfl rfl (.inr ⟨rfl, hkept⟩), Resumes.of_ctx ?_⟩
    intro d u hd
    have hctx : (m.kernel.cpu d).ctx = .thread u := (ctx_of_update rfl hd (by simp)).2
    exact hctx

end

theorem switch_cpu (hs : Step k (.switch c) k') (hc : k.cpu c = ⟨.chosen t, none⟩) :
    k'.cpu = update k.cpu c ⟨.thread t, none⟩ := by
  cases hs with
  | switch hc' | switchTimed hc' =>
    rw [hc] at hc'
    cases hc'
    rfl

theorem Safe.handled (h : Safe m) (hs : Step m.kernel a k)
    (hctx : (m.kernel.cpu d).ctx = .handler u false j)
    (ha : a.cpu = d → m.checked d = false) (hu : m.enabled u = true) :
    m.regs d = m.owed u ∧ (m.fpeSaved d = true → m.pcbX u = m.owed u) ∧
      (m.checked d = true → savable (k.td u).state = true → m.pcbX u = m.owed u) := by
  obtain ⟨q, loc, hp⟩ := h.placed
  obtain ⟨hregs, hsaved, hchecked⟩ := h.handling d u j hctx hu
  refine ⟨hregs, hsaved, fun hd hr => ?_⟩
  have hne : a.cpu ≠ d := by
    intro he
    rw [ha he] at hd
    cases hd
  rw [hp.untouched (hp.handling hctx) hs hne] at hr
  exact hchecked hd hr

theorem Safe.switch (h : Safe m) (hx : switch m c = .ok m') : Safe m' ∧ Resumes m m' := by
  obtain ⟨t, k, hc, hk, rfl⟩ := switch_ok hx
  have hs := switch_step hk
  have hcpu := switch_cpu hs hc
  obtain ⟨q, loc, hp⟩ := h.placed
  obtain ⟨hlive, hfree⟩ := hp.chosen_free hc
  refine ⟨⟨hp.next hs trivial, h.fresh, ?_, ?_⟩, ?_⟩
  · apply h.kept.mono fun s => hs.dead
    intro d u hd
    refine ⟨d, ?_⟩
    have hdc : d ≠ c := by
      rintro rfl
      rw [Kernel.current, hc] at hd
      cases hd
    exact (current_eq hcpu hdc).trans hd
  · intro d u j hd hu
    obtain ⟨hdc, hd⟩ := ctx_of_update hcpu hd (by simp)
    have hregs : (if m.enabled t then update m.regs c (m.pcbX t) else m.regs) d =
        m.regs d := by
      split
      · exact update_of_ne hdc _ _
      · rfl
    show (if m.enabled t then update m.regs c (m.pcbX t) else m.regs) d = _ ∧ _
    rw [hregs]
    exact h.handled hs hd (fun he => absurd he.symm hdc) hu
  · intro d u hne hd hu
    change (k.cpu d).ctx = .thread u at hd
    by_cases hdc : d = c
    · subst hdc
      rw [hcpu, update_self] at hd
      cases hd
      change m.enabled t = true at hu
      show (if m.enabled t then update m.regs d (m.pcbX t) else m.regs) d = m.owed t
      rw [if_pos hu, update_self]
      exact h.kept t hu hlive hfree
    · rw [hcpu, update_of_ne hdc] at hd
      exact absurd hd hne

theorem Safe.sched (h : Safe m) (hs : Step m.kernel a k) (ha : m.checked a.cpu = false)
    (hctx : ∀ d, (k.cpu d).ctx = (m.kernel.cpu d).ctx ∨
      (m.kernel.cpu d).ctx.current = none ∧ ∃ t, (k.cpu d).ctx = .chosen t) :
    (Sched.YieldsFree m.kernel a → Safe { m with kernel := k }) ∧
      Resumes m { m with kernel := k } := by
  obtain ⟨q, loc, hp⟩ := h.placed
  refine ⟨fun hy => ⟨hp.next hs hy, h.fresh, ?_, ?_⟩, Resumes.of_ctx ?_⟩
  · apply h.kept.mono fun s => hs.dead
    intro d u hd
    refine ⟨d, ?_⟩
    rcases hctx d with he | ⟨hn, -⟩
    · show (k.cpu d).ctx.current = some u
      rw [he]
      exact hd
    · rw [Kernel.current, hn] at hd
      cases hd
  · intro d u j hd
    change (k.cpu d).ctx = .handler u false j at hd
    rcases hctx d with he | ⟨-, t, ht⟩
    · rw [he] at hd
      exact h.handled hs hd fun he => he ▸ ha
    · rw [ht] at hd
      cases hd
  · intro d u hd
    change (k.cpu d).ctx = .thread u at hd
    rcases hctx d with he | ⟨-, t, ht⟩
    · rw [he] at hd
      exact hd
    · rw [ht] at hd
      cases hd

theorem Safe.compute (h : Safe m) (hc : (m.kernel.cpu c).ctx = .thread t) (regs : Regs) :
    Safe { m with regs := update m.regs c regs } := by
  refine ⟨h.placed, h.fresh, h.kept, ?_⟩
  intro d u j hd
  have hdc : d ≠ c := by
    rintro rfl
    rw [hc] at hd
    cases hd
  show _ → update m.regs c regs d = _ ∧ _
  rw [update_of_ne hdc]
  exact h.handling d u j hd

theorem Safe.step (h : Safe m) (hx : Next m a m') :
    (YieldsFree m a → Safe m') ∧ Resumes m m' := by
  have hother {b : Sched.Act n} (hb : ∀ k, Step m.kernel b k → ∀ d,
      (k.cpu d).ctx = (m.kernel.cpu d).ctx ∨
        (m.kernel.cpu d).ctx.current = none ∧ ∃ t, (k.cpu d).ctx = .chosen t)
      (hx : (if m.checked b.cpu then .error (.sched .busy)
        else ((Sched.exec m.kernel b).mapError Stop.sched).map fun k => { m with kernel := k }) =
          .ok m') :
      (Sched.YieldsFree m.kernel b → Safe m') ∧ Resumes m m' := by
    split at hx
    · cases hx
    · rename_i ha
      obtain ⟨k, hk, rfl⟩ := map_ok hx
      have hs := exec_step (mapError_ok hk)
      exact h.sched hs (Bool.eq_false_iff.2 ha) (hb k hs)
  have hsafe (hs : Safe m' ∧ Resumes m m') : (YieldsFree m a → Safe m') ∧ Resumes m m' :=
    ⟨fun _ => hs.1, hs.2⟩
  cases a with
  | compute c regs =>
    simp only [Next, exec] at hx
    split at hx
    · rename_i t hc
      split at hx
      · cases hx
        exact hsafe ⟨h.compute hc regs, Resumes.of_ctx fun _ _ hd => hd⟩
      · cases hx
    · cases hx
  | exception => exact hsafe (h.enter hx)
  | check => exact hsafe (h.check hx)
  | sched b =>
    cases b with
    | trap => cases hx
    | park => exact hsafe (h.park hx)
    | switch => exact hsafe (h.switch hx)
    | pick => exact hother (fun k hs => hs.picks) hx
    | _ => exact hother (fun k hs d => .inl (hs.ctx rfl d)) hx

theorem boot_safe (nprio : Nat) (usecToTicks : Nat → Nat) (count : Nat → Int)
    (regs : Fin n → Regs) : Safe (boot nprio usecToTicks count regs) := by
  refine ⟨⟨_, _, boot_placed n nprio usecToTicks count⟩, fun _ _ => rfl, ?_, ?_⟩
  · intro t ht
    cases ht
  · intro c t i hc
    cases hc

/-- With any interleaving of the CPUs, a thread that uses the FPU resumes with the registers it had
when it left, and its first use starts from cleared ones, in every run in which only threads without
a quantum call `mdx_thread_yield`. -/
theorem fpe_context_survives
    (h : Run Next YieldsFree (boot nprio usecToTicks count regs) m) (hx : Next m a m') :
    Resumes m m' := by
  have hsafe : Safe m := h.invariant Safe (boot_safe nprio usecToTicks count regs)
    fun hs hy hx => (hs.step hx).1 hy
  exact (hsafe.step hx).2

theorem fpe_context_survives_migration :
    ∃ m m', Run Next YieldsFree (boot 2 id (fun _ => 0) fun _ : Fin 2 => .clear) m ∧
      Next m (.sched (.switch 1)) m' ∧ (m'.kernel.cpu 1).ctx = .thread 2 ∧
      (m'.regs 1).f 0 = 7 := by
  obtain ⟨m, hrun, hc, hq, he, hl, hf⟩ := Run.of_guarded exec YieldsFree
    (boot 2 id (fun _ => 0) fun _ : Fin 2 => .clear)
    [.sched (.create 0 2 1 0), .sched (.enter 0), .exception 0 .ecall, .check 0,
      .sched (.park 0), .sched (.pick 0), .sched (.switch 0), .exception 0 .illegal, .check 0,
      .sched (.park 0), .compute 0 ⟨fun _ => 7, 0⟩, .sched (.tsleep 0 5), .exception 0 .ecall,
      .sched (.pick 0), .sched (.switch 0), .exception 0 .intr, .sched (.fireSleep 0 2),
      .exception 1 .intr, .check 1, .sched (.park 1), .sched (.pick 1)]
    (fun m => m.kernel.cpu 1 = ⟨.chosen 2, none⟩ ∧ (m.kernel.td 2).quantum = 0 ∧
      m.enabled 2 = true ∧ (m.left 2).f 0 = 7 ∧ m.first 2 = false) (by decide +kernel)
  have hx : Next m (.sched (.switch 1)) { m with
      kernel := (m.kernel.setTd 2 (m.kernel.td 2).picked).setCpu 1 ⟨.thread 2, none⟩
      regs := update m.regs 1 (m.pcbX 2) } := by
    have hq' : (m.kernel.td 2).picked.quantum = 0 := hq
    simp only [Next, exec, switch, Sched.switch, hc, mdxSchedNextSwitch, hq', he]
    rfl
  have hctx : (((m.kernel.setTd 2 (m.kernel.td 2).picked).setCpu 1 ⟨.thread 2, none⟩).cpu 1).ctx =
      .thread 2 := by
    simp only [Kernel.setCpu, update_self]
  refine ⟨m, _, hrun, hx, hctx, ?_⟩
  rw [fpe_context_survives hrun hx 1 2 (by rw [hc]; simp) hctx he]
  simp only [Machine.owed, hf]
  exact hl

/-- A thread with a quantum yields on CPU 0 and goes on on CPU 1, with `td_c` still on the list of
CPU 0. That CPU ends its quantum between `fpe_check_and_save`, which has found it running, and
`mdx_sched_park` on CPU 1: it resumes with the registers it had when it yielded. -/
theorem fpe_context_lost :
    ∃ m m', Run Next (fun _ _ => True) (boot 2 id (fun _ => 0) fun _ : Fin 2 => .clear) m ∧
      Next m (.sched (.switch 1)) m' ∧ ¬Resumes m m' := by
  obtain ⟨m, hrun, hc, hv⟩ := Run.of_guarded exec (fun _ _ => True)
    (boot 2 id (fun _ => 0) fun _ : Fin 2 => .clear)
    [.sched (.create 0 2 1 3), .sched (.enter 0), .exception 0 .ecall, .check 0,
      .sched (.park 0), .sched (.pick 0), .sched (.switch 0), .exception 0 .illegal, .check 0,
      .sched (.park 0), .compute 0 ⟨fun _ => 5, 0⟩, .sched (.yield 0), .exception 0 .ecall,
      .check 0, .sched (.park 0), .exception 1 .intr, .check 1, .sched (.park 1),
      .sched (.pick 1), .sched (.switch 1), .sched (.pick 0), .sched (.switch 0),
      .compute 1 ⟨fun _ => 7, 0⟩, .exception 1 .intr, .check 1, .exception 0 .intr,
      .sched (.fire 0 2), .sched (.park 1), .sched (.pick 1)]
    (fun m => (m.kernel.cpu 1).ctx = .chosen 2 ∧
      (exec m (.sched (.switch 1))).toOption.map (fun m => ((m.kernel.cpu 1).ctx, m.enabled 2,
        (m.regs 1).f 0, (m.owed 2).f 0)) = some (.thread 2, true, 5, 7)) (by decide +kernel)
  cases hx : exec m (.sched (.switch 1)) with
  | error =>
    rw [hx] at hv
    cases hv
  | ok m' =>
    rw [hx] at hv
    obtain ⟨hctx, hen, hr, ho⟩ : (m'.kernel.cpu 1).ctx = .thread 2 ∧ m'.enabled 2 = true ∧
        (m'.regs 1).f 0 = 5 ∧ (m'.owed 2).f 0 = 7 := by
      simpa only [Except.toOption, Option.map_some, Option.some.injEq, Prod.mk.injEq] using hv
    refine ⟨m, m', hrun, hx, fun hres => ?_⟩
    rw [hres 1 2 (by rw [hc]; simp) hctx hen, ho] at hr
    exact absurd hr (by decide)

end
end Mdepx.Fpe
