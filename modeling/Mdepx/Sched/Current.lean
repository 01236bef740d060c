import Mdepx.Sched.Calm

namespace Mdepx.Sched
open Lib Function

/-! Which thread a CPU is on, and how the steps of the exception handler change that. -/

def Ctx.current : Ctx → Option Nat
  | .thread t | .handler t false _ => some t
  | .handler _ true _ | .chosen _ => none

def Kernel.current (k : Kernel n) (c : Fin n) : Option Nat := (k.cpu c).ctx.current

def Kernel.Dead (k : Kernel n) (t : Nat) : Prop := (k.td t).life = .dead

def Ctx.noIntr : Ctx → Ctx
  | .handler t r _ => .handler t r false
  | x => x

/-- The same as `trap` for the fault of an instruction, which is not passed over. There is no
interrupt to service behind `mdx_sched_ack`. -/
def fault (k : Kernel n) (c : Fin n) : Exec n :=
  (trap k c true).map fun k => k.setCpu c ⟨(k.cpu c).ctx.noIntr, (k.cpu c).post⟩

/-- The states in which the exception handlers of both architectures save the floating-point
registers of a thread. -/
def savable : TdState → Bool
  | .semWait | .sleeping | .yielding | .ready => true
  | _ => false

def Act.switches : Act n → Bool
  | .trap .. | .park .. | .pick .. | .switch .. => true
  | _ => false

def Act.cpu : Act n → Fin n
  | .trap c _ | .fire c _ | .fireSleep c _ | .park c | .pick c | .switch c | .wait c _ _
  | .trywait c _ | .post c _ | .postNext c | .tsleep c _ | .yield c | .terminate c | .enter c
  | .create c _ _ _ | .ret c => c

section
variable {k k' : Kernel n} {q : Head → List Nat} {loc : Nat → Loc n} {c d : Fin n}

theorem ctx_setPost (k : Kernel n) (c d : Fin n) (post : Option Post) :
    ((k.setCpu c { k.cpu c with post := post }).cpu d).ctx = (k.cpu d).ctx := by
  by_cases hd : d = c
  · subst hd
    simp only [Kernel.setCpu, update_self]
  · simp only [Kernel.setCpu, update_of_ne hd]

theorem Step.ctx (hs : Step k a k') (ha : a.switches = false) (d : Fin n) :
    (k'.cpu d).ctx = (k.cpu d).ctx := by
  cases hs with
  | release | reap | interrupt | resume | requeue | pick | switch | switchTimed => cases ha
  | postTo | postAck | postCancel | postWake => exact ctx_setPost k _ d _
  | _ => rfl

theorem Step.picks (hs : Step k (.pick c) k') (d : Fin n) :
    (k'.cpu d).ctx = (k.cpu d).ctx ∨
      (k.cpu d).ctx.current = none ∧ ∃ t, (k'.cpu d).ctx = .chosen t := by
  cases hs with
  | pick hc =>
    by_cases hd : d = c
    · subst hd
      rw [hc]
      simp only [Kernel.setCpu, update_self]
      exact .inr ⟨rfl, _, rfl⟩
    · simp only [Kernel.setCpu, update_of_ne hd]
      exact .inl rfl

theorem dead_update {th : Thread n} (hd : k.Dead t) (ht : t = u → th.life = .dead) :
    (update k.td u th t).life = .dead := by
  by_cases htu : t = u
  · subst htu
    rw [update_self]
    exact ht rfl
  · rw [update_of_ne htu]
    exact hd

theorem waiter_life (c : Fin n) (s usec ticks : Nat) (th : Thread n) :
    (waiter c s usec ticks th).life = th.life := by
  unfold waiter
  simp only
  split
  · rfl
  · rfl

theorem Step.dead (hs : Step k a k') (hd : k.Dead t) : k'.Dead t := by
  cases hs with
  | reap => exact dead_update hd fun _ => rfl
  | create hl =>
    apply dead_update hd
    rintro rfl
    rw [Kernel.Dead, hl] at hd
    cases hd
  | release | interrupt | quantum | late | timeout | wakeup | switch | switchTimed | postAck
  | postCancel | postWake | sleep | yield | terminate | enter | retSem | ret =>
    exact dead_update hd fun he => he ▸ hd
  | block =>
    apply dead_update hd
    rintro rfl
    rw [waiter_life]
    exact hd
  | _ => exact hd

theorem Placed.seat (h : Placed k q loc) (hc : k.current c = some t) :
    (loc t).cpu = some c := by
  apply (h.seated.held t c).2
  show (k.cpu c).ctx.td = some t
  unfold Kernel.current at hc
  cases hx : (k.cpu c).ctx with
  | thread =>
    rw [hx] at hc
    exact hc
  | handler u r =>
    rw [hx] at hc
    cases r with
    | false => exact hc
    | true => cases hc
  | chosen =>
    rw [hx] at hc
    cases hc

theorem Placed.current_unique (h : Placed k q loc) (hc : k.current c = some t)
    (hd : k.current d = some t) : c = d :=
  Option.some.inj ((h.seat hc).symm.trans (h.seat hd))

theorem Placed.chosen_free (h : Placed k q loc) (hc : k.cpu c = ⟨.chosen t, none⟩) :
    ¬k.Dead t ∧ ∀ d, k.current d ≠ some t := by
  have hl := h.chosen (c := c) (t := t) hc
  have hg := h.good_at hl
  constructor
  · intro hd
    exact absurd (hg.1.symm.trans hd) (by decide)
  · intro d hd
    have hs := h.seat hd
    rw [hl, Loc.cpu, Option.some.injEq] at hs
    subst hs
    rw [Kernel.current, hc] at hd
    cases hd

theorem Placed.setIntr (h : Placed k q loc) (hc : k.cpu c = ⟨.handler t r i, none⟩) (j : Bool) :
    Placed (k.setCpu c ⟨.handler t r j, none⟩) q loc := by
  have hp : (none : Option Post) = (k.cpu c).post := by rw [hc]
  refine ⟨h.lined, ?_, h.posting_setCpu hp, h.good, h.lock_setCpu hp⟩
  apply h.seated.same
  · rw [hc]
    cases r with
    | false | true => rfl
  · intro l hl
    rw [hc] at hl
    cases r with
    | false =>
      cases l with
      | _ => exact hl
    | true => exact hl.elim

theorem Settled.setIntr (h : Settled k q loc) (hc : k.cpu c = ⟨.handler t r i, none⟩) (j : Bool) :
    Settled (k.setCpu c ⟨.handler t r j, none⟩) q loc :=
  ⟨h.toPlaced.setIntr hc j, h.armed⟩

/-- Behind `mdx_sched_ack` CPU `c` is in its handler, and has released a thread that is gone, waits
or sleeps. -/
structure Acked (k : Kernel n) (c : Fin n) (t : Nat) (k' : Kernel n) : Prop where
  dead : ∀ s, k.Dead s → k'.Dead s
  others : ∀ u, u ≠ t → k'.td u = k.td u
  cpu : ∃ r i, k'.cpu = Function.update k.cpu c ⟨.handler t r i, none⟩ ∧
    (r = true → k'.Dead t ∨ (k.td t).state = .semWait ∨ (k.td t).state = .sleeping)

theorem trap_acked (hc : k.cpu c = ⟨.thread t, none⟩) (hx : trap k c intr = .ok k') :
    Acked k c t k' := by
  have hs := trap_step hx
  have hdead (s : Nat) := hs.dead (t := s)
  cases hs with
  | release hc' hp hst =>
    rw [hc] at hc'
    cases hc'
    exact ⟨hdead, fun u hu => update_of_ne hu _ _, true, intr, rfl, fun _ => .inr hst⟩
  | reap hc' =>
    rw [hc] at hc'
    cases hc'
    refine ⟨hdead, fun u hu => update_of_ne hu _ _, true, intr, rfl, fun _ => .inl ?_⟩
    show (update k.td t _ t).life = .dead
    rw [update_self]
  | interrupt hc' =>
    rw [hc] at hc'
    cases hc'
    exact ⟨hdead, fun u hu => update_of_ne hu _ _, false, intr, rfl, nofun⟩

theorem fault_ok (hx : fault k c = .ok k') (hc : k.cpu c = ⟨.thread t, none⟩) :
    ∃ k₁ r i, trap k c true = .ok k₁ ∧ k₁.cpu c = ⟨.handler t r i, none⟩ ∧
      k' = k₁.setCpu c ⟨.handler t r false, none⟩ := by
  obtain ⟨k₁, hk, rfl⟩ := map_ok hx
  obtain ⟨-, -, r, i, hcpu, -⟩ := trap_acked hc hk
  have hc₁ : k₁.cpu c = ⟨.handler t r i, none⟩ := by rw [hcpu, update_self]
  refine ⟨k₁, r, i, hk, hc₁, ?_⟩
  rw [hc₁]
  rfl

theorem fault_acked (hc : k.cpu c = ⟨.thread t, none⟩) (hx : fault k c = .ok k') :
    Acked k c t k' := by
  obtain ⟨k₁, r, i, hk, hc₁, rfl⟩ := fault_ok hx hc
  obtain ⟨hdead, hothers, r', i', hcpu, hr⟩ := trap_acked hc hk
  rw [hcpu, update_self] at hc₁
  cases hc₁
  refine ⟨hdead, hothers, r, false, ?_, hr⟩
  simp only [Kernel.setCpu, hcpu, update_idem]

theorem Placed.next (h : Placed k q loc) (hs : Step k a k') (hy : YieldsFree k a) :
    ∃ q' loc', Placed k' q' loc' := by
  obtain ⟨q', loc', ht⟩ := h.step hy hs
  exact ⟨q', loc', ht.placed⟩

theorem Placed.untouched (h : Placed k q loc) (hl : loc t = .running c) (hs : Step k a k')
    (ha : a.cpu ≠ c) : k'.td t = k.td t := by
  have hg := h.good_at hl
  have hcpu {d : Fin n} {u : Nat} {x : Cpu} (hc : k.cpu d = x) (hx : x.td = some u)
      (hd : d ≠ c) : t ≠ u := by
    rintro rfl
    have hs := (h.seat_fits hc hx).1
    rw [hl] at hs
    exact hd (Option.some.inj hs).symm
  have hpost {d : Fin n} {p : Post} (hc : (k.cpu d).post = some p) : t ≠ p.td := by
    rintro rfl
    have hs := (h.post_fits hc).1
    rw [hl] at hs
    cases hs
  have hfire {d : Fin n} {u : Nat} (hd : d ∈ (k.td u).tdC.linked) (hne : d ≠ c) : t ≠ u := by
    rintro rfl
    rcases hg.2.2.2 with hoff | ⟨-, -, hon⟩
    · exact hoff.not_linked hd
    · exact hne (Callout.Only.linked (.inr hon) hd).1
  cases hs with
  | release hc | reap hc | interrupt hc | switch hc | switchTimed hc | block hc | sleep hc
  | yield hc | terminate hc | enter hc | retSem hc | ret hc =>
    exact update_of_ne (hcpu hc rfl ha) _ _
  | quantum _ hd | late _ hd | timeout _ hd => exact update_of_ne (hfire hd ha) _ _
  | wakeup _ hd =>
    refine update_of_ne ?_ _ _
    rintro rfl
    exact hg.2.1.not_linked hd
  | postAck hc | postCancel hc | postWake hc => exact update_of_ne (hpost hc) _ _
  | create hu =>
    refine update_of_ne ?_ _ _
    rintro rfl
    exact absurd (hu.symm.trans hg.1) (by decide)
  | _ => rfl

def Thread.Parked (th : Thread n) : Prop := th.state = .yielding ∨ th.state = .ready

theorem parked_update {th : Thread n} (hd : (k.td t).Parked) (ht : t = u → th.Parked) :
    (update k.td u th t).Parked := by
  by_cases htu : t = u
  · subst htu
    rw [update_self]
    exact ht rfl
  · rw [update_of_ne htu]
    exact hd

theorem Parked.ne {th : Thread n} (h : th.Parked) (hs : th.state = st) (h1 : st ≠ .yielding)
    (h2 : st ≠ .ready) : False := by
  rw [Thread.Parked, hs] at h
  exact h.elim h1 h2

theorem Step.parked (hs : Step k a k') (ha : a.switches = false) (h : (k.td t).Parked)
    (hn : ∀ c, (k.cpu c).ctx ≠ .thread t) : (k'.td t).Parked := by
  have hrun {c : Fin n} {u : Nat} (hc : k.cpu c = ⟨.thread u, none⟩) (htu : t = u) : False := by
    apply hn c
    rw [hc, htu]
  cases hs with
  | release | reap | interrupt | resume | requeue | pick | switch | switchTimed => cases ha
  | quantum | create => exact parked_update h fun _ => .inr rfl
  | late _ _ _ _ hst | timeout _ _ _ _ hst | postAck _ hst =>
    exact parked_update h fun he => (Parked.ne (he ▸ h) hst (by decide) (by decide)).elim
  | wakeup | postCancel | enter | retSem | ret => exact parked_update h fun he => he ▸ h
  | block hc | sleep hc | terminate hc => exact parked_update h fun he => (hrun hc he).elim
  | postWake hc hst =>
    apply parked_update h
    intro he
    rcases hst with hst | hst
    · exact (Parked.ne (he ▸ h) hst (by decide) (by decide)).elim
    · exact (Parked.ne (he ▸ h) hst (by decide) (by decide)).elim
  | yield => exact parked_update h fun _ => .inl rfl
  | _ => exact h

end
end Mdepx.Sched
