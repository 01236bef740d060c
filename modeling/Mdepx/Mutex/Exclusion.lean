import Mdepx.Mutex.Basic

namespace Mdepx.Mutex
open Lib Sched Function
open List hiding count

section
variable {k k' : Kernel n} {q : Head → List Nat} {loc : Nat → Loc n} {a : Act n}

def Emits (k : Kernel n) (a : Act n) : Semaphore.Event Nat Nat → Prop
  | .took s => (∃ c usec, a = .wait c s usec) ∨ ∃ c, a = .trywait c s
  | .posted s | .handed _ s => ∃ c, a = .post c s
  | .returned t s _ => ∃ c usec, a = .ret c ∧ k.cpu c = ⟨.thread t, none⟩ ∧
      (k.td t).pc = .after (.semTimedwait s usec)
  | .blocked _ _ | .timedOut _ _ => True

theorem step_emits (hs : Sched.Step k a k') :
    ∃ evs, semLog k'.log = evs ++ semLog k.log ∧ ∀ e ∈ evs, Emits k a e := by
  cases hs with
  | take => exact ⟨[_], rfl, forall_mem_singleton.2 (.inl ⟨_, _, rfl⟩)⟩
  | tryTake => exact ⟨[_], rfl, forall_mem_singleton.2 (.inr ⟨_, rfl⟩)⟩
  | block | timeout => exact ⟨[_], rfl, forall_mem_singleton.2 trivial⟩
  | post => exact ⟨[_], rfl, forall_mem_singleton.2 ⟨_, rfl⟩⟩
  | postTo =>
    exact ⟨[_, _], rfl, forall_mem_cons.2 ⟨⟨_, rfl⟩, forall_mem_singleton.2 ⟨_, rfl⟩⟩⟩
  | retSem hc hp => exact ⟨[_], rfl, forall_mem_singleton.2 ⟨_, _, rfl, hc, hp⟩⟩
  | _ => exact ⟨[], rfl, forall_mem_nil _⟩

theorem call_update {f : Nat → Thread n} {th : Thread n} (h : th.pc.call = (f u).pc.call)
    (t : Nat) : (update f u th t).pc.call = (f t).pc.call := by
  by_cases ht : t = u
  · subst ht
    rw [update_self]
    exact h
  · rw [update_of_ne ht]

def self : Act n → Option (Fin n)
  | .wait c _ _ | .tsleep c _ | .yield c | .terminate c | .enter c | .ret c => some c
  | _ => none

theorem step_call (h : Placed k q loc) (hs : Sched.Step k a k') (t : Nat) :
    (k'.td t).pc.call = (k.td t).pc.call ∨
    ∃ c, self a = some c ∧ k.cpu c = ⟨.thread t, none⟩ ∧
      ∀ s usec, (k'.td t).pc.call = some (.semTimedwait s usec) → a = .wait c s usec := by
  have hown {u : Nat} {c : Fin n} {th : Thread n} (ha : self a = some c)
      (hc : k.cpu c = ⟨.thread u, none⟩) (htd : k'.td = update k.td u th)
      (hth : ∀ s usec, th.pc.call = some (.semTimedwait s usec) → a = .wait c s usec) :
      (k'.td t).pc.call = (k.td t).pc.call ∨
      ∃ c, self a = some c ∧ k.cpu c = ⟨.thread t, none⟩ ∧
        ∀ s usec, (k'.td t).pc.call = some (.semTimedwait s usec) → a = .wait c s usec := by
    by_cases ht : t = u
    · subst ht
      refine .inr ⟨c, ha, hc, ?_⟩
      rw [htd, update_self]
      exact hth
    · rw [htd, update_of_ne ht]
      exact .inl rfl
  cases hs with
  | release _ hp | reap _ hp | interrupt _ hp => exact .inl (call_update (trapPc_call hp) t)
  | resume | requeue | pick | take | tryTake | tryFail | post | postTo => exact .inl rfl
  | create hlife =>
    apply Or.inl
    apply call_update
    rw [h.unborn_user (h.unborn hlife)]
    rfl
  | block hc =>
    refine hown rfl hc rfl ?_
    intro s usec he
    cases he
    rfl
  | sleep hc | yield hc | terminate hc | enter hc | retSem hc | ret hc =>
    exact hown rfl hc rfl (by simp [Pc.call])
  | _ =>
    apply Or.inl
    apply call_update
    rfl

theorem step_sound (h : Placed k q loc) (hs : Semaphore.Sound count (k.spec q) (semLog k.log))
    (hb : Bounded k a) (hx : Sched.exec k a = .ok k')
    (hl : semLog k'.log = evs ++ semLog k.log) :
    ∃ q' loc', Placed k' q' loc' ∧ Semaphore.Step (k.spec q) evs (k'.spec q') ∧
      Semaphore.Sound count (k'.spec q') (semLog k'.log) := by
  obtain ⟨q', loc', ht⟩ := h.step hb.1 (Sched.exec_step hx)
  obtain ⟨evs', hl', hstep⟩ := ht.spec
  have he : evs' = evs := append_cancel_right (hl'.symm.trans hl)
  subst he
  have hst := hstep hs.nonneg hb.2
  refine ⟨q', loc', ht.placed, hst, ?_⟩
  rw [hl]
  exact hs.step hst

end

def State.claim (σ : State n) (m t : Nat) : Prop :=
  σ.holds m t = true ∨ σ.stage t = .won m ∨ σ.stage t = .unlocking m

def Stage.mutex : Stage → Option Nat
  | .out => none
  | .locking m _ | .won m | .unlocking m => some m

structure Sane (count : Nat → Int) (σ : State n) (q : Head → List Nat) (loc : Nat → Loc n) :
    Prop where
  placed : Placed σ.kernel q loc
  sound : Semaphore.Sound count (σ.kernel.spec q) (semLog σ.kernel.log)
  excl : ∀ m, σ.isMutex m = true → Semaphore.Exclusive (σ.kernel.spec q) m (σ.claim m)
  own : ∀ m t, σ.holds m t = true → σ.td m = some t
  mutex : ∀ m t, (σ.stage t).mutex = some m → σ.isMutex m = true
  unlocking : ∀ m t, σ.stage t = .unlocking m → σ.holds m t = false
  waits : ∀ m call t, σ.stage t = .locking m call →
    (σ.kernel.td t).pc.call = some (.semTimedwait m call.usec)
  waited : ∀ m usec t, (σ.kernel.td t).pc.call = some (.semTimedwait m usec) →
    σ.isMutex m = true → ∃ call, σ.stage t = .locking m call

/-- The steps a run may take: the scheduler's as before, and every unlock that does not panic is by
the thread that holds the mutex. -/
def Proper (σ : State n) : Op n → Prop
  | .kernel a => Bounded σ.kernel a
  | .unlock c m => ∀ t, σ.caller c m = some t → σ.holds m t = true ∨ σ.td m ≠ some t
  | _ => True

instance (σ : State n) : (op : Op n) → Decidable (Proper σ op)
  | .kernel a => inferInstanceAs (Decidable (Bounded σ.kernel a))
  | .unlock c m =>
    inferInstanceAs (Decidable (∀ t ∈ σ.caller c m, σ.holds m t = true ∨ σ.td m ≠ some t))
  | .lock .. | .timedlock .. | .trylock .. | .ret .. | .own .. | .post .. => isTrue trivial

section
variable {σ : State n} {q : Head → List Nat} {loc : Nat → Loc n} {count : Nat → Int}

theorem outside_stage (ho : σ.outside c = true) (hc : σ.kernel.cpu c = ⟨.thread t, none⟩) :
    σ.stage t = .out := by
  unfold State.outside at ho
  rw [hc] at ho
  exact of_decide_eq_true ho

theorem allows_self (ha : σ.allows a = true) (hs : self a = some c) : σ.outside c = true := by
  cases a with
  | wait =>
    cases hs
    exact (Bool.and_eq_true_iff.1 ha).2
  | tsleep | yield | terminate | enter | ret =>
    cases hs
    exact ha
  | _ => cases hs

theorem Sane.emits_moves (h : Sane count σ q loc) (ha : σ.allows a = true)
    (hm : σ.isMutex m = true) (he : Emits σ.kernel a e) : Semaphore.Event.moves m e = false := by
  have hsem {s : Nat} (hs : (!σ.isMutex s) = true) : decide (s = m) = false := by
    apply decide_eq_false
    rintro rfl
    rw [hm] at hs
    cases hs
  cases e with
  | took =>
    rcases he with ⟨c, usec, rfl⟩ | ⟨c, rfl⟩
    · exact hsem (Bool.and_eq_true_iff.1 ha).1
    · exact hsem (Bool.and_eq_true_iff.1 ha).1
  | posted | handed =>
    obtain ⟨c, rfl⟩ := he
    exact hsem (Bool.and_eq_true_iff.1 ha).1
  | blocked | timedOut => rfl
  | returned t s ret =>
    cases ret with
    | false => rfl
    | true =>
      obtain ⟨c, usec, rfl, hc, hp⟩ := he
      apply decide_eq_false
      rintro rfl
      obtain ⟨call, hst⟩ := h.waited s usec t (by rw [hp]; rfl) hm
      rw [outside_stage ha hc] at hst
      cases hst

theorem Sane.kernelStep (h : Sane count σ q loc) (ha : σ.allows a = true)
    (hb : Bounded σ.kernel a) (hx : Sched.exec σ.kernel a = .ok k) :
    ∃ q' loc', Sane count { σ with kernel := k } q' loc' := by
  obtain ⟨evs, hl, hem⟩ := step_emits (Sched.exec_step hx)
  obtain ⟨q', loc', hp, hst, hs⟩ := step_sound h.placed h.sound hb hx hl
  have hcall := step_call h.placed (Sched.exec_step hx)
  refine ⟨q', loc', hp, hs, ?_, h.own, h.mutex, h.unlocking, ?_, ?_⟩
  · intro m hm
    apply (h.excl m hm).other h.sound hst
    intro e he
    exact h.emits_moves ha hm (hem e he)
  · intro m call t hg
    rcases hcall t with he | ⟨c, hself, hc, -⟩
    · exact he.trans (h.waits m call t hg)
    · rw [outside_stage (allows_self ha hself) hc] at hg
      cases hg
  · intro m usec t he hm
    rcases hcall t with hsame | ⟨c, -, -, hw⟩
    · exact h.waited m usec t (hsame.symm.trans he) hm
    · rw [hw m usec he] at ha
      have hn := (Bool.and_eq_true_iff.1 ha).1
      rw [hm] at hn
      cases hn

theorem Sane.opStep (h : Sane count σ q loc) (hb : Bounded σ.kernel a)
    (hx : Sched.exec σ.kernel a = .ok k) (hl : semLog k.log = evs ++ semLog σ.kernel.log)
    (ha : ∀ c, self a = some c → σ.kernel.cpu c = ⟨.thread t, none⟩)
    (hexcl : ∀ b, Semaphore.Step (σ.kernel.spec q) evs b → ∀ m, σ.isMutex m = true →
      Semaphore.Exclusive b m ((σ.setStage t g).claim m))
    (hm : ∀ m, g.mutex = some m → σ.isMutex m = true) (hg : ∀ m, g ≠ .unlocking m)
    (hwaits : ∀ m call, g = .locking m call →
      (k.td t).pc.call = some (.semTimedwait m call.usec))
    (hwaited : ∀ m usec, (k.td t).pc.call = some (.semTimedwait m usec) →
      ∃ call, g = .locking m call) :
    ∃ q' loc', Sane count ({ σ with kernel := k }.setStage t g) q' loc' := by
  obtain ⟨q', loc', hp, hst, hs⟩ := step_sound h.placed h.sound hb hx hl
  have hcall {u : Nat} (hu : u ≠ t) : (k.td u).pc.call = (σ.kernel.td u).pc.call := by
    rcases step_call h.placed (Sched.exec_step hx) u with he | ⟨c, hself, hc, -⟩
    · exact he
    · rw [ha c hself] at hc
      cases hc
      exact absurd rfl hu
  have hstage {u : Nat} (hu : u ≠ t) : ({ σ with kernel := k }.setStage t g).stage u = σ.stage u :=
    update_of_ne hu _ _
  have hself : ({ σ with kernel := k }.setStage t g).stage t = g := update_self ..
  refine ⟨q', loc', hp, hs, hexcl _ hst, h.own, ?_, ?_, ?_, ?_⟩
  · intro m u hu
    by_cases hut : u = t
    · rw [hut, hself] at hu
      exact hm m hu
    · rw [hstage hut] at hu
      exact h.mutex m u hu
  · intro m u hu
    by_cases hut : u = t
    · rw [hut, hself] at hu
      exact absurd hu (hg m)
    · rw [hstage hut] at hu
      exact h.unlocking m u hu
  · intro m call u hu
    by_cases hut : u = t
    · rw [hut, hself] at hu
      rw [hut]
      exact hwaits m call hu
    · rw [hstage hut] at hu
      exact (hcall hut).trans (h.waits m call u hu)
  · intro m usec u hu hm
    by_cases hut : u = t
    · rw [hut] at hu
      rw [hut, hself]
      exact hwaited m usec hu
    · rw [hstage hut]
      exact h.waited m usec u ((hcall hut).symm.trans hu) hm

theorem claim_setStage (hg : g = .won m ∨ g = .unlocking m ↔
    σ.stage t = .won m ∨ σ.stage t = .unlocking m) (u : Nat) :
    (σ.setStage t g).claim m u ↔ σ.claim m u := by
  unfold State.claim
  by_cases hu : u = t
  · subst hu
    simp only [State.setStage, update_self, hg]
  · simp only [State.setStage, update_of_ne hu]

theorem claim_won (σ : State n) (t m u : Nat) :
    (σ.setStage t (.won m)).claim m u ↔ u = t ∨ σ.claim m u := by
  unfold State.claim
  by_cases hu : u = t
  · subst hu
    simp only [State.setStage, update_self, true_or, or_true]
  · simp only [State.setStage, update_of_ne hu, hu, false_or]

theorem Sane.took (h : Sane count σ q loc) (hc : σ.caller c m = some t)
    (ha : (∃ usec, a = .wait c m usec) ∨ a = .trywait c m) (hx : Sched.exec σ.kernel a = .ok k)
    (hl : semLog k.log = [.took m] ++ semLog σ.kernel.log) (hp : (k.td t).pc = .user) :
    ∃ q' loc', Sane count ({ σ with kernel := k }.setStage t (.won m)) q' loc' := by
  obtain ⟨hcaller, hm, hout⟩ := caller_out hc
  have hcpu := (caller_eq hcaller).1
  have hb : Bounded σ.kernel a := by
    rcases ha with ⟨usec, rfl⟩ | rfl
    · exact ⟨trivial, trivial⟩
    · exact ⟨trivial, trivial⟩
  apply h.opStep hb hx hl
  · intro d hd
    rcases ha with ⟨usec, rfl⟩ | rfl
    · cases hd
      exact hcpu
    · cases hd
  · intro b hst m' hm'
    by_cases hmm : m' = m
    · subst hmm
      exact ((h.excl m' hm').take hst t).congr (claim_won σ t m')
    · have hother : Semaphore.Exclusive b m' (σ.claim m') := by
        apply (h.excl m' hm').other h.sound hst
        exact forall_mem_singleton.2 (decide_eq_false (Ne.symm hmm))
      apply hother.congr
      apply claim_setStage
      simp [hout, Ne.symm hmm]
  · intro m' he
    cases he
    exact hm
  · exact fun _ => nofun
  · exact fun _ _ => nofun
  · intro m' usec hcall
    rw [hp] at hcall
    cases hcall

theorem Sane.blocked (h : Sane count σ q loc) (hc : σ.caller c m = some t)
    (hx : Sched.exec σ.kernel (.wait c m call.usec) = .ok k)
    (hl : semLog k.log = [.blocked t m] ++ semLog σ.kernel.log)
    (hp : (k.td t).pc.call = some (.semTimedwait m call.usec)) :
    ∃ q' loc', Sane count ({ σ with kernel := k }.setStage t (.locking m call)) q' loc' := by
  obtain ⟨hcaller, hm, hout⟩ := caller_out hc
  have hb : Bounded σ.kernel (.wait c m call.usec) := ⟨trivial, trivial⟩
  apply h.opStep hb hx hl
  · intro d hd
    cases hd
    exact (caller_eq hcaller).1
  · intro b hst m' hm'
    have hother : Semaphore.Exclusive b m' (σ.claim m') :=
      (h.excl m' hm').other h.sound hst (forall_mem_singleton.2 rfl)
    apply hother.congr
    apply claim_setStage
    simp [hout]
  · intro m' he
    cases he
    exact hm
  · exact fun _ => nofun
  · intro m' call' he
    cases he
    exact hp
  · intro m' usec hcall
    rw [hp] at hcall
    cases hcall
    exact ⟨call, rfl⟩

theorem takes_semResult (call : LockCall) (th : Thread n) :
    call.takes (semResult th call.usec) = semResult th call.usec := by
  cases call with
  | lock | timedlock | trylock => rfl

theorem Sane.returned (h : Sane count σ q loc) (hc : σ.kernel.cpu c = ⟨.thread t, none⟩)
    (hs : σ.stage t = .locking m call) (hx : Sched.exec σ.kernel (.ret c) = .ok k) :
    ∃ q' loc', Sane count
      (σ.answer t m call (k, some (semResult (σ.kernel.td t) call.usec))) q' loc' := by
  have hcall := h.waits m call t hs
  have hlog : semLog k.log = [.returned t m (semResult (σ.kernel.td t) call.usec)] ++
      semLog σ.kernel.log ∧ (k.td t).pc = .user := by
    have hst := Sched.exec_step hx
    cases hst with
    | retSem hc' hp =>
      rw [hc] at hc'
      cases hc'
      rw [hp] at hcall
      cases hcall
      refine ⟨rfl, ?_⟩
      simp only [Kernel.note, setTd_td_self]
    | ret hc' hp hne =>
      rw [hc] at hc'
      cases hc'
      rw [hp] at hcall
      exact absurd (Option.some.inj hcall) (hne _ _)
  obtain ⟨hl, hp⟩ := hlog
  have hb : Bounded σ.kernel (.ret c) := ⟨trivial, trivial⟩
  have hself : ∀ d, self (Act.ret c) = some d → σ.kernel.cpu d = ⟨.thread t, none⟩ := by
    intro d hd
    cases hd
    exact hc
  have hwaited : ∀ (g : Stage) m usec, (k.td t).pc.call = some (.semTimedwait m usec) →
      ∃ call, g = .locking m call := by
    intro g m usec he
    rw [hp] at he
    cases he
  unfold State.answer
  simp only [takes_semResult]
  cases hr : semResult (σ.kernel.td t) call.usec with
  | true =>
    rw [hr] at hl
    apply h.opStep hb hx hl hself
    · intro b hst m' hm'
      by_cases hmm : m' = m
      · subst hmm
        exact ((h.excl m' hm').finish hst).congr (claim_won σ t m')
      · have hother : Semaphore.Exclusive b m' (σ.claim m') := by
          apply (h.excl m' hm').other h.sound hst
          exact forall_mem_singleton.2 (decide_eq_false (Ne.symm hmm))
        apply hother.congr
        apply claim_setStage
        simp [hs, Ne.symm hmm]
    · intro m' he
      cases he
      exact h.mutex m t (by rw [hs]; rfl)
    · intro _ he
      cases he
    · intro _ _ he
      cases he
    · exact hwaited _
  | false =>
    rw [hr] at hl
    apply h.opStep hb hx hl hself
    · intro b hst m' hm'
      have hother : Semaphore.Exclusive b m' (σ.claim m') :=
        (h.excl m' hm').other h.sound hst (forall_mem_singleton.2 rfl)
      apply hother.congr
      apply claim_setStage
      simp [hs]
    · intro _ he
      cases he
    · intro _ he
      cases he
    · intro _ _ he
      cases he
    · exact hwaited _

theorem Sane.post (h : Sane count σ q loc) (hc : σ.kernel.caller c = some t)
    (hs : σ.stage t = .unlocking m) (hx : Sched.exec σ.kernel (.post c m) = .ok k) :
    ∃ q' loc', Sane count ({ σ with kernel := k }.setStage t .out) q' loc' := by
  have hm := h.mutex m t (by rw [hs]; rfl)
  have hh := h.unlocking m t hs
  have hclaim : σ.claim m t := .inr (.inr hs)
  have hcount : (σ.kernel.sem m).count = 0 := by
    rcases (h.excl m hm).one with h0 | h1
    · exact h0
    · exact absurd (.inl hclaim) ((h.excl m hm).free h1 t)
  have hb : Bounded σ.kernel (.post c m) := by
    refine ⟨trivial, fun _ => ?_⟩
    rw [hcount]
    decide
  have hlog : ∃ evs, semLog k.log = evs ++ semLog σ.kernel.log ∧ (k.td t).pc = .user ∧
      (evs = [.posted m] ∨ ∃ u, evs = [.handed u m, .posted m]) := by
    have hst := Sched.exec_step hx
    cases hst with
    | post => exact ⟨_, rfl, (caller_eq hc).2, .inl rfl⟩
    | postTo => exact ⟨_, rfl, (caller_eq hc).2, .inr ⟨_, rfl⟩⟩
  obtain ⟨evs, hl, hp, hevs⟩ := hlog
  apply h.opStep hb hx hl
  · exact fun _ => nofun
  · intro b hst m' hm'
    by_cases hmm : m' = m
    · subst hmm
      apply ((h.excl m' hm').give hclaim hst hevs).congr
      intro u
      unfold State.claim
      by_cases hu : u = t
      · subst hu
        simp [State.setStage, hh]
      · simp [State.setStage, hu]
    · have hother : Semaphore.Exclusive b m' (σ.claim m') := by
        apply (h.excl m' hm').other h.sound hst
        intro e he
        rcases hevs with rfl | ⟨u, rfl⟩
        · rw [mem_singleton.1 he]
          exact decide_eq_false (Ne.symm hmm)
        · rcases mem_cons.1 he with rfl | he
          · exact decide_eq_false (Ne.symm hmm)
          · rw [mem_singleton.1 he]
            exact decide_eq_false (Ne.symm hmm)
      apply hother.congr
      apply claim_setStage
      simp [hs, Ne.symm hmm]
  · exact fun _ => nofun
  · exact fun _ => nofun
  · exact fun _ _ => nofun
  · intro m' usec hcall
    rw [hp] at hcall
    cases hcall

@[simp] theorem setHolds_self (σ : State n) (m t : Nat) (b : Bool) :
    (σ.setHolds m t b).holds m t = b := by
  simp only [State.setHolds, update_self]

theorem setHolds_other (σ : State n) (b : Bool) (h : m' ≠ m ∨ u ≠ t) :
    (σ.setHolds m t b).holds m' u = σ.holds m' u := by
  by_cases hm : m' = m
  · subst hm
    rcases h with h | h
    · exact absurd rfl h
    · simp only [State.setHolds, update_self, update_of_ne h]
  · simp only [State.setHolds, update_of_ne hm]

theorem claim_setHolds (ht : σ.claim m t) (hg : b = true ∨ g = .unlocking m)
    (hother : ∀ m', m' ≠ m → (g = .won m' ∨ g = .unlocking m' ↔
      σ.stage t = .won m' ∨ σ.stage t = .unlocking m')) (m' u : Nat) :
    ((σ.setStage t g).setHolds m t b).claim m' u ↔ σ.claim m' u := by
  have hstage : ((σ.setStage t g).setHolds m t b).stage = (σ.setStage t g).stage := rfl
  by_cases hmu : m' = m ∧ u = t
  · obtain ⟨rfl, rfl⟩ := hmu
    refine iff_of_true ?_ ht
    unfold State.claim
    rw [setHolds_self, hstage]
    simp only [State.setStage, update_self]
    rcases hg with hg | hg
    · exact .inl hg
    · exact .inr (.inr hg)
  · have hne : m' ≠ m ∨ u ≠ t := not_and_or.1 hmu
    have hh : ((σ.setStage t g).setHolds m t b).holds m' u = σ.holds m' u :=
      setHolds_other (σ.setStage t g) b hne
    unfold State.claim
    rw [hh, hstage]
    by_cases hu : u = t
    · subst hu
      have hm : m' ≠ m := hne.resolve_right (fun h => h rfl)
      simp only [State.setStage, update_self, hother m' hm]
    · simp only [State.setStage, update_of_ne hu]

section
variable (h : Sane count σ q loc)
include h

theorem Sane.quietStep (ht : σ.claim m t) (hg : b = true ∧ g = .out ∨ b = false ∧ g = .unlocking m)
    (hm : σ.isMutex m = true) (hl : ∀ m call, σ.stage t ≠ .locking m call)
    (hother : ∀ m', m' ≠ m → (g = .won m' ∨ g = .unlocking m' ↔
      σ.stage t = .won m' ∨ σ.stage t = .unlocking m'))
    (hown : ∀ m' u, ((σ.setStage t g).setHolds m t b).holds m' u = true → td m' = some u) :
    Sane count { (σ.setStage t g).setHolds m t b with td := td } q loc := by
  have hgl : ∀ m call, g ≠ .locking m call := by
    rcases hg with ⟨-, rfl⟩ | ⟨-, rfl⟩
    · exact fun _ _ => nofun
    · exact fun _ _ => nofun
  have hb : b = true ∨ g = .unlocking m := hg.imp (fun h => h.1) (fun h => h.2)
  refine ⟨h.placed, h.sound, ?_, hown, ?_, ?_, ?_, ?_⟩
  · intro m' hm'
    exact (h.excl m' hm').congr (claim_setHolds ht hb hother m')
  · intro m' u hu
    have hu : (update σ.stage t g u).mutex = some m' := hu
    by_cases hut : u = t
    · subst hut
      rw [update_self] at hu
      rcases hg with ⟨-, rfl⟩ | ⟨-, rfl⟩
      · cases hu
      · cases hu
        exact hm
    · rw [update_of_ne hut] at hu
      exact h.mutex m' u hu
  · intro m' u hu
    have hu : update σ.stage t g u = .unlocking m' := hu
    by_cases hut : u = t
    · subst hut
      rw [update_self] at hu
      rcases hg with ⟨-, rfl⟩ | ⟨hbf, rfl⟩
      · cases hu
      · cases hu
        exact (setHolds_self _ _ _ _).trans hbf
    · rw [update_of_ne hut] at hu
      exact (setHolds_other (σ.setStage t g) b (.inr hut)).trans (h.unlocking m' u hu)
  · intro m' call u hu
    have hu : update σ.stage t g u = .locking m' call := hu
    by_cases hut : u = t
    · subst hut
      rw [update_self] at hu
      exact absurd hu (hgl m' call)
    · rw [update_of_ne hut] at hu
      exact h.waits m' call u hu
  · intro m' usec u hu hm'
    obtain ⟨call, hc⟩ := h.waited m' usec u hu hm'
    have hut : u ≠ t := by
      rintro rfl
      exact hl m' call hc
    exact ⟨call, (update_of_ne hut _ _).trans hc⟩

theorem Sane.owned (hs : σ.stage t = .won m) :
    Sane count (({ σ with td := update σ.td m (some t) }.setStage t .out).setHolds
      m t true) q loc := by
  have hm := h.mutex m t (by rw [hs]; rfl)
  have hclaim : σ.claim m t := .inr (.inl hs)
  apply h.quietStep hclaim (.inl ⟨rfl, rfl⟩) hm
  · intro m' call
    rw [hs]
    exact nofun
  · intro m' hm'
    simp [hs, Ne.symm hm']
  · intro m' u hu
    by_cases hmu : m' = m ∧ u = t
    · obtain ⟨rfl, rfl⟩ := hmu
      exact update_self ..
    · rw [setHolds_other _ _ (not_and_or.1 hmu)] at hu
      have hu : σ.holds m' u = true := hu
      have hm' : m' ≠ m := by
        rintro rfl
        apply hmu
        exact ⟨rfl, (h.excl m' hm).uniq u t (.inl (.inl hu)) (.inl hclaim)⟩
      exact (update_of_ne hm' _ _).trans (h.own m' u hu)

theorem Sane.unlock (hc : σ.caller c m = some t) (hh : σ.holds m t = true) :
    Sane count ((σ.setStage t (.unlocking m)).setHolds m t false) q loc := by
  obtain ⟨-, hm, hout⟩ := caller_out hc
  apply h.quietStep (.inl hh) (.inr ⟨rfl, rfl⟩) hm
  · intro m' call
    rw [hout]
    exact nofun
  · intro m' hm'
    simp [hout, Ne.symm hm']
  · intro m' u hu
    apply h.own m' u
    by_cases hmu : m' = m ∧ u = t
    · obtain ⟨rfl, rfl⟩ := hmu
      exact hh
    · rw [setHolds_other _ _ (not_and_or.1 hmu)] at hu
      exact hu

theorem Sane.step (hp : Proper σ op) (hs : Step σ op σ') : ∃ q' loc', Sane count σ' q' loc' := by
  cases hs with
  | kernel ha hx => exact h.kernelStep ha hp hx
  | took hc ha hx hl hpc => exact h.took hc ha hx hl hpc
  | blocked hc hx hl hpc => exact h.blocked hc hx hl hpc
  | refused => exact ⟨q, loc, h⟩
  | ret hc hst hx => exact h.returned hc hst hx
  | own hc hst => exact ⟨q, loc, h.owned hst⟩
  | unlock hc hm =>
    rcases hp _ hc with hh | hne
    · exact ⟨q, loc, h.unlock hc hh⟩
    · exact absurd hm hne
  | post hc hst hx => exact h.post hc hst hx

end

end

def initial (isMutex : Nat → Bool) (count : Nat → Int) (s : Nat) : Int :=
  if isMutex s then 1 else count s

theorem boot_sane (n nprio : Nat) (usecToTicks : Nat → Nat) (isMutex : Nat → Bool)
    (hn : ∀ s, 0 ≤ count s) :
    Sane (initial isMutex count) (boot n nprio usecToTicks isMutex count) (fun _ => [])
      (bootLoc n) := by
  have hspec := spec_boot n nprio usecToTicks (initial isMutex count)
  have hpc (t : Nat) : ((boot n nprio usecToTicks isMutex count).kernel.td t).pc = .user := by
    show (if t < n then mdxThreadInit else _ : Thread n).pc = .user
    split
    · rfl
    · rfl
  constructor
  · exact boot_placed n nprio usecToTicks (initial isMutex count)
  · have hinit : ∀ s, 0 ≤ initial isMutex count s := by
      intro s
      unfold initial
      split
      · decide
      · exact hn s
    have hsound := Semaphore.Sound.start (T := Nat) (initial isMutex count) hinit
    rw [← hspec] at hsound
    exact hsound
  · intro m hm
    have hm : isMutex m = true := hm
    have hclaim (t : Nat) : ¬(boot n nprio usecToTicks isMutex count).claim m t := by
      simp [State.claim, boot]
    have hc : initial isMutex count m = 1 := if_pos hm
    have hexcl : Semaphore.Exclusive
        ((Sched.boot n nprio usecToTicks (initial isMutex count)).spec fun _ => []) m
        ((boot n nprio usecToTicks isMutex count).claim m) := by
      rw [hspec]
      constructor
      · exact .inr hc
      · intro _ t
        simp [hclaim t]
      · intro t u ht
        simp [hclaim t] at ht
      · intro t _
        exact nofun
    exact hexcl
  · intro m t hh
    cases hh
  · intro m t hh
    cases hh
  · intro m t hh
    cases hh
  · intro m call t hh
    cases hh
  · intro m usec t hh
    rw [hpc] at hh
    cases hh

def Next (σ : State n) (op : Op n) (σ' : State n) : Prop := exec σ op = .ok σ'

/-- If every unlock that does not panic is by the thread that holds the mutex, then the count of a
mutex stays 0 or 1, at most one thread holds it, and while one does, an unlock by any other thread
panics. -/
theorem mutual_exclusion (hn : ∀ s, 0 ≤ count s)
    (h : Run Next Proper (boot n nprio usecToTicks isMutex count) σ) (hm : σ.isMutex m = true) :
    ((σ.kernel.sem m).count = 0 ∨ (σ.kernel.sem m).count = 1) ∧
    (∀ t u, σ.holds m t = true → σ.holds m u = true → t = u) ∧
    ∀ c t u, σ.holds m t = true → σ.caller c m = some u → u ≠ t →
      exec σ (.unlock c m) = .error (.panic .notOwner) := by
  have hsane : ∃ q loc, Sane (initial isMutex count) σ q loc := by
    apply h.invariant fun σ => ∃ q loc, Sane (initial isMutex count) σ q loc
    · exact ⟨_, _, boot_sane n nprio usecToTicks isMutex hn⟩
    · rintro σ op σ' ⟨q, loc, hs⟩ hp hx
      exact hs.step hp (exec_step hx)
  obtain ⟨q, loc, hs⟩ := hsane
  refine ⟨(hs.excl m hm).one, ?_, ?_⟩
  · intro t u ht hu
    exact (hs.excl m hm).uniq t u (.inl (.inl ht)) (.inl (.inl hu))
  · intro c t u ht hc hne
    have hown : σ.td m ≠ some u := by
      rw [hs.own m t ht]
      intro he
      exact hne (Option.some.inj he).symm
    simp only [exec, hc, mdxMutexUnlock, if_neg hown]

def twoThreads [NeZero n] : List (Op n) :=
  [.kernel (.create 0 2 1 0), .kernel (.create 0 3 1 0),
    .kernel (.enter 0), .kernel (.trap 0 false), .kernel (.park 0), .kernel (.pick 0),
    .kernel (.switch 0),
    .kernel (.enter 1), .kernel (.trap 1 false), .kernel (.park 1), .kernel (.pick 1),
    .kernel (.switch 1)]

theorem mutual_exclusion_handed :
    ∃ σ, Run Next Proper (boot 2 2 id (fun _ => true) fun _ => 0) σ ∧ σ.holds 0 3 = true ∧
      (∀ t, σ.holds 0 t = true → t = 3) ∧ (σ.kernel.sem 0).count = 0 := by
  obtain ⟨σ, hrun, hm, hh, hc⟩ := Run.of_guarded exec Proper
    (boot 2 2 id (fun _ => true) fun _ => 0)
    (twoThreads ++ [.lock 0 0, .own 0, .timedlock 1 0 5, .kernel (.trap 1 false),
      .unlock 0 0, .post 0, .kernel (.postNext 0), .kernel (.postNext 0), .kernel (.postNext 0),
      .kernel (.pick 1), .kernel (.switch 1), .ret 1, .own 1])
    (fun σ => σ.isMutex 0 = true ∧ σ.holds 0 3 = true ∧ (σ.kernel.sem 0).count = 0)
    (by decide +kernel)
  refine ⟨σ, hrun, hh, ?_, hc⟩
  intro t ht
  exact (mutual_exclusion (fun _ => le_refl 0) hrun hm).2.1 t 3 ht hh

def AnyUnlock (σ : State n) : Op n → Prop
  | .kernel a => Bounded σ.kernel a
  | _ => True

instance (σ : State n) : (op : Op n) → Decidable (AnyUnlock σ op)
  | .kernel a => inferInstanceAs (Decidable (Bounded σ.kernel a))
  | .lock .. | .timedlock .. | .trylock .. | .ret .. | .own .. | .unlock .. | .post .. =>
    isTrue trivial

/-- `m->td` still names the thread that has unlocked the mutex: its second unlock does not panic
but takes the count to 2, and two threads can lock the mutex. -/
theorem second_unlock_releases :
    (∃ σ, Run Next AnyUnlock (boot 2 2 id (fun _ => true) fun _ => 0) σ ∧
      σ.holds 0 2 = false ∧ (σ.kernel.sem 0).count = 2) ∧
    ∃ σ, Run Next AnyUnlock (boot 2 2 id (fun _ => true) fun _ => 0) σ ∧
      σ.holds 0 2 = true ∧ σ.holds 0 3 = true := by
  constructor
  · apply Run.of_guarded exec AnyUnlock (boot 2 2 id (fun _ => true) fun _ => 0)
      (twoThreads ++ [.lock 0 0, .own 0, .unlock 0 0, .post 0, .unlock 0 0, .post 0])
      (fun σ => σ.holds 0 2 = false ∧ (σ.kernel.sem 0).count = 2)
    decide +kernel
  · apply Run.of_guarded exec AnyUnlock (boot 2 2 id (fun _ => true) fun _ => 0)
      (twoThreads ++ [.lock 0 0, .own 0, .unlock 0 0, .post 0, .unlock 0 0, .post 0,
        .lock 0 0, .own 0, .lock 1 0, .own 1])
      (fun σ => σ.holds 0 2 = true ∧ σ.holds 0 3 = true)
    decide +kernel

end Mdepx.Mutex
