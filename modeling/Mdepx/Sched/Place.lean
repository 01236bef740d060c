import Mdepx.Sched.Step

namespace Mdepx.Sched
open Lib Function

inductive Loc (n : Nat) where
  | unborn
  | dead
  | queued (prio : Nat)
  | chosen (c : Fin n)
  | running (c : Fin n)
  /-- On the list of a semaphore, but its CPU has not left it yet. -/
  | entering (sem : Nat) (c : Fin n)
  | waiting (sem : Nat)
  /-- Removed by a post on CPU `p`, which spins until CPU `c` leaves the thread. -/
  | grabbed (sem : Nat) (p c : Fin n)
  | spun (sem : Nat) (p : Fin n)
  | handed (sem : Nat) (p : Fin n)
  | freed (sem : Nat) (p : Fin n)
  /-- Its sleep is set, but its CPU has not left it yet. -/
  | resting (c : Fin n)
  | asleep
  | ending (c : Fin n)

namespace Loc

def cpu : Loc n → Option (Fin n)
  | chosen c | running c | entering _ c | grabbed _ _ c | resting c | ending c => some c
  | _ => none

def head : Loc n → Option Head
  | queued p => some (.runq p)
  | entering s _ | waiting s => some (.sem s)
  | _ => none

def post : Loc n → Option (Fin n)
  | grabbed _ p _ | spun _ p | handed _ p | freed _ p => some p
  | _ => none

def phase : Loc n → Option (Nat × Phase)
  | grabbed s _ _ | spun s _ => some (s, .spin)
  | handed s _ => some (s, .cancel)
  | freed s _ => some (s, .wake)
  | _ => none

end Loc

def Ctx.td : Ctx → Option Nat
  | .thread t | .handler t false _ | .chosen t => some t
  | .handler _ true _ => none

def Cpu.td (cpu : Cpu) : Option Nat := cpu.ctx.td

def Cpu.posting (cpu : Cpu) : Option Nat := cpu.post.map (·.td)

def Cpu.spinning (cpu : Cpu) : Option Nat :=
  match cpu.post with
  | some ⟨_, s, .spin⟩ => some s
  | _ => none

def FitsCtx (cpu : Cpu) (l : Loc n) : Prop :=
  match cpu.ctx, l with
  | .thread _, .running _ | .thread _, .entering _ _ | .thread _, .grabbed _ _ _
  | .thread _, .resting _ | .thread _, .ending _ => True
  | .handler _ false _, .running _ => True
  | .chosen _, .chosen _ => True
  | _, _ => False

def FitsPost (cpu : Cpu) (l : Loc n) : Prop := cpu.post.map (fun p => (p.sem, p.phase)) = l.phase

def Callout.Off (co : Callout n φ) : Prop := co.active = false ∧ co.linked = []

def Callout.On (co : Callout n φ) (c : Fin n) (func : φ) : Prop :=
  co.active = true ∧ co.linked = [c] ∧ co.func = func

def Callout.Only (co : Callout n φ) (c : Fin n) (func : φ) : Prop := co.Off ∨ co.On c func

def Thread.Still (th : Thread n) : Prop := th.tdC.Off ∧ th.sleepC.Off

def Thread.Waits (th : Thread n) (s : Nat) : Prop :=
  th.idle = false ∧ ∃ usec, th.pc.call = some (.semTimedwait s usec) ∧
    (usec = 0 → th.tdC.Off) ∧ (usec ≠ 0 → th.timeout = false)

def Pc.Yields (pc : Pc) : Prop := ∃ call, pc = .before call

def TdState.Active (st : TdState) : Prop := st = .running ∨ st = .ready ∨ st = .yielding

def Thread.Queued (th : Thread n) : Prop :=
  (th.state = .ready ∨ th.state = .yielding) ∨
    th.idle = false ∧ (th.state = .ack ∧ th.pc.call = some .tsleep ∨ th.state = .wakeup)

/-- What the place of a thread says about its record. -/
def Good (th : Thread n) : Loc n → Prop
  | .unborn => th.life = .unborn ∧ th.Still ∧ th.pc = .user
  | .dead => th.life = .dead ∧ th.Still ∧ th.state = .terminating
  | .queued p => th.life = .live ∧ th.prio = p ∧ th.Queued ∧ th.Still
  | .chosen _ => th.life = .live ∧ th.Queued ∧ th.Still
  | .running c => th.life = .live ∧ th.sleepC.Off ∧ th.state.Active ∧
      (th.tdC.Off ∨ th.state = .running ∧ th.quantum ≠ 0 ∧ th.tdC.On c .schedCb)
  | .entering s c | .grabbed s _ c => th.life = .live ∧ th.sleepC.Off ∧ th.Waits s ∧
      th.pc.Yields ∧ th.state = .semWait ∧ th.tdC.Only c (.semCb s)
  | .waiting s | .spun s _ => th.life = .live ∧ th.sleepC.Off ∧ th.Waits s ∧
      th.state = .ack ∧ ∃ c, th.tdC.Only c (.semCb s)
  | .handed s _ => th.life = .live ∧ th.sleepC.Off ∧ th.Waits s ∧
      (th.state = .semUnlock ∧ (∃ c, th.tdC.Only c (.semCb s)) ∨
        th.state = .semUnlockAck ∧ th.tdC.Off)
  | .freed s _ => th.life = .live ∧ th.Still ∧ th.Waits s ∧
      (th.state = .semUnlock ∨ th.state = .semUnlockAck)
  | .resting c => th.life = .live ∧ th.tdC.Off ∧ th.pc = .before .tsleep ∧ th.state = .sleeping ∧
      th.idle = false ∧ th.sleepC.On c ()
  | .asleep => th.life = .live ∧ th.tdC.Off ∧ th.state = .ack ∧ th.pc.call = some .tsleep ∧
      th.idle = false ∧ ∃ c, th.sleepC.On c ()
  | .ending _ => th.life = .live ∧ th.Still ∧ th.pc.Yields ∧ th.state = .terminating

def Loc.states : Loc n → List TdState
  | unborn | dead => []
  | queued _ | chosen _ => [.ready, .yielding, .ack, .wakeup]
  | running _ => [.running, .ready, .yielding]
  | entering _ _ | grabbed _ _ _ => [.semWait]
  | waiting _ | spun _ _ | asleep => [.ack]
  | handed _ _ | freed _ _ => [.semUnlock, .semUnlockAck]
  | resting _ => [.sleeping]
  | ending _ => [.terminating]

theorem good_state {th : Thread n} (h : Good th l) (hl : th.life = .live) :
    th.state ∈ l.states := by
  cases l with
  | unborn | dead => exact absurd (hl.symm.trans h.1) (by decide)
  | queued =>
    rcases h.2.2.1 with (hs | hs) | ⟨-, ⟨hs, -⟩ | hs⟩
    all_goals simp [Loc.states, hs]
  | chosen =>
    rcases h.2.1 with (hs | hs) | ⟨-, ⟨hs, -⟩ | hs⟩
    all_goals simp [Loc.states, hs]
  | running =>
    rcases h.2.2.1 with hs | hs | hs
    all_goals simp [Loc.states, hs]
  | entering | grabbed => simp [Loc.states, h.2.2.2.2.1]
  | waiting | spun | resting => simp [Loc.states, h.2.2.2.1]
  | ending => simp [Loc.states, h.2.2.2]
  | asleep => simp [Loc.states, h.2.2.1]
  | handed =>
    rcases h.2.2.2 with ⟨hs, -⟩ | ⟨hs, -⟩
    all_goals simp [Loc.states, hs]
  | freed =>
    rcases h.2.2.2 with hs | hs
    all_goals simp [Loc.states, hs]

structure Lined (m : Links (Head ⊕ Nat)) (q : Head → List Nat) (loc : Nat → Loc n) : Prop where
  queues : Queues m q
  filed : Filed (Loc.head ∘ loc) q

/-- Every thread has a place, and lists, CPUs and posts agree with it. -/
structure Placed (k : Kernel n) (q : Head → List Nat) (loc : Nat → Loc n) : Prop where
  lined : Lined k.links q loc
  seated : Seating Loc.cpu Cpu.td FitsCtx k.cpu loc
  posting : Seating Loc.post Cpu.posting FitsPost k.cpu loc
  good : ∀ t, Good (k.td t) (loc t)
  lock : Matches (Sem.lock ∘ k.sem) (Cpu.spinning ∘ k.cpu)

theorem TdState.Active.notMem (h : TdState.Active st) :
    st ∉ [.semWait, .sleeping, .terminating] := by
  rcases h with rfl | rfl | rfl
  · decide
  · decide
  · decide

theorem Callout.off_zero (func : φ) : (Callout.zero func : Callout n φ).Off := ⟨rfl, rfl⟩

theorem Callout.Only.fired {co : Callout n φ} (h : co.Only c f) : co.fired.Off := by
  rcases h with ⟨-, hl⟩ | ⟨-, hl, -⟩
  · exact ⟨rfl, by rw [Callout.fired, hl]; rfl⟩
  · exact ⟨rfl, by rw [Callout.fired, hl]; rfl⟩

theorem Callout.Only.cancel {co : Callout n φ} (h : co.Only c f) : (mdxCalloutCancel co).Off := by
  rcases h with ⟨ha, hl⟩ | ⟨ha, hl, -⟩
  · simp only [mdxCalloutCancel, ha, Bool.false_eq_true, if_false]
    exact ⟨ha, hl⟩
  · simp only [mdxCalloutCancel, ha, if_true, hl]
    exact ⟨rfl, rfl⟩

theorem Callout.Off.set {co : Callout n φ} (h : co.Off) (c : Fin n) (ticks : Nat) (func : φ) :
    (mdxCalloutSetTicks (mdxCalloutInit co) c ticks func).Only c func := by
  simp only [mdxCalloutSetTicks, mdxCalloutInit, Bool.false_eq_true, if_false]
  split
  · exact .inl ⟨rfl, h.2⟩
  · exact .inr ⟨rfl, by rw [h.2], rfl⟩

theorem Callout.Off.on_set {co : Callout n φ} (hoff : co.Off) (c : Fin n) (func : φ)
    (h : ticks ≠ 0) : (mdxCalloutSetTicks (mdxCalloutInit co) c ticks func).On c func := by
  simp only [mdxCalloutSetTicks, mdxCalloutInit, Bool.false_eq_true, if_false, if_neg h]
  exact ⟨rfl, by rw [hoff.2], rfl⟩

theorem Callout.Off.not_linked {co : Callout n φ} (h : co.Off) : d ∉ co.linked := by
  rw [h.2]
  exact List.not_mem_nil

theorem Callout.Only.linked {co : Callout n φ} (h : co.Only c f) (hl : d ∈ co.linked) :
    d = c ∧ co.func = f := by
  rcases h with hn | ⟨-, hc, hf⟩
  · exact absurd hl hn.not_linked
  · rw [hc] at hl
    exact ⟨List.mem_singleton.1 hl, hf⟩

section
variable {m : Links (Head ⊕ Nat)} {q : Head → List Nat} {loc : Nat → Loc n}

section
variable (h : Lined m q loc)
include h

theorem Lined.keep (hl : l.head = (loc t).head) : Lined m q (update loc t l) := by
  refine ⟨h.queues, ?_⟩
  rw [comp_update, hl]
  have he : update (Loc.head ∘ loc) t (loc t).head = Loc.head ∘ loc :=
    update_eq_self t (Loc.head ∘ loc)
  rw [he]
  exact h.filed

theorem Lined.append (ht : (loc t).head = none) (hl : l.head = some i) :
    Lined (listAppend m (.inl i) (.inr t)) (update q i (q i ++ [t]))
      (update loc t l) := by
  refine ⟨h.queues.append (h.filed.notMem ht), ?_⟩
  rw [comp_update, hl]
  exact h.filed.append ht

theorem Lined.remove (ht : (loc t).head = some i) (hl : l.head = none) :
    Lined (listRemove m (.inr t)) (update q i ((q i).erase t))
      (update loc t l) := by
  refine ⟨h.queues.remove ((h.filed t i).1 ht), ?_⟩
  rw [comp_update, hl]
  exact h.filed.erase ht (h.queues.nodup i)

theorem Lined.transfer (ht : (loc t).head = some i) (hij : i ≠ j) (hl : l.head = some j) :
    Lined (listAppend (listRemove m (.inr t)) (.inl j) (.inr t))
      (update (update q i ((q i).erase t)) j (q j ++ [t]))
      (update loc t l) := by
  have hout := h.remove (l := Loc.dead) ht rfl
  have hin := hout.append (t := t) (l := l) (i := j) (by rw [update_self]; rfl) hl
  rw [update_idem, update_of_ne hij.symm] at hin
  exact hin

theorem Lined.unlinked (ht : (loc t).head = none) : (!listEmpty m (.inr t)) = false := by
  rw [h.queues.free_empty (h.filed.notMem ht)]
  rfl

end

end

section
variable {k : Kernel n} {q : Head → List Nat} {loc : Nat → Loc n} (h : Placed k q loc)
include h

theorem Placed.seat_fits (hc : k.cpu c = x) (hx : x.td = some t) :
    (loc t).cpu = some c ∧ FitsCtx x (loc t) := by
  subst hc
  exact ⟨(h.seated.held t c).2 hx, h.seated.fits c t hx⟩

theorem Placed.thread (hc : k.cpu c = ⟨.thread t, none⟩) :
    loc t = .running c ∨ (∃ s, loc t = .entering s c) ∨ (∃ s p, loc t = .grabbed s p c) ∨
      loc t = .resting c ∨ loc t = .ending c := by
  have hf := h.seat_fits hc rfl
  generalize loc t = l at hf ⊢
  obtain ⟨hl, hf⟩ := hf
  cases l with
  | running =>
    cases hl
    exact .inl rfl
  | entering s =>
    cases hl
    exact .inr (.inl ⟨s, rfl⟩)
  | grabbed s p =>
    cases hl
    exact .inr (.inr (.inl ⟨s, p, rfl⟩))
  | resting =>
    cases hl
    exact .inr (.inr (.inr (.inl rfl)))
  | ending =>
    cases hl
    exact .inr (.inr (.inr (.inr rfl)))
  | _ => exact hf.elim

theorem Placed.caller (hc : k.cpu c = ⟨.thread t, none⟩)
    (hp : ∀ call, (k.td t).pc ≠ .before call) : loc t = .running c := by
  have hg := h.good t
  rcases h.thread hc with hl | ⟨s, hl⟩ | ⟨s, p, hl⟩ | hl | hl
  · exact hl
  · rw [hl] at hg
    obtain ⟨call, hcall⟩ := hg.2.2.2.1
    exact absurd hcall (hp call)
  · rw [hl] at hg
    obtain ⟨call, hcall⟩ := hg.2.2.2.1
    exact absurd hcall (hp call)
  · rw [hl] at hg
    exact absurd hg.2.2.1 (hp _)
  · rw [hl] at hg
    obtain ⟨call, hcall⟩ := hg.2.2.1
    exact absurd hcall (hp call)

theorem Placed.handling (hc : (k.cpu c).ctx = .handler t false i) : loc t = .running c := by
  have hcpu : k.cpu c = ⟨.handler t false i, (k.cpu c).post⟩ := by rw [← hc]
  have hf := h.seat_fits hcpu rfl
  generalize loc t = l at hf ⊢
  obtain ⟨hl, hf⟩ := hf
  cases l with
  | running =>
    cases hl
    rfl
  | _ => exact hf.elim

theorem Placed.interrupted (hc : k.cpu c = ⟨.handler t false i, none⟩) : loc t = .running c :=
  h.handling (congrArg Cpu.ctx hc)

theorem Placed.chosen (hc : k.cpu c = ⟨.chosen t, none⟩) :
    loc t = .chosen c := by
  have hf := h.seat_fits hc rfl
  generalize loc t = l at hf ⊢
  obtain ⟨hl, hf⟩ := hf
  cases l with
  | chosen =>
    cases hl
    rfl
  | _ => exact hf.elim

theorem Placed.post_fits (hc : (k.cpu c).post = some ⟨t, s, ph⟩) :
    (loc t).post = some c ∧ (loc t).phase = some (s, ph) := by
  have htd : (k.cpu c).posting = some t := by
    rw [Cpu.posting, hc]
    rfl
  have hf := h.posting.fits c t htd
  rw [FitsPost, hc] at hf
  exact ⟨(h.posting.held t c).2 htd, hf.symm⟩

theorem Placed.spinning (hc : (k.cpu c).post = some ⟨t, s, .spin⟩) :
    (∃ d, loc t = .grabbed s c d) ∨ loc t = .spun s c := by
  have hf := h.post_fits hc
  generalize loc t = l at hf ⊢
  obtain ⟨hl, hf⟩ := hf
  cases l with
  | grabbed s' p d =>
    cases hl
    cases hf
    exact .inl ⟨d, rfl⟩
  | spun =>
    cases hl
    cases hf
    exact .inr rfl
  | _ => cases hf

theorem Placed.cancelling (hc : (k.cpu c).post = some ⟨t, s, .cancel⟩) :
    loc t = .handed s c := by
  have hf := h.post_fits hc
  generalize loc t = l at hf ⊢
  obtain ⟨hl, hf⟩ := hf
  cases l with
  | handed =>
    cases hl
    cases hf
    rfl
  | _ => cases hf

theorem Placed.waking (hc : (k.cpu c).post = some ⟨t, s, .wake⟩) :
    loc t = .freed s c := by
  have hf := h.post_fits hc
  generalize loc t = l at hf ⊢
  obtain ⟨hl, hf⟩ := hf
  cases l with
  | freed =>
    cases hl
    cases hf
    rfl
  | _ => cases hf

end

end Mdepx.Sched
