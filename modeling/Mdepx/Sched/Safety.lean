import Mdepx.Sched.Track
import Mdepx.Lib.Run

namespace Mdepx.Sched
open Lib Function

def Next (k : Kernel n) (a : Act n) (k' : Kernel n) : Prop := exec k a = .ok k'

inductive Place (n : Nat) where
  | current (c : Fin n) | runq (prio : Nat) | sem (s : Nat) | asleep | removed (c : Fin n)
deriving DecidableEq

def InPlace (k : Kernel n) (q : Head → List Nat) (t : Nat) : Place n → Prop
  | .current c => (k.cpu c).td = some t
  | .runq p => t ∈ q (.runq p)
  | .sem s => t ∈ q (.sem s)
  | .asleep => (k.td t).sleepC.linked ≠ []
  | .removed c => (k.cpu c).posting = some t

/-- No CPU is between the change of its thread's state and the exception that follows. -/
def AtBoundary (k : Kernel n) : Prop :=
  ∀ c t, (k.cpu c).ctx = .thread t → (k.td t).state ≠ .semWait ∧ (k.td t).state ≠ .sleeping

def Loc.places : Loc n → List (Place n)
  | .unborn | .dead => []
  | .queued p => [.runq p]
  | .chosen c | .running c | .ending c => [.current c]
  | .entering s c => [.current c, .sem s]
  | .waiting s => [.sem s]
  | .grabbed _ p c => [.current c, .removed p]
  | .spun _ p | .handed _ p | .freed _ p => [.removed p]
  | .resting c => [.current c, .asleep]
  | .asleep => [.asleep]

section
variable {k k' : Kernel n} {q : Head → List Nat} {loc : Nat → Loc n}

section
variable (h : Placed k q loc)
include h

theorem Placed.sleepC_iff :
    (k.td t).sleepC.linked ≠ [] ↔ (∃ c, loc t = .resting c) ∨ loc t = .asleep := by
  constructor
  · intro hn
    obtain ⟨c, hc⟩ := List.exists_mem_of_ne_nil _ hn
    rcases h.sleepC_linked hc with hl | hl
    · exact .inl ⟨c, hl⟩
    · exact .inr hl
  · intro hl
    have hg := h.good t
    rcases hl with ⟨c, hl⟩ | hl
    · rw [hl] at hg
      rw [hg.2.2.2.2.2.2.1]
      simp
    · rw [hl] at hg
      obtain ⟨-, -, -, -, -, c, hon⟩ := hg
      rw [hon.2.1]
      simp

theorem Placed.inPlace_iff (p : Place n) :
    InPlace k q t p ↔ p ∈ (loc t).places := by
  cases p with
  | current c =>
    rw [InPlace, ← comp_apply (f := Cpu.td), ← h.seated.held t c, comp_apply]
    cases loc t <;> simp [Loc.cpu, Loc.places, eq_comm]
  | runq p =>
    rw [InPlace, ← h.lined.filed t (.runq p), comp_apply]
    cases loc t <;> simp [Loc.head, Loc.places, eq_comm]
  | sem s =>
    rw [InPlace, ← h.lined.filed t (.sem s), comp_apply]
    cases loc t <;> simp [Loc.head, Loc.places, eq_comm]
  | asleep =>
    rw [InPlace, h.sleepC_iff]
    cases loc t <;> simp [Loc.places]
  | removed c =>
    rw [InPlace, ← comp_apply (f := Cpu.posting), ← h.posting.held t c,
      comp_apply]
    cases loc t <;> simp [Loc.post, Loc.places, eq_comm]

theorem Placed.runq_prio (ht : t ∈ q (.runq p)) : p = (k.td t).prio := by
  have hg := h.good t
  rw [h.in_runq ht] at hg
  exact hg.2.1.symm

theorem Placed.places_one (hlive : (k.td t).life = .live)
    (hs : (k.td t).state ≠ .semWait ∧ (k.td t).state ≠ .sleeping) : ∃ p, (loc t).places = [p] := by
  have hg := h.good t
  generalize loc t = l at hg ⊢
  cases l with
  | unborn | dead => exact absurd (hlive.symm.trans hg.1) (by decide)
  | entering | grabbed => exact absurd hg.2.2.2.2.1 hs.1
  | resting =>
    exact absurd hg.2.2.2.1 hs.2
  | _ => exact ⟨_, rfl⟩

theorem Placed.one_place (hlive : (k.td t).life = .live)
    (hs : (k.td t).state ≠ .semWait ∧ (k.td t).state ≠ .sleeping) : ∃! p, InPlace k q t p := by
  obtain ⟨p, hp⟩ := h.places_one hlive hs
  refine ⟨p, ?_, ?_⟩
  · show InPlace k q t p
    rw [h.inPlace_iff, hp]
    exact List.mem_singleton_self p
  · intro p' hp'
    rw [h.inPlace_iff, hp] at hp'
    exact List.mem_singleton.1 hp'

theorem Placed.down_loc (hlive : (k.td t).life = .live)
    (hs : (k.td t).state = .semWait ∨ (k.td t).state = .sleeping) :
    ∃ c, (∃ s, loc t = .entering s c) ∨ (∃ s p, loc t = .grabbed s p c) ∨ loc t = .resting c := by
  have hm := good_state (h.good t) hlive
  generalize loc t = l at hm ⊢
  cases l with
  | entering s c => exact ⟨c, .inl ⟨s, rfl⟩⟩
  | grabbed s p c => exact ⟨c, .inr (.inl ⟨s, p, rfl⟩)⟩
  | resting c => exact ⟨c, .inr (.inr rfl)⟩
  | _ => rcases hs with hs | hs <;> simp [Loc.states, hs] at hm

theorem Placed.runs (hc : (loc t).cpu = some c)
    (hl : (∀ d, loc t ≠ .running d) ∧ ∀ d, loc t ≠ .chosen d) : (k.cpu c).ctx = .thread t := by
  have htd := (h.seated.held t c).1 hc
  have hf := h.seated.fits c t htd
  rw [comp_apply, Cpu.td] at htd
  unfold FitsCtx at hf
  cases hctx : (k.cpu c).ctx with
  | thread =>
    rw [hctx] at htd
    cases htd
    rfl
  | handler u r =>
    rw [hctx] at hf
    cases r with
    | true => exact hf.elim
    | false =>
      cases hlt : loc t with
      | running d => exact absurd hlt (hl.1 d)
      | _ =>
        rw [hlt] at hf
        exact hf.elim
  | chosen =>
    rw [hctx] at hf
    cases hlt : loc t with
    | chosen d => exact absurd hlt (hl.2 d)
    | _ =>
      rw [hlt] at hf
      exact hf.elim

theorem Placed.put_down (hlive : (k.td t).life = .live)
    (hs : (k.td t).state = .semWait ∨ (k.td t).state = .sleeping) :
    ∃ c p, (k.cpu c).ctx = .thread t ∧ (∀ d, p ≠ .current d) ∧
      ∀ p', InPlace k q t p' ↔ p' = .current c ∨ p' = p := by
  obtain ⟨c, ⟨s, hl⟩ | ⟨s, p, hl⟩ | hl⟩ := h.down_loc hlive hs
  · refine ⟨c, .sem s, h.runs (by rw [hl]; rfl) (by simp [hl]), by simp, ?_⟩
    intro p'
    rw [h.inPlace_iff, hl]
    simp [Loc.places]
  · refine ⟨c, .removed p, h.runs (by rw [hl]; rfl) (by simp [hl]), by simp, ?_⟩
    intro p'
    rw [h.inPlace_iff, hl]
    simp [Loc.places]
  · refine ⟨c, .asleep, h.runs (by rw [hl]; rfl) (by simp [hl]), by simp, ?_⟩
    intro p'
    rw [h.inPlace_iff, hl]
    simp [Loc.places]

theorem Placed.boundary (hb : AtBoundary k) (hlive : (k.td t).life = .live) :
    ∃! p, InPlace k q t p := by
  apply h.one_place hlive
  rw [← not_or]
  intro hs
  obtain ⟨c, -, hc, -⟩ := h.put_down hlive hs
  exact not_or.2 (hb c t hc) hs

end

def handlerPanics : List Panic :=
  [.wrongState, .unknownState, .notRunning, .semCb, .tsleepCb, .semPost]

theorem mdxSchedAdd_panic (hx : mdxSchedAdd k t = .error (.panic p)) : p = .prio := by
  unfold mdxSchedAdd at hx
  split at hx
  · cases hx
  · cases hx
    rfl

section
variable (h : Placed k q loc)
include h

theorem Placed.fire_no_panic (hx : fire k c t = .error (.panic p)) : p ∉ handlerPanics := by
  unfold fire at hx
  split at hx
  · rename_i u r hc
    split at hx
    · rename_i hl
      cases hf : (k.td t).tdC.func with
      | schedCb =>
        obtain ⟨-, -, -, hst⟩ := h.fires_sched hc hl hf
        rw [hf] at hx
        simp only [runFunc, mdxSchedCb, setTd_td_self, if_pos hst] at hx
        cases hx
      | semCb s =>
        rw [hf] at hx
        simp only [runFunc, mdxSemCb, setTd_td_self] at hx
        split at hx
        · cases hx
        · rename_i hk
          have hk : (k.sem s).lock = none := Option.not_isSome_iff_eq_none.1 hk
          rcases h.fires_sem hc hl hf hk with hlt | ⟨d, -, hst⟩
          · simp only [h.waiting_ack hlt, reduceCtorEq, if_false, if_true] at hx
            rw [mdxSchedAdd_panic hx]
            decide
          · simp only [hst, if_true] at hx
            cases hx
    · cases hx
  · cases hx

theorem Placed.fireSleep_no_panic (hx : fireSleep k c t = .error (.panic p)) :
    p ∉ handlerPanics := by
  unfold fireSleep at hx
  split at hx
  · rename_i u r hc
    split at hx
    · rename_i hl
      have hg := h.good t
      rw [h.fires_sleep hc hl] at hg
      simp only [mdxTsleepCb, setTd_td_self, if_pos hg.2.2.1] at hx
      rw [mdxSchedAdd_panic hx]
      decide
    · cases hx
  · cases hx

theorem Placed.park_no_panic (hx : park k c = .error (.panic p)) : p ∉ handlerPanics := by
  unfold park at hx
  split at hx
  · rename_i t intr hc
    have hg := h.good t
    rw [h.interrupted hc] at hg
    split at hx
    · cases hx
    · cases hx
    · rename_i e he
      cases hx
      unfold mdxSchedPark at he
      have hadd (ha : (mdxSchedAdd k t).map (·, true) = .error (.panic p)) : p = .prio := by
        cases hm : mdxSchedAdd k t with
        | error =>
          rw [hm] at ha
          cases ha
          exact mdxSchedAdd_panic hm
        | ok =>
          rw [hm] at ha
          cases ha
      rcases hg.2.2.1 with hst | hst | hst
      · simp only [hst] at he
        cases he
      · simp only [hst] at he
        rw [hadd he]
        decide
      · simp only [hst] at he
        rw [hadd he]
        decide
  · cases hx

theorem Placed.postNext_no_panic (hc : (k.cpu c).post = some po)
    (hx : mdxSemPostNext k c po = .error (.panic p)) : p ∉ handlerPanics := by
  obtain ⟨t, s, ph⟩ := po
  cases ph with
  | spin =>
    simp only [mdxSemPostNext] at hx
    split at hx
    · cases hx
    · cases hx
  | cancel => cases hx
  | wake =>
    have hg := h.good t
    rw [h.waking hc] at hg
    simp only [mdxSemPostNext, if_pos hg.2.2.2] at hx
    rw [mdxSchedAdd_panic hx]
    decide

end

theorem map_panic {e : Except Stop α} {f : α → β} (h : e.map f = .error (.panic p)) :
    e = .error (.panic p) := by
  cases e with
  | error =>
    cases h
    rfl
  | ok => cases h

theorem Placed.no_panic (h : Placed k q loc) (hx : exec k a = .error (.panic p)) :
    p ∉ handlerPanics := by
  cases a with
  | fire => exact h.fire_no_panic hx
  | fireSleep => exact h.fireSleep_no_panic hx
  | park => exact h.park_no_panic hx
  | postNext c =>
    simp only [exec] at hx
    split at hx
    · rename_i po hc
      exact h.postNext_no_panic hc hx
    · cases hx
  | trap =>
    simp only [exec, trap] at hx
    split at hx
    · split at hx
      · cases hx
      · cases hx
    · cases hx
  | pick =>
    simp only [exec, Sched.pick] at hx
    split at hx
    · split at hx
      · cases hx
      · cases hx
        decide
    · cases hx
  | switch =>
    simp only [exec, Sched.switch] at hx
    split at hx
    · have he := map_panic hx
      simp only [mdxSchedNextSwitch] at he
      split at he
      · cases he
      · split at he
        · cases he
          decide
        · cases he
    · cases hx
  | wait =>
    simp only [exec] at hx
    split at hx
    · have he := map_panic hx
      simp only [mdxSemTimedwait] at he
      split at he
      · cases he
        decide
      · split at he
        · cases he
        · split at he
          · cases he
          · cases he
    · cases hx
  | trywait =>
    simp only [exec] at hx
    split at hx
    · have he := map_panic hx
      simp only [mdxSemTrywait] at he
      split at he
      · cases he
      · split at he
        · cases he
        · cases he
    · cases hx
  | post =>
    simp only [exec, mdxSemPost] at hx
    split at hx
    · split at hx
      · cases hx
      · split at hx
        · cases hx
        · cases hx
    · cases hx
  | tsleep =>
    simp only [exec] at hx
    split at hx
    · simp only [mdxTsleep] at hx
      split at hx
      · cases hx
        decide
      · split at hx
        · cases hx
          decide
        · cases hx
    · cases hx
  | yield | terminate =>
    simp only [exec] at hx
    split at hx
    · cases hx
    · cases hx
  | enter =>
    simp only [exec] at hx
    split at hx
    · split at hx
      · cases hx
      · cases hx
        decide
    · cases hx
  | create =>
    simp only [exec] at hx
    split at hx
    · rw [mdxSchedAdd_panic hx]
      decide
    · cases hx
  | ret =>
    simp only [exec, ret] at hx
    split at hx
    · split at hx
      · cases hx
      · cases hx
        decide
      · cases hx
      · cases hx
    · cases hx

theorem run_placed (h : Run Next YieldsFree (boot n nprio usecToTicks count) k) :
    ∃ q loc, Placed k q loc ∧ ∀ t, .inserted t true ∉ k.log := by
  apply h.invariant (fun k => ∃ q loc, Placed k q loc ∧ ∀ t, .inserted t true ∉ k.log)
  · exact ⟨_, _, boot_placed n nprio usecToTicks count, fun _ => List.not_mem_nil⟩
  · rintro k a k' ⟨q, loc, hp, hlog⟩ hy hx
    obtain ⟨q', loc', ht⟩ := hp.step hy (exec_step hx)
    exact ⟨q', loc', ht.placed, fun t hm => hlog t (ht.fresh t hm)⟩

/-- Every thread is in exactly one place: at the boundaries of the exception handler, and at all
times but for a thread that has put itself down and is still on its CPU. No `td_node` is inserted
while it is linked, and the handler does not panic. -/
theorem every_thread_in_one_place (h : Run Next YieldsFree (boot n nprio usecToTicks count) k) :
    (∃ q, Queues k.links q ∧ (∀ t p, t ∈ q (.runq p) → p = (k.td t).prio) ∧
      ∀ t, (k.td t).life = .live →
      (AtBoundary k → ∃! p, InPlace k q t p) ∧
      ((k.td t).state ≠ .semWait ∧ (k.td t).state ≠ .sleeping → ∃! p, InPlace k q t p) ∧
      ((k.td t).state = .semWait ∨ (k.td t).state = .sleeping →
        ∃ c p, (k.cpu c).ctx = .thread t ∧ (∀ d, p ≠ .current d) ∧
          ∀ p', InPlace k q t p' ↔ p' = .current c ∨ p' = p)) ∧
    (∀ t, .inserted t true ∉ k.log) ∧
    ∀ a p, exec k a = .error (.panic p) → p ∉ handlerPanics := by
  obtain ⟨q, loc, hp, hlog⟩ := run_placed h
  refine ⟨⟨q, hp.lined.queues, fun t p ht => hp.runq_prio ht, ?_⟩, hlog,
    fun a p hx => hp.no_panic hx⟩
  intro t hlive
  exact ⟨fun hb => hp.boundary hb hlive, hp.one_place hlive, hp.put_down hlive⟩

theorem every_thread_in_one_place_asleep :
    ∃ k, Run Next YieldsFree (boot 1 2 id fun _ => 0) k ∧ (k.td 1).life = .live ∧
      (k.td 1).state = .ack ∧ ∃ q, Queues k.links q ∧ ∃! p, InPlace k q 1 p := by
  obtain ⟨k, hrun, hl, hs⟩ := Run.of_guarded exec YieldsFree (boot 1 2 id fun _ => 0)
    [.create 0 1 1 0, .enter 0, .trap 0 false, .park 0, .pick 0, .switch 0, .yield 0,
      .trap 0 false, .park 0, .pick 0, .switch 0, .ret 0, .tsleep 0 5, .trap 0 false, .pick 0,
      .switch 0]
    (fun k => (k.td 1).life = .live ∧ (k.td 1).state = .ack) (by decide +kernel)
  obtain ⟨⟨q, hq, -, hone⟩, -⟩ := every_thread_in_one_place hrun
  refine ⟨k, hrun, hl, hs, q, hq, (hone 1 hl).2.1 ?_⟩
  rw [hs]
  decide

/-- The `td_c` of a thread that is to be switched to is not linked, and `mdx_sched_cb` is called
for the interrupted thread only, which is running. -/
def QuantumSafe (k : Kernel n) : Prop :=
  (∀ c t, k.cpu c = ⟨.chosen t, none⟩ → (k.td t).tdC.linked = []) ∧
  ∀ c t u r, k.cpu c = ⟨.handler u r true, none⟩ → c ∈ (k.td t).tdC.linked →
    (k.td t).tdC.func = .schedCb → u = t ∧ r = false ∧ (k.td t).state = .running

/-- If only threads of quantum 0 yield, the quantum's callout is never set while it is linked. -/
theorem quantum_never_rearmed (h : Run Next YieldsFree (boot n nprio usecToTicks count) k) :
    QuantumSafe k := by
  obtain ⟨q, loc, hp, -⟩ := run_placed h
  constructor
  · intro c t hc
    have hg := hp.good t
    rw [hp.chosen hc] at hg
    exact hg.2.2.1.2
  · intro c t u r hc hl hf
    exact (hp.fires_sched hc hl hf).2

theorem quantum_never_rearmed_expiry :
    ∃ k, Run Next YieldsFree (boot 1 2 id fun _ => 0) k ∧
      k.cpu 0 = ⟨.handler 1 false true, none⟩ ∧ 0 ∈ (k.td 1).tdC.linked ∧
      (k.td 1).tdC.func = .schedCb ∧ (k.td 1).state = .running := by
  obtain ⟨k, hrun, hc, hl, hf⟩ := Run.of_guarded exec YieldsFree (boot 1 2 id fun _ => 0)
    [.create 0 1 1 7, .enter 0, .trap 0 false, .park 0, .pick 0, .switch 0, .trap 0 true]
    (fun k => k.cpu 0 = ⟨.handler 1 false true, none⟩ ∧ 0 ∈ (k.td 1).tdC.linked ∧
      (k.td 1).tdC.func = .schedCb) (by decide +kernel)
  exact ⟨k, hrun, hc, hl, hf, ((quantum_never_rearmed hrun).2 0 1 1 false hc hl hf).2.2⟩

/-- A thread with a quantum yields: nothing cancels its callout, which is set again while it is
linked when the thread is picked next. -/
theorem yield_rearms_quantum :
    ∃ k, Run Next (fun _ _ => True) (boot 1 2 id fun _ => 0) k ∧ ¬QuantumSafe k := by
  obtain ⟨k, hrun, hc, hl⟩ := Run.of_guarded exec (fun _ _ => True) (boot 1 2 id fun _ => 0)
    [.create 0 1 1 7, .enter 0, .trap 0 false, .park 0, .pick 0, .switch 0, .yield 0,
      .trap 0 false, .park 0, .pick 0]
    (fun k => k.cpu 0 = ⟨.chosen 1, none⟩ ∧ 0 ∈ (k.td 1).tdC.linked) (by decide +kernel)
  refine ⟨k, hrun, ?_⟩
  intro hs
  rw [hs.1 0 1 hc] at hl
  cases hl

end
end Mdepx.Sched
