import Mdepx.Lib.Run
import Mdepx.Lib.Semaphore
import Mdepx.Sched.Basic

namespace Mdepx.Nosched
open Lib Lib.Semaphore Sched Function

/-! The semaphores of `kernel/nosched/mdx_sem.c`: there is one thread, and interrupts. -/

/-- A call of `mdx_sem_timedwait` in progress, with the `timeout` of its token. -/
structure Wait where
  sem : Nat
  usec : Nat
  calloutConfigured : Bool
  timeout : Bool

/-- The log has a call as blocked from its start on. `stray` is set when a callback writes to the
token of a call that has returned. -/
structure State where
  count : Nat → Int
  tdC : Callout 1 Func
  wait : Option Wait
  stray : Bool
  log : List (Event Nat Unit)

/-- `round` is a round of the loop of the call in progress, `fire` the interrupt that invokes
`mdx_sem_cb`. The handlers of other interrupts may try to take a permit and may post. -/
inductive Op where
  | timedwait (s usec : Nat)
  | round
  | trywait (s : Nat)
  | post (s : Nat)
  | fire

def mdxSemRound (usecToTicks : Nat → Nat) (σ : State) (w : Wait) : State :=
  if 0 < σ.count w.sem then { σ with
    count := update σ.count w.sem (σ.count w.sem - 1)
    tdC := if w.calloutConfigured then mdxCalloutCancel σ.tdC else σ.tdC
    wait := none
    log := .returned () w.sem true :: .handed () w.sem :: σ.log }
  else if w.usec = 0 then σ
  else if w.calloutConfigured = false then { σ with
    tdC := mdxCalloutSetTicks (mdxCalloutInit σ.tdC) (Fin.last 0) (usecToTicks w.usec)
      (.semCb w.sem)
    wait := some { w with calloutConfigured := true, timeout := false } }
  else if w.timeout then { σ with
    wait := none
    log := .returned () w.sem false :: .timedOut () w.sem :: σ.log }
  else σ

def exec (usecToTicks : Nat → Nat) (σ : State) : Op → Option State
  | .timedwait s usec =>
    if σ.wait.isSome then none
    else some { σ with wait := some ⟨s, usec, false, false⟩, log := .blocked () s :: σ.log }
  | .round => σ.wait.map (mdxSemRound usecToTicks σ)
  | .trywait s => some <|
    if 0 < σ.count s then { σ with
      count := update σ.count s (σ.count s - 1)
      log := .took s :: σ.log }
    else σ
  | .post s => some { σ with
    count := update σ.count s ((σ.count s + 1).bmod (2 ^ 32))
    log := .posted s :: σ.log }
  | .fire =>
    if σ.tdC.active then some { σ with
      tdC := σ.tdC.fired
      wait := σ.wait.map fun w => { w with timeout := true }
      stray := σ.stray || !σ.wait.any Wait.calloutConfigured }
    else none

def NoWrap (σ : State) : Op → Prop
  | .post s => σ.count s < 2 ^ 31 - 1
  | _ => True

instance (σ : State) : (op : Op) → Decidable (NoWrap σ op)
  | .post s => inferInstanceAs (Decidable (σ.count s < 2 ^ 31 - 1))
  | .timedwait .. | .round | .trywait .. | .fire => isTrue trivial

def boot (count : Nat → Int) : State := ⟨count, ⟨false, [], .schedCb⟩, none, false, []⟩

structure Inv (n₀ : Nat → Int) (σ : State) : Prop where
  nonneg : ∀ s, 0 ≤ σ.count s
  balance : ∀ s, σ.count s + grants s σ.log = n₀ s + posts s σ.log
  follows : follow () σ.log = some ((σ.wait.map fun w => .pending w.sem).getD .idle)
  armed : σ.tdC.active = true →
    ∃ w, σ.wait = some w ∧ w.calloutConfigured = true ∧ w.timeout = false
  stray : σ.stray = false

theorem Inv.recount (h : Inv n₀ σ) (evs : List (Event Nat Unit)) (hn : 0 ≤ n)
    (hself : n + grants s evs = σ.count s + posts s evs)
    (hother : ∀ s', s' ≠ s → grants s' evs = posts s' evs) :
    (∀ s', 0 ≤ update σ.count s n s') ∧
      ∀ s', update σ.count s n s' + grants s' (evs ++ σ.log) = n₀ s' + posts s' (evs ++ σ.log) :=
  ⟨(forall_update_iff σ.count fun _ n => 0 ≤ n).2 ⟨hn, fun s _ => h.nonneg s⟩,
    balance_update h.balance evs hself hother⟩

theorem Inv.round (h : Inv n₀ σ) (hw : σ.wait = some w) :
    Inv n₀ (mdxSemRound usecToTicks σ w) := by
  have hfollows := h.follows
  rw [hw] at hfollows
  have harmed (ha : σ.tdC.active = true) : w.calloutConfigured = true ∧ w.timeout = false := by
    obtain ⟨w', hw', hset⟩ := h.armed ha
    cases hw.symm.trans hw'
    exact hset
  unfold mdxSemRound
  split
  · rename_i hn
    obtain ⟨hnonneg, hbalance⟩ := h.recount (s := w.sem) (n := σ.count w.sem - 1)
      [.returned () w.sem true, .handed () w.sem] (by omega)
      (by simp [grants, posts, Event.isGrant, Event.isPost])
      fun s hs => by simp [grants, posts, Event.isGrant, Event.isPost, hs.symm]
    refine ⟨hnonneg, hbalance, by simp [follow, hfollows, Phase.next], ?_, h.stray⟩
    intro ha
    cases hset : w.calloutConfigured with
    | true => simp [hset, mdxCalloutCancel_active] at ha
    | false =>
      simp only [hset, Bool.false_eq_true, if_false] at ha
      simp [harmed ha] at hset
  · split
    · exact h
    · split
      · exact ⟨h.nonneg, h.balance, hfollows, fun _ => ⟨_, rfl, rfl, rfl⟩, h.stray⟩
      · split
        · rename_i ht
          refine ⟨h.nonneg, h.balance, by simp [follow, hfollows, Phase.next], ?_, h.stray⟩
          intro ha
          simp [harmed ha] at ht
        · exact h

theorem Inv.step (h : Inv n₀ σ) (hok : NoWrap σ op) (hx : exec usecToTicks σ op = some σ') :
    Inv n₀ σ' := by
  have hfollows := h.follows
  cases op with
  | timedwait s usec =>
    simp only [exec] at hx
    split at hx
    · cases hx
    · rename_i hw
      cases hx
      rw [Option.not_isSome_iff_eq_none.1 hw] at hfollows
      refine ⟨h.nonneg, h.balance, by simp [follow, hfollows, Phase.next], ?_, h.stray⟩
      intro ha
      obtain ⟨w, hsome, -⟩ := h.armed ha
      simp [hsome] at hw
  | round =>
    obtain ⟨w, hw, rfl⟩ := Option.map_eq_some_iff.1 hx
    exact h.round hw
  | trywait s =>
    cases hx
    split
    · obtain ⟨hnonneg, hbalance⟩ := h.recount (s := s) (n := σ.count s - 1) [.took s] (by omega)
        (by simp [grants, posts, Event.isGrant, Event.isPost])
        fun s' hs => by simp [grants, posts, Event.isGrant, Event.isPost, hs.symm]
      exact ⟨hnonneg, hbalance, by simp [follow, hfollows, Phase.next], h.armed, h.stray⟩
    · exact h
  | post s =>
    cases hx
    have hn := h.nonneg s
    have hlt : σ.count s < 2 ^ 31 - 1 := hok
    have hcount : (σ.count s + 1).bmod (2 ^ 32) = σ.count s + 1 := by
      apply Int.bmod_eq_of_le <;> omega
    rw [hcount]
    obtain ⟨hnonneg, hbalance⟩ := h.recount (s := s) (n := σ.count s + 1) [.posted s] (by omega)
      (by simp [grants, posts, Event.isGrant, Event.isPost])
      fun s' hs => by simp [grants, posts, Event.isGrant, Event.isPost, hs.symm]
    exact ⟨hnonneg, hbalance, by simp [follow, hfollows, Phase.next], h.armed, h.stray⟩
  | fire =>
    simp only [exec] at hx
    split at hx
    · rename_i ha
      cases hx
      obtain ⟨w, hw, hset, -⟩ := h.armed ha
      rw [hw] at hfollows
      refine ⟨h.nonneg, h.balance, by simp [hw, hfollows], ?_, by simp [h.stray, hw, hset]⟩
      exact fun ha => absurd ha Bool.false_ne_true
    · cases hx

/-- Without a scheduler the semaphores keep the same contract as with one: no count is negative,
what was granted is what was there at the start or posted, and every call returns true with a
permit or false without one. No callback writes to the token of a call that has returned. -/
theorem nosched_permits_conserved (hn : ∀ s, 0 ≤ count s)
    (h : Run (fun σ op σ' => exec usecToTicks σ op = some σ') NoWrap (boot count) σ) :
    (∀ s, 0 ≤ σ.count s ∧ σ.count s + grants s σ.log = count s + posts s σ.log) ∧
    (follow () σ.log).isSome ∧ σ.stray = false := by
  have hi : Inv count σ := by
    apply h.invariant (Inv count)
    · exact ⟨hn, fun _ => rfl, rfl, fun ha => absurd ha Bool.false_ne_true, rfl⟩
    · exact fun h hok hx => h.step hok hx
  refine ⟨fun s => ⟨hi.nonneg s, hi.balance s⟩, ?_, hi.stray⟩
  rw [hi.follows]
  rfl

theorem nosched_permits_conserved_late_post :
    ∃ σ, Run (fun σ op σ' => exec id σ op = some σ') NoWrap (boot fun _ => 0) σ ∧
      σ.log = [.returned () 0 false, .timedOut () 0, .blocked () 0, .returned () 0 true,
        .handed () 0, .posted 0, .blocked () 0] ∧
      σ.stray = false := by
  obtain ⟨σ, hrun, hlog⟩ := Run.of_checked (exec id) NoWrap (boot fun _ => 0)
    [.timedwait 0 5, .round, .fire, .post 0, .round, .timedwait 0 5, .round, .fire, .round]
    (fun σ => σ.log = [.returned () 0 false, .timedOut () 0, .blocked () 0, .returned () 0 true,
      .handed () 0, .posted 0, .blocked () 0]) (by decide +kernel)
  exact ⟨σ, hrun, hlog, (nosched_permits_conserved (fun _ => le_refl 0) hrun).2.2⟩

end Mdepx.Nosched
