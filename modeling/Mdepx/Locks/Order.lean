import Mdepx.Locks.Basic

/-! The order in which a CPU takes and releases locks. -/

namespace Mdepx.Locks
open Lib Function

inductive MayTake (c : Nat) : List Lock → Lock → Prop where
  | first (l : Lock) : MayTake c [] l
  | semInCallback (s : Nat) : MayTake c [.callout c] (.sem s)
  | schedInCallback : MayTake c [.callout c] .sched
  | ownCallout (s : Nat) : MayTake c [.sem s] (.callout c)
  | schedUnderSem (s : Nat) : MayTake c [.sem s] .sched
  | schedInSemCb (s : Nat) : MayTake c [.sem s, .callout c] .sched

def Base (c : Nat) (held : List Lock) : Prop := held = [] ∨ held = [.callout c]

def AtMostSem (held : List Lock) : Prop := held = [] ∨ ∃ s, held = [.sem s]

inductive Effect (c : Nat) : Op → List Lock → List Lock → Prop where
  | lock : MayTake c held l → Effect c (.lock l) held (l :: held)
  | unlock : Effect c (.unlock l) (l :: held) held
  | semTimedwait : Effect c (.semTimedwait t s usec) [.sem s] []
  | semWait : Effect c (.semWait t s) held held
  | semPost : Base c held → Effect c (.semPost s) (.sem s :: held) held
  | spin : Effect c (.spin t) held held
  | wake : Base c held → Effect c (.wake t) held held
  | semCb : Base c held → Effect c (.semCb t s) (.sem s :: held) held
  | schedCb : Effect c (.schedCb t) held held
  | tsleepCb : Base c held → Effect c (.tsleepCb t) held held
  | calloutInit : Effect c (.calloutInit co) held held
  | calloutSetTicks : AtMostSem held → Effect c (.calloutSetTicks co ticks func) held held
  | calloutSetTicksLocked : Effect c (.calloutSetTicksLocked co ticks func) held held
  | calloutCancel : Base c held ∨ AtMostSem held → Effect c (.calloutCancel co) held held
  | calloutCancelLocked : Effect c (.calloutCancelLocked co) held held
  | calloutUnlock : AtMostSem held → Effect c (.calloutUnlock co) (.callout i :: held) held
  | calloutCallback : Effect c .calloutCallback [.callout c] []
  | sleeping : Effect c (.sleeping t) held held
  | schedAdd : Effect c (.schedAdd t) held held
  | schedPark : Effect c .schedPark [] []
  | schedPick : Effect c .schedPick [.sched] []
  | schedNext : Effect c (.schedNext t) [] []
  | switch : Effect c (.switch t) held held

inductive Effects (c : Nat) : List Op → List Lock → List Lock → Prop where
  | nil : Effects c [] held held
  | cons : Effect c op held held' → Effects c ops held' held'' →
      Effects c (op :: ops) held held''

theorem Effects.append (h : Effects c ops held held') (h' : Effects c ops' held' held'') :
    Effects c (ops ++ ops') held held'' := by
  induction h with
  | nil => exact h'
  | cons he _ ih => exact .cons he (ih h')

theorem Base.mayTake_sem (h : Base c held) (s : Nat) : MayTake c held (.sem s) := by
  rcases h with rfl | rfl
  · exact .first _
  · exact .semInCallback s

theorem Base.mayTake_sched (h : Base c held) : MayTake c held .sched := by
  rcases h with rfl | rfl
  · exact .first _
  · exact .schedInCallback

theorem Base.mayTake_sched_under (h : Base c held) (s : Nat) :
    MayTake c (.sem s :: held) .sched := by
  rcases h with rfl | rfl
  · exact .schedUnderSem s
  · exact .schedInSemCb s

theorem AtMostSem.mayTake_own (h : AtMostSem held) : MayTake c held (.callout c) := by
  rcases h with rfl | ⟨s, rfl⟩
  · exact .first _
  · exact .ownCallout s

theorem mdxSchedAdd_effects (h : MayTake c held .sched) (t : Nat) :
    Effects c (mdxSchedAdd t) held held :=
  .cons (.lock h) (.cons .schedAdd (.cons .unlock .nil))

theorem mdxSchedNext_effects : Effects c mdxSchedNext [] [] :=
  .cons (.lock (.first _)) (.cons .schedPick .nil)

theorem mdxSemPost_effects (h : Base c held) (s : Nat) : Effects c (mdxSemPost s) held held :=
  .cons (.lock (h.mayTake_sem s)) (.cons (.semPost h) .nil)

theorem Func.call_effects (func : Func) : Effects c func.call [.callout c] [.callout c] := by
  have hb : Base c [.callout c] := .inr rfl
  cases func with
  | semCb t s => exact .cons (.lock (hb.mayTake_sem s)) (.cons (.semCb hb) .nil)
  | schedCb => exact .cons (.lock hb.mayTake_sched) (.cons .schedCb (.cons .unlock .nil))
  | tsleepCb => exact .cons (.tsleepCb hb) .nil
  | semPost s => exact mdxSemPost_effects hb s

/-- `mdx_callout_cancel` is called with no lock held, or outside of the callback and on the CPU the
callout was last set on; and between its lock and its unlock the callout is not set elsewhere. -/
def Op.Orderly (k : Kernel n) (c : Fin n) (held : List Lock) : Op → Prop
  | .calloutCancel co => held = [] ∨ .callout c ∉ held ∧ (k.callout co).cpuid = c
  | .calloutUnlock co => .callout (k.callout co).cpuid ∈ held
  | _ => True

variable {n : Nat} {k k' : Kernel n} {c : Fin n} {held held' : List Lock} {op : Op}
  {ops : List Op} {m m' : Machine n} {a : Act n}

theorem calloutCancel_effects (h : Base c held ∨ AtMostSem held)
    (ho : Op.Orderly k c held (.calloutCancel co)) :
    Effects c [.lock (.callout (k.callout co).cpuid), .calloutCancelLocked co, .calloutUnlock co]
      held held := by
  suffices hs : AtMostSem held ∧ MayTake c held (.callout (k.callout co).cpuid) from
    .cons (.lock hs.2) (.cons .calloutCancelLocked (.cons (.calloutUnlock hs.1) .nil))
  rcases ho with rfl | ⟨hc, hco⟩
  · exact ⟨.inl rfl, .first _⟩
  · rw [hco]
    rcases h with (rfl | rfl) | h
    · exact ⟨.inl rfl, .first _⟩
    · exact absurd List.mem_cons_self hc
    · exact ⟨h, h.mayTake_own⟩

theorem calloutUnlock_effects (h : AtMostSem held)
    (ho : Op.Orderly k c (.callout i :: held) (.calloutUnlock co)) :
    Effects c [.unlock (.callout (k.callout co).cpuid)] (.callout i :: held) held := by
  have hi : (k.callout co).cpuid = i := by
    rcases h with rfl | ⟨s, rfl⟩ <;> simpa [Op.Orderly] using ho
  rw [hi]
  exact .cons .unlock .nil

theorem perform_effects (hp : perform k c op = .ok (k', ops)) (ho : op.Orderly k c held)
    (he : Effect c op held held') : Effects c ops held held' := by
  cases he with
  | lock | unlock | calloutCallback => cases hp
  | semTimedwait =>
    rename_i t s usec
    simp only [perform] at hp
    split at hp
    · cases hp
      exact .cons .unlock .nil
    · cases hp
      have hs : AtMostSem [.sem s] := .inr ⟨s, rfl⟩
      apply Effects.cons (.calloutCancel (.inr hs))
      split
      · exact .cons .semWait (.cons .unlock .nil)
      · exact .cons .calloutInit (.cons (.calloutSetTicks hs) (.cons .semWait (.cons .unlock .nil)))
  | semPost hb =>
    simp only [perform] at hp
    split at hp <;> cases hp
    · exact .cons .unlock .nil
    · exact .cons .spin (.cons .unlock (.cons (.calloutCancel (.inl hb)) (.cons (.wake hb) .nil)))
  | spin | schedCb | schedAdd =>
    simp only [perform] at hp
    split at hp <;> cases hp
    exact .nil
  | wake hb | tsleepCb hb =>
    simp only [perform] at hp
    split at hp <;> cases hp
    exact mdxSchedAdd_effects hb.mayTake_sched _
  | semCb hb =>
    simp only [perform] at hp
    split at hp
    · cases hp
      exact .cons .unlock .nil
    · split at hp <;> cases hp
      exact (mdxSchedAdd_effects (hb.mayTake_sched_under _) _).append (.cons .unlock .nil)
  | semWait | calloutInit | calloutSetTicksLocked | calloutCancelLocked | sleeping | switch =>
    cases hp
    exact .nil
  | calloutSetTicks hs =>
    cases hp
    exact .cons (.lock hs.mayTake_own) (.cons .calloutSetTicksLocked (.cons .unlock .nil))
  | calloutCancel hb =>
    cases hp
    exact calloutCancel_effects hb ho
  | calloutUnlock hs =>
    cases hp
    exact calloutUnlock_effects hs ho
  | schedPark =>
    simp only [perform] at hp
    split at hp <;> cases hp
    · exact .nil
    · exact (mdxSchedAdd_effects (.first _) _).append mdxSchedNext_effects
    · exact (mdxSchedAdd_effects (.first _) _).append mdxSchedNext_effects
  | schedPick =>
    simp only [perform] at hp
    split at hp <;> cases hp
    exact .cons .unlock (.cons .schedNext .nil)
  | schedNext =>
    cases hp
    split
    · exact .cons .switch .nil
    · exact .cons .calloutInit (.cons (.calloutSetTicks (.inl rfl)) (.cons .switch .nil))

structure Inv (m : Machine n) : Prop where
  sole : SoleHolder m.held
  effects : ∀ c : Fin n, Effects c (m.todo c) (m.held c) []

theorem boot_inv : Inv (boot n nprio usecToTicks count) where
  sole := by
    intro c d l hl
    cases hl
  effects := fun _ => .nil

theorem Inv.call (h : Inv m) (hops : Effects c ops (m.held c) []) : Inv (m.call c k ops) where
  sole := h.sole
  effects := by
    intro d
    by_cases hd : d = c
    · subst d
      simpa only [Machine.call, update_self] using hops
    · simpa only [Machine.call, update_of_ne hd] using h.effects d

theorem Inv.begin (h : Inv m) (hc : m.todo c = []) (hops : Effects c ops [] []) :
    Inv (m.call c k ops) := by
  have he := h.effects c
  rw [hc] at he
  generalize hheld : m.held c = held at he
  cases he
  apply h.call
  rw [hheld]
  exact hops

theorem Inv.holds (h : Inv m) (hs : SoleHolder (update m.held c held))
    (hops : Effects c ops held []) :
    Inv { m with
      held := update m.held c held
      todo := update m.todo c ops } where
  sole := hs
  effects := by
    intro d
    by_cases hd : d = c
    · subst d
      simpa only [update_self] using hops
    · simpa only [update_of_ne hd] using h.effects d

theorem Inv.slLock (h : Inv m) (hc : m.todo c = .lock l :: ops)
    (hx : m.slLock c l ops = .ok m') : Inv m' := by
  have he := h.effects c
  rw [hc] at he
  unfold Machine.slLock at hx
  split at hx
  · rename_i hfree
    cases hx
    cases he with
    | cons ho hops =>
      cases ho
      exact h.holds (h.sole.acquire hfree) hops
  · cases hx

theorem Inv.slUnlock (h : Inv m) (hc : m.todo c = .unlock l :: ops)
    (hx : m.slUnlock c l ops = .ok m') : Inv m' := by
  have he := h.effects c
  rw [hc] at he
  unfold Machine.slUnlock at hx
  split at hx
  · cases hx
    generalize hheld : m.held c = held at he
    cases he with
    | cons ho hops =>
      cases ho
      have hr := h.sole.release_top hheld
      rw [hr]
      apply h.holds _ hops
      rw [← hr]
      exact h.sole.release
  · cases hx

def Orderly (m : Machine n) : Act n → Prop
  | .step c =>
    match m.todo c with
    | op :: _ => op.Orderly m.kernel c (m.held c)
    | [] => True
  | _ => True

theorem Inv.step (h : Inv m) (ho : Orderly m a) (hx : exec m a = .ok m') : Inv m' := by
  cases a with
  | semTimedwait c s usec =>
    simp only [exec] at hx
    split at hx <;> cases hx
    rename_i hr
    exact h.begin hr.1 (.cons (.lock (.first _)) (.cons .semTimedwait .nil))
  | semPost c s =>
    simp only [exec] at hx
    split at hx <;> cases hx
    rename_i hr
    exact h.begin hr.1 (mdxSemPost_effects (.inl rfl) s)
  | tsleep c ticks =>
    simp only [exec] at hx
    split at hx
    · rename_i hr
      split at hx <;> cases hx
      exact h.begin hr.1 (.cons .calloutInit (.cons .sleeping
        (.cons (.calloutCancel (.inl (.inl rfl))) (.cons (.calloutSetTicks (.inl rfl)) .nil))))
    · cases hx
  | calloutSet c i usec func =>
    simp only [exec] at hx
    split at hx <;> cases hx
    rename_i hr
    exact h.begin hr.1 (.cons (.calloutSetTicks (.inl rfl)) .nil)
  | calloutCancel c i =>
    simp only [exec] at hx
    split at hx <;> cases hx
    rename_i hr
    exact h.begin hr.1 (.cons (.calloutCancel (.inl (.inl rfl))) .nil)
  | threadYield c =>
    simp only [exec] at hx
    split at hx <;> cases hx
    rename_i hr
    exact h.begin hr.1 .nil
  | threadCreate c prio quantum =>
    simp only [exec] at hx
    split at hx <;> cases hx
    rename_i hr
    exact h.begin hr.1 (mdxSchedAdd_effects (.first _) _)
  | trap c timer =>
    simp only [exec] at hx
    split at hx <;> cases hx
    rename_i hr
    apply h.begin hr.1
    split
    · exact .cons (.lock (.first _)) (.cons .calloutCallback .nil)
    · exact .nil
  | leave c =>
    simp only [exec] at hx
    split at hx <;> cases hx
    rename_i hr
    apply h.begin hr
    split
    · exact mdxSchedNext_effects
    · exact .cons .schedPark .nil
  | step c =>
    simp only [exec] at hx
    split at hx
    · cases hx
    · rename_i hc
      exact h.slLock hc hx
    · rename_i hc
      exact h.slUnlock hc hx
    · rename_i op ops _ _ hc
      split at hx <;> cases hx
      rename_i k ops' hp
      have he := h.effects c
      simp only [Orderly, hc] at ho
      rw [hc] at he
      cases he with
      | cons hop hops =>
        exact h.call ((perform_effects hp ho hop).append hops)
  | fire c co =>
    simp only [exec] at hx
    split at hx
    · rename_i ops hc
      split at hx <;> cases hx
      have he := h.effects c
      rw [hc] at he
      generalize hheld : m.held c = held at he
      cases he with
      | cons hop hops =>
        cases hop
        apply h.call
        rw [hheld]
        apply Effects.append _ (.cons .calloutCallback hops)
        cases (m.kernel.callout co).func with
        | none => exact .nil
        | some func => exact func.call_effects
    · cases hx
  | finish c =>
    simp only [exec] at hx
    split at hx
    · rename_i ops hc
      cases hx
      have he := h.effects c
      rw [hc] at he
      generalize hheld : m.held c = held at he
      cases he with
      | cons hop hops =>
        cases hop
        apply h.call
        rw [hheld]
        exact .cons .unlock hops
    · cases hx

theorem run_inv (h : Run Next Orderly (boot n nprio usecToTicks count) m) : Inv m :=
  h.invariant Inv boot_inv fun hi ho hx => hi.step ho hx

theorem Inv.mayTake (h : Inv m) (hw : m.wants c = some l) : MayTake c (m.held c) l := by
  have he := h.effects c
  unfold Machine.wants at hw
  split at hw
  · rename_i ops hc
    cases hw
    rw [hc] at he
    cases he with
    | cons hop =>
      cases hop with
      | lock ht => exact ht
  · cases hw

theorem MayTake.notMem (h : MayTake c held l) : l ∉ held := by
  cases h <;> simp

def level (held : List Lock) : Option Lock → Nat
  | some (.callout _) => if held = [] then 0 else 2
  | some (.sem _) => 1
  | some .sched => 3
  | none => 0

theorem level_lt {c d : Nat} (hc : MayTake c held l) (hd : MayTake d held' l') (hl : l ∈ held')
    (hcd : c = d → held = held') : level held (some l) < level held' (some l') := by
  cases hd with
  | first => cases hl
  | semInCallback | schedInCallback =>
    obtain rfl := List.mem_singleton.1 hl
    cases hc with
    | first => simp [level]
    | ownCallout => cases hcd rfl
  | ownCallout | schedUnderSem =>
    obtain rfl := List.mem_singleton.1 hl
    cases hc <;> simp [level]
  | schedInSemCb =>
    rcases List.mem_cons.1 hl with rfl | hl
    · cases hc <;> simp [level]
    · obtain rfl := List.mem_singleton.1 hl
      cases hc <;> simp [level]

/-- No CPU spins for a lock it holds, and there is no cycle of CPUs each of which spins for a lock
that the next one holds. -/
structure NoDeadlock (m : Machine n) : Prop where
  no_relock : ∀ c l, m.wants c = some l → l ∉ m.held c
  no_cycle : ∀ c, ¬ Relation.TransGen (WaitsFor m.wants m.held) c c

theorem Inv.noDeadlock (h : Inv m) : NoDeadlock m where
  no_relock := fun _ _ hw => (h.mayTake hw).notMem
  no_cycle := by
    apply WaitsFor.acyclic fun c => level (m.held c) (m.wants c)
    rintro c d e ⟨l, hc, hl⟩ ⟨l', hd, _⟩
    simp only [hc, hd]
    apply level_lt (h.mayTake hc) (h.mayTake hd) hl
    intro hcd
    rw [Fin.ext hcd]

/-- In every run whose calls of `mdx_callout_cancel` are in order, no spinlock is requested by the
CPU that holds it, and none in a cycle. -/
theorem no_spinlock_deadlock (h : Run Next Orderly (boot n nprio usecToTicks count) m) :
    NoDeadlock m :=
  (run_inv h).noDeadlock

instance : Decidable (op.Orderly k c held) := by
  unfold Op.Orderly
  split <;> infer_instance

instance : Decidable (Orderly m a) := by
  unfold Orderly
  split
  · split <;> infer_instance
  · infer_instance

def steps (c : Fin n) (k : Nat) : List (Act n) := List.replicate k (.step c)

def startup (quantum switching : Nat) : List (Act 2) :=
  .threadCreate 0 1 quantum :: steps 0 3 ++ .threadCreate 0 1 quantum :: steps 0 3 ++
  [.trap 0 false, .leave 0] ++ steps 0 switching ++ [.trap 1 false, .leave 1] ++ steps 1 switching

theorem no_spinlock_deadlock_timeout :
    ∃ m : Machine 2, Run Next Orderly (boot 2 2 id fun _ => 0) m ∧
      (m.wants 1 = some (.sem 0) ∧ m.held 0 = [.sem 0, .callout 0] ∧ m.wants 0 = some .sched) ∧
      NoDeadlock m := by
  obtain ⟨m, hr, hm⟩ := Run.of_guarded exec Orderly (boot 2 2 id fun _ => 0)
    (startup 5 14 ++ .semTimedwait 0 0 40 :: steps 0 14 ++
      [.trap 0 true, .step 0, .fire 0 (.td 2), .step 0, .step 0, .semTimedwait 1 0 40])
    (fun m => m.wants 1 = some (.sem 0) ∧ m.held 0 = [.sem 0, .callout 0] ∧
      m.wants 0 = some .sched) (by decide +kernel)
  exact ⟨m, hr, hm, no_spinlock_deadlock hr⟩

/-- A func that posts a semaphore requests the callout lock it runs under; and a thread that has
never been armed on the CPU it waits on meets the timeout of another waiter. -/
theorem spinlock_deadlock :
    (∃ m : Machine 2, Run Next (fun _ _ => True) (boot 2 2 id fun _ => 0) m ∧
      m.wants 0 = some (.callout 0) ∧ .callout 0 ∈ m.held 0) ∧
    ∃ m : Machine 2, Run Next (fun _ _ => True) (boot 2 2 id fun _ => 0) m ∧
      Relation.TransGen (WaitsFor m.wants m.held) 0 0 := by
  constructor
  · exact Run.of_guarded exec (fun _ _ => True) (boot 2 2 id fun _ => 0)
      (startup 0 9 ++ .calloutSet 0 0 40 (.semPost 0) :: steps 0 4 ++
        .semTimedwait 0 0 60 :: steps 0 14 ++
        [.trap 0 true, .step 0, .fire 0 (.user 0)] ++ steps 0 5) _ (by decide +kernel)
  · obtain ⟨m, hr, h0, h0', h1, h1'⟩ := Run.of_guarded exec (fun _ _ => True)
      (boot 2 2 id fun _ => 0)
      (startup 0 9 ++ .semTimedwait 0 0 40 :: steps 0 14 ++ .semTimedwait 1 0 0 :: steps 1 3 ++
        [.trap 0 true, .step 0, .fire 0 (.td 2)])
      (fun m => m.wants 0 = some (.sem 0) ∧ .sem 0 ∈ m.held 1 ∧
        m.wants 1 = some (.callout 0) ∧ .callout 0 ∈ m.held 0) (by decide +kernel)
    exact ⟨m, hr, .tail (.single ⟨_, h0, h0'⟩) ⟨_, h1, h1'⟩⟩

end Mdepx.Locks
