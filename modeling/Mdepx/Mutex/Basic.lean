import Mdepx.Sched.Permits
import Mdepx.Lib.Exclusive

namespace Mdepx.Mutex
open Lib Sched Function

/-! The mutexes of `kernel/sched`, over the scheduler and its semaphores. -/

inductive LockCall where
  | lock | timedlock (usec : Nat) | trylock
deriving DecidableEq

def LockCall.usec : LockCall → Nat
  | .timedlock usec => usec
  | .lock | .trylock => 0

/-- Whether `m->td` is written once the semaphore has answered. `mdx_mutex_lock` does not look at
the answer. -/
def LockCall.takes : LockCall → Bool → Bool
  | .lock, _ => true
  | .timedlock _, ret | .trylock, ret => ret

/-- Where a thread is in the code of the mutexes: it waits for the semaphore, it is about to write
`m->td`, or it has passed the check of `mdx_mutex_unlock`. -/
inductive Stage where
  | out | locking (m : Nat) (call : LockCall) | won (m : Nat) | unlocking (m : Nat)
deriving DecidableEq

/-- The semaphore of mutex `m` is semaphore `m`. `holds m t` says that `t` is between a successful
lock of `m` and its unlock. -/
structure State (n : Nat) where
  kernel : Kernel n
  isMutex : Nat → Bool
  td : Nat → Option Nat
  stage : Nat → Stage
  holds : Nat → Nat → Bool

/-- One step: of the scheduler and the code outside of the mutexes, or of a call of a mutex, cut
where another thread can see the difference. -/
inductive Op (n : Nat) where
  | kernel (a : Act n)
  | lock (c : Fin n) (m : Nat)
  | timedlock (c : Fin n) (m usec : Nat)
  | trylock (c : Fin n) (m : Nat)
  | ret (c : Fin n)
  | own (c : Fin n)
  | unlock (c : Fin n) (m : Nat)
  | post (c : Fin n)
deriving DecidableEq

namespace State

def caller (σ : State n) (c : Fin n) (m : Nat) : Option Nat :=
  match σ.kernel.caller c with
  | some t => if σ.isMutex m = true ∧ σ.stage t = .out then some t else none
  | none => none

def outside (σ : State n) (c : Fin n) : Bool :=
  match σ.kernel.cpu c with
  | ⟨.thread t, none⟩ => σ.stage t = .out
  | _ => true

/-- Code outside of the mutexes does not use their semaphores. -/
def allows (σ : State n) : Act n → Bool
  | .wait c s _ | .trywait c s | .post c s => !σ.isMutex s && σ.outside c
  | .tsleep c _ | .yield c | .terminate c | .enter c | .create c _ _ _ | .ret c => σ.outside c
  | _ => true

def setStage (σ : State n) (t : Nat) (stage : Stage) : State n :=
  { σ with stage := update σ.stage t stage }

def setHolds (σ : State n) (m t : Nat) (b : Bool) : State n :=
  { σ with holds := update σ.holds m (update (σ.holds m) t b) }

def answer (σ : State n) (t m : Nat) (call : LockCall) (r : Kernel n × Option Bool) : State n :=
  { σ with kernel := r.1 }.setStage t
    (match r.2 with
      | some ret => if call.takes ret then .won m else .out
      | none => .locking m call)

end State

def mdxMutexLock (σ : State n) (c : Fin n) (t m : Nat) : Except Stop (State n) :=
  (mdxSemTimedwait σ.kernel c t m 0).map (σ.answer t m .lock)

def mdxMutexTimedlock (σ : State n) (c : Fin n) (t m usec : Nat) : Except Stop (State n) :=
  (mdxSemTimedwait σ.kernel c t m usec).map (σ.answer t m (.timedlock usec))

def mdxMutexTrylock (σ : State n) (t m : Nat) : Except Stop (State n) :=
  (mdxSemTrywait σ.kernel m).map fun r => σ.answer t m .trylock (r.1, some r.2)

def mdxMutexUnlock (σ : State n) (t m : Nat) : Except Stop (State n) :=
  if σ.td m = some t then .ok ((σ.setStage t (.unlocking m)).setHolds m t false)
  else .error (.panic .notOwner)

def ret (σ : State n) (c : Fin n) : Except Stop (State n) :=
  match σ.kernel.cpu c with
  | ⟨.thread t, none⟩ =>
    match σ.stage t with
    | .locking m call =>
      (Sched.ret σ.kernel c).map fun k =>
        σ.answer t m call (k, some (semResult (σ.kernel.td t) call.usec))
    | _ => .error .busy
  | _ => .error .busy

def own (σ : State n) (c : Fin n) : Except Stop (State n) :=
  match σ.kernel.caller c with
  | some t =>
    match σ.stage t with
    | .won m => .ok ({ σ with td := update σ.td m (some t) }.setStage t .out
        |>.setHolds m t true)
    | _ => .error .busy
  | none => .error .busy

def post (σ : State n) (c : Fin n) : Except Stop (State n) :=
  match σ.kernel.caller c with
  | some t =>
    match σ.stage t with
    | .unlocking m =>
      (mdxSemPost σ.kernel c m).map fun k => { σ with kernel := k }.setStage t .out
    | _ => .error .busy
  | none => .error .busy

def exec (σ : State n) : Op n → Except Stop (State n)
  | .kernel a =>
    if σ.allows a then (Sched.exec σ.kernel a).map fun k => { σ with kernel := k }
    else .error .busy
  | .lock c m =>
    match σ.caller c m with
    | some t => mdxMutexLock σ c t m
    | none => .error .busy
  | .timedlock c m usec =>
    match σ.caller c m with
    | some t => mdxMutexTimedlock σ c t m usec
    | none => .error .busy
  | .trylock c m =>
    match σ.caller c m with
    | some t => mdxMutexTrylock σ t m
    | none => .error .busy
  | .ret c => ret σ c
  | .own c => own σ c
  | .unlock c m =>
    match σ.caller c m with
    | some t => mdxMutexUnlock σ t m
    | none => .error .busy
  | .post c => post σ c

def boot (n nprio : Nat) (usecToTicks : Nat → Nat) (isMutex : Nat → Bool) (count : Nat → Int) :
    State n where
  kernel := Sched.boot n nprio usecToTicks fun s => if isMutex s then 1 else count s
  isMutex := isMutex
  td _ := none
  stage _ := .out
  holds _ _ := false

inductive Step : State n → Op n → State n → Prop where
  | kernel (ha : σ.allows a = true) (hx : Sched.exec σ.kernel a = .ok k) :
      Step σ (.kernel a) { σ with kernel := k }
  | took {σ : State n} {a : Act n} (hc : σ.caller c m = some t)
      (ha : (∃ usec, a = .wait c m usec) ∨ a = .trywait c m)
      (hx : Sched.exec σ.kernel a = .ok k)
      (hl : semLog k.log = [.took m] ++ semLog σ.kernel.log) (hp : (k.td t).pc = .user) :
      Step σ op ({ σ with kernel := k }.setStage t (.won m))
  | blocked (hc : σ.caller c m = some t) (hx : Sched.exec σ.kernel (.wait c m call.usec) = .ok k)
      (hl : semLog k.log = [.blocked t m] ++ semLog σ.kernel.log)
      (hp : (k.td t).pc.call = some (.semTimedwait m call.usec)) :
      Step σ op ({ σ with kernel := k }.setStage t (.locking m call))
  | refused : Step σ (.trylock c m) σ
  | ret (hc : σ.kernel.cpu c = ⟨.thread t, none⟩) (hs : σ.stage t = .locking m call)
      (hx : Sched.exec σ.kernel (.ret c) = .ok k) :
      Step σ (.ret c) (σ.answer t m call (k, some (semResult (σ.kernel.td t) call.usec)))
  | own (hc : σ.kernel.caller c = some t) (hs : σ.stage t = .won m) :
      Step σ (.own c) (({ σ with td := update σ.td m (some t) }.setStage t .out).setHolds
        m t true)
  | unlock (hc : σ.caller c m = some t) (hm : σ.td m = some t) :
      Step σ (.unlock c m) ((σ.setStage t (.unlocking m)).setHolds m t false)
  | post (hc : σ.kernel.caller c = some t) (hs : σ.stage t = .unlocking m)
      (hx : Sched.exec σ.kernel (.post c m) = .ok k) :
      Step σ (.post c) ({ σ with kernel := k }.setStage t .out)

theorem caller_out {σ : State n} (h : σ.caller c m = some t) :
    σ.kernel.caller c = some t ∧ σ.isMutex m = true ∧ σ.stage t = .out := by
  unfold State.caller at h
  split at h
  · rename_i u hu
    split at h
    · rename_i ho
      cases h
      exact ⟨hu, ho⟩
    · cases h
  · cases h

theorem wait_step {σ σ' : State n} (call : LockCall) (hc : σ.caller c m = some t)
    (h : (mdxSemTimedwait σ.kernel c t m call.usec).map (σ.answer t m call) = .ok σ') :
    Step σ op σ' := by
  obtain ⟨⟨k, r⟩, hr, rfl⟩ := map_ok h
  have hx : Sched.exec σ.kernel (.wait c m call.usec) = .ok k := by
    simp only [Sched.exec, (caller_out hc).1, hr]
    rfl
  obtain ⟨-, -, ⟨-, rfl, he⟩ | ⟨-, rfl, he⟩⟩ := mdxSemTimedwait_ok hr
  · have ht : call.takes true = true := by cases call <;> rfl
    simp only [State.answer, ht, if_true]
    refine .took hc (.inl ⟨_, rfl⟩) hx (by rw [he]; rfl) ?_
    rw [he]
    exact (caller_eq (caller_out hc).1).2
  · refine .blocked hc hx (by rw [he]; rfl) ?_
    rw [he]
    simp only [Kernel.note, Kernel.enqueue, setTd_td_self]
    rfl

theorem exec_step {σ σ' : State n} (h : exec σ op = .ok σ') : Step σ op σ' := by
  cases op with
  | kernel a =>
    simp only [exec] at h
    split at h
    · rename_i ha
      obtain ⟨k, hx, rfl⟩ := map_ok h
      exact .kernel ha hx
    · cases h
  | lock c m =>
    simp only [exec] at h
    split at h
    · rename_i t hc
      exact wait_step .lock hc h
    · cases h
  | timedlock c m usec =>
    simp only [exec] at h
    split at h
    · rename_i t hc
      exact wait_step (.timedlock usec) hc h
    · cases h
  | trylock c m =>
    simp only [exec] at h
    split at h
    · rename_i t hc
      obtain ⟨⟨k, r⟩, hr, rfl⟩ := map_ok h
      have hx : Sched.exec σ.kernel (.trywait c m) = .ok k := by
        have hcall : σ.kernel.callable c = true := by
          obtain ⟨hcpu, -⟩ := caller_eq (caller_out hc).1
          simp only [Kernel.callable, hcpu, (caller_out hc).1]
          rfl
        simp only [Sched.exec, hcall, hr]
        rfl
      obtain ⟨-, ⟨-, rfl, he⟩ | ⟨rfl, rfl⟩⟩ := mdxSemTrywait_ok hr
      · refine .took hc (.inr rfl) hx (by rw [he]; rfl) ?_
        rw [he]
        exact (caller_eq (caller_out hc).1).2
      · have hs : update σ.stage t .out = σ.stage := by
          rw [← (caller_out hc).2.2, update_eq_self]
        have he : σ.answer t m .trylock (σ.kernel, some false) = σ := by
          show { σ with stage := update σ.stage t .out } = σ
          rw [hs]
        rw [he]
        exact .refused
    · cases h
  | ret c =>
    simp only [exec, ret] at h
    split at h
    · rename_i t hc
      split at h
      · rename_i m call hs
        obtain ⟨k, hx, rfl⟩ := map_ok h
        exact .ret hc hs hx
      · cases h
    · cases h
  | own c =>
    simp only [exec, own] at h
    split at h
    · rename_i t hc
      split at h
      · rename_i m hs
        cases h
        exact .own hc hs
      · cases h
    · cases h
  | unlock c m =>
    simp only [exec] at h
    split at h
    · rename_i t hc
      unfold mdxMutexUnlock at h
      split at h
      · rename_i hm
        cases h
        exact .unlock hc hm
      · cases h
    · cases h
  | post c =>
    simp only [exec, post] at h
    split at h
    · rename_i t hc
      split at h
      · rename_i m hs
        obtain ⟨k, hx, rfl⟩ := map_ok h
        refine .post hc hs ?_
        have hcall : σ.kernel.callable c = true := by
          obtain ⟨hcpu, -⟩ := caller_eq hc
          simp only [Kernel.callable, hcpu, hc]
          rfl
        simp only [Sched.exec, hcall, hx]
        rfl
      · cases h
    · cases h

end Mdepx.Mutex
