import Mdepx.Sched.Basic
import Mdepx.Lib.Run
import Mdepx.Lib.Waits

/-! Semaphores, callouts and scheduler at the grain of their spinlocks. -/

namespace Mdepx.Locks
open Lib Function
open Sched (TdState)

/-- The callout locks of the CPUs, the lock of each semaphore and the lock of the scheduler. -/
inductive Lock where
  | callout (cpuid : Nat) | sem (s : Nat) | sched
deriving DecidableEq

inductive CalloutRef where
  | td (t : Nat) | sleep (t : Nat) | user (i : Nat)
deriving DecidableEq

/-- The funcs of callouts with their args. `semPost` is a func that calls `mdx_sem_post`. -/
inductive Func where
  | semCb (t s : Nat) | schedCb (t : Nat) | tsleepCb (t : Nat) | semPost (s : Nat)
deriving DecidableEq

structure Callout where
  active : Bool
  cpuid : Nat
  func : Option Func
deriving DecidableEq

structure Thread where
  state : TdState
  prio : Nat
  quantum : Nat
  idle : Bool
deriving DecidableEq

structure Sem where
  count : Int
  tdList : List Nat
deriving DecidableEq

/-- A CPU runs its `curthread`, or it is in the exception handler, behind `mdx_sched_ack`. -/
inductive Mode where
  | thread | handler (released : Bool)
deriving DecidableEq

/-- The operations of a CPU in a critical section. Those named after a function are what the
function does behind its first lock. -/
inductive Op where
  | lock (l : Lock) | unlock (l : Lock)
  | semTimedwait (t s usec : Nat) | semWait (t s : Nat)
  | semPost (s : Nat) | spin (t : Nat) | wake (t : Nat)
  | semCb (t s : Nat) | schedCb (t : Nat) | tsleepCb (t : Nat)
  | calloutInit (co : CalloutRef)
  | calloutSetTicks (co : CalloutRef) (ticks : Nat) (func : Func)
  | calloutSetTicksLocked (co : CalloutRef) (ticks : Nat) (func : Func)
  | calloutCancel (co : CalloutRef) | calloutCancelLocked (co : CalloutRef)
  | calloutUnlock (co : CalloutRef)
  | calloutCallback
  | sleeping (t : Nat)
  | schedAdd (t : Nat) | schedPark | schedPick | schedNext (t : Nat) | switch (t : Nat)
deriving DecidableEq

structure Kernel (n : Nat) where
  nprio : Nat
  usecToTicks : Nat → Nat
  ntd : Nat
  td : Nat → Thread
  sem : Nat → Sem
  callout : CalloutRef → Callout
  calloutsList : Nat → List CalloutRef
  runq : Nat → List Nat
  curthread : Fin n → Nat
  mode : Fin n → Mode

/-- The kernel, and for each CPU the locks it holds, the last one first, and what it has to do. -/
structure Machine (n : Nat) where
  kernel : Kernel n
  held : Fin n → List Lock
  todo : Fin n → List Op

inductive Stop where
  | busy | spins | kassert
deriving DecidableEq

namespace Kernel

def setState (k : Kernel n) (t : Nat) (st : TdState) : Kernel n :=
  { k with td := update k.td t { k.td t with state := st } }

def setSem (k : Kernel n) (s : Nat) (x : Sem) : Kernel n :=
  { k with sem := update k.sem s x }

def setCallout (k : Kernel n) (co : CalloutRef) (x : Callout) : Kernel n :=
  { k with callout := update k.callout co x }

def setMode (k : Kernel n) (c : Fin n) (md : Mode) : Kernel n :=
  { k with mode := update k.mode c md }

end Kernel

def mdxSchedAdd (t : Nat) : List Op :=
  [.lock .sched, .schedAdd t, .unlock .sched]

def mdxSchedNext : List Op :=
  [.lock .sched, .schedPick]

def mdxSemTimedwait (t s usec : Nat) : List Op :=
  [.lock (.sem s), .semTimedwait t s usec]

def mdxSemPost (s : Nat) : List Op :=
  [.lock (.sem s), .semPost s]

def mdxSemCb (t s : Nat) : List Op :=
  [.lock (.sem s), .semCb t s]

def mdxSchedCb (t : Nat) : List Op :=
  [.lock .sched, .schedCb t, .unlock .sched]

def mdxTsleep (t ticks : Nat) : List Op :=
  [.calloutInit (.sleep t), .sleeping t, .calloutCancel (.td t),
    .calloutSetTicks (.sleep t) ticks (.tsleepCb t)]

def mdxCalloutCallback (c : Fin n) : List Op :=
  [.lock (.callout c), .calloutCallback]

def Func.call : Func → List Op
  | .semCb t s => mdxSemCb t s
  | .schedCb t => mdxSchedCb t
  | .tsleepCb t => [.tsleepCb t]
  | .semPost s => mdxSemPost s

/-- `cpuid` stays when the callout is set for no ticks, and when it is cancelled or fires. -/
def mdxCalloutSetTicksLocked (k : Kernel n) (c : Fin n) (co : CalloutRef) (ticks : Nat)
    (func : Func) : Kernel n :=
  if (k.callout co).active then k
  else if ticks = 0 then k
  else
    { k.setCallout co ⟨true, c, some func⟩ with
      calloutsList := update k.calloutsList c (k.calloutsList c ++ [co]) }

def unlink (k : Kernel n) (i : Nat) (co : CalloutRef) : Kernel n :=
  { k.setCallout co { k.callout co with active := false } with
    calloutsList := update k.calloutsList i ((k.calloutsList i).erase co) }

def mdxCalloutCancelLocked (k : Kernel n) (co : CalloutRef) : Kernel n :=
  if (k.callout co).active then unlink k (k.callout co).cpuid co else k

def mdxSchedPick (k : Kernel n) : Nat → Option (Nat × Kernel n)
  | 0 => none
  | i + 1 =>
    match k.runq i with
    | [] => mdxSchedPick k i
    | t :: ts => some (t, { k with runq := update k.runq i ts })

def perform (k : Kernel n) (c : Fin n) : Op → Except Stop (Kernel n × List Op)
  | .semTimedwait t s usec =>
    if 0 < (k.sem s).count then
      .ok (k.setSem s { k.sem s with count := (k.sem s).count - 1 }, [.unlock (.sem s)])
    else
      .ok (k, .calloutCancel (.td t) ::
        (if usec = 0 then []
          else [.calloutInit (.td t),
            .calloutSetTicks (.td t) (k.usecToTicks usec) (.semCb t s)]) ++
        [.semWait t s, .unlock (.sem s)])
  | .semWait t s =>
    .ok ((k.setState t .semWait).setSem s { k.sem s with tdList := (k.sem s).tdList ++ [t] }, [])
  | .semPost s =>
    match (k.sem s).tdList with
    | [] => .ok (k.setSem s { k.sem s with count := (k.sem s).count + 1 }, [.unlock (.sem s)])
    | t :: ts =>
      .ok (k.setSem s { k.sem s with tdList := ts },
        [.spin t, .unlock (.sem s), .calloutCancel (.td t), .wake t])
  | .spin t =>
    if (k.td t).state = .ack then .ok (k.setState t .semUnlock, []) else .error .spins
  | .wake t =>
    if (k.td t).state = .semUnlock ∨ (k.td t).state = .semUnlockAck then
      .ok (k.setState t .wakeup, mdxSchedAdd t)
    else .error .kassert
  | .semCb t s =>
    if (k.td t).state = .semUnlock then
      -- too late
      .ok (k.setState t .semUnlockAck, [.unlock (.sem s)])
    else if (k.td t).state = .ack then
      .ok ((k.setSem s { k.sem s with tdList := (k.sem s).tdList.erase t }).setState t .wakeup,
        mdxSchedAdd t ++ [.unlock (.sem s)])
    else .error .kassert
  | .schedCb t =>
    if (k.td t).state = .running then .ok (k.setState t .ready, []) else .error .kassert
  | .tsleepCb t =>
    if (k.td t).state = .ack then .ok (k, mdxSchedAdd t) else .error .kassert
  | .calloutInit co => .ok (k.setCallout co { k.callout co with active := false }, [])
  | .calloutSetTicks co ticks func =>
    .ok (k, [.lock (.callout c), .calloutSetTicksLocked co ticks func, .unlock (.callout c)])
  | .calloutSetTicksLocked co ticks func => .ok (mdxCalloutSetTicksLocked k c co ticks func, [])
  | .calloutCancel co =>
    .ok (k, [.lock (.callout (k.callout co).cpuid), .calloutCancelLocked co, .calloutUnlock co])
  | .calloutCancelLocked co => .ok (mdxCalloutCancelLocked k co, [])
  -- `c->cpuid` is read again to unlock
  | .calloutUnlock co => .ok (k, [.unlock (.callout (k.callout co).cpuid)])
  | .sleeping t => .ok (k.setState t .sleeping, [])
  | .schedAdd t =>
    if (k.td t).prio < k.nprio then
      .ok ({ k with
        runq := update k.runq (k.td t).prio (k.runq (k.td t).prio ++ [t]) }, [])
    else .error .kassert
  | .schedPark =>
    match (k.td (k.curthread c)).state with
    | .running => .ok (k.setMode c .thread, [])
    | .yielding | .ready => .ok (k, mdxSchedAdd (k.curthread c) ++ mdxSchedNext)
    | _ => .error .kassert
  | .schedPick =>
    match mdxSchedPick k k.nprio with
    | some (t, k) => .ok (k, [.unlock .sched, .schedNext t])
    | none => .error .kassert
  | .schedNext t =>
    .ok (if (k.td t).idle then k else k.setState t .running,
      (if (k.td t).quantum = 0 then []
        else [.calloutInit (.td t),
          .calloutSetTicks (.td t) (k.td t).quantum (.schedCb t)]) ++ [.switch t])
  | .switch t =>
    .ok ({ k with
      curthread := update k.curthread c t
      mode := update k.mode c .thread }, [])
  | .lock _ | .unlock _ | .calloutCallback => .error .busy

/-- Calls of the threads and of interrupt handlers, an exception with or without a timer
interrupt, the end of the exception handler, and the next operation of a CPU. In the loop of
`mdx_callout_callback` the next operation is to fire a callout or to finish. -/
inductive Act (n : Nat) where
  | semTimedwait (c : Fin n) (s usec : Nat)
  | semPost (c : Fin n) (s : Nat)
  | tsleep (c : Fin n) (ticks : Nat)
  | calloutSet (c : Fin n) (i usec : Nat) (func : Func)
  | calloutCancel (c : Fin n) (i : Nat)
  | threadYield (c : Fin n)
  | threadCreate (c : Fin n) (prio quantum : Nat)
  | trap (c : Fin n) (timer : Bool)
  | leave (c : Fin n)
  | step (c : Fin n)
  | fire (c : Fin n) (co : CalloutRef)
  | finish (c : Fin n)
deriving DecidableEq

namespace Machine

def wants (m : Machine n) (c : Fin n) : Option Lock :=
  match m.todo c with
  | .lock l :: _ => some l
  | _ => none

def call (m : Machine n) (c : Fin n) (k : Kernel n) (ops : List Op) : Machine n :=
  { m with kernel := k, todo := update m.todo c ops }

def slLock (m : Machine n) (c : Fin n) (l : Lock) (ops : List Op) : Except Stop (Machine n) :=
  if ∀ d, l ∉ m.held d then
    .ok { m with
      held := update m.held c (l :: m.held c)
      todo := update m.todo c ops }
  else .error .spins

def slUnlock (m : Machine n) (c : Fin n) (l : Lock) (ops : List Op) : Except Stop (Machine n) :=
  if ∃ d, l ∈ m.held d then
    .ok { m with
      held := fun d => (m.held d).erase l
      todo := update m.todo c ops }
  else .error .kassert

def Running (m : Machine n) (c : Fin n) : Prop :=
  m.todo c = [] ∧ m.kernel.mode c = .thread ∧ (m.kernel.td (m.kernel.curthread c)).state = .running

def Callable (m : Machine n) (c : Fin n) : Prop :=
  m.todo c = [] ∧ (m.kernel.mode c = .thread →
    (m.kernel.td (m.kernel.curthread c)).state = .running ∨
    (m.kernel.td (m.kernel.curthread c)).idle = true)

instance (m : Machine n) (c : Fin n) : Decidable (m.Running c) :=
  inferInstanceAs (Decidable (_ ∧ _))

instance (m : Machine n) (c : Fin n) : Decidable (m.Callable c) :=
  inferInstanceAs (Decidable (_ ∧ _))

end Machine

def mdxSchedAck (k : Kernel n) (t : Nat) : Kernel n × Bool :=
  if (k.td t).state = .semWait ∨ (k.td t).state = .sleeping then (k.setState t .ack, true)
  else (k, false)

def exec (m : Machine n) : Act n → Except Stop (Machine n)
  | .semTimedwait c s usec =>
    if m.Running c then
      .ok (m.call c m.kernel (mdxSemTimedwait (m.kernel.curthread c) s usec))
    else .error .busy
  | .semPost c s =>
    if m.Callable c then .ok (m.call c m.kernel (mdxSemPost s)) else .error .busy
  | .tsleep c ticks =>
    if m.Running c then
      if ticks = 0 then .error .kassert
      else .ok (m.call c m.kernel (mdxTsleep (m.kernel.curthread c) ticks))
    else .error .busy
  | .calloutSet c i usec func =>
    if m.Callable c then
      .ok (m.call c m.kernel
        [.calloutSetTicks (.user i) (m.kernel.usecToTicks usec) func])
    else .error .busy
  | .calloutCancel c i =>
    if m.Callable c then .ok (m.call c m.kernel [.calloutCancel (.user i)]) else .error .busy
  | .threadYield c =>
    if m.Running c then
      .ok (m.call c (m.kernel.setState (m.kernel.curthread c) .yielding) [])
    else .error .busy
  | .threadCreate c prio quantum =>
    if m.Callable c then
      .ok (m.call c
        { m.kernel with
          ntd := m.kernel.ntd + 1
          td := update m.kernel.td m.kernel.ntd ⟨.ready, prio, quantum, false⟩ }
        (mdxSchedAdd m.kernel.ntd))
    else .error .busy
  | .trap c timer =>
    if m.todo c = [] ∧ m.kernel.mode c = .thread then
      .ok (m.call c
        ((mdxSchedAck m.kernel (m.kernel.curthread c)).1.setMode c
          (.handler (mdxSchedAck m.kernel (m.kernel.curthread c)).2))
        (if timer ∧ m.kernel.calloutsList c ≠ [] then mdxCalloutCallback c else []))
    else .error .busy
  | .leave c =>
    match m.kernel.mode c, m.todo c with
    | .handler released, [] =>
      .ok (m.call c m.kernel (if released then mdxSchedNext else [.schedPark]))
    | _, _ => .error .busy
  | .step c =>
    match m.todo c with
    | [] => .error .busy
    | .lock l :: ops => m.slLock c l ops
    | .unlock l :: ops => m.slUnlock c l ops
    | op :: ops =>
      match perform m.kernel c op with
      | .ok (k, ops') => .ok (m.call c k (ops' ++ ops))
      | .error e => .error e
  | .fire c co =>
    match m.todo c with
    | .calloutCallback :: ops =>
      if co ∈ m.kernel.calloutsList c then
        .ok (m.call c (unlink m.kernel c co)
          (((m.kernel.callout co).func.elim [] Func.call) ++ .calloutCallback :: ops))
      else .error .busy
    | _ => .error .busy
  | .finish c =>
    match m.todo c with
    | .calloutCallback :: ops => .ok (m.call c m.kernel (.unlock (.callout c) :: ops))
    | _ => .error .busy

abbrev Next (m : Machine n) (a : Act n) (m' : Machine n) : Prop := exec m a = .ok m'

def boot (n nprio : Nat) (usecToTicks : Nat → Nat) (count : Nat → Int) : Machine n where
  kernel :=
    { nprio, usecToTicks
      ntd := n
      td := fun t => ⟨.ready, 0, 0, t < n⟩
      sem := fun s => ⟨count s, []⟩
      callout := fun _ => ⟨false, 0, none⟩
      calloutsList := fun _ => []
      runq := fun _ => []
      curthread := fun c => c
      mode := fun _ => .thread }
  held := fun _ => []
  todo := fun _ => []

end Mdepx.Locks
