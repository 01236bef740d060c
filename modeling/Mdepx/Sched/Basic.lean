import Mathlib.Algebra.Group.Int.Defs
import Mathlib.Algebra.GroupWithZero.Nat
import Mdepx.Queues
import Mdepx.Lib.Semaphore

namespace Mdepx.Sched
open Lib

/-! The scheduler of `kernel/sched`. A callout that is linked may fire at any time. -/

inductive TdState where
  | ready | running | sleeping | wakeup | terminating | ack | semWait | semUnlock | semUnlockAck
  | yielding
deriving DecidableEq

/-- A callout: whether it has `CALLOUT_FLAG_ACTIVE`, the CPUs whose lists lead to its node, the one
it was put on last first, and the func it was set with. -/
structure Callout (n : Nat) (φ : Type) where
  active : Bool
  linked : List (Fin n)
  func : φ
deriving DecidableEq

/-- The funcs `td_c` is set with. The token of `mdx_sem_cb` names the semaphore. -/
inductive Func where
  | schedCb | semCb (sem : Nat)
deriving DecidableEq

/-- The node is not touched, linked or not. -/
def mdxCalloutInit (co : Callout n φ) : Callout n φ := { co with active := false }

/-- A node that is linked is put on another list all the same, and the list it was on leads to it
still. -/
def mdxCalloutSetTicks (co : Callout n φ) (c : Fin n) (ticks : Nat) (func : φ) : Callout n φ :=
  if co.active then co
  else if ticks = 0 then co
  else ⟨true, c :: co.linked, func⟩

def mdxCalloutCancel (co : Callout n φ) : Callout n φ :=
  if co.active then { co with active := false, linked := co.linked.tail } else co

theorem mdxCalloutCancel_active (co : Callout n φ) : (mdxCalloutCancel co).active = false := by
  unfold mdxCalloutCancel
  split
  · rfl
  · rename_i h
    exact Bool.eq_false_iff.2 h

def Callout.fired (co : Callout n φ) : Callout n φ :=
  { co with active := false, linked := co.linked.tail }

/-- The calls that end in `md_thread_yield`. -/
inductive Call where
  | semTimedwait (sem usec : Nat) | tsleep | threadYield | threadTerminate | schedEnter
deriving DecidableEq

/-- Where a thread is: in code of its own, or before or behind the `md_thread_yield` of a call. -/
inductive Pc where
  | user | before (call : Call) | after (call : Call)
deriving DecidableEq

def Pc.call : Pc → Option Call
  | .user => none
  | .before call | .after call => some call

inductive Life where
  | unborn | live | dead
deriving DecidableEq

/-- A thread, with the callout of `mdx_tsleep`, whose func is always `mdx_tsleep_cb`, and the
`timeout` of the token of `mdx_sem_timedwait`, which live on its stack. -/
structure Thread (n : Nat) where
  state : TdState
  prio : Nat
  quantum : Nat
  idle : Bool
  tdC : Callout n Func
  sleepC : Callout n Unit
  timeout : Bool
  pc : Pc
  life : Life
deriving DecidableEq

structure Sem (n : Nat) where
  count : Int
  lock : Option (Fin n)

/-- What a CPU is at: it runs a thread, it is in `riscv_exception` behind `mdx_sched_ack`, or it
has picked the thread to switch to. -/
inductive Ctx where
  | thread (td : Nat) | handler (td : Nat) (released intr : Bool) | chosen (td : Nat)
deriving DecidableEq

/-- The steps of `mdx_sem_post` once it has a waiter: it spins for `TD_STATE_ACK` with the lock of
the semaphore held, cancels the callout, and wakes the waiter. -/
inductive Phase where
  | spin | cancel | wake
deriving DecidableEq

structure Post where
  td : Nat
  sem : Nat
  phase : Phase
deriving DecidableEq

structure Cpu where
  ctx : Ctx
  post : Option Post
deriving DecidableEq

inductive Head where
  | runq (prio : Nat) | sem (sem : Nat)
deriving DecidableEq

inductive Event where
  /-- `td_node` is appended to a list; `linked` says whether it is on one already. -/
  | inserted (td : Nat) (linked : Bool)
  | sem (e : Semaphore.Event Nat Nat)
deriving DecidableEq

structure Kernel (n : Nat) where
  nprio : Nat
  usecToTicks : Nat → Nat
  td : Nat → Thread n
  sem : Nat → Sem n
  cpu : Fin n → Cpu
  links : Links (Head ⊕ Nat)
  log : List Event

inductive Panic where
  | prio | notRunning | semCb | tsleepCb | semPost | wrongState | unknownState | threadNotFound
  | idleQuantum | idleWait | idleSleep | noTicks | notIdle | terminateReturned | notOwner
deriving DecidableEq

inductive Stop where
  | busy | panic (p : Panic)
deriving DecidableEq

abbrev Exec (n : Nat) := Except Stop (Kernel n)

namespace Kernel

def setTd (k : Kernel n) (t : Nat) (th : Thread n) : Kernel n :=
  { k with td := Function.update k.td t th }

def setSem (k : Kernel n) (s : Nat) (sem : Sem n) : Kernel n :=
  { k with sem := Function.update k.sem s sem }

def setCpu (k : Kernel n) (c : Fin n) (cpu : Cpu) : Kernel n :=
  { k with cpu := Function.update k.cpu c cpu }

def note (k : Kernel n) (e : Event) : Kernel n := { k with log := e :: k.log }

def enqueue (k : Kernel n) (h : Head) (t : Nat) : Kernel n :=
  { k with
    links := listAppend k.links (.inl h) (.inr t)
    log := .inserted t (!listEmpty k.links (.inr t)) :: k.log }

def dequeue (k : Kernel n) (t : Nat) : Kernel n := { k with links := listRemove k.links (.inr t) }

end Kernel

def firstOf (m : Links (Head ⊕ Nat)) (h : Head) : Option Nat :=
  if listEmpty m (.inl h) then none
  else match m.next (.inl h) with
    | .inl _ => none
    | .inr t => some t

def mdxSchedPick (m : Links (Head ⊕ Nat)) : Nat → Option Nat
  | 0 => none
  | i + 1 =>
    match firstOf m (.runq i) with
    | some t => some t
    | none => mdxSchedPick m i

def mdxSchedAdd (k : Kernel n) (t : Nat) : Exec n :=
  if (k.td t).prio < k.nprio then .ok (k.enqueue (.runq (k.td t).prio) t)
  else .error (.panic .prio)

def mdxSchedCb (k : Kernel n) (t : Nat) : Exec n :=
  if (k.td t).state = .running then .ok (k.setTd t { k.td t with state := .ready })
  else .error (.panic .notRunning)

/-- The new thread, and whether it is released. A terminated thread is gone. -/
def mdxSchedAck (th : Thread n) : Thread n × Bool :=
  match th.state with
  | .terminating => ({ th with life := .dead }, true)
  | .semWait | .sleeping => ({ th with state := .ack }, true)
  | _ => (th, false)

def mdxSchedPark (k : Kernel n) (t : Nat) : Except Stop (Kernel n × Bool) :=
  match (k.td t).state with
  | .running => .ok (k, false)
  | .yielding | .ready => (mdxSchedAdd k t).map (·, true)
  | .wakeup => .error (.panic .wrongState)
  | _ => .error (.panic .unknownState)

/-- The state of an idle thread is left alone when it is picked. -/
def Thread.picked (th : Thread n) : Thread n :=
  { th with state := if th.idle then th.state else .running }

def mdxSchedNextSwitch (k : Kernel n) (c : Fin n) (t : Nat) : Exec n :=
  let th := (k.td t).picked
  if th.quantum = 0 then .ok (k.setTd t th)
  else if th.idle then .error (.panic .idleQuantum)
  else .ok (k.setTd t { th with
    tdC := mdxCalloutSetTicks (mdxCalloutInit th.tdC) c th.quantum .schedCb })

def mdxSemInit (count : Int) : Sem n := ⟨count, none⟩

def mdxSemCb (k : Kernel n) (t s : Nat) : Exec n :=
  if (k.sem s).lock.isSome then .error .busy
  else if (k.td t).state = .semUnlock then
    .ok (k.setTd t { k.td t with state := .semUnlockAck })
  else if (k.td t).state = .ack then
    mdxSchedAdd (((k.dequeue t).setTd t
      { k.td t with timeout := true, state := .wakeup }).note (.sem (.timedOut t s))) t
  else .error (.panic .semCb)

def waiter (c : Fin n) (s usec ticks : Nat) (th : Thread n) : Thread n :=
  let th := { th with tdC := mdxCalloutCancel th.tdC }
  let th := if usec = 0 then th else { th with
    timeout := false
    tdC := mdxCalloutSetTicks (mdxCalloutInit th.tdC) c ticks (.semCb s) }
  { th with state := .semWait, pc := .before (.semTimedwait s usec) }

def mdxSemTimedwait (k : Kernel n) (c : Fin n) (t s usec : Nat) :
    Except Stop (Kernel n × Option Bool) :=
  if (k.td t).idle then .error (.panic .idleWait)
  else if (k.sem s).lock.isSome then .error .busy
  else if 0 < (k.sem s).count then
    .ok ((k.setSem s { k.sem s with count := (k.sem s).count - 1 }).note (.sem (.took s)),
      some true)
  else
    .ok (((k.setTd t (waiter c s usec (k.usecToTicks usec) (k.td t))).enqueue (.sem s) t).note
      (.sem (.blocked t s)), none)

def semResult (th : Thread n) (usec : Nat) : Bool := !(decide (usec ≠ 0) && th.timeout)

def mdxSemTrywait (k : Kernel n) (s : Nat) : Except Stop (Kernel n × Bool) :=
  if (k.sem s).lock.isSome then .error .busy
  else if 0 < (k.sem s).count then
    .ok ((k.setSem s { k.sem s with count := (k.sem s).count - 1 }).note (.sem (.took s)), true)
  else .ok (k, false)

/-- `mdx_sem_post` on CPU `c` up to the loop that waits for `TD_STATE_ACK`. The count is an
`int`. -/
def mdxSemPost (k : Kernel n) (c : Fin n) (s : Nat) : Exec n :=
  if (k.sem s).lock.isSome then .error .busy
  else
    let k := k.note (.sem (.posted s))
    match firstOf k.links (.sem s) with
    | none => .ok (k.setSem s { k.sem s with count := ((k.sem s).count + 1).bmod (2 ^ 32) })
    | some t =>
      .ok ((((k.dequeue t).setSem s { k.sem s with lock := some c }).setCpu c
        { k.cpu c with post := some ⟨t, s, .spin⟩ }).note (.sem (.handed t s)))

def mdxSemPostNext (k : Kernel n) (c : Fin n) (p : Post) : Exec n :=
  match p.phase with
  | .spin =>
    if (k.td p.td).state = .ack then
      .ok (((k.setTd p.td { k.td p.td with state := .semUnlock }).setSem p.sem
        { k.sem p.sem with lock := none }).setCpu c
          { k.cpu c with post := some { p with phase := .cancel } })
    else .error .busy
  | .cancel =>
    .ok ((k.setTd p.td { k.td p.td with tdC := mdxCalloutCancel (k.td p.td).tdC }).setCpu c
      { k.cpu c with post := some { p with phase := .wake } })
  | .wake =>
    if (k.td p.td).state = .semUnlock ∨ (k.td p.td).state = .semUnlockAck then
      mdxSchedAdd ((k.setTd p.td { k.td p.td with state := .wakeup }).setCpu c
        { k.cpu c with post := none }) p.td
    else .error (.panic .semPost)

def mdxTsleepCb (k : Kernel n) (t : Nat) : Exec n :=
  if (k.td t).state = .ack then mdxSchedAdd k t else .error (.panic .tsleepCb)

def mdxTsleep (k : Kernel n) (c : Fin n) (t ticks : Nat) : Exec n :=
  let th := k.td t
  if ticks = 0 then .error (.panic .noTicks)
  else if th.idle then .error (.panic .idleSleep)
  else .ok (k.setTd t { th with
    sleepC := mdxCalloutSetTicks (mdxCalloutInit th.sleepC) c ticks ()
    state := .sleeping
    tdC := mdxCalloutCancel th.tdC
    pc := .before .tsleep })

def mdxThreadTerminate (k : Kernel n) (t : Nat) : Kernel n :=
  k.setTd t { k.td t with
    state := .terminating
    tdC := mdxCalloutCancel (k.td t).tdC
    pc := .before .threadTerminate }

def mdxThreadYield (k : Kernel n) (t : Nat) : Kernel n :=
  k.setTd t { k.td t with state := .yielding, pc := .before .threadYield }

def Callout.zero (func : φ) : Callout n φ := ⟨false, [], func⟩

def mdxThreadSetup (k : Kernel n) (prio quantumUsec : Nat) : Thread n where
  state := .ready
  prio := prio
  quantum := if quantumUsec = 0 then 0 else k.usecToTicks quantumUsec
  idle := false
  tdC := .zero .schedCb
  sleepC := .zero ()
  timeout := false
  pc := .user
  life := .live

end Mdepx.Sched
