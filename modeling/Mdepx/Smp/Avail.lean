import Mathlib.Algebra.BigOperators.Fin
import Mdepx.Sched.Runq
import Mdepx.Lib.Total

/-! `pcpu_list` and the IPIs of `mdx_sched_cpu_notify`, over the scheduler. -/

namespace Mdepx.Avail
open Lib
open Sched (Kernel Thread Ctx OnRunq added)

structure Machine (n : Nat) where
  kernel : Kernel n
  pcpuList : List (Fin n)
  pendingIpis : Fin n → Bool

inductive Stop where
  | sched (s : Sched.Stop)
  | foundMyself
  | noIpi
deriving DecidableEq

def idleOn (k : Kernel n) (c : Fin n) : Bool :=
  match (k.cpu c).ctx with
  | .thread t | .chosen t => (k.td t).idle
  | .handler .. => false

/-- An IPI is sent to the first CPU of the list, which stays on it. -/
def mdxSchedCpuNotify (m : Machine n) (c : Fin n) : Except Stop (Machine n) :=
  match m.pcpuList with
  | [] => .ok m
  | p :: _ =>
    if p = c then .error .foundMyself
    else .ok { m with pendingIpis := Function.update m.pendingIpis p true }

def mdxSchedAdd (m : Machine n) (c : Fin n) (t : Nat) : Except Stop (Machine n) :=
  if (m.kernel.td t).idle then .ok m else mdxSchedCpuNotify m c

def mdxSchedCpuAvail (m : Machine n) (c : Fin n) (available : Bool) : Machine n :=
  { m with pcpuList := if available then m.pcpuList ++ [c] else m.pcpuList.erase c }

/-- A step of the scheduler: `riscv_exception` takes an idle CPU off the list, `mdx_sched_next`
puts it back when it picks an idle thread, and `mdx_sched_add` notifies a CPU. -/
def sched (m : Machine n) (a : Sched.Act n) : Except Stop (Machine n) :=
  match Sched.exec m.kernel a with
  | .error e => .error (.sched e)
  | .ok k =>
    match a with
    | .trap c _ =>
      if idleOn m.kernel c then .ok (mdxSchedCpuAvail { m with kernel := k } c false)
      else .ok { m with kernel := k }
    | .pick c =>
      if idleOn k c then .ok (mdxSchedCpuAvail { m with kernel := k } c true)
      else .ok { m with kernel := k }
    | a =>
      match added m.kernel a with
      | some (c, t) => mdxSchedAdd { m with kernel := k } c t
      | none => .ok { m with kernel := k }

inductive Act (n : Nat) where
  | sched (a : Sched.Act n)
  | ipi (c : Fin n)
deriving DecidableEq

def exec (m : Machine n) : Act n → Except Stop (Machine n)
  | .sched a => sched m a
  | .ipi c =>
    if m.pendingIpis c then
      sched { m with pendingIpis := Function.update m.pendingIpis c false } (.trap c true)
    else .error .noIpi

abbrev Next (m : Machine n) (a : Act n) (m' : Machine n) : Prop := exec m a = .ok m'

def boot (n nprio : Nat) (usecToTicks : Nat → Nat) (count : Nat → Int) (avail : List (Fin n)) :
    Machine n :=
  ⟨Sched.boot n nprio usecToTicks count, avail, fun _ => false⟩

def Quiet (m : Machine n) : Prop :=
  ∀ c, (∃ t, (m.kernel.cpu c).ctx = .thread t) ∧ m.pendingIpis c = false

def WorkWaits (k : Kernel n) : Prop := ∃ t, OnRunq k t ∧ (k.td t).idle = false

/-- The first CPU of the list, if any, has no IPI pending. -/
def signals (m : Machine n) : Bool :=
  match m.pcpuList with
  | [] => true
  | p :: _ => !m.pendingIpis p

/-- A thread is created with a priority above that of the idle threads, and a thread that is not
idle is added when the IPI it causes is not lost. -/
def heard (m : Machine n) : Act n → Bool
  | .sched a =>
    (match a with
      | .create _ _ prio _ => decide (1 ≤ prio)
      | _ => true) &&
    (match added m.kernel a with
      | some (_, t) => (m.kernel.td t).idle || signals m
      | none => true)
  | .ipi _ => true

abbrev Heard (m : Machine n) (a : Act n) : Prop := heard m a = true

end Mdepx.Avail
