import Mathlib.Algebra.Group.Int.Defs
import Mathlib.Algebra.GroupWithZero.Nat
import Mdepx.List
import Mdepx.Lib.Run

namespace Mdepx.Fifo
open Lib

/-! The queues of `kernel/sched/mdx_fifo.c`, between their locked sections. -/

/-- A semaphore, as its locked sections leave it. A thread on `td_list` sleeps until a post has
removed it and added it to the run queue. -/
structure Sem (τ : Type) where
  count : Int
  tdList : List τ

def mdxSemInit (count : Int) : Sem τ := ⟨count, []⟩

def mdxSemWait (sem : Sem τ) (td : τ) : Sem τ × Bool :=
  if 0 < sem.count then ({ sem with count := sem.count - 1 }, true)
  else ({ sem with tdList := sem.tdList ++ [td] }, false)

def mdxSemTrywait (sem : Sem τ) : Sem τ × Bool :=
  if 0 < sem.count then ({ sem with count := sem.count - 1 }, true) else (sem, false)

/-- With the thread that is woken. The count is an `int`. -/
def mdxSemPost (sem : Sem τ) : Sem τ × Option τ :=
  match sem.tdList with
  | [] => ({ sem with count := (sem.count + 1).bmod (2 ^ 32) }, none)
  | td :: tds => ({ sem with tdList := tds }, some td)

/-- A `struct mdx_fifo`. The nodes of its list are the head, `none`, and the entries. -/
structure MdxFifo (ε τ : Type) where
  list : Links (Option ε)
  sem : Sem τ

section
variable [DecidableEq ε] [DecidableEq τ]

def mdxFifoInit (list : Links (Option ε)) : MdxFifo ε τ := ⟨listInit list none, mdxSemInit 0⟩

def putEntry (f : MdxFifo ε τ) (e : ε) : MdxFifo ε τ :=
  { f with list := listAppend f.list none (some e) }

def getEntry (f : MdxFifo ε τ) : MdxFifo ε τ × Option ε :=
  let e := f.list.next none
  ({ f with list := listRemove f.list e }, e)

/-- Where a thread is: outside of the queue, before the `mdx_sem_post` of a put, on `td_list`,
removed from it by a post, or before the locked section of a get. -/
inductive Stage where
  | out | posting | waiting | woken | getting
deriving DecidableEq

structure State (ε τ : Type) where
  fifo : MdxFifo ε τ
  stage : τ → Stage
  appended : List ε
  removed : List (Option ε)

inductive Op (ε τ : Type) where
  | put (td : τ) (e : ε) | post (td : τ) | wait (td : τ) | resume (td : τ) | trywait (td : τ)
  | get (td : τ)

def State.setStage (s : State ε τ) (td : τ) (stage : Stage) : State ε τ :=
  { s with stage := Function.update s.stage td stage }

def State.answer (s : State ε τ) (td : τ) (r : Sem τ × Bool) (otherwise : Stage) : State ε τ :=
  { s with fifo := { s.fifo with sem := r.1 } }.setStage td (if r.2 then .getting else otherwise)

def State.post (s : State ε τ) (td : τ) : State ε τ :=
  let r := mdxSemPost s.fifo.sem
  let s := { s with fifo := { s.fifo with sem := r.1 } }.setStage td .out
  match r.2 with
  | none => s
  | some u => s.setStage u .woken

def exec (s : State ε τ) : Op ε τ → Option (State ε τ)
  | .put td e =>
    if s.stage td = .out ∧ e ∉ s.appended then
      some ({ s with
        fifo := putEntry s.fifo e, appended := s.appended ++ [e] }.setStage td .posting)
    else none
  | .post td => if s.stage td = .posting then some (s.post td) else none
  | .wait td =>
    if s.stage td = .out then some (s.answer td (mdxSemWait s.fifo.sem td) .waiting) else none
  | .resume td => if s.stage td = .woken then some (s.setStage td .getting) else none
  | .trywait td =>
    if s.stage td = .out then some (s.answer td (mdxSemTrywait s.fifo.sem) .out) else none
  | .get td =>
    if s.stage td = .getting then
      let r := getEntry s.fifo
      some ({ s with fifo := r.1, removed := s.removed ++ [r.2] }.setStage td .out)
    else none

def Next (s : State ε τ) (op : Op ε τ) (s' : State ε τ) : Prop := exec s op = some s'

def start (list : Links (Option ε)) : State ε τ := ⟨mdxFifoInit list, fun _ => .out, [], []⟩

end
end Mdepx.Fifo
