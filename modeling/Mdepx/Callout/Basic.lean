import Mathlib.Algebra.GroupWithZero.Nat
import Mdepx.List

namespace Mdepx.Callout
open Lib

def u32 (n : Nat) : Nat := n % 2 ^ 32

def sub32 (a b : Nat) : Nat := u32 (a + 2 ^ 32 - b)

theorem u32_of_lt (h : n < 2 ^ 32) : u32 n = n := Nat.mod_eq_of_lt h

theorem u32_lt (n : Nat) : u32 n < 2 ^ 32 := Nat.mod_lt _ (by decide)

theorem sub32_of_le (h : b ≤ a) (ha : a < 2 ^ 32) : sub32 a b = a - b := by
  unfold sub32 u32
  omega

/-- Addresses of the list entries: the head of each CPU's list and the node of each callout. -/
inductive Entry where
  | head (cpuid : Nat)
  | node (c : Nat)
  deriving DecidableEq

inductive CalloutState where
  | ready
  | fired
  deriving DecidableEq

inductive TimerState where
  | ready
  | running
  | exception
  deriving DecidableEq

/-- `struct mdx_callout`, without its list node; `active` is the bit `CALLOUT_FLAG_ACTIVE`. -/
structure MdxCallout where
  state : CalloutState
  ticks : Nat
  ticksOrig : Nat
  func : Option Nat
  arg : Nat
  active : Bool
  cpuid : Nat
  deriving DecidableEq

structure MiTimer where
  countSaved : Nat → Nat
  maxcnt : Nat
  state : Nat → TimerState

inductive Event where
  | armed (c time ticks : Nat)
  | cancelled (c time : Nat)
  | invoked (c time : Nat)
  deriving DecidableEq

/-- The callouts as seen by one CPU, its timer device, and the observer.

The device counts `0 .. maxcnt` with the true time `now`; `expiry` is the time its compare
register was last programmed for. `savedAt` is the true time at which `count_saved` was last
stored and `log` lists the observed events, newest first: no code reads these two. -/
structure St where
  cpuid : Nat
  links : Links Entry
  callout : Nat → MdxCallout
  miTmr : MiTimer
  now : Nat
  expiry : Option Nat
  savedAt : Nat
  log : List Event

namespace St

def setCallout (s : St) (c : Nat) (x : MdxCallout) : St :=
  { s with callout := Function.update s.callout c x }

def setTicks (s : St) (c ticks : Nat) : St :=
  s.setCallout c { s.callout c with ticks := ticks }

def setTimerState (s : St) (t : TimerState) : St :=
  { s with miTmr := { s.miTmr with state := Function.update s.miTmr.state s.cpuid t } }

def saveCount (s : St) (count : Nat) : St :=
  { s with
    miTmr := { s.miTmr with countSaved := Function.update s.miTmr.countSaved s.cpuid count }
    savedAt := s.now }

def observe (s : St) (e : Event) : St := { s with log := e :: s.log }

def timerState (s : St) : TimerState := s.miTmr.state s.cpuid

end St

def count (s : St) : Nat := s.now % (s.miTmr.maxcnt + 1)

def start (s : St) (ticks : Nat) : St := { s with expiry := some (s.now + ticks) }

def stop (s : St) : St := { s with expiry := none }

def Entry.container : Entry → Option Nat
  | .node c => some c
  | .head _ => none

def first (s : St) (cpuid : Nat) : Option Nat :=
  if listEmpty s.links (.head cpuid) then none else (s.links.next (.head cpuid)).container

def next (s : St) (cpuid c0 : Nat) : Option Nat :=
  if s.links.next (.node c0) = .head cpuid then none else (s.links.next (.node c0)).container

def miTmrStart (s : St) (ticks : Nat) : St :=
  if s.miTmr.maxcnt < ticks then start s s.miTmr.maxcnt else start s ticks

def mdxCalloutInit (s : St) (c : Nat) : St :=
  s.setCallout c { s.callout c with state := .ready, active := false }

def getElapsed (s : St) : Nat :=
  let saved := s.miTmr.countSaved s.cpuid
  if count s = saved then 0
  else if saved < count s then count s - saved
  else u32 (sub32 s.miTmr.maxcnt saved + count s)

/-- The loop of `mdx_callout_set_one` from entry `c` on: `c0` goes before the first entry
with more ticks left than it, and its ticks become relative to the entry it follows. Returns
the entry at which the loop stopped, or `none` past the last one. -/
def setOneLoop : Nat → St → Nat → Option Nat → Option (St × Option Nat)
  | 0, _, _, _ => none
  | _ + 1, s, _, none => some (s, none)
  | fuel + 1, s, c0, some c =>
    if (s.callout c0).ticks < (s.callout c).ticks then
      let s := s.setTicks c ((s.callout c).ticks - (s.callout c0).ticks)
      some ({ s with links := listInsert s.links (.node c) (.node c0) }, some c)
    else
      let s := s.setTicks c0 ((s.callout c0).ticks - (s.callout c).ticks)
      setOneLoop fuel s c0 (next s s.cpuid c)

def setOneTimer (s : St) (c0 elapsed : Nat) : St :=
  match s.timerState with
  | .running =>
    if first s s.cpuid = some c0 then miTmrStart s (sub32 (s.callout c0).ticks elapsed) else s
  | .exception => s
  | .ready =>
    let s := s.setTimerState .running
    let s := s.saveCount (count s)
    match first s s.cpuid with
    | some c => miTmrStart s (s.callout c).ticks
    | none => s

def mdxCalloutSetOne (fuel : Nat) (s : St) (c0 : Nat) : Option St := do
  let elapsed := if s.timerState = .running then getElapsed s else 0
  let s := if s.timerState = .running then
      s.setTicks c0 (u32 ((s.callout c0).ticks + elapsed)) else s
  let (s, c) ← setOneLoop fuel s c0 (first s s.cpuid)
  let s := if c = none then
      { s with links := listAppend s.links (.head s.cpuid) (.node c0) } else s
  return setOneTimer s c0 elapsed

def MDX_OK : Int := 0

def MDX_ERROR : Int := -1

def mdxCalloutSetTicksLocked (fuel : Nat) (s : St) (c ticks : Nat) (func : Option Nat)
    (arg : Nat) : Option (St × Int) :=
  if (s.callout c).active then some (s, MDX_ERROR)
  else if ticks = 0 then
    some (s.setCallout c { s.callout c with state := .fired }, MDX_OK)
  else do
    let s := s.setCallout c { s.callout c with
      ticksOrig := ticks, ticks := ticks, func := func, arg := arg, cpuid := s.cpuid }
    let s ← mdxCalloutSetOne fuel s c
    let s := s.setCallout c { s.callout c with active := true }
    return (s.observe (.armed c s.now ticks), MDX_OK)

def mdxCalloutSetTicks (fuel : Nat) (s : St) (c ticks : Nat) (func : Option Nat)
    (arg : Nat) : Option (St × Int) :=
  mdxCalloutSetTicksLocked fuel s c ticks func arg

def mdxCalloutCancelLocked (s : St) (c : Nat) : St × Int :=
  if !(s.callout c).active then (s, 1)
  else
    let s := match next s (s.callout c).cpuid c with
      | some n => s.setTicks n (u32 ((s.callout n).ticks + (s.callout c).ticks))
      | none => s
    let s := { s with links := listRemove s.links (.node c) }
    let s := s.setCallout c { s.callout c with active := false }
    (s.observe (.cancelled c s.now), MDX_OK)

def mdxCalloutCancel (s : St) (c : Nat) : St × Int := mdxCalloutCancelLocked s c

inductive FuncOp where
  | set (c ticks : Nat) (func : Option Nat) (arg : Nat)
  | cancel (c : Nat)
  deriving DecidableEq

def funcOp (fuel : Nat) (s : St) : FuncOp → Option St
  | .set c ticks func arg => (mdxCalloutSetTicksLocked fuel s c ticks func arg).map Prod.fst
  | .cancel c => some (mdxCalloutCancel s c).1

def funcOps (fuel : Nat) (s : St) : List FuncOp → Option St
  | [] => some s
  | op :: ops => (funcOp fuel s op).bind fun s => funcOps fuel s ops

/-- The variables of the dispatch loop of `mdx_callout_callback`, with the callouts whose
func has been invoked so far, in order. -/
structure Loop where
  s : St
  c : Option Nat
  ticksElapsed : Nat
  fired : List Nat

def expireOne (s : St) (c : Nat) : St :=
  let s := { s with links := listRemove s.links (.node c) }
  s.setCallout c { s.callout c with ticks := 0, state := .fired, active := false }

/-- One round of the dispatch loop. The func invoked as number `i` of this pass performs the
operations `script i`. A `break` is a loop variable without value. -/
def loopBody (fuel : Nat) (script : Nat → List FuncOp) (l : Loop) : Option Loop :=
  match l.c with
  | none => some l
  | some c =>
    let tmp := next l.s l.s.cpuid c
    if (l.s.callout c).ticks ≤ l.ticksElapsed then
      let ticksElapsed := l.ticksElapsed - (l.s.callout c).ticks
      let s := expireOne l.s c
      match (s.callout c).func with
      | none => some { l with s := s, c := tmp, ticksElapsed := ticksElapsed }
      | some _ => do
        let s ← funcOps fuel (s.observe (.invoked c s.now)) (script l.fired.length)
        return { s := s, c := tmp, ticksElapsed := ticksElapsed, fired := l.fired ++ [c] }
    else
      let s := l.s.setTicks c ((l.s.callout c).ticks - l.ticksElapsed)
      some { l with s := s, c := none }

def loopRounds (fuel : Nat) (script : Nat → List FuncOp) : Nat → Loop → Option Loop
  | 0, l => some l
  | n + 1, l => (loopBody fuel script l).bind (loopRounds fuel script n)

def callbackEnter (s : St) : Loop :=
  let ticksElapsed := getElapsed s
  let s := s.saveCount (count s)
  let s := s.setTimerState .exception
  { s := s, c := first s s.cpuid, ticksElapsed := ticksElapsed, fired := [] }

def callbackExit (s : St) : St :=
  match first s s.cpuid with
  | some c =>
    if s.timerState = .exception then miTmrStart (s.setTimerState .running) (s.callout c).ticks
    else s
  | none => stop (s.setTimerState .ready)

def mdxCalloutCallback (fuel n : Nat) (script : Nat → List FuncOp) (s : St) : Option St :=
  if listEmpty s.links (.head s.cpuid) then some s
  else do
    let l ← loopRounds fuel script n (callbackEnter s)
    if l.c = none then return callbackExit l.s else none

end Mdepx.Callout
