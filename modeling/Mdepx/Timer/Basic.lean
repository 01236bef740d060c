import Mdepx.Callout.Cputime
import Mdepx.Callout.Walk

namespace Mdepx.Timer
open Lib Callout Function

/-! Periodic timers of `kernel/timer/mdx_timer.c`, over the callouts of one CPU. -/

/-- `struct mdx_timer` without the callout it embeds; timer `t` embeds callout `t`. -/
structure MdxTimer where
  countUs : UInt64
  started : UInt32
  periodUs : UInt32
  deriving DecidableEq

/-- What an observer knows of a timer: the content of its memory when it was allocated, the
period of the first call of `mdx_timer_start`, and the invocations of `mdx_timer_tick`. -/
structure History where
  heap : MdxTimer
  first : Option UInt32
  ticks : Nat
  deriving DecidableEq

structure Timers where
  timer : Nat → MdxTimer
  history : Nat → Option History

def Timers.set (ts : Timers) (t : Nat) (x : MdxTimer) : Timers :=
  { ts with timer := update ts.timer t x }

def Timers.note (ts : Timers) (t : Nat) (g : History → History) : Timers :=
  { ts with history := update ts.history t ((ts.history t).map g) }

def Timers.origin (ts : Timers) (t : Nat) : Option (MdxTimer × Option UInt32) :=
  (ts.history t).map fun h => (h.heap, h.first)

structure Sys where
  s : St
  ts : Timers

/-- The address of `mdx_timer_tick`, a static function of `mdx_timer.c`. -/
def tickFunc : Nat := 0

section
variable (mt : Cputime.MiTimer) (fuel : Nat)

def mdxCalloutSet (s : St) (c : Nat) (usec : UInt32) (func : Option Nat) (arg : Nat) :
    Option (St × Int) :=
  (Cputime.mdxCalloutUsecToTicks mt usec).bind fun ticks =>
    mdxCalloutSetTicks fuel s c ticks.toNat func arg

/-- The timer after `mdx_timer_tick`, and what that does to the callouts. The result of
`mdx_callout_set_locked` is not looked at. -/
def mdxTimerTick (timer : MdxTimer) (arg : Nat) : Option (MdxTimer × List FuncOp) := do
  let timer := { timer with countUs := timer.countUs + timer.periodUs.toUInt64 }
  let ticks ← Cputime.mdxCalloutUsecToTicks mt timer.periodUs
  return (timer, [.set arg ticks.toNat (some tickFunc) arg])

/-- `malloc` succeeds with the block of timer `t`, which holds what was left there. -/
def mdxTimerCreate (y : Sys) (t : Nat) (heap : MdxTimer) (c : MdxCallout) : Sys where
  s := mdxCalloutInit (y.s.setCallout t c) t
  ts :=
    { timer := update y.ts.timer t heap
      history := update y.ts.history t (some ⟨heap, none, 0⟩) }

def mdxTimerStart (y : Sys) (t : Nat) (periodUs : UInt32) : Option (Sys × Int) :=
  if (y.ts.timer t).started = 0 then do
    let ts := y.ts.set t { y.ts.timer t with started := 1, periodUs := periodUs }
    let (s, _) ← mdxCalloutSet mt fuel y.s t (ts.timer t).periodUs (some tickFunc) t
    return (⟨s, ts⟩, 0)
  else some (y, MDX_ERROR)

def mdxTimerCount (y : Sys) (t : Nat) : UInt64 := (y.ts.timer t).countUs

def tickArg (l : Loop) : Option Nat :=
  l.c.bind fun c =>
    if (l.s.callout c).ticks ≤ l.ticksElapsed ∧ (l.s.callout c).func = some tickFunc then
      some (l.s.callout c).arg
    else none

/-- One round of the dispatch loop of `mdx_callout_callback`; the funcs of other modules do what
`script` says. -/
def round (script : Nat → List FuncOp) (p : Loop × Timers) : Option (Loop × Timers) :=
  match tickArg p.1 with
  | some t => do
    let (timer, ops) ← mdxTimerTick mt (p.2.timer t) t
    let l ← loopBody fuel (fun _ => ops) p.1
    return (l, (p.2.set t timer).note t fun h => { h with ticks := h.ticks + 1 })
  | none => (loopBody fuel script p.1).map fun l => (l, p.2)

def rounds (script : Nat → List FuncOp) : Nat → Loop × Timers → Option (Loop × Timers)
  | 0, p => some p
  | n + 1, p => (round mt fuel script p).bind (rounds script n)

def mdxCalloutCallback (n : Nat) (script : Nat → List FuncOp) (y : Sys) : Option Sys :=
  if listEmpty y.s.links (.head y.s.cpuid) then some y
  else do
    let (l, ts) ← rounds mt fuel script n (callbackEnter y.s, y.ts)
    if l.c = none then return ⟨callbackExit l.s, ts⟩ else none

end

inductive Op where
  | wait (ticks : Nat)
  | set (c ticks : Nat) (func : Option Nat) (arg : Nat)
  | cancel (c : Nat)
  | create (t : Nat) (heap : MdxTimer) (c : MdxCallout)
  | start (t : Nat) (periodUs : UInt32)
  | callback (script : Nat → List FuncOp)

def Sys.started (y : Sys) (t : Nat) (periodUs : UInt32) : Sys :=
  { y with ts := y.ts.note t fun h => { h with first := h.first.or (some periodUs) } }

inductive Step (mt : Cputime.MiTimer) : Sys → Op → Sys → Prop where
  | wait : Step mt y (.wait d) { y with s := { y.s with now := y.s.now + d } }
  | set : mdxCalloutSetTicks fuel y.s c n f a = some (s', r) →
      Step mt y (.set c n f a) { y with s := s' }
  | cancel : Step mt y (.cancel c) { y with s := (mdxCalloutCancel y.s c).1 }
  | create : Step mt y (.create t heap c) (mdxTimerCreate y t heap c)
  | start : mdxTimerStart mt fuel y t p = some (y', r) → Step mt y (.start t p) (y'.started t p)
  | callback : mdxCalloutCallback mt fuel n script y = some y' → Step mt y (.callback script) y'

def Countable (mt : Cputime.MiTimer) (p : UInt32) : Prop :=
  ∃ ticks, Cputime.mdxCalloutUsecToTicks mt p = some ticks ∧ ticks ≠ 0

/-- Other modules neither touch a timer's callout nor name its func. -/
def Foreign (ts : Timers) : FuncOp → Prop
  | .set c _ f _ => ts.history c = none ∧ f ≠ some tickFunc
  | .cancel c => ts.history c = none

/-- What callers do: a new timer lies in memory that no callout in the list uses, and a timer is
started with a positive `int` as its period. -/
def Proper (mt : Cputime.MiTimer) (y : Sys) : Op → Prop
  | .wait _ => True
  | .set c n f a => n < 2 ^ 32 ∧ Foreign y.ts (.set c n f a)
  | .cancel c => Foreign y.ts (.cancel c)
  | .create t _ _ => (y.s.callout t).active = false ∧ y.ts.history t = none
  | .start t p => y.ts.history t ≠ none ∧ 0 < p ∧ p.toNat < 2 ^ 31 ∧ Countable mt p
  | .callback script => ∀ i, ∀ op ∈ script i, op.fits ∧ Foreign y.ts op

structure Shape where
  active : Bool
  func : Option Nat
  arg : Nat

def shape (s : St) (c : Nat) : Shape :=
  ⟨(s.callout c).active, (s.callout c).func, (s.callout c).arg⟩

theorem setCallout_shape_other (s : St) (h : x ≠ c) : shape (s.setCallout c z) x = shape s x := by
  simp only [shape, St.setCallout, update_of_ne h]

theorem setTicks_shape (s : St) (c n x : Nat) : shape (s.setTicks c n) x = shape s x :=
  setCallout_field (fun z => Shape.mk z.active z.func z.arg)
    (y := { s.callout c with ticks := n }) s rfl x

theorem expireOne_shape_other (s : St) (h : x ≠ c) : shape (expireOne s c) x = shape s x := by
  rw [shape, expireOne_other s h]
  rfl

theorem expireOne_shape_self (s : St) (c : Nat) :
    shape (expireOne s c) c = { shape s c with active := false } := by
  rw [shape, expireOne_self]
  rfl

theorem Armed.shape_other (h : Armed s s' ds c n f a) (hx : x ≠ c) : shape s' x = shape s x := by
  rw [shape, h.other x hx]
  rfl

theorem Armed.shape_self (h : Armed s s' ds c n f a) : shape s' c = ⟨true, f, a⟩ := by
  rw [shape, h.new]

theorem marked_shape (s : St) (c x : Nat) : shape (marked s c) x = shape s x :=
  setCallout_field (fun z => Shape.mk z.active z.func z.arg)
    (y := { s.callout c with state := .fired }) s rfl x

theorem cancel_arg (s : St) (c x : Nat) :
    ((mdxCalloutCancel s c).1.callout x).arg = (s.callout x).arg := by
  have hunlink (s : St) : ((cancelUnlink s c).callout x).arg = (s.callout x).arg :=
    setCallout_field MdxCallout.arg (y := { s.callout c with active := false })
      { s with links := listRemove s.links (.node c) } rfl x
  have hticks (n k : Nat) : ((s.setTicks n k).callout x).arg = (s.callout x).arg :=
    setCallout_field MdxCallout.arg (y := { s.callout n with ticks := k }) s rfl x
  rw [mdxCalloutCancel, mdxCalloutCancelLocked]
  cases hact : (s.callout c).active with
  | false => rfl
  | true =>
    cases hn : next s (s.callout c).cpuid c with
    | none => exact hunlink s
    | some n => exact (hunlink _).trans (hticks n _)

theorem Cancelled.shape_other (hq : Queue s ds) (hq' : Queue s' (Delta.remove c ds))
    (he : (mdxCalloutCancel s c).1 = s') (h : Cancelled s s' c) (hx : x ≠ c) :
    shape s' x = shape s x := by
  have hact : (s'.callout x).active = (s.callout x).active := by
    rw [Bool.eq_iff_iff, hq'.active, hq.active]
    exact ⟨mem_ids_remove, mem_ids_remove_of_ne hx⟩
  have harg := cancel_arg s c x
  rw [he] at harg
  rw [shape, shape, hact, h.func, harg]

theorem Cancelled.shape_self (h : Cancelled s s' c) :
    shape s' c = { shape s c with active := false } := by
  rw [shape, h.self]
  rfl

structure Touched (s s' : St) (c : Nat) (f : Option Nat) : Prop where
  other : ∀ x, x ≠ c → shape s' x = shape s x
  self : shape s' c = shape s c ∨ ((shape s' c).active = true ∧ (shape s' c).func = f) ∨
    shape s' c = { shape s c with active := false }

theorem set_touched (hq : Queue s ds) (hn : n < 2 ^ 32) (hm : s.miTmr.maxcnt < 2 ^ 32)
    (h : mdxCalloutSetTicksLocked fuel s c n f a = some (s', r)) : Touched s s' c f := by
  rcases setTicksLocked_cases hq hn hm h with ⟨-, he, -⟩ | ⟨-, -, he, -⟩ | ⟨-, -, ha, -⟩
  · subst he
    exact ⟨fun _ _ => rfl, .inl rfl⟩
  · subst he
    exact ⟨fun x _ => marked_shape s c x, .inl (marked_shape s c c)⟩
  · refine ⟨fun x hx => Armed.shape_other ha hx, .inr (.inl ?_)⟩
    rw [Armed.shape_self ha]
    exact ⟨rfl, rfl⟩

theorem cancel_touched (hq : Queue s ds) (hb : Bounded ds) (c : Nat) (f : Option Nat) :
    Touched s (mdxCalloutCancel s c).1 c f := by
  by_cases hc : c ∈ ids ds
  · obtain ⟨s', he, hq', hs⟩ := cancel_remove hq hb hc
    have he' : (mdxCalloutCancel s c).1 = s' := congrArg Prod.fst he
    rw [he']
    exact ⟨fun x hx => Cancelled.shape_other hq hq' he' hs hx,
      .inr (.inr (Cancelled.shape_self hs))⟩
  · rw [cancel_inactive (hq.inactive hc)]
    exact ⟨fun _ _ => rfl, .inl rfl⟩

end Mdepx.Timer
