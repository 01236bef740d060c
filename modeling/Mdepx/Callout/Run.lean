import Mdepx.Callout.Refine
import Mdepx.Lib.Run

namespace Mdepx.Callout
open Lib

inductive Op where
  | wait (ticks : Nat)
  | set (c ticks : Nat) (func : Option Nat) (arg : Nat)
  | cancel (c : Nat)
  | callback (script : Nat → List FuncOp)

inductive Step : St → Op → St → Prop where
  | wait : Step s (.wait d) { s with now := s.now + d }
  | set : mdxCalloutSetTicks fuel s c n f a = some (s', r) → Step s (.set c n f a) s'
  | cancel : Step s (.cancel c) (mdxCalloutCancel s c).1
  | callback : mdxCalloutCallback fuel n script s = some s' → Step s (.callback script) s'

def exec (fuel n : Nat) (s : St) : Op → Option St
  | .wait d => some { s with now := s.now + d }
  | .set c k f a => (mdxCalloutSetTicks fuel s c k f a).map Prod.fst
  | .cancel c => some (mdxCalloutCancel s c).1
  | .callback script => mdxCalloutCallback fuel n script s

theorem exec_step (h : exec fuel n s op = some s') : Step s op s' := by
  cases op with
  | wait =>
    cases h
    exact .wait
  | set =>
    obtain ⟨⟨t, r⟩, ht, he⟩ := Option.map_eq_some_iff.1 h
    cases he
    exact .set ht
  | cancel =>
    cases h
    exact .cancel
  | callback => exact .callback h

end Mdepx.Callout
