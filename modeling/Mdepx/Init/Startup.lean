import Mathlib.Data.Prod.Lex
import Mdepx.Lib.Exchange

namespace Mdepx.Init
open Lib

/-! The initialisers that the linker gathers in `set_sysinit_set`, called by `mi_startup`. -/

inductive MdxSubsystemId
  | siSubBoard
  | siSubDrivers
  | siSubClocks
deriving DecidableEq

inductive MdxOrderId
  | siOrderFirst
  | siOrderSecond
  | siOrderThird
  | siOrderFourth
  | siOrderFifth
  | siOrderMiddle
  | siOrderAny
deriving DecidableEq

def MdxSubsystemId.val : MdxSubsystemId → Nat
  | siSubBoard => 0
  | siSubDrivers => 1
  | siSubClocks => 2

def MdxOrderId.val : MdxOrderId → Nat
  | siOrderFirst => 0
  | siOrderSecond => 1
  | siOrderThird => 2
  | siOrderFourth => 3
  | siOrderFifth => 4
  | siOrderMiddle => 5
  | siOrderAny => 6

/-- `struct mdx_sysinit`, over the functions `φ` and the arguments `α` they are called with. -/
structure MdxSysinit (φ α : Type) where
  subsystem : MdxSubsystemId
  order : MdxOrderId
  func : φ
  arg : α
deriving DecidableEq

namespace MdxSysinit
variable {φ α : Type}

def keeps (si xi : MdxSysinit φ α) : Bool :=
  si.subsystem.val < xi.subsystem.val ||
    (si.subsystem.val == xi.subsystem.val && si.order.val ≤ xi.order.val)

def rank (si : MdxSysinit φ α) : Nat ×ₗ Nat := toLex (si.subsystem.val, si.order.val)

theorem keeps_iff (si xi : MdxSysinit φ α) : si.keeps xi = true ↔ si.rank ≤ xi.rank := by
  simp [keeps, rank, Prod.Lex.le_iff]

theorem keeps_total (si xi : MdxSysinit φ α) : si.keeps xi = true ∨ xi.keeps si = true := by
  simpa only [keeps_iff] using le_total si.rank xi.rank

theorem keeps_trans (si xi yi : MdxSysinit φ α) (h : si.keeps xi = true)
    (h' : xi.keeps yi = true) : si.keeps yi = true := by
  rw [keeps_iff] at *
  exact h.trans h'

end MdxSysinit

def miStartup (set : Array (MdxSysinit φ α)) : List (φ × α) :=
  (exchangeSort MdxSysinit.keeps set).toList.map fun si => (si.func, si.arg)

/-- Each entry of the set is called once, with its own argument; a later one is not of a lower
subsystem, nor of a lower order in the same subsystem. -/
theorem miStartup_calls (set : Array (MdxSysinit φ α)) :
    ∃ entries : List (MdxSysinit φ α),
      entries.Perm set.toList ∧
      entries.Pairwise (fun si xi => si.rank ≤ xi.rank) ∧
      miStartup set = entries.map fun si => (si.func, si.arg) := by
  refine ⟨(exchangeSort MdxSysinit.keeps set).toList, ?_, ?_, rfl⟩
  · exact exchangeSort_perm MdxSysinit.keeps set
  · have h := exchangeSort_sorted MdxSysinit.keeps_total MdxSysinit.keeps_trans set
    exact h.imp fun hle => (MdxSysinit.keeps_iff _ _).1 hle

example :
    miStartup #[⟨.siSubClocks, .siOrderFirst, 'a', 0⟩, ⟨.siSubBoard, .siOrderAny, 'b', 1⟩,
      ⟨.siSubBoard, .siOrderFirst, 'c', 2⟩] = [('c', 2), ('b', 1), ('a', 0)] := by
  decide

end Mdepx.Init
