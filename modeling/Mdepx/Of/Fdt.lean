import Mathlib.Algebra.Group.Int.Defs
import Mathlib.Algebra.GroupWithZero.Nat
import Mathlib.Data.List.Nodup

namespace Mdepx.Of
open List

/-! The flattened device tree, as `libfdt` gives it to the kernel. -/

/-- A node with those of its properties that are read here; a property of numbers is the list of
its cells. The root is under no node and has a negative number for its parent. -/
structure Node where
  offset : Int
  parent : Int
  status : Option String
  compatible : Option (List String)
  addressCells : Option UInt32
  sizeCells : Option UInt32
  reg : Option (List UInt32)
  ranges : Option (List UInt32)
deriving DecidableEq

/-- The nodes stand in the order of their offsets, each behind the one it is under. -/
structure Fdt where
  nodes : List Node
  ordered : nodes.Pairwise fun n m => n.offset < m.offset
  bounded : ∀ n ∈ nodes, 0 ≤ n.offset ∧ n.offset < 2 ^ 31
  under : ∀ n ∈ nodes, n.parent < n.offset ∧
    (if n.offset = 0 then n.parent < 0 else ∃ m ∈ nodes, m.offset = n.parent)

namespace Fdt

def node (fdt : Fdt) (offset : Int) : Option Node := fdt.nodes.find? fun n => n.offset == offset

theorem node_eq_some {fdt : Fdt} (h : fdt.node offset = some n) :
    n ∈ fdt.nodes ∧ n.offset = offset := by
  have hp := find?_some h
  exact ⟨mem_of_find?_eq_some h, by simpa using hp⟩

theorem node_of_mem {fdt : Fdt} (h : n ∈ fdt.nodes) : fdt.node n.offset = some n := by
  have hsome : (fdt.node n.offset).isSome := find?_isSome.2 ⟨n, h, beq_self_eq_true _⟩
  obtain ⟨m, hm⟩ := Option.isSome_iff_exists.1 hsome
  obtain ⟨hmem, hoffset⟩ := node_eq_some hm
  have hnodup : (fdt.nodes.map Node.offset).Nodup :=
    pairwise_map.2 (fdt.ordered.imp Int.ne_of_lt)
  rw [hm, inj_on_of_nodup_map hnodup hmem h hoffset]

theorem node_offset_bounded {fdt : Fdt} (h : fdt.node offset = some n) :
    0 ≤ offset ∧ offset < 2 ^ 31 := by
  obtain ⟨hmem, rfl⟩ := node_eq_some h
  exact fdt.bounded n hmem

end Fdt

def fdtErrNotfound : Int := 1

/-- `fdt_node_offset_by_compatible`: the first node behind `startoffset` that lists the string. -/
def fdtNodeOffsetByCompatible (fdt : Fdt) (startoffset : Int) (compatible : String) : Int :=
  match fdt.nodes.find? fun n =>
      startoffset < n.offset && (n.compatible.getD []).contains compatible with
  | some n => n.offset
  | none => -fdtErrNotfound

theorem fdtNodeOffsetByCompatible_cases (fdt : Fdt) (startoffset : Int) (compatible : String) :
    (fdtNodeOffsetByCompatible fdt startoffset compatible < 0 ∧
      ∀ n ∈ fdt.nodes, startoffset < n.offset → compatible ∉ n.compatible.getD []) ∨
    ∃ n ∈ fdt.nodes, fdtNodeOffsetByCompatible fdt startoffset compatible = n.offset ∧
      startoffset < n.offset ∧ compatible ∈ n.compatible.getD [] ∧
      ∀ m ∈ fdt.nodes, startoffset < m.offset → compatible ∈ m.compatible.getD [] →
        n.offset ≤ m.offset := by
  unfold fdtNodeOffsetByCompatible
  split
  · rename_i n hn
    obtain ⟨hp, as, bs, hnodes, has⟩ := find?_eq_some_iff_append.1 hn
    simp only [Bool.and_eq_true, decide_eq_true_eq, contains_iff_mem] at hp
    refine .inr ⟨n, mem_of_find?_eq_some hn, rfl, hp.1, hp.2, ?_⟩
    intro m hm hlt hc
    have hordered := fdt.ordered
    rw [hnodes] at hm hordered
    rcases mem_append.1 hm with hm | hm
    · have hnot := has m hm
      simp [hlt, hc] at hnot
    · rcases mem_cons.1 hm with rfl | hm
      · exact Int.le_refl _
      · exact Int.le_of_lt ((pairwise_cons.1 (pairwise_append.1 hordered).2.1).1 m hm)
  · rename_i hn
    refine .inl ⟨by decide, ?_⟩
    intro n hm hlt hc
    have hnot := find?_eq_none.1 hn n hm
    simp [hlt, hc] at hnot

theorem fdtNodeOffsetByCompatible_lt {fdt : Fdt} {startoffset : Int} {compatible : String}
    (h : 0 ≤ fdtNodeOffsetByCompatible fdt startoffset compatible) :
    startoffset < fdtNodeOffsetByCompatible fdt startoffset compatible ∧
      fdtNodeOffsetByCompatible fdt startoffset compatible < 2 ^ 31 := by
  rcases fdtNodeOffsetByCompatible_cases fdt startoffset compatible with
    ⟨hneg, -⟩ | ⟨n, hn, he, hlt, -⟩
  · omega
  · rw [he]
    exact ⟨hlt, (fdt.bounded n hn).2⟩

def mdxOfNodeIsEnabled (fdt : Fdt) (offset : Int) : Bool :=
  match (fdt.node offset).bind Node.status with
  | none => true
  | some status => status != "disabled"

def mdxOfGetCells (fdt : Fdt) (offset : Int) : Except Int (UInt32 × UInt32) :=
  match (fdt.node offset).bind Node.addressCells with
  | none => .error (-1)
  | some addr =>
    match (fdt.node offset).bind Node.sizeCells with
    | none => .error (-1)
    | some size => .ok (addr, size)

end Mdepx.Of
