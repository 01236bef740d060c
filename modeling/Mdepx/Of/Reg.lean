import Mathlib.Data.BitVec
import Mdepx.Of.Fdt

namespace Mdepx.Of

/-! `mdx_of_get_reg`. An access behind the end of a property gives no result. -/

def fdtErrBadoffset : Int := 4

def fdtParentOffset (fdt : Fdt) (offset : Int) : Int :=
  match fdt.node offset with
  | some n => n.parent
  | none => -fdtErrBadoffset

theorem fdtParentOffset_lt {fdt : Fdt} (h : 0 < fdtParentOffset fdt offset) :
    fdtParentOffset fdt offset < offset := by
  unfold fdtParentOffset at *
  split
  · rename_i n hn
    obtain ⟨hmem, rfl⟩ := Fdt.node_eq_some hn
    exact (fdt.under n hmem).1
  · rename_i hn
    rw [hn] at h
    exact absurd h (by decide)

/-- The loop that shifts cells into a variable of `w` bits, with the number of cells that are left;
the variable, and the cells behind. -/
def loadCells (w : Nat) : Nat → BitVec w → List UInt32 → Option (BitVec w × List UInt32)
  | 0, v, cells => some (v, cells)
  | _ + 1, _, [] => none
  | n + 1, v, c :: cells =>
    loadCells w n ((v.setWidth 64 <<< 32 ||| c.toBitVec.setWidth 64).setWidth w) cells

def applyRanges (w naddr bNaddr nsize : Nat) :
    Nat → List UInt32 → BitVec w → Option (BitVec w)
  | 0, _, paddr => some paddr
  | n + 1, r, paddr => do
    let (raddr, r) ← loadCells 64 naddr 0 r
    let (baddr, r) ← loadCells 64 bNaddr 0 r
    let (rsize, r) ← loadCells 64 nsize 0 r
    if paddr.setWidth 64 < raddr ∨ raddr + rsize ≤ paddr.setWidth 64 then
      applyRanges w naddr bNaddr nsize n r paddr
    else
      applyRanges w naddr bNaddr nsize n r ((paddr.setWidth 64 - raddr + baddr).setWidth w)

def walk (w : Nat) (fdt : Fdt) (naddr nsize : UInt32) (parent : Int) (paddr : BitVec w) :
    Option (Except Int (BitVec w)) :=
  let bus := fdtParentOffset fdt parent
  if _h : bus > 0 then
    match mdxOfGetCells fdt bus with
    | .error error => some (.error error)
    | .ok (bNaddr, _) =>
      match (fdt.node parent).bind Node.ranges with
      | none => some (.ok paddr)
      | some [] => walk w fdt naddr nsize bus paddr
      | some (c :: r) =>
        let cells := naddr + bNaddr + nsize
        if cells = 0 then none
        else
          match applyRanges w naddr.toNat bNaddr.toNat nsize.toNat
              ((c :: r).length / cells.toNat) (c :: r) paddr with
          | none => none
          | some paddr => walk w fdt naddr nsize bus paddr
  else some (.ok paddr)
termination_by parent.toNat
decreasing_by
  all_goals
    have hlt := fdtParentOffset_lt _h
    omega

/-- The address, after `PHYS_TO_DMAP`, and the size. The index is not looked at. -/
def mdxOfGetReg (w : Nat) (physToDmap : BitVec w → BitVec w) (fdt : Fdt) (nodeoffset : Int)
    (_index : Int) : Option (Except Int (BitVec w × BitVec w)) :=
  -- the root has offset 0 as well as the path "/"
  let parent := fdtParentOffset fdt nodeoffset
  match mdxOfGetCells fdt parent with
  | .error error => some (.error error)
  | .ok (naddr, nsize) =>
    match (fdt.node nodeoffset).bind Node.reg with
    | none => some (.error (-1))
    | some regp => do
      let (paddr, regp) ← loadCells w naddr.toNat 0 regp
      let (psize, _) ← loadCells w nsize.toNat 0 regp
      match ← walk w fdt naddr nsize parent paddr with
      | .error error => some (.error error)
      | .ok paddr => some (.ok (physToDmap paddr, psize))

end Mdepx.Of
