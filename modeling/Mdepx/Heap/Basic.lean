import Mdepx.Lib.Bytes

namespace Mdepx.Heap
open Lib

/-! The allocator of `kernel/malloc/mdx_freelist.c`. Its loops take a number of rounds. -/

/-- A data model: the number of bytes of a pointer and of a `size_t`. -/
structure Abi where
  ptr : Nat
  ptr_eq : ptr = 4 ∨ ptr = 8

inductive Field where
  | next | prev | size | flags
deriving DecidableEq

def flagAllocated : Nat := 2 ^ 31

namespace Abi

def top (A : Abi) : Nat := 256 ^ A.ptr

def nodeS (A : Abi) : Nat := 2 * A.ptr + 8

def off (A : Abi) : Field → Nat
  | .next => 0
  | .prev => A.ptr
  | .size => 2 * A.ptr
  | .flags => 2 * A.ptr + 4

def len (A : Abi) : Field → Nat
  | .next | .prev => A.ptr
  | .size | .flags => 4

def get (A : Abi) (f : Field) (m : Bytes) (node : Nat) : Nat := m.load (node + A.off f) (A.len f)

def set (A : Abi) (f : Field) (m : Bytes) (node v : Nat) : Bytes :=
  m.store (node + A.off f) (A.len f) v

def head (A : Abi) (fl i : Nat) : Nat := fl + i * A.nodeS

def incoffset (A : Abi) (a n : Nat) : Nat := (a + n) % A.top

def decoffset (A : Abi) (a n : Nat) : Nat := (a + A.top - n) % A.top

def sub (A : Abi) (a b : Nat) : Nat := (a + A.top - b) % A.top

def ofInt (A : Abi) (v : Nat) : Nat := if v < 2 ^ 31 then v else A.top - (2 ^ 32 - v)

/-- The loop that rounds a size up to a multiple of 16, which ends after 15 rounds at most. -/
def align (A : Abi) : Nat → Nat → Nat
  | 0, size => size
  | k + 1, size => if size &&& 0xf = 0 then size else align A k ((size + 1) % A.top)

def round (A : Abi) (size : Nat) : Nat := A.align 15 ((size + A.nodeS) % A.top)

end Abi

def size2iLoop : Nat → Nat → Nat → Nat
  | 0, _, i => i
  | k + 1, size, i => if 1 < size then size2iLoop k (size >>> 1) (i + 1) else i

/-- The argument is a `uint32_t`. -/
def size2i (size : Nat) : Nat := size2iLoop 32 ((size % 2 ^ 32) >>> 4) 0

def addNodeLoop (A : Abi) (m : Bytes) (s : Nat) : Nat → Nat → Nat → Option (Nat × Nat)
  | 0, _, _ => none
  | k + 1, prev, next =>
    if next ≠ 0 ∧ A.get .size m next ≠ 0 ∧ A.get .size m next < s then
      addNodeLoop A m s k next (A.get .next m next)
    else some (prev, next)

def linkNode (A : Abi) (m : Bytes) (node prev next : Nat) : Bytes :=
  let m := A.set .next m prev node
  let m := A.set .prev m node prev
  let m := A.set .next m node next
  if next ≠ 0 then A.set .prev m next node else m

def mdxFlAddNode (A : Abi) (k : Nat) (m : Bytes) (fl node : Nat) : Option Bytes :=
  let h := A.head fl (size2i (A.get .size m node))
  (addNodeLoop A m (A.get .size m node) k h (A.get .next m h)).map fun r =>
    linkNode A m node r.1 r.2

def mdxFlAddRegion (A : Abi) (k : Nat) (m : Bytes) (fl base size : Nat) : Option Bytes :=
  let m := A.set .size m base A.nodeS
  let m := A.set .flags m base flagAllocated
  let node := A.incoffset base A.nodeS
  let m := A.set .size m node (A.sub size (2 * A.nodeS))
  let m := A.set .flags m node A.nodeS
  (mdxFlAddNode A k m fl node).map fun m =>
    let node := A.incoffset base (A.sub size A.nodeS)
    let m := A.set .size m node A.nodeS
    A.set .flags m node (A.sub size (2 * A.nodeS) ||| flagAllocated)

def initHead (A : Abi) (fl : Nat) (m : Bytes) (i : Nat) : Bytes :=
  A.set .prev (A.set .next m (A.head fl (i - 1)) (A.head fl i)) (A.head fl i) (A.head fl (i - 1))

def mdxFlInit (A : Abi) (m : Bytes) (fl : Nat) : Bytes :=
  (List.range' 1 31).foldl (initHead A fl) (m.fill fl (A.nodeS * 32) 0)

def removeNode (A : Abi) (m : Bytes) (node : Nat) : Bytes :=
  let m := A.set .next m (A.get .prev m node) (A.get .next m node)
  if A.get .next m node ≠ 0 then A.set .prev m (A.get .next m node) (A.get .prev m node) else m

def setPrevSize (A : Abi) (m : Bytes) (node size : Nat) : Bytes :=
  let m := A.set .flags m node (A.get .flags m node &&& flagAllocated)
  A.set .flags m node (A.get .flags m node ||| size)

def mallocLoop (A : Abi) (m : Bytes) (size : Nat) : Nat → Nat → Option Nat
  | 0, _ => none
  | k + 1, node =>
    if node ≠ 0 ∧ A.get .size m node < size then mallocLoop A m size k (A.get .next m node)
    else some node

def splitNode (A : Abi) (k : Nat) (m : Bytes) (fl node size : Nat) : Option Bytes :=
  let avail := A.sub (A.get .size m node) size % 2 ^ 32
  if A.nodeS < A.ofInt avail then
    let next := A.incoffset node (A.get .size m node)
    let m := setPrevSize A m next avail
    let m := A.set .size m node size
    let new := A.incoffset node size
    let m := A.set .size m new avail
    let m := A.set .flags m new size
    mdxFlAddNode A k m fl new
  else some m

def mdxFlMalloc (A : Abi) (k : Nat) (m : Bytes) (fl size : Nat) : Option (Bytes × Nat) :=
  if size = 0 then some (m, 0)
  else
    let size := A.round size
    (mallocLoop A m size k (A.get .next m (A.head fl (size2i size)))).bind fun node =>
      if node = 0 then some (m, 0)
      else (splitNode A k (removeNode A m node) fl node size).map fun m =>
        let m := A.set .flags m node (A.get .flags m node ||| flagAllocated)
        let m := A.set .next m node 0
        let m := A.set .prev m node 0
        (m, A.incoffset node A.nodeS)

/-- `mdx_fl_free` merges the node with the next one, and goes on with the one behind. -/
def mergeNext (A : Abi) (m : Bytes) (node : Nat) : Bytes × Nat :=
  let next := A.incoffset node (A.get .size m node)
  if A.get .flags m next &&& flagAllocated = 0 then
    let subseq := A.incoffset next (A.get .size m next)
    let m := removeNode A m next
    let m := A.set .size m node (A.get .size m node + A.get .size m next)
    let m := setPrevSize A m subseq (A.get .size m node)
    (m, subseq)
  else (m, next)

/-- `mdx_fl_free` merges the node with the previous one, and goes on with that. -/
def mergePrev (A : Abi) (m : Bytes) (node next : Nat) : Bytes × Nat :=
  let prev := A.decoffset node (A.get .flags m node)
  if A.get .flags m prev &&& flagAllocated = 0 then
    let m := removeNode A m prev
    let m := A.set .size m prev (A.get .size m prev + A.get .size m node)
    let m := setPrevSize A m next (A.get .size m prev)
    (m, prev)
  else (m, node)

def mdxFlFree (A : Abi) (k : Nat) (m : Bytes) (fl ptr : Nat) : Option Bytes :=
  if ptr = 0 then some m
  else
    let node := A.decoffset ptr A.nodeS
    let m := A.set .flags m node (A.get .flags m node &&& (flagAllocated - 1))
    let r := mergeNext A m node
    let r := mergePrev A r.1 node r.2
    mdxFlAddNode A k r.1 fl r.2

def mdxFlCalloc (A : Abi) (k : Nat) (m : Bytes) (fl number size : Nat) : Option (Bytes × Nat) :=
  let sz := number * size % A.top
  (mdxFlMalloc A k m fl sz).map fun r =>
    if r.2 ≠ 0 then (r.1.fill r.2 sz 0, r.2) else r

/-- `mdx_fl_realloc` moves the bound between a node and the free one behind it. -/
def moveBound (A : Abi) (k : Nat) (m : Bytes) (fl node next size : Nat) : Option Bytes :=
  let subs := A.incoffset next (A.get .size m next)
  let m := removeNode A m next
  let new := A.incoffset node size
  let m := A.set .size m new (A.sub ((A.get .size m next + A.get .size m node) % 2 ^ 32) size)
  let m := A.set .flags m new size
  let m := A.set .size m node size
  let m := setPrevSize A m subs (A.get .size m new)
  mdxFlAddNode A k m fl new

/-- `mdx_fl_realloc` makes a free node of the end of a node. -/
def cutNode (A : Abi) (k : Nat) (m : Bytes) (fl node next size : Nat) : Option Bytes :=
  let new := A.incoffset node size
  let m := A.set .size m new (A.sub (A.get .size m node) size)
  let m := A.set .flags m new size
  let m := A.set .size m node size
  let m := setPrevSize A m next (A.get .size m new)
  mdxFlAddNode A k m fl new

/-- `mdx_fl_realloc` takes all of the free node behind a node. -/
def takeNext (A : Abi) (m : Bytes) (node next size : Nat) : Bytes :=
  let subs := A.incoffset next (A.get .size m next)
  let m := removeNode A m next
  let m := A.set .size m node size
  setPrevSize A m subs (A.get .size m node)

/-- `dz` is `mdx_fl_defaultzone`. -/
def mdxFlRealloc (A : Abi) (k : Nat) (m : Bytes) (dz fl ptr size : Nat) : Option (Bytes × Nat) :=
  if ptr = 0 then mdxFlMalloc A k m fl size
  else if size = 0 then (mdxFlFree A k m fl ptr).map (·, 0)
  else
    let size := A.round size
    let node := A.decoffset ptr A.nodeS
    let next := A.incoffset node (A.get .size m node)
    let free : Bool := A.get .flags m next &&& flagAllocated = 0
    let sum := (A.get .size m node + A.get .size m next) % 2 ^ 32
    if size ≤ A.get .size m node then
      if free then (moveBound A k m fl node next size).map (·, ptr)
      else if (size + A.nodeS) % A.top < A.get .size m node then
        (cutNode A k m fl node next size).map (·, ptr)
      else some (m, ptr)
    else if free ∧ (size + A.nodeS) % A.top < sum then
      (moveBound A k m fl node next size).map (·, ptr)
    else if free ∧ sum = size then some (takeNext A m node next size, ptr)
    else (mdxFlMalloc A k m fl size).bind fun r =>
      if r.2 ≠ 0 then
        (mdxFlFree A k (r.1.copy r.2 ptr (A.get .size r.1 node)) dz ptr).map (·, r.2)
      else some r

end Mdepx.Heap
