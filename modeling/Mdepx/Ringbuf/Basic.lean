import Mathlib.Algebra.GroupWithZero.Nat
import Mdepx.Lib.Run
import Mathlib.Logic.Function.Basic

namespace Mdepx.Ringbuf
open Lib

/-! The ring buffer of `kernel/systm`, with a sender and a receiver that share it. -/

structure Entry (β : Type) where
  buf : Int
  bufsize : Int
  fill : Int
  flags : BitVec 32
  next : Nat
  user : BitVec 32
  data : β

structure Payload (β : Type) where
  fill : Int
  user : BitVec 32
  data : β
deriving DecidableEq

def Entry.payload (e : Entry β) : Payload β := ⟨e.fill, e.user, e.data⟩

def Entry.setPayload (e : Entry β) (p : Payload β) : Entry β :=
  { e with fill := p.fill, user := p.user, data := p.data }

def MDX_RINGBUF_OWN : BitVec 32 := 1 <<< 1

inductive Role where
  | recver | sender
deriving DecidableEq

/-- A `struct mdx_ringbuf_softc`; `head` is an address. -/
structure Softc where
  head : Nat
  nentries : Nat
  role : Role
deriving DecidableEq

abbrev Mem (β : Type) := Nat → Entry β

def initEntry (size base n : Nat) (buf bufsize : Int) (mem : Mem β) (i : Nat) : Mem β :=
  Function.update mem (base + size * i) { mem (base + size * i) with
    buf := buf + bufsize * i
    bufsize := bufsize
    fill := 0
    flags := 0
    next := if i = n - 1 then base else base + size * (i + 1) }

/-- It stops at its assertion or divides by zero if the memory holds no entry. -/
def mdxRingbufInit (size : Nat) (mem : Mem β) (base basesize : Nat) (buf : Int) (bufsize : Nat) :
    Option (Mem β × Softc) :=
  let n := basesize / size
  if basesize = 0 ∨ n = 0 then none
  else
    let entryBufsize := ((bufsize / n : Nat) : Int).bmod (2 ^ 32)
    some ((List.range n).foldl (initEntry size base n buf entryBufsize) mem, ⟨base, n, .sender⟩)

def mdxRingbufJoin (sc : Softc) (base : Nat) : Softc := { sc with role := .recver, head := base }

def mdxRingbufHead (mem : Mem β) (sc : Softc) : Option Nat :=
  let own := (mem sc.head).flags &&& MDX_RINGBUF_OWN
  if sc.role = .sender ∧ own ≠ 0 then none
  else if sc.role = .recver ∧ own = 0 then none
  else some sc.head

def mdxRingbufSubmit (mem : Mem β) (sc : Softc) : Mem β × Softc :=
  let rb := mem sc.head
  let flags := if sc.role = .sender then rb.flags ||| MDX_RINGBUF_OWN
    else rb.flags &&& ~~~MDX_RINGBUF_OWN
  (Function.update mem sc.head { rb with flags := flags }, { sc with head := rb.next })

/-- One side: its `softc`, and whether it has an entry, between a successful `mdx_ringbuf_head`
and its `mdx_ringbuf_submit`. -/
structure Side where
  sc : Softc
  holds : Bool
deriving DecidableEq

/-- The two sides, with the entries submitted by the sender and those obtained by the receiver
so far, each with its contents at that time. -/
structure State (β : Type) where
  mem : Mem β
  sender : Side
  recver : Side
  sent : List (Nat × Payload β)
  received : List (Nat × Payload β)

inductive Op (β : Type) where
  | head (role : Role) | write (role : Role) (p : Payload β) | submit (role : Role)

def State.side (s : State β) : Role → Side
  | .sender => s.sender
  | .recver => s.recver

def State.setSide (s : State β) (side : Side) : Role → State β
  | .sender => { s with sender := side }
  | .recver => { s with recver := side }

def State.entry (s : State β) (a : Nat) : Nat × Payload β := (a, (s.mem a).payload)

/-- A call by one side. It submits, and writes to the entry it has been given, only while it has
one. -/
def exec (s : State β) : Op β → Option (State β)
  | .head role =>
    match mdxRingbufHead s.mem (s.side role).sc with
    | none => some s
    | some a =>
      let s' := s.setSide { s.side role with holds := true } role
      if role = .recver ∧ s.recver.holds = false then
        some { s' with received := s.received ++ [s.entry a] }
      else some s'
  | .write role p =>
    if (s.side role).holds then
      let a := (s.side role).sc.head
      some { s with mem := Function.update s.mem a ((s.mem a).setPayload p) }
    else none
  | .submit role =>
    if (s.side role).holds then
      let r := mdxRingbufSubmit s.mem (s.side role).sc
      let s' := { s.setSide ⟨r.2, false⟩ role with mem := r.1 }
      if role = .sender then some { s' with sent := s.sent ++ [s.entry s.sender.sc.head] }
      else some s'
    else none

def Next (s : State β) (op : Op β) (s' : State β) : Prop := exec s op = some s'

def setup (size : Nat) (mem : Mem β) (base basesize : Nat) (buf : Int) (bufsize : Nat)
    (sc : Softc) : Option (State β) :=
  match mdxRingbufInit size mem base basesize buf bufsize with
  | none => none
  | some (mem, sender) => some ⟨mem, ⟨sender, false⟩, ⟨mdxRingbufJoin sc base, false⟩, [], []⟩

end Mdepx.Ringbuf
