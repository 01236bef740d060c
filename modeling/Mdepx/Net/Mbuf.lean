import Mathlib.Algebra.GroupWithZero.Nat
import Mdepx.Lib.Buffer
import Mdepx.Lib.Program

namespace Mdepx.Net
open Mdepx.Lib

/-- An IPv4 address as its four bytes in memory. -/
abbrev InAddr := List UInt8

structure SockaddrIn where
  sinFamily : Nat
  sinAddr : InAddr
  deriving DecidableEq

structure IfAddr where
  family : Nat
  addr : InAddr
  mask : InAddr
  deriving DecidableEq

/-- An entry of the ARP table: an address and the first `r_hdrlen` bytes of its `r_linkdata`. -/
structure Llentry where
  addr4 : InAddr
  linkdata : List UInt8
  deriving DecidableEq

structure Config where
  /-- `if_hw_addr`. -/
  hwAddr : List UInt8
  /-- `if_addrhead`. -/
  addrs : List IfAddr
  bigEndian : Bool
  /-- The address of the frame's `m_data0`. -/
  address : Nat
  /-- Memory at address zero: accesses trap, or a stored address is read back changed so. -/
  lowMemory : Option (SockaddrIn → SockaddrIn)
  /-- Which allocations succeed, by their number. -/
  malloc : Nat → Bool
  /-- What `if_transmit` returns, by the number of frees and transmissions before. -/
  transmit : Nat → Int

structure Piece where
  received : Bool
  bytes : List UInt8
  deriving DecidableEq

/-- What happens to mbufs: a free of the received one and the calls of `if_transmit`. -/
inductive Event where
  | free
  | transmit (chain : List Piece) (error : Int)
  deriving DecidableEq

inductive Trap where
  /-- An access to memory at address zero where there is none. -/
  | lowMemory
  /-- A copy through the data pointer of a null mbuf. -/
  | nullMbuf
  deriving DecidableEq

/-- The received mbuf, the memory from its `m_data0` on, the ARP table and what has happened. -/
structure State where
  buf : Buffer
  /-- `m_data - m_data0`. -/
  mData : Nat
  mLen : Nat
  lltable : List Llentry
  allocs : Nat
  events : List Event
  /-- No change of `m_len` has gone below zero or over its 32 bits. -/
  lenKept : Bool

abbrev NetM := EStateM Trap State

def received (byte : Nat → UInt8) (n : Nat) (lltable : List Llentry) : State where
  buf := ⟨byte, []⟩
  mData := 0
  mLen := n
  lltable := lltable
  allocs := 0
  events := []
  lenKept := true

def readByte (o : Nat) : NetM UInt8 := fun s =>
  .ok (s.buf.byte o) { s with buf := (s.buf.get o).2 }

def readBytes (o len : Nat) : NetM (List UInt8) := fun s =>
  .ok (s.buf.read o len).1 { s with buf := (s.buf.read o len).2 }

def writeBytes (o : Nat) (bs : List UInt8) : NetM Unit := fun s =>
  .ok () { s with buf := s.buf.put o bs }

def readShort (o : Nat) : NetM Nat := do
  let hi ← readByte o
  let lo ← readByte (o + 1)
  return 256 * hi.toNat + lo.toNat

def mtod : NetM Nat := fun s => .ok s.mData s

namespace State

def advance (s : State) (k : Nat) : State :=
  { s with
    mData := s.mData + k
    mLen := (s.mLen + 2 ^ 32 - k) % 2 ^ 32
    lenKept := s.lenKept && decide (k ≤ s.mLen) }

def retreat (s : State) (k : Nat) : State :=
  { s with
    mData := s.mData - k
    mLen := (s.mLen + k) % 2 ^ 32
    lenKept := s.lenKept && decide (s.mLen + k < 2 ^ 32) }

def emit (s : State) (e : Event) : State := { s with events := s.events ++ [e] }

end State

def mAdj (size : Int) : NetM Unit := modify fun s =>
  if 0 < size then
    if size < s.mLen then s.advance size.toNat else s
  else
    s.retreat (-size).toNat

def mFree : NetM Unit := modify fun s => s.emit .free

def mAlloc (cfg : Config) : NetM Bool := fun s =>
  .ok (cfg.malloc s.allocs) { s with allocs := s.allocs + 1 }

def lowStore (cfg : Config) : NetM (SockaddrIn → SockaddrIn) :=
  match cfg.lowMemory with
  | none => throw .lowMemory
  | some back => pure back

def ifTransmit (cfg : Config) (chain : List Piece) : NetM Int := fun s =>
  .ok (cfg.transmit s.events.length)
    (s.emit (.transmit chain (cfg.transmit s.events.length)))

end Mdepx.Net
