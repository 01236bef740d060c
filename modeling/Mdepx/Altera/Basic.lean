import Mdepx.Lib.BigEndian

namespace Mdepx.Altera
open Lib

/-! The driver `dev/altera/fifo/fifo.c` of an on-chip FIFO, on a big-endian machine. -/

def sop : Nat := 1
def eop : Nat := 2
def emptyMask : Nat := 0xf7
def emptyShift : Nat := 2
def channelMask : Nat := 0xff00
def errorMask : Nat := 0xff0000

def bswap32 (x : Nat) : Nat :=
  x >>> 24 ||| x >>> 8 &&& 0xff00 ||| x <<< 8 &&& 0xff0000 ||| x <<< 24 &&& 0xff000000

def htole32 (x : Nat) : Nat := bswap32 x

def le32toh (x : Nat) : Nat := bswap32 x

structure Fifo where
  reg : Nat
  queue : List (Nat × Nat)
deriving DecidableEq

def Fifo.writeMetadata (f : Fifo) (v : Nat) : Fifo := { f with reg := v }

/-- A word goes in with the metadata that the register holds. `keep` says whether the register
holds it for the next word too. -/
def Fifo.writeData (keep : Bool) (f : Fifo) (word : Nat) : Fifo where
  reg := if keep then f.reg else 0
  queue := f.queue ++ [(word, f.reg)]

structure Iovec where
  base : Nat
  len : Nat
deriving DecidableEq

structure Tx where
  buf : Nat
  got : Nat
  lo : Nat
  len : Nat
  fifo : Fifo
deriving DecidableEq

namespace Tx

def read (m : Bytes) (k : Nat) (s : Tx) : Tx where
  buf := shiftIn 64 s.buf (8 * k) (ofBytes (slice m s.lo k))
  got := s.got + 8 * k
  lo := s.lo + k
  len := (s.len + 2 ^ 32 - k) % 2 ^ 32
  fifo := s.fifo

def send (keep last : Bool) (s : Tx) : Tx :=
  let fifo := if s.len = 0 ∧ last = true ∧ s.got = 0 then s.fifo.writeMetadata (htole32 eop)
    else s.fifo
  { s with fifo := fifo.writeData keep (s.buf >>> s.got &&& 0xffffffff) }

def flush (keep last : Bool) (s : Tx) : Tx :=
  if 32 ≤ s.got then send keep last { s with got := s.got - 32 } else s

def align (m : Bytes) (s : Tx) : Tx :=
  let s := if s.lo &&& 1 ≠ 0 then s.read m 1 else s
  if 2 ≤ s.len ∧ s.lo &&& 2 ≠ 0 then s.read m 2 else s

def words (keep last : Bool) (m : Bytes) : Nat → Tx → Tx
  | 0, s => s
  | k + 1, s =>
    if 4 ≤ s.len then words keep last m k (send keep last { s.read m 4 with got := s.got })
    else s

def remainder (m : Bytes) (s : Tx) : Tx :=
  let s := if s.len &&& 2 ≠ 0 then s.read m 2 else s
  if s.len &&& 1 ≠ 0 then s.read m 1 else s

def segment (keep last : Bool) (m : Bytes) (s : Tx) (iov : Iovec) : Tx :=
  let s := { s with lo := iov.base, len := iov.len % 2 ^ 32 }
  let s := (s.align m).flush keep last
  let s := words keep last m (s.len / 4) s
  (s.remainder m).flush keep last

def segments (keep : Bool) (m : Bytes) : List Iovec → Tx → Tx
  | [], s => s
  | iov :: iovs, s => segments keep m iovs (segment keep iovs.isEmpty m s iov)

def finish (keep : Bool) (s : Tx) : Fifo :=
  if s.got ≠ 0 then
    let missing := 32 - s.got
    let got := s.got / 8
    let fifo := s.fifo.writeMetadata (htole32 (eop ||| (4 - got) <<< emptyShift))
    fifo.writeData keep ((s.buf <<< missing) % 2 ^ 64 &&& 0xffffffff)
  else s.fifo

end Tx

def fifoProcessTx (keep : Bool) (m : Bytes) (iovs : List Iovec) (f : Fifo) : Fifo :=
  (Tx.segments keep m iovs ⟨0, 0, 0, 0, f.writeMetadata (htole32 sop)⟩).finish keep

/-- The variables of `fifo_process_rx`: `read_buf`, `got_bits`, memory and `write_lo`,
`transferred` and `sop_rcvd`. -/
structure Rx where
  buf : Nat
  got : Nat
  mem : Bytes
  lo : Nat
  transferred : Nat
  sopRcvd : Bool

namespace Rx

def accumulate (buf data bits : Nat) : Nat :=
  let buf := (buf <<< bits) % 2 ^ 64
  match bits with
  | 32 => buf ||| data
  | 16 => buf ||| data &&& 0xffff
  | 8 => buf ||| data &&& 0xff
  | _ => buf

def take (s : Rx) (data bits : Nat) : Rx :=
  let s := { s with buf := accumulate s.buf data bits, got := s.got + bits }
  if 32 ≤ s.got then
    let got := s.got - 32
    { s with
      got := got
      mem := storeBig s.mem s.lo 4 (s.buf >>> got &&& 0xffffffff)
      lo := s.lo + 4
      transferred := (s.transferred + 4) % 2 ^ 32 }
  else s

end Rx

/-- The loop of `fifo_process_rx` over the words of the queue, with the words that are left and
`error`. Reading the data takes the word out of the queue, its metadata is read then. There is no
result where the number of bits to shift by would be negative. -/
def rxLoop : List (Nat × Nat) → Nat → Rx → Option (Rx × List (Nat × Nat) × Int)
  | [], _, s => some (s, [], 0)
  | (data, metadata) :: queue, stripLen, s =>
    let metadata := le32toh metadata
    if metadata &&& errorMask ≠ 0 ∨ metadata &&& channelMask ≠ 0 then some (s, queue, -1)
    else
      let s := { s with sopRcvd := s.sopRcvd || decide (metadata &&& sop ≠ 0) }
      if s.sopRcvd = false then some (s, queue, -2)
      else
        let empty := if metadata &&& eop ≠ 0 then (metadata &&& emptyMask) >>> emptyShift else 0
        if 32 < stripLen * 8 + empty * 8 then none
        else
          let s := s.take data (32 - stripLen * 8 - empty * 8)
          if metadata &&& eop ≠ 0 then some (s, queue, 0) else rxLoop queue 0 s

structure Received where
  mem : Bytes
  queue : List (Nat × Nat)
  ret : Int

def Rx.finish (s : Rx) (queue : List (Nat × Nat)) (error : Int) : Received :=
  let s := if s.got ≠ 0 then
      { s with
        mem := storeBig s.mem s.lo 4 ((s.buf <<< (32 - s.got)) % 2 ^ 64 &&& 0xffffffff)
        transferred := (s.transferred + s.got * 8) % 2 ^ 32 }
    else s
  ⟨s.mem, queue, if error ≠ 0 then error else (BitVec.ofNat 32 s.transferred).toInt⟩

def fifoProcessRx (m : Bytes) (base stripLen : Nat) (queue : List (Nat × Nat)) :
    Option Received :=
  if queue.length = 0 then some ⟨m, queue, 0⟩
  else (rxLoop queue stripLen ⟨0, 0, m, base, 0, false⟩).map fun r => r.1.finish r.2.1 r.2.2

end Mdepx.Altera
