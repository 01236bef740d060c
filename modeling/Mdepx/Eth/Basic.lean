import Mdepx.Lib.Run
import Mdepx.Lib.Window

namespace Mdepx.Eth
open Lib Function

/-! The descriptor rings of the Ethernet driver `arch/arm/stm/stm32f7_eth.c`. -/

structure Mbuf where
  ptr : Nat
  len : BitVec 32
deriving DecidableEq

/-- A `struct dwc_hwdesc` without `addr_next`; `addr` is the mbuf to whose data it points. -/
structure Desc where
  tdes0 : BitVec 32
  tdes1 : BitVec 32
  addr : Nat
deriving DecidableEq

def txDescCount : Nat := 32
def rxDescCount : Nat := 32

def ddescOwn : BitVec 32 := 1 <<< 31
def tdes0Txint : BitVec 32 := 1 <<< 30
def tdes0Txlast : BitVec 32 := 1 <<< 29
def tdes0Txfirst : BitVec 32 := 1 <<< 28
def tdes0Txchain : BitVec 32 := 1 <<< 20

def rdes0FlShift : Nat := 16
def rdes0FlMask : BitVec 32 := 0x3fff <<< rdes0FlShift
def rdes1Chained : BitVec 32 := 1 <<< 14

def enobufs : Nat := 55

def nextTxidx (curidx : Nat) : Nat := (curidx + 1) % txDescCount

def nextRxidx (curidx : Nat) : Nat := (curidx + 1) % rxDescCount

def Desc.Owned (d : Desc) : Prop := d.tdes0 &&& ddescOwn ≠ 0

instance (d : Desc) : Decidable d.Owned := inferInstanceAs (Decidable (_ ≠ _))

/-- What the DMA leaves in a descriptor it is done with: its status, without the bit it owned the
descriptor by. -/
def Desc.complete (d : Desc) (status : BitVec 32) : Desc :=
  { d with tdes0 := status &&& ~~~ddescOwn }

theorem Desc.not_owned_complete (d : Desc) (status : BitVec 32) : ¬(d.complete status).Owned :=
  not_not.2 (and_not_mask_and_mask status ddescOwn)

theorem or_own_and_own (f : BitVec 32) : (f ||| ddescOwn) &&& ddescOwn ≠ 0 := by
  rw [or_mask_and_mask]
  decide

namespace Tx

/-- The driver is in no call, at the start of a round of the loop of `stm32f7_eth_transmit` with
`enqueued` mbufs of the chain behind it, at the last line of that round but one, or at the test of
the loop of `dwc_txfinish_locked`. -/
inductive Pc where
  | idle
  | sending (chain : List Mbuf) (enqueued : Nat)
  | published (chain : List Mbuf) (enqueued : Nat)
  | finishing
deriving DecidableEq

/-- The transmit side of the softc and of the DMA, which is at the descriptor `cur`. `addrNext` is
the index of the descriptor that `addr_next` is the address of. With it what has happened so far:
the mbufs and descriptors written, the descriptors sent, the mbufs freed, and the chains given to
`stm32f7_eth_transmit` with the result. -/
structure State where
  ring : Nat → Desc
  addrNext : Nat → Nat
  txbuf : Nat → Mbuf
  head : Nat
  tail : Nat
  txcount : Int
  critnest : Nat
  cur : Nat
  pc : Pc
  queued : List (Mbuf × Desc)
  sent : List Desc
  freed : List Mbuf
  calls : List (List Mbuf × Nat)

def setupDesc (r : (Nat → Desc) × (Nat → Nat)) (idx : Nat) : (Nat → Desc) × (Nat → Nat) :=
  (update r.1 idx { r.1 idx with tdes0 := tdes0Txchain, tdes1 := 0 },
    update r.2 idx (nextTxidx idx))

def setupTxdesc (s : State) : State :=
  let r := (List.range txDescCount).foldl setupDesc (s.ring, s.addrNext)
  { s with head := 0, tail := 0, ring := r.1, addrNext := r.2 }

def setup (ring : Nat → Desc) (addrNext : Nat → Nat) (txbuf : Nat → Mbuf) (critnest : Nat) :
    State :=
  setupTxdesc ⟨ring, addrNext, txbuf, 0, 0, 0, critnest, 0, .idle, [], [], [], []⟩

def criticalEnter (s : State) : State := { s with critnest := s.critnest + 1 }

def criticalExit (s : State) : State := { s with critnest := s.critnest - 1 }

def txFlags (enqueued len : Nat) : BitVec 32 :=
  let flags := tdes0Txchain
  let flags := if enqueued = 0 then flags ||| tdes0Txfirst else flags
  if enqueued + 1 = len then flags ||| (tdes0Txlast ||| tdes0Txint) else flags

def txDesc (len enqueued : Nat) (m : Mbuf) : Desc :=
  ⟨txFlags enqueued len ||| ddescOwn, m.len, m.ptr⟩

/-- `stm32f7_eth_transmit` up to its loop. The return without room is inside of the critical
section. -/
def beginTransmit (s : State) (chain : List Mbuf) : State :=
  let s := criticalEnter s
  if s.txcount ≥ (txDescCount : Int) - chain.length - 1 then
    { s with calls := s.calls ++ [(chain, enobufs)] }
  else { s with pc := .sending chain 0 }

/-- A round of its loop up to the write of the bit that gives the descriptor to the DMA. -/
def enqueue (s : State) (chain : List Mbuf) (enqueued : Nat) (m : Mbuf) : State :=
  let desc := txDesc chain.length enqueued m
  { s with
    txcount := s.txcount + 1
    txbuf := update s.txbuf s.head m
    ring := update s.ring s.head desc
    pc := .published chain enqueued
    queued := s.queued ++ [(m, desc)] }

def advance (s : State) (chain : List Mbuf) (enqueued : Nat) : State :=
  { s with head := nextTxidx s.head, pc := .sending chain (enqueued + 1) }

def endTransmit (s : State) (chain : List Mbuf) : State :=
  { criticalExit s with pc := .idle, calls := s.calls ++ [(chain, 0)] }

def finishRound (s : State) : State :=
  if s.tail ≠ s.head ∧ ¬(s.ring s.tail).Owned then
    { s with
      freed := s.freed ++ [s.txbuf s.tail]
      txcount := s.txcount - 1
      tail := nextTxidx s.tail }
  else { criticalExit s with pc := .idle }

def complete (s : State) (status : BitVec 32) : State :=
  { s with
    ring := update s.ring s.cur ((s.ring s.cur).complete status)
    cur := s.addrNext s.cur
    sent := s.sent ++ [s.ring s.cur] }

inductive Op where
  | transmit (chain : List Mbuf)
  | finish
  | cpu
  | dma (status : BitVec 32)

def stepCall (s : State) : Option State :=
  match s.pc with
  | .idle => none
  | .sending chain k =>
    match chain[k]? with
    | some m => some (enqueue s chain k m)
    | none => some (endTransmit s chain)
  | .published chain k => some (advance s chain k)
  | .finishing => some (finishRound s)

def exec (s : State) : Op → Option State
  | .transmit chain => if s.pc = .idle then some (beginTransmit s chain) else none
  | .finish => if s.pc = .idle then some { criticalEnter s with pc := .finishing } else none
  | .cpu => stepCall s
  | .dma status => if (s.ring s.cur).Owned then some (complete s status) else none

def Next (s : State) (op : Op) (s' : State) : Prop := exec s op = some s'

end Tx

namespace Rx

structure Frame where
  buf : Nat
  len : Nat
deriving DecidableEq

/-- A round of the loop of `dwc_rxfinish_locked`: what it found, and whether `m_alloc` gave it an
mbuf. -/
structure Round where
  frame : Frame
  replaced : Bool
deriving DecidableEq

/-- The receive side of the softc and of the DMA, which is at the descriptor `cur`, with the number
of mbufs allocated, the frames the DMA has received, those passed to `if_input`, and the rounds
made. -/
structure State where
  ring : Nat → Desc
  addrNext : Nat → Nat
  rxbuf : Nat → Nat
  rxIdx : Nat
  cur : Nat
  allocated : Nat
  filled : List Frame
  input : List Frame
  rounds : List Round

def setupRxdesc0 (s : State) (idx : Nat) (alloc : Bool) : State × Bool :=
  if alloc then
    let m := s.allocated
    ({ s with
      allocated := m + 1
      rxbuf := update s.rxbuf idx m
      ring := update s.ring idx ⟨ddescOwn, rdes1Chained ||| 2048, m⟩
      addrNext := update s.addrNext idx (nextRxidx idx) }, true)
  else (s, false)

def setupRound (alloc : Nat → Bool) (s : State) (i : Nat) : Option State :=
  let r := setupRxdesc0 s i (alloc i)
  if r.2 then some r.1 else none

def setupRxdesc (s : State) (alloc : Nat → Bool) : Option State :=
  (List.range rxDescCount).foldlM (setupRound alloc) { s with rxIdx := 0 }

def setup (ring : Nat → Desc) (addrNext rxbuf : Nat → Nat) (alloc : Nat → Bool) : Option State :=
  setupRxdesc ⟨ring, addrNext, rxbuf, 0, 0, 0, [], [], []⟩ alloc

def frameLen (rdes0 : BitVec 32) : Nat := ((rdes0 &&& rdes0FlMask) >>> rdes0FlShift).toNat

def State.frame (s : State) (idx : Nat) : Frame := ⟨s.rxbuf idx, frameLen (s.ring idx).tdes0⟩

/-- A round of the loop of `dwc_rxfinish_locked`, which does not look at the result of
`setup_rxdesc0`. -/
def rxRound (s : State) (alloc : Bool) : State :=
  let idx := s.rxIdx
  let f := s.frame idx
  let s := if f.len ≠ 0 then { s with input := s.input ++ [f] } else s
  let s := (setupRxdesc0 s idx alloc).1
  { s with rxIdx := nextRxidx s.rxIdx, rounds := s.rounds ++ [⟨f, alloc⟩] }

def fill (s : State) (status : BitVec 32) : State :=
  let desc := (s.ring s.cur).complete status
  { s with
    ring := update s.ring s.cur desc
    cur := s.addrNext s.cur
    filled := s.filled ++ [⟨desc.addr, frameLen desc.tdes0⟩] }

inductive Op where
  | round (alloc : Bool)
  | dma (status : BitVec 32)

/-- The loop of `dwc_rxfinish_locked` ends at a descriptor that the DMA owns. -/
def exec (s : State) : Op → Option State
  | .round alloc => if (s.ring s.rxIdx).Owned then none else some (rxRound s alloc)
  | .dma status => if (s.ring s.cur).Owned then some (fill s status) else none

def Next (s : State) (op : Op) (s' : State) : Prop := exec s op = some s'

end Rx

end Mdepx.Eth
