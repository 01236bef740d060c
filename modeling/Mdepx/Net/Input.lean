import Mdepx.Net.Output

namespace Mdepx.Net
open Mdepx.Lib

def ipprotoIcmp : Nat := 1

def icmpEcho : Nat := 8

def icmpEchoreply : UInt8 := 0

def inIfhasaddr (cfg : Config) (addr : InAddr) : Bool := cfg.addrs.any fun ifa => ifa.addr = addr

def arSha (ah : Nat) : Nat := ah + 8

/-- The address of `ar_spa`, behind a hardware address of the length the packet gives. -/
def arSpa (ah : Nat) : NetM Nat := do
  let hln ← readByte (ah + 4)
  return ah + 8 + hln.toNat

def arTpa (ah : Nat) : NetM Nat := do
  let hln ← readByte (ah + 4)
  let pln ← readByte (ah + 5)
  return ah + 8 + 2 * hln.toNat + pln.toNat

/-- A new entry at the head of the table; one for which there is no memory empties it. -/
def arpAddentry (cfg : Config) (sha spa : Nat) : NetM Unit := do
  let lladdr ← readBytes sha 6
  let linkhdr :=
    match etherRequestencap cfg ⟨lleMaxLinkhdr, .ll, false, afInet, lladdr, none⟩ with
    | .ok (linkhdr, _) => linkhdr
    | .error _ => List.replicate lleMaxLinkhdr 0
  if ← mAlloc cfg then
    let addr ← readBytes spa 4
    modify fun s => { s with lltable := ⟨addr, linkhdr⟩ :: s.lltable }
  else
    let _ ← lowStore cfg
    let _ ← readBytes spa 4
    modify fun s => { s with lltable := [] }

/-- What both answers begin with: the packet, its sender's address, and the target's, which is
taken after the two have been printed. -/
def arpLook : NetM (Nat × Nat × InAddr) := do
  let ah ← mtod
  let spa ← arSpa ah
  let tpa ← arTpa ah
  let _ ← readBytes spa 4
  let _ ← readBytes tpa 4
  let target ← readBytes tpa 4
  return (ah, spa, target)

def arpReply (cfg : Config) : NetM Unit := do
  let (ah, spa, target) ← arpLook
  if inIfhasaddr cfg target then
    let sender ← readBytes spa 4
    let s ← get
    if s.lltable.any fun lle => lle.addr4 = sender then
      return ()
    else
      arpAddentry cfg (arSha ah) (← arSpa ah)
  else
    return ()

def replyPacket (cfg : Config) (tha : List UInt8) (spa tpa : InAddr) : Arphdr :=
  { arHrd := arphrdEther
    arPro := ethertypeIp
    arHln := 6
    arPln := 4
    arOp := arpopReply
    arSha := cfg.hwAddr
    arSpa := spa
    arTha := tha
    arTpa := tpa }

/-- The link header of a reply; a failure to fill it in leaves it zero and is not noticed. -/
def replyFrame (cfg : Config) (ah : Arphdr) : List UInt8 × Arphdr :=
  match arpFillheader cfg ah false with
  | .ok (linkhdr, hdata) => (linkhdr, hdata.getD ah)
  | .error _ => (List.replicate lleMaxLinkhdr 0, ah)

def arpReplyToRequest (cfg : Config) : NetM Unit := do
  let (ah, _, target) ← arpLook
  if inIfhasaddr cfg target then
    if ← mAlloc cfg then
      let hln ← readByte (ah + 4)
      let tha ← readBytes (arSha ah) hln.toNat
      let pln ← readByte (ah + 5)
      let ourAddr ← readBytes (← arTpa ah) pln.toNat
      let peerAddr ← readBytes (← arSpa ah) pln.toNat
      let filled := replyFrame cfg (replyPacket cfg tha ourAddr peerAddr)
      let _ ← etherOutput cfg (.fresh filled.2.bytes) ⟨afArp, []⟩ (some filled.1)
      return ()
    else
      return ()
  else
    return ()

def arpValid (ah : Nat) : NetM Bool := do
  if (← readShort ah) ≠ arphrdEther then return false
  else if (← readShort (ah + 2)) ≠ ethertypeIp then return false
  else if (← readByte (ah + 4)) ≠ 6 then return false
  else if (← readByte (ah + 5)) ≠ 4 then return false
  else return true

def arpOperate (cfg : Config) (op : Nat) : NetM Unit :=
  if op = arpopRequest then arpReplyToRequest cfg
  else if op = arpopReply then arpReply cfg
  else return ()

def arpInput (cfg : Config) : NetM Unit := do
  mAdj etherHdrLen
  let ah ← mtod
  let op ← readShort (ah + 6)
  if ← arpValid ah then arpOperate cfg op else return ()

def echoTurn (cfg : Config) (hlen : Nat) (icmplen : Int) : NetM Unit := do
  let ip ← mtod
  let t ← readBytes (ip + 16) 4
  let src ← readBytes (ip + 12) 4
  writeBytes (ip + 16) src
  writeBytes (ip + 12) t
  modify fun s => s.advance hlen
  let hdr ← mtod
  writeBytes hdr [icmpEchoreply]
  writeBytes (hdr + 2) [0, 0]
  let sum ← inCksum cfg icmplen
  writeBytes (hdr + 2) (shortBytes cfg sum)
  modify fun s => s.retreat hlen

def echoReply (cfg : Config) (hlen : Nat) (icmplen : Int) : NetM Unit := do
  echoTurn cfg hlen icmplen
  let error ← ipOutput cfg false
  if error ≠ 0 then mFree else return ()

def icmpInput (cfg : Config) (hlen : Nat) : NetM Unit := do
  let ip ← mtod
  modify fun s => s.advance hlen
  let hdr ← mtod
  let iplen ← readShort (ip + 2)
  let hl ← readByte ip
  let icmplen : Int := iplen - (hl.toNat % 16 * 4 : Nat)
  let sum ← inCksum cfg icmplen
  if sum ≠ 0 then
    mFree
  else
    modify fun s => s.retreat hlen
    let type ← readByte hdr
    if type.toNat = icmpEcho then echoReply cfg hlen icmplen else mFree

def ipInput (cfg : Config) : NetM Unit := do
  mAdj etherHdrLen
  let hdr ← mtod
  let hl ← readByte hdr
  let p ← readByte (hdr + 9)
  if p.toNat = ipprotoIcmp then icmpInput cfg (hl.toNat % 16 * 4) else mFree

def ip6Input : NetM Unit := do
  mAdj etherHdrLen
  let ip6 ← mtod
  let _ ← readByte (ip6 + 6)
  return ()

def etherInput (cfg : Config) : NetM Unit := do
  let eh ← mtod
  let type ← readShort (eh + 12)
  if type = ethertypeArp then
    arpInput cfg
    mFree
  else if type = ethertypeIp then
    ipInput cfg
  else if type = ethertypeIpv6 then
    ip6Input
  else
    mFree

end Mdepx.Net
