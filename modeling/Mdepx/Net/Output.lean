import Mdepx.Net.Checksum

namespace Mdepx.Net
open Mdepx.Lib List

def etherHdrLen : Nat := 14

def ethertypeIp : Nat := 0x0800

def ethertypeArp : Nat := 0x0806

def ethertypeRevarp : Nat := 0x8035

def ethertypeIpv6 : Nat := 0x86dd

def afInet : Nat := 2

def afInet6 : Nat := 28

def afArp : Nat := 35

def arphrdEther : Nat := 1

def arpopRequest : Nat := 1

def arpopReply : Nat := 2

def arpopRevrequest : Nat := 3

def arpopRevreply : Nat := 4

def mdxError : Int := -1

def enomem : Int := 12

def ewouldblock : Int := 35

def eopnotsupp : Int := 45

def eafnosupport : Int := 47

def lleMaxLinkhdr : Nat := 24

def htons (v : Nat) : List UInt8 := [UInt8.ofNat (v / 256), UInt8.ofNat v]

structure Arphdr where
  arHrd : Nat
  arPro : Nat
  arHln : Nat
  arPln : Nat
  arOp : Nat
  arSha : List UInt8
  arSpa : InAddr
  arTha : List UInt8
  arTpa : InAddr
  deriving DecidableEq

def Arphdr.bytes (ah : Arphdr) : List UInt8 :=
  htons ah.arHrd ++ htons ah.arPro ++ [UInt8.ofNat ah.arHln, UInt8.ofNat ah.arPln] ++
    htons ah.arOp ++ ah.arSha ++ ah.arSpa ++ ah.arTha ++ ah.arTpa

inductive IfeType where
  | ll
  | other
  deriving DecidableEq

structure IfEncapReq where
  bufsize : Nat
  rtype : IfeType
  broadcast : Bool
  family : Nat
  lladdr : List UInt8
  hdata : Option Arphdr

def etherHeader (dhost shost : List UInt8) (etype : Nat) : List UInt8 :=
  dhost ++ shost ++ htons etype

def etherbroadcastaddr : List UInt8 := replicate 6 0xff

def etherRequestencap (cfg : Config) (req : IfEncapReq) :
    Except Int (List UInt8 × Option Arphdr) :=
  if req.rtype ≠ .ll then .error eopnotsupp
  else if req.bufsize < etherHdrLen then .error enomem
  else if req.family = afInet then
    .ok (etherHeader req.lladdr cfg.hwAddr ethertypeIp, req.hdata)
  else if req.family = afInet6 then
    .ok (etherHeader req.lladdr cfg.hwAddr ethertypeIpv6, req.hdata)
  else if req.family = afArp then
    let ah := req.hdata.map fun ah => { ah with arHrd := arphrdEther }
    let op := (ah.map Arphdr.arOp).getD 0
    let etype :=
      if op = arpopRevrequest ∨ op = arpopRevreply then ethertypeRevarp else ethertypeArp
    let lladdr := if req.broadcast then etherbroadcastaddr else req.lladdr
    .ok (etherHeader lladdr cfg.hwAddr etype, ah)
  else .error eafnosupport

def arpFillheader (cfg : Config) (ah : Arphdr) (bcast : Bool) :
    Except Int (List UInt8 × Option Arphdr) :=
  etherRequestencap cfg
    { bufsize := lleMaxLinkhdr
      rtype := .ll
      broadcast := bcast
      family := afArp
      lladdr := ah.arTha
      hdata := some ah }

/-- An mbuf that is sent: the received one or one the code has made. -/
inductive Mbuf where
  | received
  | fresh (bytes : List UInt8)

def Mbuf.avail (m : Mbuf) : NetM Nat :=
  match m with
  | received => mtod
  | fresh _ => pure 0

def Mbuf.piece (m : Mbuf) : NetM Piece := fun s =>
  match m with
  | received => .ok ⟨true, (range s.mLen).map fun i => s.buf.byte (s.mData + i)⟩ s
  | fresh bytes => .ok ⟨false, bytes⟩ s

def linkHeader (phdr : List UInt8) : List UInt8 :=
  (phdr ++ replicate etherHdrLen 0).take etherHdrLen

def etherSend (cfg : Config) (m : Mbuf) (phdr : List UInt8) : NetM Int := do
  let avail ← m.avail
  if etherHdrLen ≤ avail then
    mAdj (-etherHdrLen)
    let eh ← mtod
    writeBytes eh (linkHeader phdr)
    ifTransmit cfg [← m.piece]
  else if ← mAlloc cfg then
    ifTransmit cfg [⟨false, linkHeader phdr⟩, ← m.piece]
  else
    throw .nullMbuf

/-- The source address of an ARP request: the last one up to the first that suits the target. -/
def requestSource (tip : InAddr) : List IfAddr → Option InAddr → Option InAddr
  | [], sip => sip
  | ifa :: addrs, sip =>
    if ifa.family ≠ afInet then requestSource tip addrs sip
    else if ((ifa.addr.zip tip).zip ifa.mask).all fun p => (p.1.1 ^^^ p.1.2) &&& p.2 = 0 then
      some ifa.addr
    else
      requestSource tip addrs (some ifa.addr)

def requestPacket (cfg : Config) (sip tip : InAddr) : Arphdr :=
  { arHrd := 0
    arPro := ethertypeIp
    arHln := 6
    arPln := 4
    arOp := arpopRequest
    arSha := cfg.hwAddr
    arSpa := sip
    arTha := replicate 6 0
    arTpa := tip }

/-- The output is that of `ether_output` with a link header, the one the route brings along. -/
def arprequest (cfg : Config) (tip : InAddr) : NetM Unit := do
  match requestSource tip cfg.addrs none with
  | none => return ()
  | some sip =>
    if ← mAlloc cfg then
      match arpFillheader cfg (requestPacket cfg sip tip) true with
      | .error error =>
        if error ≠ eafnosupport then
          return ()
        else
          let _ ← etherSend cfg (.fresh (requestPacket cfg sip tip).bytes)
            (replicate lleMaxLinkhdr 0)
          return ()
      | .ok (linkhdr, hdata) =>
        let _ ← etherSend cfg (.fresh (hdata.getD (requestPacket cfg sip tip)).bytes) linkhdr
        return ()
    else
      return ()

def arpresolve (cfg : Config) (dst : InAddr) : NetM (Except Int (List UInt8)) := do
  let s ← get
  match s.lltable.find? fun lle => lle.addr4 = dst with
  | some lle => return .ok lle.linkdata
  | none =>
    arprequest cfg dst
    return .error mdxError

def etherResolveAddr (cfg : Config) (dst : SockaddrIn) : NetM (Except Int (List UInt8)) :=
  if dst.sinFamily = afInet then arpresolve cfg dst.sinAddr else return .error (-1)

def etherOutput (cfg : Config) (m : Mbuf) (dst : SockaddrIn) (prepend : Option (List UInt8)) :
    NetM Int := do
  match prepend with
  | some phdr => etherSend cfg m phdr
  | none =>
    match ← etherResolveAddr cfg dst with
    | .error error => return if error = ewouldblock then 0 else error
    | .ok phdr => etherSend cfg m phdr

/--
Without a route the destination is stored at address zero before the null pointer is noticed,
and read from there again by the resolution of the address.
-/
def routeStore (cfg : Config) (routed : Bool) : NetM (SockaddrIn → SockaddrIn) :=
  if routed then return id else lowStore cfg

def ipPrepare (cfg : Config) (routed : Bool) : NetM SockaddrIn := do
  let ip ← mtod
  let back ← routeStore cfg routed
  let addr ← readBytes (ip + 16) 4
  writeBytes (ip + 10) [0, 0]
  let hl ← readByte ip
  let sum ← inCksum cfg (hl.toNat % 16 * 4 : Nat)
  writeBytes (ip + 10) (shortBytes cfg sum)
  return back ⟨afInet, addr⟩

/-- The output is called without a route even if there is one. -/
def ipOutput (cfg : Config) (routed : Bool) : NetM Int := do
  let gw ← ipPrepare cfg routed
  etherOutput cfg .received gw none

end Mdepx.Net
