import Mdepx.Lib.Run
import Mdepx.Net.Answer

namespace Mdepx.Net
open Mdepx.Lib List

/-! The ARP table of an interface, over the frames and the lookups. -/

/-- An Ethernet frame of `n` bytes with a whole ARP packet for Ethernet and IPv4. -/
structure ArpFrame (byte : Nat → UInt8) (n : Nat) : Prop where
  len : 42 ≤ n
  len_lt : n < 2 ^ 32
  hrd : shortAt byte 14 = arphrdEther
  pro : shortAt byte 16 = ethertypeIp
  hln : byte 18 = 6
  pln : byte 19 = 4

def arpOp (byte : Nat → UInt8) : Nat := shortAt byte 20

def senderHw (byte : Nat → UInt8) : List UInt8 := fieldAt byte 22 6

def sender (byte : Nat → UInt8) : InAddr := fieldAt byte 28 4

def target (byte : Nat → UInt8) : InAddr := fieldAt byte 38 4

theorem ArpFrame.packetAt (h : ArpFrame byte n) : packetAt n = 14 :=
  if_pos (lt_of_lt_of_le (by decide) h.len)

theorem arpInput_received (cfg : Config) (h : ArpFrame byte n) (lltable : List Llentry) :
    ∃ t, arpInput cfg (received byte n lltable) =
      arpOperate cfg (arpOp byte) (reading byte lltable t 14 (n - 14) true) := by
  have hinput : arpInput cfg (received byte n lltable) = _ :=
    arpInput_reading (t := []) cfg h.len_lt
  rw [h.packetAt] at hinput
  obtain ⟨ok, l, hvalid, hok, -⟩ := arpValid_judges byte 14 lltable [21, 20] 14 (n - 14) true
  have hvalid' := bind_of_ok (f := fun ok : Bool =>
    if ok then arpOperate cfg (arpOp byte) else pure ()) hvalid
  rw [if_pos (hok.2 ⟨h.hrd, h.pro, h.hln, h.pln⟩)] at hvalid'
  exact ⟨l ++ [21, 20], hinput.trans hvalid'⟩

def entryOf (cfg : Config) (byte : Nat → UInt8) : Llentry :=
  ⟨sender byte, etherHeader (senderHw byte) cfg.hwAddr ethertypeIp⟩

/-- A reply for one of the own addresses by a sender that is not in the table yet. -/
def Learns (cfg : Config) (byte : Nat → UInt8) (lltable : List Llentry) : Prop :=
  inIfhasaddr cfg (target byte) = true ∧ sender byte ∉ lltable.map Llentry.addr4

instance (cfg : Config) (byte : Nat → UInt8) (lltable : List Llentry) :
    Decidable (Learns cfg byte lltable) :=
  inferInstanceAs (Decidable (_ ∧ _))

section
variable (cfg : Config) (halloc : ∀ i, cfg.malloc i = true)
include halloc

theorem arpAddentry_reading (byte : Nat → UInt8) (lltable : List Llentry) (t : List Nat) (L : Nat)
    (kept : Bool) :
    ∃ s', arpAddentry cfg (arSha 14) 28 (reading byte lltable t 14 L kept) = .ok () s' ∧
      s'.lltable = entryOf cfg byte :: lltable := by
  have hmalloc : mAlloc cfg (reading byte lltable (range' (arSha 14) 6 ++ t) 14 L kept) =
      .ok true
        { reading byte lltable (range' (arSha 14) 6 ++ t) 14 L kept with allocs := 1 } := by
    rw [mAlloc, halloc]
    rfl
  rw [arpAddentry, bind_of_ok (readBytes_reading (arSha 14) 6), bind_of_ok hmalloc]
  exact ⟨_, rfl, rfl⟩

theorem arpReply_lltable (h : ArpFrame byte n) (lltable : List Llentry) (t : List Nat) (L : Nat)
    (kept : Bool) :
    ∃ s', arpReply cfg (reading byte lltable t 14 L kept) = .ok () s' ∧
      s'.lltable = if Learns cfg byte lltable then entryOf cfg byte :: lltable else lltable := by
  obtain ⟨t', hreply, -⟩ := arpReply_reading h.hln h.pln cfg lltable t L kept
  have hlearn : arpReply cfg (reading byte lltable t 14 L kept) =
      (if Learns cfg byte lltable then arpAddentry cfg (arSha 14) 28 else pure ())
        (reading byte lltable t' 14 L kept) := hreply
  rw [hlearn]
  by_cases hlearns : Learns cfg byte lltable
  · rw [if_pos hlearns, if_pos hlearns]
    exact arpAddentry_reading cfg halloc byte lltable _ L kept
  · rw [if_neg hlearns, if_neg hlearns]
    exact ⟨_, rfl, rfl⟩

theorem arpInput_lltable (h : ArpFrame byte n) (lltable : List Llentry) :
    ∃ s', arpInput cfg (received byte n lltable) = .ok () s' ∧
      s'.lltable = if arpOp byte = arpopReply ∧ Learns cfg byte lltable
        then entryOf cfg byte :: lltable else lltable := by
  obtain ⟨t, hinput⟩ := arpInput_received cfg h lltable
  rw [hinput, arpOperate]
  by_cases hreq : arpOp byte = arpopRequest
  · have hnot : ¬(arpOp byte = arpopReply ∧ Learns cfg byte lltable) :=
      fun hr => absurd (hreq.symm.trans hr.1) (by decide)
    obtain ⟨t', -, hsends⟩ := arpReplyToRequest_sends h.hln h.pln cfg lltable t (n - 14) true
    obtain ⟨_, s', hr, hs⟩ := hsends.returns fun e _ he => not_starved halloc e he.2
    rw [if_pos hreq, if_neg hnot]
    exact ⟨s', hr, congrArg State.lltable hs.same⟩
  · rw [if_neg hreq]
    by_cases hrep : arpOp byte = arpopReply
    · rw [if_pos hrep]
      simp only [hrep, true_and]
      exact arpReply_lltable cfg halloc h lltable t (n - 14) true
    · rw [if_neg hrep, if_neg fun hr => hrep hr.1]
      exact ⟨_, rfl, rfl⟩

end

structure Interface where
  hwAddr : List UInt8
  addrs : List IfAddr
  hwAddr_length : hwAddr.length = 6

structure Interface.Runs (ifp : Interface) (cfg : Config) : Prop where
  hwAddr : cfg.hwAddr = ifp.hwAddr
  addrs : cfg.addrs = ifp.addrs
  malloc : ∀ i, cfg.malloc i = true

inductive ArpEvent
  | frame (byte : Nat → UInt8)
  | resolve (dst : InAddr)

/-- A frame is processed, or an address is looked up by some code in whatever state. -/
inductive ArpStep (ifp : Interface) : List Llentry → ArpEvent → List Llentry → Prop
  | frame : ifp.Runs cfg → ArpFrame byte n → arpInput cfg (received byte n lltable) = .ok () s →
      ArpStep ifp lltable (.frame byte) s.lltable
  | resolve : ifp.Runs cfg → arpresolve cfg dst s = .ok r s' →
      ArpStep ifp s.lltable (.resolve dst) s'.lltable

theorem arpresolve_missing (cfg : Config) (halloc : ∀ i, cfg.malloc i = true) (dst : InAddr)
    (s : State) (h : (s.lltable.find? fun lle => lle.addr4 = dst) = none) :
    ∃ s', arpresolve cfg dst s = .ok (.error mdxError) s' ∧ s'.lltable = s.lltable := by
  have hget : (get : NetM State) s = .ok s s := rfl
  obtain ⟨_, s', hr, hs⟩ := (arprequest_sends cfg dst).returns (not_starved halloc) s
  rw [arpresolve, bind_of_ok hget, h]
  exact ⟨s', bind_of_ok hr, by rw [hs.same]⟩

/-- Every address has one entry, whose link header is whole. -/
structure Table (ifp : Interface) (lltable : List Llentry) : Prop where
  unique : (lltable.map Llentry.addr4).Nodup
  header : ∀ lle ∈ lltable, ∃ hw : List UInt8, hw.length = 6 ∧
    lle.linkdata = etherHeader hw ifp.hwAddr ethertypeIp

theorem ArpStep.table_eq (h : ArpStep ifp lltable ev lltable') :
    lltable' = lltable ∨ ∃ byte, ev = .frame byte ∧ arpOp byte = arpopReply ∧
      target byte ∈ ifp.addrs.map IfAddr.addr ∧ sender byte ∉ lltable.map Llentry.addr4 ∧
      lltable' = ⟨sender byte, etherHeader (senderHw byte) ifp.hwAddr ethertypeIp⟩ :: lltable := by
  cases h with
  | @frame cfg byte n lltable s hruns hframe hinput =>
    obtain ⟨s', hinput', htable⟩ := arpInput_lltable cfg hruns.malloc hframe lltable
    cases hinput.symm.trans hinput'
    split at htable
    · rename_i hlearn
      obtain ⟨hop, hown, hnew⟩ := hlearn
      refine .inr ⟨byte, rfl, hop, ?_, hnew, ?_⟩
      · rw [inIfhasaddr, hruns.addrs, any_eq_true] at hown
        obtain ⟨ifa, hifa, haddr⟩ := hown
        exact mem_map.2 ⟨ifa, hifa, of_decide_eq_true haddr⟩
      · rw [htable, entryOf, hruns.hwAddr]
    · exact .inl htable
  | @resolve cfg dst s r s' hruns hresolve =>
    refine .inl ?_
    cases hfind : s.lltable.find? fun lle => lle.addr4 = dst with
    | some =>
      cases (arpresolve_found cfg dst s hfind).symm.trans hresolve
      rfl
    | none =>
      obtain ⟨s'', hmissing, hkeeps⟩ := arpresolve_missing cfg hruns.malloc dst s hfind
      cases hmissing.symm.trans hresolve
      exact hkeeps

theorem Table.step (h : Table ifp lltable) (hstep : ArpStep ifp lltable ev lltable') :
    Table ifp lltable' := by
  rcases hstep.table_eq with rfl | ⟨byte, -, -, -, hnew, rfl⟩
  · exact h
  · refine ⟨nodup_cons.2 ⟨hnew, h.unique⟩, forall_mem_cons.2 ⟨?_, h.header⟩⟩
    exact ⟨senderHw byte, bytesAt_length _ 6, rfl⟩

theorem Table.linkdata_length (h : Table ifp lltable) (hlle : lle ∈ lltable) :
    lle.linkdata.length = 14 := by
  obtain ⟨hw, hlen, hdata⟩ := h.header lle hlle
  rw [hdata, etherHeader, length_append, length_append, hlen, ifp.hwAddr_length]
  rfl

theorem Table.run (h : Run (ArpStep ifp) (fun _ _ => True) [] lltable) : Table ifp lltable := by
  apply h.invariant (Table ifp) ⟨nodup_nil, fun _ hlle => nomatch hlle⟩
  exact fun htable _ hstep => htable.step hstep

theorem arpresolve_cases (hruns : Interface.Runs ifp cfg) (dst : InAddr) (s : State) :
    (∃ lle ∈ s.lltable, lle.addr4 = dst ∧ arpresolve cfg dst s = .ok (.ok lle.linkdata) s) ∨
    (dst ∉ s.lltable.map Llentry.addr4 ∧ ∃ s', s'.lltable = s.lltable ∧
      arpresolve cfg dst s = .ok (.error mdxError) s') := by
  rcases findAddr_cases s.lltable dst with ⟨lle, hlle, haddr, hfind⟩ | ⟨hnot, hfind⟩
  · exact .inl ⟨lle, hlle, haddr, arpresolve_found cfg dst s hfind⟩
  · obtain ⟨s', hmissing, hkeeps⟩ := arpresolve_missing cfg hruns.malloc dst s hfind
    exact .inr ⟨hnot, s', hkeeps, hmissing⟩

/-- However frames and lookups have come: the table has one entry at most for an address; a further
step leaves it, or puts one entry before the others, for the sender of a reply to one of the
interface's addresses; and a lookup finds the header of the entry there is, 14 bytes with the
entry's hardware address, the interface's own one and the type of IP. -/
theorem arp_consistent (ifp : Interface) (lltable : List Llentry)
    (h : Run (ArpStep ifp) (fun _ _ => True) [] lltable) :
    (lltable.map Llentry.addr4).Nodup ∧
    (∀ ev lltable', ArpStep ifp lltable ev lltable' → lltable' = lltable ∨
      ∃ byte, ev = .frame byte ∧ arpOp byte = arpopReply ∧
        target byte ∈ ifp.addrs.map IfAddr.addr ∧ sender byte ∉ lltable.map Llentry.addr4 ∧
        lltable' =
          ⟨sender byte, etherHeader (senderHw byte) ifp.hwAddr ethertypeIp⟩ :: lltable) ∧
    (∀ lle ∈ lltable, ∃ hw : List UInt8, hw.length = 6 ∧
      lle.linkdata = etherHeader hw ifp.hwAddr ethertypeIp ∧ lle.linkdata.length = 14) ∧
    (∀ cfg dst s, ifp.Runs cfg → s.lltable = lltable →
      (∃ lle ∈ lltable, lle.addr4 = dst ∧ arpresolve cfg dst s = .ok (.ok lle.linkdata) s) ∨
      (dst ∉ lltable.map Llentry.addr4 ∧ ∃ s', s'.lltable = lltable ∧
        arpresolve cfg dst s = .ok (.error mdxError) s')) := by
  have htable := Table.run h
  refine ⟨htable.unique, fun _ _ hstep => hstep.table_eq, ?_, ?_⟩
  · intro lle hlle
    obtain ⟨hw, hlen, hdata⟩ := htable.header lle hlle
    exact ⟨hw, hlen, hdata, htable.linkdata_length hlle⟩
  · intro cfg dst s hruns hs
    subst hs
    exact arpresolve_cases hruns dst s

def homeInterface : Interface :=
  ⟨[2, 0, 0, 0, 0, 1], [⟨afInet, [10, 0, 0, 1], [255, 0, 0, 0]⟩], rfl⟩

def homeConfig : Config where
  hwAddr := homeInterface.hwAddr
  addrs := homeInterface.addrs
  bigEndian := false
  address := 0
  lowMemory := none
  malloc _ := true
  transmit _ := 0

def replyByte (o : Nat) : UInt8 :=
  ([2, 0, 0, 0, 0, 1, 2, 0, 0, 0, 0, 2, 8, 6, 0, 1, 8, 0, 6, 4, 0, 2, 2, 0, 0, 0, 0, 2, 10, 0, 0, 2,
    2, 0, 0, 0, 0, 1, 10, 0, 0, 1] : List UInt8).getD o 0

theorem arp_consistent_home :
    ∃ lltable, Run (ArpStep homeInterface) (fun _ _ => True) [] lltable ∧
      ∃ lle ∈ lltable, lle.addr4 = [10, 0, 0, 2] ∧
        arpresolve homeConfig [10, 0, 0, 2] (received replyByte 0 lltable) =
          .ok (.ok lle.linkdata) (received replyByte 0 lltable) := by
  have hframe : ArpFrame replyByte 42 := ⟨by decide, by decide, rfl, rfl, rfl, rfl⟩
  have hruns : homeInterface.Runs homeConfig := ⟨rfl, rfl, fun _ => rfl⟩
  obtain ⟨s, hinput, htable⟩ := arpInput_lltable homeConfig hruns.malloc hframe []
  rw [if_pos (by decide)] at htable
  have hrun : Run (ArpStep homeInterface) (fun _ _ => True) [] s.lltable :=
    .tail (.refl []) trivial (.frame hruns hframe hinput)
  have hresolve := (arp_consistent homeInterface s.lltable hrun).2.2.2 homeConfig [10, 0, 0, 2]
    (received replyByte 0 s.lltable) hruns rfl
  refine ⟨s.lltable, hrun, hresolve.resolve_right fun hmissing => hmissing.1 ?_⟩
  rw [htable]
  decide

end Mdepx.Net
