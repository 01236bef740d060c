import Mdepx.Net.Answer

namespace Mdepx.Net
open Mdepx.Lib List

namespace State

def Held (s : State) : Prop := s.frees = 0 ∧ s.handed = 0

/-- It has been freed once, or handed once to an `if_transmit` that took it. -/
def ReleasedOnce (s : State) : Prop :=
  s.frees = 1 ∧ s.handed = 0 ∨ s.frees = 0 ∧ s.handed = 1

instance (s : State) : Decidable s.ReleasedOnce := by
  unfold ReleasedOnce
  infer_instance

theorem Held.sends (h : s.Held) (hs : Sends s s') : s'.Held :=
  ⟨hs.frees.trans h.1, hs.handed.trans h.2⟩

theorem Held.not_releasedOnce (h : State.Held s) : ¬ s.ReleasedOnce := by
  intro hr
  rcases hr with hr | hr
  · exact absurd (h.1.symm.trans hr.1) (by decide)
  · exact absurd (h.2.symm.trans hr.2) (by decide)

end State

open State

theorem mFree_releases (hs : State.Held s) :
    Ensures mFree s (fun _ => ReleasedOnce) fun _ => Held := by
  have hr : mFree s = .ok () (s.emit .free) := rfl
  apply Ensures.of_ok hr
  left
  rw [frees_emit, handed_emit, hs.1, hs.2]
  exact ⟨rfl, rfl⟩

def Sent (error : Int) (s : State) : Prop :=
  if error = 0 then s.frees = 0 ∧ s.handed = 1 else s.Held

section
variable (cfg : Config)

theorem ifTransmit_sent (hs : State.Held s) (h : chain.any Piece.received = true) :
    Ensures (ifTransmit cfg chain) s Sent fun _ => Held := by
  let error := cfg.transmit s.events.length
  have hr : ifTransmit cfg chain s = .ok error (s.emit (.transmit chain error)) := rfl
  apply Ensures.of_ok hr
  unfold Sent
  split
  · rename_i h0
    rw [frees_emit, handed_emit, hs.1, hs.2, Event.hands, h, h0]
    exact ⟨rfl, rfl⟩
  · rename_i h0
    unfold Held
    rw [frees_emit, handed_emit, hs.1, hs.2, Event.hands, h, beq_false_of_ne h0]
    exact ⟨rfl, rfl⟩

theorem etherSend_sent (phdr : List UInt8) (hs : State.Held s) :
    Ensures (etherSend cfg .received phdr) s Sent fun _ => Held := by
  rcases etherSend_cases cfg phdr s with ⟨-, h⟩ | ⟨-, -, h⟩ | ⟨-, -, h⟩
  · exact .of_eq h (ifTransmit_sent cfg hs rfl)
  · exact .of_eq h (ifTransmit_sent cfg hs rfl)
  · exact .of_error h hs

theorem etherOutput_sent (gw : SockaddrIn) (hs : State.Held s) :
    Ensures (etherOutput cfg .received gw none) s Sent fun _ => Held := by
  apply Ensures.bind ((etherResolveAddr_sends cfg gw s).mono (fun _ _ => id)
    fun _ _ h => hs.sends h.1)
  intro r s' ⟨hsends, hr⟩
  cases r with
  | error error =>
    have he : error = -1 := hr error rfl
    subst he
    exact .of_ok rfl (hs.sends hsends)
  | ok phdr => exact etherSend_sent cfg phdr (hs.sends hsends)

theorem ipOutput_sent (m : Nat → UInt8) (lltable : List Llentry) (t : List Nat) (b L : Nat)
    (kept : Bool) :
    Ensures (ipOutput cfg false) (reading m lltable t b L kept) Sent fun _ => Held := by
  cases hlow : cfg.lowMemory with
  | none => exact .of_error (ipOutput_stops hlow _) ⟨rfl, rfl⟩
  | some back =>
    obtain ⟨t', hprepare, -⟩ := ipPrepare_reading hlow m lltable t kept b L
    exact .of_eq (bind_of_ok hprepare) (etherOutput_sent cfg _ ⟨rfl, rfl⟩)

theorem echoReply_releases (byte : Nat → UInt8) (lltable : List Llentry) (t : List Nat)
    (kept : Bool) (b : Nat) (hL : L < 2 ^ 32) (hh : h < 2 ^ 32) (len : Int) :
    Ensures (echoReply cfg h len) (reading byte lltable t b L kept) (fun _ => ReleasedOnce)
      fun _ => Held := by
  obtain ⟨t', hturn, -⟩ := echoTurn_reading cfg byte lltable t kept b hL hh len
  apply Ensures.of_eq (bind_of_ok hturn)
  apply Ensures.bind (ipOutput_sent cfg _ lltable t' b L _)
  intro error s hs
  unfold Sent at hs
  split
  · rename_i he
    rw [if_neg he] at hs
    exact mFree_releases hs
  · rename_i he
    rw [if_pos (not_not.mp he)] at hs
    exact .of_ok rfl (.inr hs)

theorem icmpInput_releases (byte : Nat → UInt8) (lltable : List Llentry) (t : List Nat)
    (kept : Bool) (b : Nat) (hL : L < 2 ^ 32) :
    Ensures (icmpInput cfg (headerLen byte b)) (reading byte lltable t b L kept)
      (fun _ => ReleasedOnce) fun _ => Held := by
  obtain ⟨t', -, heq⟩ := icmpInput_reading cfg byte lltable t kept b hL
  split at heq
  · exact .of_eq heq (mFree_releases ⟨rfl, rfl⟩)
  · apply Ensures.of_eq heq
    split
    · exact echoReply_releases cfg byte lltable _ _ b hL (headerLen_lt byte b) _
    · exact mFree_releases ⟨rfl, rfl⟩

theorem etherInput_releases (byte : Nat → UInt8) (hn : n < 2 ^ 32) (lltable : List Llentry) :
    Ensures (etherInput cfg) (received byte n lltable)
      (fun _ s => if shortAt byte 12 = ethertypeIpv6 then s.Held else s.ReleasedOnce)
      fun _ => Held := by
  apply Ensures.of_eq (etherInput_received cfg byte n lltable)
  split
  · rename_i harp
    rw [harp]
    obtain ⟨tbl, t', -, h⟩ := arpInput_sends cfg byte lltable [13, 12] true hn
    apply Ensures.bind (h.mono (fun _ _ => Held.sends ⟨rfl, rfl⟩)
      fun _ _ h => Held.sends ⟨rfl, rfl⟩ h.1)
    exact fun _ _ hs => mFree_releases hs
  · split
    · rename_i hip
      rw [hip]
      apply Ensures.of_eq (ipInput_reading cfg hn)
      split
      · exact icmpInput_releases cfg byte lltable _ true _ (by omega)
      · exact mFree_releases ⟨rfl, rfl⟩
    · split
      · exact .of_ok (ip6Input_reading hn) ⟨rfl, rfl⟩
      · exact mFree_releases ⟨rfl, rfl⟩

end

/-- The frame is an ICMP echo request that passes the check of its checksum. -/
def Echoes (cfg : Config) (byte : Nat → UInt8) (n : Nat) : Prop :=
  shortAt byte 12 = ethertypeIp ∧ (byte (packetAt n + 9)).toNat = ipprotoIcmp ∧
    IcmpChecks cfg byte n ∧ (byte (packetAt n + headerLen byte (packetAt n))).toNat = icmpEcho

/-- A request is answered where the mbuf for the header cannot be allocated, or the entry for the
sender of a reply cannot where a store at address zero traps. -/
def ArpTraps (cfg : Config) (byte : Nat → UInt8) (lltable : List Llentry) (b : Nat) : Prop :=
  ArpValid byte b ∧ inIfhasaddr cfg (fieldAt byte (b + 24) 4) = true ∧
    (shortAt byte (b + 6) = arpopRequest ∧ HeaderFails cfg ∨
      shortAt byte (b + 6) = arpopReply ∧ fieldAt byte (b + 14) 4 ∉ lltable.map Llentry.addr4 ∧
        cfg.malloc 0 = false ∧ cfg.lowMemory = none)

theorem arpOperate_returns {lltable : List Llentry} (hln : byte (b + 4) = 6)
    (hpln : byte (b + 5) = 4) (op : Nat) :
    Halts (arpOperate cfg op) (reading byte lltable t b L kept) ↔
      ¬(inIfhasaddr cfg (fieldAt byte (b + 24) 4) = true ∧
        (op = arpopRequest ∧ HeaderFails cfg ∨
          op = arpopReply ∧ fieldAt byte (b + 14) 4 ∉ lltable.map Llentry.addr4 ∧
            cfg.malloc 0 = false ∧ cfg.lowMemory = none)) := by
  unfold arpOperate
  by_cases hreq : op = arpopRequest
  · have hrep : op ≠ arpopReply := by
      rw [hreq]
      decide
    rw [if_pos hreq, arpReplyToRequest_returns hln hpln]
    refine not_congr (and_congr_right fun _ => ⟨fun h => .inl ⟨hreq, h⟩, fun h => ?_⟩)
    exact h.elim And.right fun h => absurd h.1 hrep
  · rw [if_neg hreq]
    by_cases hrep : op = arpopReply
    · rw [if_pos hrep, arpReply_returns hln hpln, and_assoc]
      refine not_congr (and_congr_right fun _ => ⟨fun h => .inr ⟨hrep, h⟩, fun h => ?_⟩)
      exact h.elim (fun h => absurd h.1 hreq) And.right
    · rw [if_neg hrep]
      refine iff_of_true (.of_eq rfl) fun h => ?_
      exact h.2.elim (fun h => hreq h.1) fun h => hrep h.1

theorem arpInput_returns (cfg : Config) (byte : Nat → UInt8) (lltable : List Llentry)
    (t : List Nat) (kept : Bool) (hn : n < 2 ^ 32) :
    Halts (arpInput cfg) (reading byte lltable t 0 n kept) ↔
      ¬ArpTraps cfg byte lltable (packetAt n) := by
  obtain ⟨ok, t', hvalid, hok, -⟩ := arpValid_judges byte (packetAt n) lltable
    ((packetAt n + 6 + 1) :: (packetAt n + 6) :: t) (packetAt n) (n - packetAt n) kept
  rw [halts_congr (arpInput_reading cfg hn), halts_bind hvalid, ArpTraps, ← hok]
  cases ok with
  | false => exact iff_of_true (.of_eq rfl) fun h => Bool.false_ne_true h.1
  | true =>
    obtain ⟨-, -, hln, hpln⟩ := hok.1 rfl
    rw [if_pos rfl, arpOperate_returns hln hpln, and_iff_right rfl]

theorem icmpInput_returns (cfg : Config) (byte : Nat → UInt8) (lltable : List Llentry)
    (t : List Nat) (kept : Bool) (b : Nat) (hL : L < 2 ^ 32) :
    Halts (icmpInput cfg (headerLen byte b)) (reading byte lltable t b L kept) ↔
      ¬((cksumOf cfg byte (b + headerLen byte b) ((L + 2 ^ 32 - headerLen byte b) % 2 ^ 32)
          (icmpLen byte b) = 0 ∧ (byte (b + headerLen byte b)).toNat = icmpEcho) ∧
        EchoTraps cfg byte lltable b L) := by
  obtain ⟨t', -, heq⟩ := icmpInput_reading cfg byte lltable t kept b hL
  split at heq
  · rename_i hsum
    exact iff_of_true (.of_eq heq) fun h => hsum h.1.1
  · rename_i hsum
    rw [halts_congr heq]
    split
    · rename_i hecho
      rw [and_iff_right ⟨not_not.1 hsum, hecho⟩]
      exact echoReply_returns hL
    · rename_i hecho
      exact iff_of_true (.of_eq rfl) fun h => hecho h.1.2

/-- The frames that are not processed to the end. -/
def Traps (cfg : Config) (byte : Nat → UInt8) (n : Nat) (lltable : List Llentry) : Prop :=
  shortAt byte 12 = ethertypeArp ∧ ArpTraps cfg byte lltable (packetAt n) ∨
    Echoes cfg byte n ∧ EchoTraps cfg byte lltable (packetAt n) (n - packetAt n)

theorem etherInput_returns (cfg : Config) (byte : Nat → UInt8) (hn : n < 2 ^ 32)
    (lltable : List Llentry) :
    Halts (etherInput cfg) (received byte n lltable) ↔ ¬Traps cfg byte n lltable := by
  rw [halts_congr (etherInput_received cfg byte n lltable), Traps, Echoes]
  split
  · rename_i harp
    have hip : shortAt byte 12 ≠ ethertypeIp := by
      rw [harp]
      decide
    have hfree : ∀ (_ : Unit) s, Halts mFree s := fun _ _ => .of_eq rfl
    rw [halts_bind_total hfree, arpInput_returns cfg byte lltable _ true hn]
    refine not_congr ⟨fun h => .inl ⟨harp, h⟩, fun h => ?_⟩
    exact h.elim And.right fun h => absurd h.1.1 hip
  · rename_i harp
    split
    · rename_i hip
      rw [halts_congr (ipInput_reading cfg hn)]
      split
      · rename_i hp
        refine (icmpInput_returns cfg byte lltable _ true (packetAt n) (by omega)).trans
          (not_congr ⟨fun h => .inr ⟨⟨hip, hp, h.1⟩, h.2⟩, fun h => ?_⟩)
        exact h.elim (fun h => absurd h.1 harp) fun h => ⟨h.1.2.2, h.2⟩
      · rename_i hp
        refine iff_of_true (.of_eq rfl) fun h => ?_
        exact h.elim (fun h => harp h.1) fun h => hp h.1.2.1
    · rename_i hip
      have hno : ¬(shortAt byte 12 = ethertypeArp ∧ ArpTraps cfg byte lltable (packetAt n) ∨
          Echoes cfg byte n ∧ EchoTraps cfg byte lltable (packetAt n) (n - packetAt n)) :=
        fun h => h.elim (fun h => harp h.1) fun h => hip h.1.1
      apply iff_of_true _ hno
      split
      · exact .of_eq (ip6Input_reading hn)
      · exact .of_eq rfl

/-- A received mbuf is released exactly once if and only if the frame is not an IPv6 one and
nothing on its way stops the processor: a store through the null route or at an entry that could
not be allocated, where such a store traps, or a copy to a header that could not be allocated. -/
theorem released_once_iff (cfg : Config) (byte : Nat → UInt8) (n : Nat) (hn : n < 2 ^ 32)
    (lltable : List Llentry) :
    (final (etherInput cfg (received byte n lltable))).ReleasedOnce ↔
      shortAt byte 12 ≠ ethertypeIpv6 ∧ ¬Traps cfg byte n lltable := by
  rw [← etherInput_returns cfg byte hn lltable]
  have h := etherInput_releases cfg byte hn lltable
  unfold Ensures at h
  cases hr : etherInput cfg (received byte n lltable) with
  | ok a s =>
    rw [hr] at h
    dsimp only at h
    by_cases h6 : shortAt byte 12 = ethertypeIpv6
    · rw [if_pos h6] at h
      exact iff_of_false h.not_releasedOnce fun hc => hc.1 h6
    · rw [if_neg h6] at h
      exact iff_of_true h ⟨h6, .of_eq hr⟩
  | error e s =>
    rw [hr] at h
    exact iff_of_false h.not_releasedOnce fun hc => not_halts hr hc.2

def ramConfig : Config where
  hwAddr := [2, 0, 0, 0, 0, 1]
  addrs := [⟨afInet, [10, 0, 0, 1], [255, 255, 255, 0]⟩]
  bigEndian := false
  address := 0
  lowMemory := some id
  malloc := fun _ => true
  transmit := fun _ => 0

def echoByte : Nat → UInt8
  | 12 => 0x08
  | 14 => 0x45
  | 17 => 28
  | 23 => 1
  | 34 => 8
  | 36 => 0xf7
  | 37 => 0xff
  | _ => 0

theorem released_once_echo :
    shortAt echoByte 12 ≠ ethertypeIpv6 ∧ ¬Traps ramConfig echoByte 42 [] ∧
      (final (etherInput ramConfig (received echoByte 42 []))).ReleasedOnce := by
  have htype : shortAt echoByte 12 ≠ ethertypeIpv6 := by decide
  have hruns : ¬Traps ramConfig echoByte 42 [] := by
    rintro (⟨harp, -⟩ | ⟨-, -, hout⟩)
    · exact absurd harp (by decide)
    · exact absurd hout.2.2 (by decide)
  exact ⟨htype, hruns, (released_once_iff ramConfig echoByte 42 (by decide) []).2 ⟨htype, hruns⟩⟩

def ipv6Byte : Nat → UInt8
  | 12 => 0x86
  | 13 => 0xdd
  | _ => 0

theorem ipv6_frame_kept :
    ¬ (final (etherInput ramConfig (received ipv6Byte 54 []))).ReleasedOnce := by
  decide

end Mdepx.Net
