import Mdepx.Net.Path
import Mdepx.Net.Sends

namespace Mdepx.Net
open Mdepx.Lib List State

/-! The steps of an answer, and where one of them stops for want of memory. -/

def storeCksum (cfg : Config) (m : Nat → UInt8) (d L : Nat) (len : Int) (o : Nat) : Nat → UInt8 :=
  let z := putBytes m (d + o) [0, 0]
  putBytes z (d + o) (shortBytes cfg (cksumOf cfg z d L len))

def turned (m : Nat → UInt8) (b h : Nat) : Nat → UInt8 :=
  putBytes (putBytes (putBytes m (b + 16) (fieldAt m (b + 12) 4)) (b + 12) (fieldAt m (b + 16) 4))
    (b + h) [icmpEchoreply]

theorem echoTurn_reading (cfg : Config) (m : Nat → UInt8) (lltable : List Llentry) (t : List Nat)
    (kept : Bool) (b : Nat) (hL : L < 2 ^ 32) (hh : h < 2 ^ 32) (len : Int) :
    let k := (min len (toInt ((L + 2 ^ 32 - h) % 2 ^ 32))).toNat
    ∃ t', echoTurn cfg h len (reading m lltable t b L kept) =
        .ok () (reading (storeCksum cfg (turned m b h) (b + h) ((L + 2 ^ 32 - h) % 2 ^ 32) len 2)
          lltable t' b L (kept && decide (h ≤ L))) ∧
      ∀ n, (∀ i ∈ t', i < n) ↔
        ((k = 0 ∨ b + h + k ≤ n) ∧ b + 20 ≤ n ∧ b + h + 4 ≤ n) ∧ ∀ i ∈ t, i < n := by
  intro k
  let z := putBytes (turned m b h) (b + h + 2) [0, 0]
  obtain ⟨t₀, hpath, hin₀⟩ : ∃ t₀, echoTurn cfg h len (reading m lltable t b L kept) =
        (inCksum cfg len >>= fun sum => do
          writeBytes (b + h + 2) (shortBytes cfg sum)
          modify fun s => s.retreat h)
        (reading z lltable t₀ (b + h) ((L + 2 ^ 32 - h) % 2 ^ 32) (kept && decide (h ≤ L))) ∧
      ∀ n, (∀ i ∈ t₀, i < n) ↔ (b + 20 ≤ n ∧ b + h + 4 ≤ n) ∧ ∀ i ∈ t, i < n := by
    have hadvance : ∀ m t,
        (modify fun s => s.advance h : NetM Unit) (reading m lltable t b L kept) =
        .ok () (reading m lltable t (b + h) ((L + 2 ^ 32 - h) % 2 ^ 32)
          (kept && decide (h ≤ L))) := fun _ _ => rfl
    rw [echoTurn, bind_of_ok mtod_reading, bind_of_ok (readBytes_reading (b + 16) 4),
      bind_of_ok (readBytes_reading (b + 12) 4), bind_of_ok (writeBytes_reading (b + 16) _),
      bind_of_ok (writeBytes_reading (b + 12) _), bind_of_ok (hadvance _ _),
      bind_of_ok mtod_reading, bind_of_ok (writeBytes_reading (b + h) _),
      bind_of_ok (writeBytes_reading (b + h + 2) _)]
    refine ⟨_, rfl, fun n => ?_⟩
    simp only [forall_mem_append, Buffer.forall_mem_range', fieldAt_length, length_cons,
      length_nil, ← and_assoc]
    exact and_congr_left fun _ => by omega
  obtain ⟨s, hsum, t₁, rfl, hin₁⟩ := inCksum_eq cfg len
    (reading z lltable t₀ (b + h) ((L + 2 ^ 32 - h) % 2 ^ 32) (kept && decide (h ≤ L)))
  rw [hpath, bind_of_ok hsum]
  refine ⟨_, congrArg (EStateM.Result.ok ()) (retreat_reading hL hh), fun n => ?_⟩
  have hin : (∀ i ∈ t₁, i < n) ↔ (k = 0 ∨ b + h + k ≤ n) ∧ ∀ i ∈ t₀, i < n := hin₁ n
  simp only [forall_mem_append, Buffer.forall_mem_range', shortBytes_length, hin, hin₀, ← and_assoc]
  exact and_congr_left fun _ => by omega

theorem headerLen_congr (h : m b = m' b) : headerLen m b = headerLen m' b := by
  rw [headerLen, h, headerLen]

theorem ipPrepare_reading (hlow : cfg.lowMemory = some back) (m : Nat → UInt8)
    (lltable : List Llentry) (t : List Nat) (kept : Bool) (b L : Nat) :
    let k := (min (headerLen m b : Int) (toInt L)).toNat
    ∃ t', ipPrepare cfg false (reading m lltable t b L kept) =
        .ok (back ⟨afInet, fieldAt m (b + 16) 4⟩)
          (reading (storeCksum cfg m b L (headerLen m b) 10) lltable t' b L kept) ∧
      ∀ n, (∀ i ∈ t', i < n) ↔ ((k = 0 ∨ b + k ≤ n) ∧ b + 20 ≤ n) ∧ ∀ i ∈ t, i < n := by
  intro k
  let z := putBytes m (b + 10) [0, 0]
  have hhl : headerLen z b = headerLen m b :=
    headerLen_congr (putBytes_of_outside (.inl (by omega)))
  have hstore : routeStore cfg false (reading m lltable t b L kept) =
      .ok back (reading m lltable t b L kept) := by
    unfold routeStore lowStore
    rw [hlow]
    rfl
  obtain ⟨t₀, hpath, hin₀⟩ : ∃ t₀, ipPrepare cfg false (reading m lltable t b L kept) =
        (inCksum cfg (headerLen z b) >>= fun sum => do
          writeBytes (b + 10) (shortBytes cfg sum)
          return back ⟨afInet, fieldAt m (b + 16) 4⟩) (reading z lltable t₀ b L kept) ∧
      ∀ n, (∀ i ∈ t₀, i < n) ↔ b + 20 ≤ n ∧ ∀ i ∈ t, i < n := by
    rw [ipPrepare, bind_of_ok mtod_reading, bind_of_ok hstore,
      bind_of_ok (readBytes_reading (b + 16) 4), bind_of_ok (writeBytes_reading (b + 10) _),
      bind_of_ok (readByte_reading b)]
    refine ⟨_, rfl, fun n => ?_⟩
    simp only [forall_mem_append, forall_mem_cons, Buffer.forall_mem_range', length_cons,
      length_nil, ← and_assoc]
    exact and_congr_left fun _ => by omega
  obtain ⟨s, hsum, t₁, rfl, hin₁⟩ := inCksum_eq cfg (headerLen z b) (reading z lltable t₀ b L kept)
  rw [hpath, bind_of_ok hsum, hhl]
  refine ⟨_, rfl, fun n => ?_⟩
  rw [hhl] at hin₁
  have hin : (∀ i ∈ t₁, i < n) ↔ (k = 0 ∨ b + k ≤ n) ∧ ∀ i ∈ t₀, i < n := hin₁ n
  simp only [forall_mem_append, Buffer.forall_mem_range', shortBytes_length, hin, hin₀, ← and_assoc]
  exact and_congr_left fun _ => by omega

theorem within_append {t t₁ l : List Nat}
    (hin : ∀ n, (∀ i ∈ t₁, i < n) ↔ m ≤ n ∧ ∀ i ∈ t, i < n) (hl : ∀ i ∈ l, i < m) (n : Nat) :
    (∀ i ∈ l ++ t₁, i < n) ↔ m ≤ n ∧ ∀ i ∈ t, i < n := by
  rw [forall_mem_append, hin]
  exact and_iff_right_of_imp fun h i hi => lt_of_lt_of_le (hl i hi) h.1

theorem findAddr_cases (lltable : List Llentry) (dst : InAddr) :
    (∃ lle ∈ lltable, lle.addr4 = dst ∧
      (lltable.find? fun lle => lle.addr4 = dst) = some lle) ∨
    (dst ∉ lltable.map Llentry.addr4 ∧ (lltable.find? fun lle => lle.addr4 = dst) = none) := by
  cases hfind : lltable.find? fun lle => lle.addr4 = dst with
  | some lle =>
    have haddr := find?_some hfind
    exact .inl ⟨lle, mem_of_find?_eq_some hfind, of_decide_eq_true haddr, rfl⟩
  | none =>
    refine .inr ⟨fun hmem => ?_, rfl⟩
    obtain ⟨lle, hlle, haddr⟩ := mem_map.1 hmem
    exact find?_eq_none.1 hfind lle hlle (decide_eq_true haddr)

theorem arpresolve_found (cfg : Config) (dst : InAddr) (s : State)
    (h : (s.lltable.find? fun lle => lle.addr4 = dst) = some lle) :
    arpresolve cfg dst s = .ok (.ok lle.linkdata) s := by
  have hget : (get : NetM State) s = .ok s s := rfl
  rw [arpresolve, bind_of_ok hget, h]
  rfl

section
variable {cfg : Config} {byte : Nat → UInt8} {lltable : List Llentry} {t : List Nat} {kept : Bool}

theorem mAlloc_returns {f : Bool → NetM α} :
    Halts (mAlloc cfg >>= f) s ↔
      Halts (f (cfg.malloc s.allocs)) { s with allocs := s.allocs + 1 } :=
  halts_bind rfl

theorem etherSend_fresh_returns (bytes phdr : List UInt8) :
    Halts (etherSend cfg (.fresh bytes) phdr >>= fun _ => pure ()) s ↔
      cfg.malloc s.allocs = true := by
  have hpure : ∀ (_ : Int) s', Halts (pure () : NetM Unit) s' := fun _ _ => .of_eq rfl
  rw [halts_bind_total hpure, etherSend_fresh, mAlloc_returns]
  cases cfg.malloc s.allocs with
  | true => exact iff_of_true (.of_eq rfl) rfl
  | false => exact iff_of_false (not_halts rfl) Bool.false_ne_true

/-- A packet of the code's own is allocated, and the mbuf for its header is not. -/
def HeaderFails (cfg : Config) : Prop := cfg.malloc 0 = true ∧ cfg.malloc 1 = false

theorem packet_returns (hs : s.allocs = 0) (f : NetM Unit)
    (hf : ∃ bytes phdr s', s'.allocs = s.allocs + 1 ∧ f { s with allocs := s.allocs + 1 } =
      (etherSend cfg (.fresh bytes) phdr >>= fun _ => pure ()) s') :
    Halts (mAlloc cfg >>= fun ok => if ok then f else pure ()) s ↔ ¬HeaderFails cfg := by
  have hfirst : cfg.malloc 0 = cfg.malloc s.allocs := by rw [hs]
  rw [mAlloc_returns, HeaderFails, hfirst]
  cases cfg.malloc s.allocs with
  | true =>
    obtain ⟨bytes, phdr, s', hs', hf⟩ := hf
    have hone : s'.allocs = 1 := hs'.trans (congrArg (· + 1) hs)
    have hreturns : Halts f { s with allocs := s.allocs + 1 } ↔ cfg.malloc 1 = true := by
      rw [halts_congr hf, ← hone]
      exact etherSend_fresh_returns bytes phdr
    simpa using hreturns
  | false => exact iff_of_true (.of_eq rfl) fun h => Bool.false_ne_true h.1

theorem arprequest_returns (tip : InAddr) (hs : s.allocs = 0) :
    Halts (arprequest cfg tip) s ↔
      ¬((requestSource tip cfg.addrs none).isSome ∧ HeaderFails cfg) := by
  unfold arprequest
  cases requestSource tip cfg.addrs none with
  | none => exact iff_of_true (.of_eq rfl) fun h => Bool.false_ne_true h.1
  | some sip =>
    exact (packet_returns hs _ ⟨_, _, _, rfl, rfl⟩).trans (not_congr (and_iff_right rfl).symm)

def OutputTraps (cfg : Config) (lltable : List Llentry) (b : Nat) (gw : SockaddrIn) : Prop :=
  gw.sinFamily = afInet ∧
    if gw.sinAddr ∈ lltable.map Llentry.addr4 then b < etherHdrLen ∧ cfg.malloc 0 = false
    else (requestSource gw.sinAddr cfg.addrs none).isSome ∧ HeaderFails cfg

theorem etherSend_received_returns (phdr : List UInt8) :
    Halts (etherSend cfg .received phdr) s ↔
      ¬(s.mData < etherHdrLen ∧ cfg.malloc s.allocs = false) := by
  rcases etherSend_cases cfg phdr s with ⟨hroom, h⟩ | ⟨-, hmem, h⟩ | ⟨hroom, hmem, h⟩
  · exact iff_of_true (.of_eq h) fun hn => Nat.not_lt.2 hroom hn.1
  · exact iff_of_true (.of_eq h) fun hn => Bool.false_ne_true (hn.2.symm.trans hmem)
  · exact iff_of_false (not_halts h) fun hn => hn ⟨hroom, hmem⟩

theorem arpresolve_missing_returns (dst : InAddr) (hs : s.allocs = 0)
    (h : (s.lltable.find? fun lle => lle.addr4 = dst) = none)
    {f : Except Int (List UInt8) → NetM α} (hf : ∀ s', Halts (f (.error mdxError)) s') :
    Halts (arpresolve cfg dst >>= f) s ↔
      ¬((requestSource dst cfg.addrs none).isSome ∧ HeaderFails cfg) := by
  have hget : (get : NetM State) s = .ok s s := rfl
  have hpath : arpresolve cfg dst s =
      (arprequest cfg dst >>= fun _ => pure (.error mdxError)) s := by
    rw [arpresolve, bind_of_ok hget, h]
  rw [← arprequest_returns dst hs]
  cases hr : arprequest cfg dst s with
  | ok a s' =>
    rw [halts_bind (hpath.trans (bind_of_ok hr))]
    exact iff_of_true (hf s') (.of_eq hr)
  | error =>
    exact iff_of_false (not_halts (bind_of_error (hpath.trans (bind_of_error hr))))
      (not_halts hr)

theorem etherOutput_returns (gw : SockaddrIn) :
    Halts (etherOutput cfg .received gw none) (reading byte lltable t b L kept) ↔
      ¬OutputTraps cfg lltable b gw := by
  unfold etherOutput OutputTraps etherResolveAddr
  dsimp only
  by_cases hfamily : gw.sinFamily = afInet
  · rw [if_pos hfamily, and_iff_right hfamily]
    rcases findAddr_cases lltable gw.sinAddr with ⟨lle, hlle, haddr, hfind⟩ | ⟨hnot, hfind⟩
    · have hresolve := arpresolve_found cfg gw.sinAddr (reading byte lltable t b L kept) hfind
      rw [if_pos (mem_map.2 ⟨lle, hlle, haddr⟩), halts_bind hresolve]
      exact etherSend_received_returns lle.linkdata
    · rw [if_neg hnot]
      exact arpresolve_missing_returns gw.sinAddr rfl hfind fun _ => .of_eq rfl
  · rw [if_neg hfamily]
    exact iff_of_true (.of_eq rfl) fun h => hfamily h.1

theorem ipOutput_stops (h : cfg.lowMemory = none) (s : State) :
    ipOutput cfg false s = .error .lowMemory s := by
  have hstore : routeStore cfg false s = .error .lowMemory s := by
    unfold routeStore lowStore
    rw [h]
    rfl
  apply bind_of_error
  apply (bind_of_ok (x := mtod) rfl).trans
  exact bind_of_error hstore

theorem echoReply_stops (hlow : cfg.lowMemory = none) (byte : Nat → UInt8)
    (lltable : List Llentry) (t : List Nat) (kept : Bool) (b : Nat) (hL : L < 2 ^ 32)
    (hh : h < 2 ^ 32) (len : Int) :
    ∃ s, echoReply cfg h len (reading byte lltable t b L kept) = .error .lowMemory s := by
  obtain ⟨t', hturn, -⟩ := echoTurn_reading cfg byte lltable t kept b hL hh len
  rw [echoReply, bind_of_ok hturn]
  exact ⟨_, bind_of_error (ipOutput_stops hlow _)⟩

/-- The address an echo request is answered to: that of its source, as far as the message does not
overlap it. -/
def replyAddr (cfg : Config) (byte : Nat → UInt8) (b L : Nat) : InAddr :=
  let h := headerLen byte b
  fieldAt (storeCksum cfg (turned byte b h) (b + h) ((L + 2 ^ 32 - h) % 2 ^ 32) (icmpLen byte b) 2)
    (b + 16) 4

/-- Without memory at address zero the store through the null route traps. -/
def EchoTraps (cfg : Config) (byte : Nat → UInt8) (lltable : List Llentry) (b L : Nat) : Prop :=
  match cfg.lowMemory with
  | none => True
  | some back => OutputTraps cfg lltable b (back ⟨afInet, replyAddr cfg byte b L⟩)

theorem echoReply_returns (hL : L < 2 ^ 32) :
    Halts (echoReply cfg (headerLen byte b) (icmpLen byte b))
        (reading byte lltable t b L kept) ↔ ¬EchoTraps cfg byte lltable b L := by
  unfold EchoTraps
  cases hlow : cfg.lowMemory with
  | none =>
    obtain ⟨s, hs⟩ := echoReply_stops hlow byte lltable t kept b hL (headerLen_lt byte b)
      (icmpLen byte b)
    exact iff_of_false (not_halts hs) (not_not.2 trivial)
  | some back =>
    obtain ⟨t₁, hturn, -⟩ := echoTurn_reading cfg byte lltable t kept b hL (headerLen_lt byte b)
      (icmpLen byte b)
    obtain ⟨t₂, hprepare, -⟩ := ipPrepare_reading hlow
      (storeCksum cfg (turned byte b (headerLen byte b)) (b + headerLen byte b)
        ((L + 2 ^ 32 - headerLen byte b) % 2 ^ 32) (icmpLen byte b) 2)
      lltable t₁ (kept && decide (headerLen byte b ≤ L)) b L
    have hfree : ∀ (error : Int) s', Halts (if error ≠ 0 then mFree else pure ()) s' := by
      intro error s'
      split
      · exact .of_eq rfl
      · exact .of_eq rfl
    rw [echoReply, halts_bind hturn, halts_bind_total hfree, ipOutput, halts_bind hprepare]
    exact etherOutput_returns _

theorem arpAddentry_returns (sha spa : Nat) (s : State) :
    Halts (arpAddentry cfg sha spa) s ↔
      ¬(cfg.malloc s.allocs = false ∧ cfg.lowMemory = none) := by
  refine (halts_bind (x := readBytes sha 6) rfl).trans (mAlloc_returns.trans ?_)
  dsimp only
  cases cfg.malloc s.allocs with
  | true => exact iff_of_true (.of_eq rfl) fun h => Bool.false_ne_true h.1.symm
  | false =>
    rw [if_neg Bool.false_ne_true, and_iff_right rfl, lowStore]
    cases cfg.lowMemory with
    | none => exact iff_of_false (not_halts rfl) fun h => h rfl
    | some => exact iff_of_true (.of_eq rfl) nofun

theorem arpAddentry_sends (cfg : Config) (byte : Nat → UInt8) (lltable : List Llentry)
    (t : List Nat) (b L : Nat) (kept : Bool) :
    ∃ tbl l, (∀ i ∈ l, i < b + 28) ∧
      Ensures (arpAddentry cfg (arSha b) (b + 14)) (reading byte lltable t b L kept)
        (fun _ => Sends (reading byte tbl (l ++ t) b L kept))
        fun e s => Sends (reading byte tbl (l ++ t) b L kept) s ∧ Starved cfg e := by
  let l := range' (b + 14) 4 ++ range' (arSha b) 6
  have hl : ∀ i ∈ l, i < b + 28 := by
    simp only [l, forall_mem_append, Buffer.forall_mem_range', arSha]
    omega
  let s := reading byte lltable (range' (arSha b) 6 ++ t) b L kept
  have halloc : mAlloc cfg s = .ok (cfg.malloc 0) { s with allocs := 1 } := rfl
  unfold Ensures
  rw [arpAddentry, bind_of_ok (readBytes_reading (arSha b) 6), bind_of_ok halloc]
  cases hmem : cfg.malloc 0 with
  | true => exact ⟨_, l, hl, rfl, rfl, rfl⟩
  | false =>
    rw [if_neg Bool.false_ne_true, lowStore]
    cases cfg.lowMemory with
    | none =>
      exact ⟨lltable, range' (arSha b) 6, (forall_mem_append.1 hl).2, ⟨rfl, rfl, rfl⟩, 0, hmem⟩
    | some => exact ⟨_, l, hl, rfl, rfl, rfl⟩

section
variable (hln : byte (b + 4) = 6) (hpln : byte (b + 5) = 4)
include hln hpln

theorem arpReplyToRequest_returns :
    Halts (arpReplyToRequest cfg) (reading byte lltable t b L kept) ↔
      ¬(inIfhasaddr cfg (fieldAt byte (b + 24) 4) = true ∧ HeaderFails cfg) := by
  obtain ⟨t', hlook, -⟩ := arpLook_reading hln hpln lltable t L kept
  rw [arpReplyToRequest, halts_bind hlook]
  dsimp only
  by_cases hown : inIfhasaddr cfg (fieldAt byte (b + 24) 4) = true
  · rw [if_pos hown, and_iff_right hown]
    exact packet_returns rfl _ ⟨_, _, _, rfl, rfl⟩
  · rw [if_neg hown]
    exact iff_of_true (.of_eq rfl) fun h => hown h.1

theorem arpReplyToRequest_sends (cfg : Config) (lltable : List Llentry) (t : List Nat) (L : Nat)
    (kept : Bool) :
    ∃ t', (∀ n, (∀ i ∈ t', i < n) ↔ b + 28 ≤ n ∧ ∀ i ∈ t, i < n) ∧
      Ensures (arpReplyToRequest cfg) (reading byte lltable t b L kept)
        (fun _ => Sends (reading byte lltable t' b L kept))
        fun e s => Sends (reading byte lltable t' b L kept) s ∧ Starved cfg e := by
  obtain ⟨t₁, hlook, hin⟩ := arpLook_reading hln hpln lltable t L kept
  let s := reading byte lltable t₁ b L kept
  have halloc : mAlloc cfg s = .ok (cfg.malloc 0) { s with allocs := 1 } := rfl
  unfold Ensures
  rw [arpReplyToRequest, bind_of_ok hlook]
  dsimp only
  by_cases hown : inIfhasaddr cfg (fieldAt byte (b + 24) 4) = true
  · rw [if_pos hown, bind_of_ok halloc]
    cases cfg.malloc 0 with
    | true =>
      let h := (byte (b + 4)).toNat
      let p := (byte (b + 5)).toNat
      let t₂ := range' (b + 8 + h) p ++ (b + 4) :: (range' (b + 8 + 2 * h + p) p ++
        (b + 5) :: (b + 4) :: (b + 5) :: (range' (arSha b) h ++ (b + 4) :: t₁))
      have hin₂ : ∀ n, (∀ i ∈ t₂, i < n) ↔ b + 28 ≤ n ∧ ∀ i ∈ t, i < n := by
        intro n
        have hh : h = 6 := congrArg UInt8.toNat hln
        have hp : p = 4 := congrArg UInt8.toNat hpln
        simp only [t₂, forall_mem_append, forall_mem_cons, Buffer.forall_mem_range', hin, arSha,
          hh, hp, ← and_assoc]
        exact and_congr_left fun _ => by omega
      refine ⟨t₂, hin₂, ?_⟩
      exact (etherSend_sends cfg _ _ { reading byte lltable t₂ b L kept with allocs := 1 }).mono
        (fun _ _ h => ⟨h.same, h.frees, h.handed⟩)
        fun _ _ h => ⟨⟨h.1.same, h.1.frees, h.1.handed⟩, h.2⟩
    | false => exact ⟨t₁, hin, rfl, rfl, rfl⟩
  · rw [if_neg hown]
    exact ⟨t₁, hin, rfl, rfl, rfl⟩

theorem arpReply_reading (cfg : Config) (lltable : List Llentry) (t : List Nat) (L : Nat)
    (kept : Bool) :
    ∃ t', arpReply cfg (reading byte lltable t b L kept) =
        (if inIfhasaddr cfg (fieldAt byte (b + 24) 4) = true ∧
            fieldAt byte (b + 14) 4 ∉ lltable.map Llentry.addr4
          then arpAddentry cfg (arSha b) (b + 14) else pure ())
          (reading byte lltable t' b L kept) ∧
      ∀ n, (∀ i ∈ t', i < n) ↔ b + 28 ≤ n ∧ ∀ i ∈ t, i < n := by
  obtain ⟨t₁, hlook, hin⟩ := arpLook_reading hln hpln lltable t L kept
  let s := reading byte lltable (range' (b + 14) 4 ++ t₁) b L kept
  have hget : (get : NetM State) s = .ok s s := rfl
  have htable : s.lltable = lltable := rfl
  have hknown : (lltable.any fun lle => lle.addr4 = fieldAt byte (b + 14) 4) = true ↔
      fieldAt byte (b + 14) 4 ∈ lltable.map Llentry.addr4 := by
    simp [any_eq_true, mem_map]
  rw [arpReply, bind_of_ok hlook]
  dsimp only
  by_cases hown : inIfhasaddr cfg (fieldAt byte (b + 24) 4) = true
  · have hl : ∀ i ∈ range' (b + 14) 4, i < b + 28 := Buffer.forall_mem_range'.2 (by omega)
    rw [if_pos hown, bind_of_ok (readBytes_reading (b + 14) 4), bind_of_ok hget, htable]
    by_cases hnew : fieldAt byte (b + 14) 4 ∈ lltable.map Llentry.addr4
    · rw [if_pos (hknown.2 hnew), if_neg fun h => h.2 hnew]
      exact ⟨_, rfl, within_append hin hl⟩
    · rw [if_neg fun h => hnew (hknown.1 h), if_pos ⟨hown, hnew⟩, bind_of_ok (arSpa_reading hln)]
      exact ⟨_, rfl, within_append hin (forall_mem_cons.2 ⟨by omega, hl⟩)⟩
  · rw [if_neg hown, if_neg fun h => hown h.1]
    exact ⟨_, rfl, hin⟩

theorem arpReply_sends (cfg : Config) (lltable : List Llentry) (t : List Nat) (L : Nat)
    (kept : Bool) :
    ∃ tbl t', (∀ n, (∀ i ∈ t', i < n) ↔ b + 28 ≤ n ∧ ∀ i ∈ t, i < n) ∧
      Ensures (arpReply cfg) (reading byte lltable t b L kept)
        (fun _ => Sends (reading byte tbl t' b L kept))
        fun e s => Sends (reading byte tbl t' b L kept) s ∧ Starved cfg e := by
  obtain ⟨t₁, hreply, hin⟩ := arpReply_reading hln hpln cfg lltable t L kept
  split at hreply
  · obtain ⟨tbl, l, hl, hsends⟩ := arpAddentry_sends cfg byte lltable t₁ b L kept
    exact ⟨tbl, l ++ t₁, within_append hin hl, .of_eq hreply hsends⟩
  · exact ⟨lltable, t₁, hin, .of_ok hreply ⟨rfl, rfl, rfl⟩⟩

theorem arpOperate_sends (cfg : Config) (op : Nat) (lltable : List Llentry) (t : List Nat)
    (L : Nat) (kept : Bool) :
    ∃ tbl t', (∀ n, (∀ i ∈ t', i < n) ↔
        (op = arpopRequest ∨ op = arpopReply → b + 28 ≤ n) ∧ ∀ i ∈ t, i < n) ∧
      Ensures (arpOperate cfg op) (reading byte lltable t b L kept)
        (fun _ => Sends (reading byte tbl t' b L kept))
        fun e s => Sends (reading byte tbl t' b L kept) s ∧ Starved cfg e := by
  unfold arpOperate
  by_cases hreq : op = arpopRequest
  · obtain ⟨t', hin, h⟩ := arpReplyToRequest_sends hln hpln cfg lltable t L kept
    simp only [hreq, true_or, forall_const, if_true]
    exact ⟨lltable, t', hin, h⟩
  · rw [if_neg hreq]
    by_cases hrep : op = arpopReply
    · obtain ⟨tbl, t', hin, h⟩ := arpReply_sends hln hpln cfg lltable t L kept
      simp only [hrep, or_true, forall_const, if_true]
      exact ⟨tbl, t', hin, h⟩
    · rw [if_neg hrep]
      have hno : ¬(op = arpopRequest ∨ op = arpopReply) := not_or.2 ⟨hreq, hrep⟩
      exact ⟨lltable, t, fun n => (and_iff_right fun h => (hno h).elim).symm,
        .of_ok rfl ⟨rfl, rfl, rfl⟩⟩

theorem arpReply_returns :
    Halts (arpReply cfg) (reading byte lltable t b L kept) ↔
      ¬((inIfhasaddr cfg (fieldAt byte (b + 24) 4) = true ∧
        fieldAt byte (b + 14) 4 ∉ lltable.map Llentry.addr4) ∧ cfg.malloc 0 = false ∧
        cfg.lowMemory = none) := by
  obtain ⟨t', hreply, -⟩ := arpReply_reading hln hpln cfg lltable t L kept
  rw [halts_congr hreply]
  split
  · rename_i hlearns
    rw [and_iff_right hlearns]
    exact arpAddentry_returns (arSha b) (b + 14) _
  · rename_i hlearns
    exact iff_of_true (.of_eq rfl) fun h => hlearns h.1

end

def ArpHeard (byte : Nat → UInt8) (b : Nat) : Prop :=
  ArpValid byte b ∧ (shortAt byte (b + 6) = arpopRequest ∨ shortAt byte (b + 6) = arpopReply)

theorem arpInput_sends (cfg : Config) (byte : Nat → UInt8) (lltable : List Llentry) (t : List Nat)
    (kept : Bool) (hn : n < 2 ^ 32) :
    let b := packetAt n
    ∃ tbl t', (∀ n, (∀ i ∈ t', i < n) ↔
        (b + 8 ≤ n ∧ (ArpHeard byte b → b + 28 ≤ n)) ∧ ∀ i ∈ t, i < n) ∧
      Ensures (arpInput cfg) (reading byte lltable t 0 n kept)
        (fun _ => Sends (reading byte tbl t' b (n - b) kept))
        fun e s => Sends (reading byte tbl t' b (n - b) kept) s ∧ Starved cfg e := by
  intro b
  let t₀ := (b + 6 + 1) :: (b + 6) :: t
  obtain ⟨ok, l, hvalid, hok, hl⟩ := arpValid_judges byte b lltable t₀ b (n - b) kept
  have hin : ∀ n, (∀ i ∈ l ++ t₀, i < n) ↔ b + 8 ≤ n ∧ ∀ i ∈ t, i < n := by
    apply within_append _ fun i hi => lt_of_lt_of_le (hl i hi) (by omega)
    intro n
    simp only [t₀, forall_mem_cons, ← and_assoc]
    exact and_congr_left fun _ => by omega
  have hpath := (arpInput_reading cfg hn).trans (bind_of_ok hvalid)
  by_cases hv : ok = true
  · have hheard : ArpHeard byte b ↔ _ := and_iff_right (hok.1 hv)
    obtain ⟨-, -, hln, hpln⟩ := hok.1 hv
    obtain ⟨tbl, t', hin', h⟩ := arpOperate_sends hln hpln cfg (shortAt byte (b + 6)) lltable
      (l ++ t₀) (n - b) kept
    rw [if_pos hv] at hpath
    refine ⟨tbl, t', fun n => ?_, .of_eq hpath h⟩
    rw [hin', hin, hheard, and_left_comm, and_assoc]
  · rw [if_neg hv] at hpath
    have hno : ¬ArpHeard byte b := fun h => hv (hok.2 h.1)
    refine ⟨lltable, l ++ t₀, fun n => ?_, .of_ok hpath ⟨rfl, rfl, rfl⟩⟩
    rw [hin, and_iff_left fun h => (hno h).elim]

end

end Mdepx.Net
