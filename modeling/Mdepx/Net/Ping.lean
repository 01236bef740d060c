import Mdepx.Net.Arp
import Mdepx.Net.InetSum
import Mdepx.Net.Release

namespace Mdepx.Net
open Mdepx.Lib List

/-! What becomes of an echo request. -/

theorem fieldAt_congr (h : ∀ x, o ≤ x → x < o + len → m x = m' x) :
    fieldAt m o len = fieldAt m' o len :=
  bytesAt_congr fun i hi => h (o + i) (Nat.le_add_right o i) (Nat.add_lt_add_left hi o)

theorem fieldAt_putBytes_of_outside (h : o + len ≤ a ∨ a + bs.length ≤ o) :
    fieldAt (putBytes m a bs) o len = fieldAt m o len :=
  fieldAt_congr fun x hx hlt => putBytes_of_outside (by omega)

theorem fieldAt_putBytes_self (m : Nat → UInt8) (a : Nat) (bs : List UInt8) :
    fieldAt (putBytes m a bs) a bs.length = bs := by
  apply ext_getElem
  · exact fieldAt_length _ _ _
  · intro i hi hi'
    simp only [fieldAt, bytesAt, getElem_map, getElem_range]
    exact putBytes_add m a hi'

theorem fieldAt_putBytes (m : Nat → UInt8) (d o : Nat) (bs : List UInt8) (r : Nat) :
    fieldAt (putBytes m (d + o) bs) d (o + (bs.length + r)) =
      fieldAt m d o ++ (bs ++ fieldAt m (d + o + bs.length) r) := by
  rw [fieldAt_add, fieldAt_add, fieldAt_putBytes_self,
    fieldAt_putBytes_of_outside (.inl le_rfl),
    fieldAt_putBytes_of_outside (.inr le_rfl)]

theorem storeCksum_of_outside (h : x < d + o ∨ d + o + 2 ≤ x) :
    storeCksum cfg m d L len o x = m x := by
  unfold storeCksum
  rw [putBytes_of_outside (by rwa [shortBytes_length]), putBytes_of_outside h]

theorem fieldAt_storeCksum (h : a + k ≤ d + o ∨ d + o + 2 ≤ a) :
    fieldAt (storeCksum cfg m d L len o) a k = fieldAt m a k :=
  fieldAt_congr fun x hx hlt => storeCksum_of_outside (by omega)

theorem storeCksum_verifies (cfg : Config) (m : Nat → UInt8) (d : Nat) (ho : 2 * k + 2 ≤ len)
    (hle : len ≤ L) (hL : L < 2 ^ 31) (hshort : len ≤ 65535) :
    Verifies (fieldAt (storeCksum cfg m d L len (2 * k)) d len) := by
  obtain ⟨r, hr⟩ : ∃ r, len = 2 * k + (2 + r) := ⟨len - 2 * k - 2, by omega⟩
  let z := putBytes m (d + 2 * k) [0, 0]
  have hz : fieldAt z d len =
      fieldAt m d (2 * k) ++ (wordBytes 0 ++ fieldAt m (d + 2 * k + 2) r) := by
    rw [hr]
    exact fieldAt_putBytes m d (2 * k) [0, 0] r
  have hstore : storeCksum cfg m d L len (2 * k) =
      putBytes z (d + 2 * k) (wordBytes (checksum (fieldAt z d len))) :=
    congrArg (putBytes z (d + 2 * k)) (cksumOf_checksum cfg z d hle hL hshort).1
  have hall : fieldAt (storeCksum cfg m d L len (2 * k)) d len = fieldAt z d (2 * k) ++
      (wordBytes (checksum (fieldAt z d len)) ++ fieldAt z (d + 2 * k + 2) r) := by
    rw [hstore]
    generalize checksum (fieldAt z d len) = v
    rw [hr]
    exact fieldAt_putBytes z d (2 * k) (wordBytes v) r
  have hbefore : fieldAt z d (2 * k) = fieldAt m d (2 * k) :=
    fieldAt_putBytes_of_outside (.inl le_rfl)
  have hbehind : fieldAt z (d + 2 * k + 2) r = fieldAt m (d + 2 * k + 2) r :=
    fieldAt_putBytes_of_outside (.inr le_rfl)
  rw [hall, hz, hbefore, hbehind]
  exact verifies_checksum (fieldAt_length m d (2 * k)) _

theorem turned_of_outside (h₁ : x < b + 12 ∨ b + 20 ≤ x) (h₂ : x ≠ b + h) :
    turned m b h x = m x := by
  have hother : x < b + h ∨ b + h + 1 ≤ x := lt_or_gt_of_ne h₂
  rw [turned, putBytes_of_outside hother, putBytes_of_outside (by rw [fieldAt_length]; omega),
    putBytes_of_outside (by rw [fieldAt_length]; omega)]

theorem turned_src (m : Nat → UInt8) (b : Nat) (hh : 20 ≤ h) :
    fieldAt (turned m b h) (b + 12) 4 = fieldAt m (b + 16) 4 := by
  rw [turned, fieldAt_putBytes_of_outside (.inl (by omega))]
  exact fieldAt_putBytes_self _ (b + 12) (fieldAt m (b + 16) 4)

theorem turned_dst (m : Nat → UInt8) (b : Nat) (hh : 20 ≤ h) :
    fieldAt (turned m b h) (b + 16) 4 = fieldAt m (b + 12) 4 := by
  have hbehind : b + 12 + (fieldAt m (b + 16) 4).length ≤ b + 16 := le_rfl
  rw [turned, fieldAt_putBytes_of_outside (.inl (by omega)),
    fieldAt_putBytes_of_outside (.inr hbehind)]
  exact fieldAt_putBytes_self _ (b + 16) (fieldAt m (b + 12) 4)

theorem turned_type (m : Nat → UInt8) (b h : Nat) : turned m b h (b + h) = icmpEchoreply := by
  have hfirst : 0 < [icmpEchoreply].length := one_pos
  exact putBytes_add _ (b + h) hfirst

theorem linkHeader_of_length (h : phdr.length = 14) : linkHeader phdr = phdr := by
  unfold linkHeader
  exact take_left' h

theorem etherSend_reading (cfg : Config) (m : Nat → UInt8) (lltable : List Llentry) (t : List Nat)
    (kept : Bool) (hL : L + 14 < 2 ^ 32) (phdr : List UInt8) :
    ∃ s, etherSend cfg .received phdr (reading m lltable t 14 L kept) = .ok (cfg.transmit 0) s ∧
      s.events = [.transmit [⟨true, fieldAt (putBytes m 0 (linkHeader phdr)) 0 (L + 14)⟩]
        (cfg.transmit 0)] := by
  rcases etherSend_cases cfg phdr (reading m lltable t 14 L kept) with ⟨-, h⟩ | ⟨hlt, -⟩ | ⟨hlt, -⟩
  · have hlen : ((reading m lltable t 14 L kept).pushed phdr).mLen = L + 14 :=
      Nat.mod_eq_of_lt hL
    refine ⟨_, h, ?_⟩
    unfold State.piece
    rw [hlen]
    rfl
  · exact (lt_irrefl 14 hlt).elim
  · exact (lt_irrefl 14 hlt).elim

theorem ipOutput_reading (hlow : cfg.lowMemory = some back)
    (hback : back ⟨afInet, fieldAt m 30 4⟩ = ⟨afInet, fieldAt m 30 4⟩)
    (hfind : (lltable.find? fun lle => lle.addr4 = fieldAt m 30 4) = some lle) (t : List Nat)
    (kept : Bool) (hL : L + 14 < 2 ^ 32) :
    ∃ s, ipOutput cfg false (reading m lltable t 14 L kept) = .ok (cfg.transmit 0) s ∧
      s.events = [.transmit [⟨true, fieldAt (putBytes (storeCksum cfg m 14 L (headerLen m 14) 10) 0
        (linkHeader lle.linkdata)) 0 (L + 14)⟩] (cfg.transmit 0)] := by
  obtain ⟨t₁, hprepare, -⟩ := ipPrepare_reading hlow m lltable t kept 14 L
  let s₁ := reading (storeCksum cfg m 14 L (headerLen m 14) 10) lltable t₁ 14 L kept
  have hresolve : etherResolveAddr cfg ⟨afInet, fieldAt m 30 4⟩ s₁ = .ok (.ok lle.linkdata) s₁ :=
    arpresolve_found cfg _ s₁ hfind
  rw [hback] at hprepare
  rw [ipOutput, bind_of_ok hprepare, etherOutput, bind_of_ok hresolve]
  exact etherSend_reading cfg _ lltable t₁ kept hL lle.linkdata

def repliedEvents (bytes : List UInt8) (error : Int) : List Event :=
  .transmit [⟨true, bytes⟩] error :: if error = 0 then [] else [.free]

def answer (cfg : Config) (m : Nat → UInt8) (L h len : Nat) (phdr : List UInt8) : Nat → UInt8 :=
  putBytes (storeCksum cfg (storeCksum cfg (turned m 14 h) (14 + h) (L - h) len 2) 14 L h 10) 0 phdr

theorem echoReply_reading (hlow : cfg.lowMemory = some back)
    (hback : back ⟨afInet, fieldAt m 26 4⟩ = ⟨afInet, fieldAt m 26 4⟩)
    (hfind : (lltable.find? fun lle => lle.addr4 = fieldAt m 26 4) = some lle) (t : List Nat)
    (kept : Bool) (hL : L + 14 < 2 ^ 32) (hh : 20 ≤ headerLen m 14) (hhL : headerLen m 14 ≤ L)
    (len : Nat) :
    ∃ s, echoReply cfg (headerLen m 14) len (reading m lltable t 14 L kept) = .ok () s ∧
      s.events = repliedEvents
        (fieldAt (answer cfg m L (headerLen m 14) len (linkHeader lle.linkdata)) 0 (L + 14))
        (cfg.transmit 0) := by
  obtain ⟨t₁, hturn, -⟩ := echoTurn_reading cfg m lltable t kept 14 (by omega : L < 2 ^ 32)
    (headerLen_lt m 14) len
  have hlen : (L + 2 ^ 32 - headerLen m 14) % 2 ^ 32 = L - headerLen m 14 := by omega
  let m₁ := storeCksum cfg (turned m 14 (headerLen m 14)) (14 + headerLen m 14)
    (L - headerLen m 14) len 2
  have hdst : fieldAt m₁ 30 4 = fieldAt m 26 4 :=
    (fieldAt_storeCksum (.inl (by omega))).trans (turned_dst m 14 hh)
  have hhl : headerLen m₁ 14 = headerLen m 14 :=
    headerLen_congr ((storeCksum_of_outside (.inl (by omega))).trans
      (turned_of_outside (.inl (by omega)) (by omega)))
  rw [hlen] at hturn
  rw [← hdst] at hback hfind
  obtain ⟨s, houtput, hevents⟩ := ipOutput_reading hlow hback hfind t₁
    (kept && decide (headerLen m 14 ≤ L)) hL
  rw [hhl] at hevents
  rw [echoReply, bind_of_ok hturn, bind_of_ok houtput, repliedEvents]
  by_cases herror : cfg.transmit 0 = 0
  · rw [if_neg (not_not.2 herror), if_pos herror]
    exact ⟨s, rfl, hevents⟩
  · rw [if_pos herror, if_neg herror]
    exact ⟨s.emit .free, rfl, congrArg (· ++ [Event.free]) hevents⟩

/-- A frame of `n` bytes with an IPv4 packet that carries an ICMP echo request with a valid
checksum; the message has its first four bytes at least. -/
structure EchoRequest (byte : Nat → UInt8) (n : Nat) : Prop where
  type : shortAt byte 12 = ethertypeIp
  ipHl : 5 ≤ (byte 14).toNat % 16
  ipLen : 14 + shortAt byte 16 ≤ n
  ipP : (byte 23).toNat = ipprotoIcmp
  message : headerLen byte 14 + 4 ≤ shortAt byte 16
  icmpType : (byte (14 + headerLen byte 14)).toNat = icmpEcho
  valid : Verifies (fieldAt byte (14 + headerLen byte 14) (shortAt byte 16 - headerLen byte 14))

def ipSrc (byte : Nat → UInt8) : InAddr := fieldAt byte 26 4

def ipDst (byte : Nat → UInt8) : InAddr := fieldAt byte 30 4

/-- The frame is the request of `n` bytes made a reply, behind an Ethernet header. -/
structure Replies (byte : Nat → UInt8) (n : Nat) (header : List UInt8) (frame : Nat → UInt8) :
    Prop where
  etherHeader : fieldAt frame 0 14 = header
  ipSrc : ipSrc frame = ipDst byte
  ipDst : ipDst frame = Net.ipSrc byte
  icmpType : frame (14 + headerLen byte 14) = icmpEchoreply
  ipSum : Verifies (fieldAt frame 14 (headerLen byte 14))
  icmpSum : Verifies
    (fieldAt frame (14 + headerLen byte 14) (shortAt byte 16 - headerLen byte 14))
  /-- Between the Ethernet header and the end only the two checksums, the addresses and the type
  may differ. -/
  rest : ∀ o, 14 ≤ o → o < n → ¬(24 ≤ o ∧ o < 34) → o ≠ 14 + headerLen byte 14 →
    ¬(16 + headerLen byte 14 ≤ o ∧ o < 18 + headerLen byte 14) → frame o = byte o

theorem shortAt_le (byte : Nat → UInt8) (o : Nat) : shortAt byte o ≤ 65535 := word_le _ _

namespace EchoRequest

theorem headerLen_ge (h : EchoRequest byte n) : 20 ≤ headerLen byte 14 := by
  have hhl := h.ipHl
  unfold headerLen
  omega

theorem answer_replies (h : EchoRequest byte n) (cfg : Config) (hn : n < 2 ^ 31)
    (hheader : header.length = 14) :
    Replies byte n header (answer cfg byte (n - 14) (headerLen byte 14)
      (shortAt byte 16 - headerLen byte 14) header) := by
  have hge := h.headerLen_ge
  have hlen := h.ipLen
  have hmessage := h.message
  have hshort := shortAt_le byte 16
  let S := storeCksum cfg (turned byte 14 (headerLen byte 14)) (14 + headerLen byte 14)
    (n - 14 - headerLen byte 14) (shortAt byte 16 - headerLen byte 14 : Nat) 2
  let I := storeCksum cfg S 14 (n - 14) (headerLen byte 14) 10
  have hbyte : ∀ {o}, 14 ≤ o → putBytes I 0 header o = I o := fun ho =>
    putBytes_of_outside (.inr (by omega))
  have hfield : ∀ {o len}, 14 ≤ o → fieldAt (putBytes I 0 header) o len = fieldAt I o len :=
    fun ho => fieldAt_putBytes_of_outside (.inr (by omega))
  have haddr : ∀ {o}, 26 ≤ o → o + 4 ≤ 34 → fieldAt (putBytes I 0 header) o 4 =
      fieldAt (turned byte 14 (headerLen byte 14)) o 4 := by
    intro o ho ho'
    rw [hfield (by omega), fieldAt_storeCksum (.inr (by omega)),
      fieldAt_storeCksum (.inl (by omega))]
  constructor
  · have hself := fieldAt_putBytes_self I 0 header
    rwa [hheader] at hself
  · exact (haddr (by omega) (by omega)).trans (turned_src byte 14 hge)
  · exact (haddr (by omega) (by omega)).trans (turned_dst byte 14 hge)
  · exact (hbyte (by omega)).trans ((storeCksum_of_outside (.inr (by omega))).trans
      ((storeCksum_of_outside (.inl (by omega))).trans (turned_type byte 14 _)))
  · have hverifies : Verifies (fieldAt I 14 (headerLen byte 14)) :=
      storeCksum_verifies (k := 5) cfg S 14 (by omega) (by omega) (by omega) (by omega)
    exact hfield (le_refl 14) ▸ hverifies
  · have hverifies : Verifies (fieldAt S (14 + headerLen byte 14)
        (shortAt byte 16 - headerLen byte 14)) :=
      storeCksum_verifies (k := 1) cfg _ _ (by omega) (by omega) (by omega) (by omega)
    have hsame : fieldAt (putBytes I 0 header) (14 + headerLen byte 14)
        (shortAt byte 16 - headerLen byte 14) =
        fieldAt S (14 + headerLen byte 14) (shortAt byte 16 - headerLen byte 14) := by
      rw [hfield (by omega), fieldAt_storeCksum (.inr (by omega))]
    exact hsame ▸ hverifies
  · intro o ho hon hsum htype hicmp
    exact (hbyte ho).trans ((storeCksum_of_outside (by omega)).trans
      ((storeCksum_of_outside (by omega)).trans (turned_of_outside (by omega) htype)))

theorem etherInput_eq (h : EchoRequest byte n) (cfg : Config) (hn : n < 2 ^ 31)
    (lltable : List Llentry) :
    ∃ t kept, etherInput cfg (received byte n lltable) =
      echoReply cfg (headerLen byte 14) (shortAt byte 16 - headerLen byte 14 : Nat)
        (reading byte lltable t 14 (n - 14) kept) := by
  have hge := h.headerLen_ge
  have hlen := h.ipLen
  have hmessage := h.message
  have hshort := shortAt_le byte 16
  have hat : packetAt n = 14 := if_pos (by unfold etherHdrLen; omega)
  have hicmp : icmpLen byte 14 = (shortAt byte 16 - headerLen byte 14 : Nat) :=
    (Int.ofNat_sub (Nat.le_of_add_right_le hmessage)).symm
  have hL : (n - 14 + 2 ^ 32 - headerLen byte 14) % 2 ^ 32 = n - 14 - headerLen byte 14 := by omega
  have hsum : cksumOf cfg byte (14 + headerLen byte 14) (n - 14 - headerLen byte 14)
      (shortAt byte 16 - headerLen byte 14 : Nat) = 0 :=
    (cksumOf_checksum cfg byte _ (by omega) (by omega) (by omega)).2.2 h.valid
  have hip : etherInput cfg (received byte n lltable) =
      ipInput cfg (reading byte lltable [13, 12] 0 n true) := by
    rw [etherInput_received, h.type]
    rfl
  obtain ⟨t, -, hinput⟩ := icmpInput_reading cfg byte lltable [23, 14, 13, 12] true 14
    (by omega : n - 14 < 2 ^ 32)
  rw [hL, hicmp, hsum, if_neg (not_not.2 rfl), if_pos h.icmpType] at hinput
  rw [hip, ipInput_reading cfg (by omega), hat, if_pos h.ipP]
  exact ⟨_, _, hinput⟩

end EchoRequest

def pingByte (o : Nat) : UInt8 :=
  ([2, 0, 0, 0, 0, 1, 2, 0, 0, 0, 0, 2, 8, 0, 0x45, 0, 0, 28, 0, 0, 0, 0, 64, 1, 0, 0, 10, 0, 0, 2,
    10, 0, 0, 1, 8, 0, 0xf7, 0xff, 0, 0, 0, 0] : List UInt8).getD o 0

def homeTable : List Llentry :=
  [⟨[10, 0, 0, 2], etherHeader [2, 0, 0, 0, 0, 2] homeInterface.hwAddr ethertypeIp⟩]

theorem pingByte_request : EchoRequest pingByte 42 :=
  ⟨rfl, by decide, by decide, rfl, by decide, rfl, by decide⟩

theorem homeTable_whole : Table homeInterface homeTable :=
  ⟨nodup_singleton _, forall_mem_singleton.2 ⟨[2, 0, 0, 0, 0, 2], rfl, rfl⟩⟩

end Mdepx.Net
