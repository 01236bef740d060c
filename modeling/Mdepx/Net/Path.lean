import Mdepx.Lib.BigEndian
import Mdepx.Net.Scan

namespace Mdepx.Net
open Mdepx.Lib List

/-! How a frame is dispatched, as long as it is only read. -/

variable {byte : Nat → UInt8} {lltable : List Llentry} {t : List Nat} {kept : Bool}

def reading (byte : Nat → UInt8) (lltable : List Llentry) (t : List Nat) (mData mLen : Nat)
    (kept : Bool) : State :=
  ⟨⟨byte, t⟩, mData, mLen, lltable, 0, [], kept⟩

def shortAt (byte : Nat → UInt8) (o : Nat) : Nat := 256 * (byte o).toNat + (byte (o + 1)).toNat

def fieldAt (byte : Nat → UInt8) (o len : Nat) : List UInt8 := bytesAt (fun i => byte (o + i)) len

@[simp] theorem fieldAt_length (m : Nat → UInt8) (o len : Nat) : (fieldAt m o len).length = len :=
  bytesAt_length _ len

/-- Where the packet in a frame of `n` bytes is taken to begin: nothing is trimmed off a frame
that is all Ethernet header. -/
def packetAt (n : Nat) : Nat := if etherHdrLen < n then etherHdrLen else 0

def headerLen (byte : Nat → UInt8) (b : Nat) : Nat := (byte b).toNat % 16 * 4

def icmpLen (byte : Nat → UInt8) (b : Nat) : Int := shortAt byte (b + 2) - headerLen byte b

theorem readByte_reading (o : Nat) :
    readByte o (reading byte lltable t d L kept) =
      .ok (byte o) (reading byte lltable (o :: t) d L kept) := rfl

theorem readShort_reading (o : Nat) :
    readShort o (reading byte lltable t d L kept) =
      .ok (shortAt byte o) (reading byte lltable ((o + 1) :: o :: t) d L kept) := rfl

theorem mtod_reading :
    mtod (reading byte lltable t d L kept) = .ok d (reading byte lltable t d L kept) := rfl

theorem readBytes_reading (o len : Nat) :
    readBytes o len (reading byte lltable t d L kept) =
      .ok (fieldAt byte o len) (reading byte lltable (range' o len ++ t) d L kept) := rfl

theorem writeBytes_reading (o : Nat) (bs : List UInt8) :
    writeBytes o bs (reading byte lltable t d L kept) =
      .ok () (reading (putBytes byte o bs) lltable (range' o bs.length ++ t) d L kept) := rfl

def cksumOf (cfg : Config) (byte : Nat → UInt8) (mData mLen : Nat) (len : Int) : Nat :=
  match inCksumChain cfg [(mData, mLen)] len (received byte 0 []) with
  | .ok sum _ => sum
  | .error _ _ => 0

def IcmpChecks (cfg : Config) (byte : Nat → UInt8) (n : Nat) : Prop :=
  let b := packetAt n
  let h := headerLen byte b
  cksumOf cfg byte (b + h) ((n - b + 2 ^ 32 - h) % 2 ^ 32) (icmpLen byte b) = 0

theorem inCksum_eq (cfg : Config) (len : Int) (s : State) :
    ∃ s', inCksum cfg len s = .ok (cksumOf cfg s.buf.byte s.mData s.mLen len) s' ∧
      s.Scanned s.mData (min len (toInt s.mLen)).toNat s' := by
  obtain ⟨v, -, hv⟩ := inCksumChain_scans cfg s.mData s.mLen len
  obtain ⟨s', hr, hs⟩ := hv s
  obtain ⟨s₀, hr₀, -⟩ := hv (received s.buf.byte 0 [])
  refine ⟨s', ?_, hs⟩
  rw [inCksum, hr, cksumOf, hr₀]
  rfl

theorem advance_reading :
    (reading byte lltable t b L kept).advance h =
      reading byte lltable t (b + h) ((L + 2 ^ 32 - h) % 2 ^ 32) (kept && decide (h ≤ L)) := rfl

theorem retreat_reading (hL : L < 2 ^ 32) (hh : h < 2 ^ 32) :
    (reading byte lltable t (b + h) ((L + 2 ^ 32 - h) % 2 ^ 32)
        (kept && decide (h ≤ L))).retreat h =
      reading byte lltable t b L (kept && decide (h ≤ L)) := by
  have hr : (reading byte lltable t (b + h) ((L + 2 ^ 32 - h) % 2 ^ 32)
        (kept && decide (h ≤ L))).retreat h =
      reading byte lltable t (b + h - h) (((L + 2 ^ 32 - h) % 2 ^ 32 + h) % 2 ^ 32)
        (kept && decide (h ≤ L) && decide ((L + 2 ^ 32 - h) % 2 ^ 32 + h < 2 ^ 32)) := rfl
  have hl : ((L + 2 ^ 32 - h) % 2 ^ 32 + h) % 2 ^ 32 = L := by omega
  have hk : (kept && decide (h ≤ L) && decide ((L + 2 ^ 32 - h) % 2 ^ 32 + h < 2 ^ 32)) =
      (kept && decide (h ≤ L)) := by
    by_cases hle : h ≤ L
    · rw [decide_eq_true (p := (L + 2 ^ 32 - h) % 2 ^ 32 + h < 2 ^ 32) (by omega), Bool.and_true]
    · rw [decide_eq_false hle, Bool.and_false, Bool.false_and]
  rw [hr, hl, hk, Nat.add_sub_cancel]

theorem mAdj_reading (hn : n < 2 ^ 32) :
    mAdj etherHdrLen (reading byte lltable t 0 n kept) =
      .ok () (reading byte lltable t (packetAt n) (n - packetAt n) kept) := by
  have hm : mAdj etherHdrLen (reading byte lltable t 0 n kept) =
      .ok () (if (14 : Int) < n then (reading byte lltable t 0 n kept).advance 14
        else reading byte lltable t 0 n kept) := rfl
  rw [hm]
  unfold packetAt etherHdrLen
  by_cases h : 14 < n
  · rw [if_pos (by omega), if_pos h]
    have hl : (n + 2 ^ 32 - 14) % 2 ^ 32 = n - 14 := by omega
    have hk : (kept && decide (14 ≤ n)) = kept := by
      rw [decide_eq_true (by omega), Bool.and_true]
    rw [advance_reading, hl, hk]
  · rw [if_neg (by omega), if_neg h]
    rfl

theorem etherInput_received (cfg : Config) (byte : Nat → UInt8) (n : Nat)
    (lltable : List Llentry) :
    etherInput cfg (received byte n lltable) =
      (if shortAt byte 12 = ethertypeArp then do
          arpInput cfg
          mFree
        else if shortAt byte 12 = ethertypeIp then ipInput cfg
        else if shortAt byte 12 = ethertypeIpv6 then ip6Input
        else mFree) (reading byte lltable [13, 12] 0 n true) := rfl

theorem ipInput_reading (cfg : Config) (hn : n < 2 ^ 32) :
    ipInput cfg (reading byte lltable t 0 n kept) =
      (if (byte (packetAt n + 9)).toNat = ipprotoIcmp then
          icmpInput cfg (headerLen byte (packetAt n))
        else mFree)
        (reading byte lltable ((packetAt n + 9) :: packetAt n :: t) (packetAt n) (n - packetAt n)
          kept) := by
  rw [ipInput, bind_of_ok (mAdj_reading hn)]
  rfl

theorem ip6Input_reading (hn : n < 2 ^ 32) :
    ip6Input (reading byte lltable t 0 n kept) =
      .ok () (reading byte lltable ((packetAt n + 6) :: t) (packetAt n) (n - packetAt n) kept) := by
  rw [ip6Input, bind_of_ok (mAdj_reading hn)]
  rfl

def ArpValid (byte : Nat → UInt8) (b : Nat) : Prop :=
  shortAt byte b = arphrdEther ∧ shortAt byte (b + 2) = ethertypeIp ∧ byte (b + 4) = 6 ∧
    byte (b + 5) = 4

def Judges (x : NetM Bool) (byte : Nat → UInt8) (m : Nat) (Q : Prop) : Prop :=
  ∀ lltable t d L kept, ∃ ok l, x (reading byte lltable t d L kept) =
      .ok ok (reading byte lltable (l ++ t) d L kept) ∧ (ok = true ↔ Q) ∧ ∀ i ∈ l, i < m

section Judges

variable {byte : Nat → UInt8} {y : NetM Bool}

theorem Judges.check [DecidableEq α] {r : NetM α} {l : List Nat} (h : Judges y byte m Q)
    (hr : ∀ lltable t d L kept, r (reading byte lltable t d L kept) =
      .ok v (reading byte lltable (l ++ t) d L kept))
    (hl : ∀ i ∈ l, i < m) (e : α) :
    Judges (r >>= fun a => if a ≠ e then pure false else y) byte m (v = e ∧ Q) := by
  intro lltable t d L kept
  rw [bind_of_ok (hr lltable t d L kept)]
  by_cases he : v = e
  · obtain ⟨ok, l', hr', hok, hl'⟩ := h lltable (l ++ t) d L kept
    rw [← append_assoc] at hr'
    rw [if_neg (not_not.mpr he)]
    exact ⟨ok, l' ++ l, hr', hok.trans (and_iff_right he).symm, forall_mem_append.2 ⟨hl', hl⟩⟩
  · rw [if_pos he]
    exact ⟨false, l, rfl, iff_of_false nofun fun h => he h.1, hl⟩

theorem Judges.readByte (h : Judges y byte m Q) (o : Nat) (e : UInt8) (ho : o < m) :
    Judges (Net.readByte o >>= fun v => if v ≠ e then pure false else y) byte m
      (byte o = e ∧ Q) :=
  h.check (l := [o]) (fun _ _ _ _ _ => readByte_reading o) (forall_mem_singleton.mpr ho) e

theorem Judges.readShort (h : Judges y byte m Q) (o e : Nat) (ho : o + 2 ≤ m) :
    Judges (Net.readShort o >>= fun v => if v ≠ e then pure false else y) byte m
      (shortAt byte o = e ∧ Q) := by
  apply h.check (l := [o + 1, o]) (fun _ _ _ _ _ => readShort_reading o) _ e
  intro i hi
  have hi' : i = o + 1 ∨ i = o := mem_pair.mp hi
  omega

theorem Judges.true : Judges (pure Bool.true) byte m True :=
  fun _ _ _ _ _ => ⟨Bool.true, [], rfl, iff_of_true rfl trivial, nofun⟩

theorem arpValid_judges (byte : Nat → UInt8) (b : Nat) :
    Judges (arpValid b) byte (b + 6) (ArpValid byte b) := by
  have h₄ : Judges _ byte (b + 6) _ := Judges.true.readByte (b + 5) 4 (by omega)
  have h₃ := h₄.readByte (b + 4) 6 (by omega)
  have h₂ := h₃.readShort (b + 2) ethertypeIp (by omega)
  have h₁ := h₂.readShort b arphrdEther (by omega)
  rw [and_true] at h₁
  exact h₁

end Judges

theorem arpInput_reading (cfg : Config) (hn : n < 2 ^ 32) :
    arpInput cfg (reading byte lltable t 0 n kept) =
      (arpValid (packetAt n) >>= fun ok =>
        if ok then arpOperate cfg (shortAt byte (packetAt n + 6)) else pure ())
        (reading byte lltable ((packetAt n + 6 + 1) :: (packetAt n + 6) :: t) (packetAt n)
          (n - packetAt n) kept) := by
  rw [arpInput, bind_of_ok (mAdj_reading hn)]
  rfl

section
variable (hln : byte (b + 4) = 6)
include hln

theorem arSpa_reading : arSpa b (reading byte lltable t d L kept) =
    .ok (b + 14) (reading byte lltable ((b + 4) :: t) d L kept) := by
  rw [arSpa, bind_of_ok (readByte_reading (b + 4)), hln]
  rfl

theorem arpLook_reading (hpln : byte (b + 5) = 4) (lltable : List Llentry) (t : List Nat) (L : Nat)
    (kept : Bool) :
    ∃ t', arpLook (reading byte lltable t b L kept) =
        .ok (b, b + 14, fieldAt byte (b + 24) 4) (reading byte lltable t' b L kept) ∧
      ∀ n, (∀ i ∈ t', i < n) ↔ b + 28 ≤ n ∧ ∀ i ∈ t, i < n := by
  have htpa : arTpa b (reading byte lltable ((b + 4) :: t) b L kept) =
      .ok (b + 24) (reading byte lltable ((b + 5) :: (b + 4) :: (b + 4) :: t) b L kept) := by
    rw [arTpa, bind_of_ok (readByte_reading (b + 4)), bind_of_ok (readByte_reading (b + 5)), hln,
      hpln]
    rfl
  rw [arpLook, bind_of_ok mtod_reading, bind_of_ok (arSpa_reading hln), bind_of_ok htpa,
    bind_of_ok (readBytes_reading (b + 14) 4), bind_of_ok (readBytes_reading (b + 24) 4),
    bind_of_ok (readBytes_reading (b + 24) 4)]
  refine ⟨_, rfl, fun n => ?_⟩
  simp only [forall_mem_append, forall_mem_cons, Buffer.forall_mem_range', ← and_assoc]
  exact and_congr_left fun _ => by omega

end

theorem headerLen_lt (byte : Nat → UInt8) (b : Nat) : headerLen byte b < 2 ^ 32 := by
  unfold headerLen
  omega

theorem icmpInput_reading (cfg : Config) (byte : Nat → UInt8) (lltable : List Llentry)
    (t : List Nat) (kept : Bool) (b : Nat) (hL : L < 2 ^ 32) :
    let h := headerLen byte b
    let L' := (L + 2 ^ 32 - h) % 2 ^ 32
    ∃ t', (∀ n, Buffer.Within ⟨byte, t'⟩ n ↔
        ((min (icmpLen byte b) (toInt L')).toNat = 0 ∨
          b + h + (min (icmpLen byte b) (toInt L')).toNat ≤ n) ∧
        b + 4 ≤ n ∧ Buffer.Within ⟨byte, t⟩ n) ∧
      icmpInput cfg h (reading byte lltable t b L kept) =
        if cksumOf cfg byte (b + h) L' (icmpLen byte b) ≠ 0 then
          mFree (reading byte lltable t' (b + h) L' (kept && decide (h ≤ L)))
        else
          (if (byte (b + h)).toNat = icmpEcho then echoReply cfg h (icmpLen byte b) else mFree)
            (reading byte lltable ((b + h) :: t') b L (kept && decide (h ≤ L))) := by
  intro h L'
  let s := reading byte lltable (b :: (b + 2 + 1) :: (b + 2) :: t) (b + h) L'
    (kept && decide (h ≤ L))
  have hpath : icmpInput cfg h (reading byte lltable t b L kept) =
      (inCksum cfg (icmpLen byte b) >>= fun sum =>
        if sum ≠ 0 then mFree
        else do
          modify fun s => s.retreat h
          let type ← readByte (b + h)
          if type.toNat = icmpEcho then echoReply cfg h (icmpLen byte b) else mFree) s := rfl
  obtain ⟨s', hr, t', rfl, hin⟩ := inCksum_eq cfg (icmpLen byte b) s
  refine ⟨t', fun n => ?_, ?_⟩
  · have hs : s.buf.Within n ↔ b + 4 ≤ n ∧ Buffer.Within ⟨byte, t⟩ n := by
      have hw : s.buf.Within n ↔
          (b < n ∧ b + 2 + 1 < n ∧ b + 2 < n) ∧ Buffer.Within ⟨byte, t⟩ n := by
        simp only [Buffer.Within, s, reading, forall_mem_cons, and_assoc]
      have hb : (b < n ∧ b + 2 + 1 < n ∧ b + 2 < n) ↔ b + 4 ≤ n := by omega
      rw [hw, hb]
    rw [← hs]
    exact hin n
  · rw [hpath, bind_of_ok hr]
    have hc : cksumOf cfg s.buf.byte s.mData s.mLen (icmpLen byte b) =
        cksumOf cfg byte (b + h) L' (icmpLen byte b) := rfl
    rw [hc]
    split
    · rfl
    · have hback : (reading byte lltable t' (b + h) L' (kept && decide (h ≤ L))).retreat h =
          reading byte lltable t' b L (kept && decide (h ≤ L)) :=
        retreat_reading hL (headerLen_lt byte b)
      have hm : (modify fun s => s.retreat h : NetM Unit)
          (reading byte lltable t' (b + h) L' (kept && decide (h ≤ L))) =
          .ok () (reading byte lltable t' b L (kept && decide (h ≤ L))) :=
        congrArg (EStateM.Result.ok ()) hback
      exact (bind_of_ok hm).trans rfl

end Mdepx.Net
