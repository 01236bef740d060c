import Mdepx.Net.Release

namespace Mdepx.Net
open Mdepx.Lib List State

/-- Only the first `n` bytes have been accessed, and `m_len` has always been a length. -/
def State.Safe (n : Nat) (s : State) : Prop := s.buf.Within n ∧ s.lenKept = true

instance (n : Nat) (s : State) : Decidable (s.Safe n) := by
  unfold Safe Buffer.Within
  infer_instance

theorem State.Sends.safe_iff (h : Sends s s') : s'.Safe n ↔ s.Safe n := by
  rw [h.same]
  exact Iff.rfl

theorem bind_safe_iff {x : NetM α} {f : α → NetM β}
    (hf : ∀ a s, (final (f a s)).Safe n ↔ s.Safe n) :
    (final ((x >>= f) s)).Safe n ↔ (final (x s)).Safe n := by
  cases hr : x s with
  | ok a s' =>
    rw [bind_of_ok hr]
    exact hf a s'
  | error =>
    rw [bind_of_error hr]
    exact Iff.rfl

theorem linkHeader_length (phdr : List UInt8) : (linkHeader phdr).length = 14 := by
  simp [linkHeader, etherHdrLen]

section
variable (cfg : Config)

section
variable {s : State} (hb : s.mData ≤ n) (hl : etherHdrLen ≤ s.mData → s.mLen + 14 < 2 ^ 32)
include hb hl

theorem etherSend_safe_iff (phdr : List UInt8) :
    (final (etherSend cfg .received phdr s)).Safe n ↔ s.Safe n := by
  rcases etherSend_cases cfg phdr s with ⟨hroom, h⟩ | ⟨-, -, h⟩ | ⟨-, -, h⟩
  · have hput : (s.buf.put (s.mData - 14) (linkHeader phdr)).Within n ↔ s.buf.Within n := by
      rw [Buffer.within_put, linkHeader_length]
      unfold etherHdrLen at hroom
      exact and_iff_right (by omega)
    have hlen : (s.lenKept && decide (s.mLen + 14 < 2 ^ 32)) = s.lenKept := by
      rw [decide_eq_true (hl hroom), Bool.and_true]
    have hpushed : (s.pushed phdr).Safe n ↔ (s.buf.put (s.mData - 14) (linkHeader phdr)).Within n ∧
      (s.lenKept && decide (s.mLen + 14 < 2 ^ 32)) = true := Iff.rfl
    rw [hput, hlen] at hpushed
    rw [h]
    exact hpushed
  · rw [h]
    exact Iff.rfl
  · rw [h]
    exact Iff.rfl

theorem etherOutput_safe_iff (gw : SockaddrIn) :
    (final (etherOutput cfg .received gw none s)).Safe n ↔ s.Safe n := by
  apply (Ensures.final_iff (P := fun s' : State => s'.Safe n ↔ s.Safe n)).1
  apply Ensures.bind ((etherResolveAddr_sends cfg gw s).mono (fun _ _ h => h.1)
    fun _ _ h => h.1.safe_iff)
  intro r s' h
  cases r with
  | error => exact .of_ok rfl h.safe_iff
  | ok phdr =>
    have hd : s'.mData = s.mData := by rw [h.same]
    have hm : s'.mLen = s.mLen := by rw [h.same]
    rw [← hd, ← hm] at hl
    exact Ensures.final_iff.2 ((etherSend_safe_iff cfg (hd.trans_le hb) hl phdr).trans h.safe_iff)

end

theorem toInt_le (v : Nat) : toInt v ≤ v := by
  unfold toInt
  rw [Int.bmod_def]
  split <;> omega

section
variable {b n : Nat} (hb : b ≤ n) (hn : n < 2 ^ 32) (lltable : List Llentry) (t : List Nat)
  (kept : Bool)
include hb hn

theorem ipOutput_safe (m : Nat → UInt8) :
    let s := reading m lltable t b (n - b) kept
    ((final (ipOutput cfg false s)).Safe n → s.Safe n) ∧
      (b + 20 ≤ n → s.Safe n → (final (ipOutput cfg false s)).Safe n) := by
  intro s
  cases hlow : cfg.lowMemory with
  | none =>
    rw [ipOutput_stops hlow]
    exact ⟨id, fun _ => id⟩
  | some back =>
    obtain ⟨t₁, hprepare, hin⟩ := ipPrepare_reading hlow m lltable t kept b (n - b)
    have hle := toInt_le (n - b)
    rw [ipOutput, bind_of_ok hprepare, etherOutput_safe_iff cfg hb]
    · refine ⟨fun h => ⟨((hin n).1 h.1).2, h.2⟩, fun h20 h => ⟨(hin n).2 ⟨⟨?_, h20⟩, h.1⟩, h.2⟩⟩
      omega
    · intro hroom
      have hroom' : 14 ≤ b := hroom
      show n - b + 14 < 2 ^ 32
      omega

theorem message_inside (hh : b + h ≤ n) (len : Int) :
    (min len (toInt ((n - b + 2 ^ 32 - h) % 2 ^ 32))).toNat = 0 ∨
      b + h + (min len (toInt ((n - b + 2 ^ 32 - h) % 2 ^ 32))).toNat ≤ n := by
  have hl : (n - b + 2 ^ 32 - h) % 2 ^ 32 = n - b - h := by omega
  rw [hl]
  have hle := toInt_le (n - b - h)
  omega

theorem icmpAnswer_safe_iff (byte : Nat → UInt8) (hh : h < 2 ^ 32) (len : Int) (c : Prop)
    [Decidable c] :
    let s := reading byte lltable t b (n - b) kept
    (final ((if c then echoReply cfg h len else mFree) s)).Safe n ↔
      s.Safe n ∧ (c → b + h + 4 ≤ n ∧ b + 20 ≤ n) := by
  intro s
  by_cases hc : c
  · obtain ⟨t₁, hturn, hin⟩ :=
      echoTurn_reading cfg byte lltable t kept b (by omega : n - b < 2 ^ 32) hh len
    have hout := ipOutput_safe cfg hb hn lltable t₁ (kept && decide (h ≤ n - b))
      (storeCksum cfg (turned byte b h) (b + h) ((n - b + 2 ^ 32 - h) % 2 ^ 32) len 2)
    have hfree : ∀ (error : Int) s, (final ((if error ≠ 0 then mFree else pure ()) s)).Safe n ↔
        s.Safe n := by
      intro error s
      split <;> exact Iff.rfl
    rw [if_pos hc, forall_prop_of_true hc, echoReply, bind_of_ok hturn, bind_safe_iff hfree]
    constructor
    · intro h
      obtain ⟨hw, hk⟩ := hout.1 h
      obtain ⟨⟨-, h20, h4⟩, ht⟩ := (hin n).1 hw
      exact ⟨⟨ht, (Bool.and_eq_true_iff.1 hk).1⟩, h4, h20⟩
    · rintro ⟨⟨ht, hk⟩, h4, h20⟩
      refine hout.2 h20 ⟨(hin n).2 ⟨⟨message_inside hb hn (by omega) len, h20, h4⟩, ht⟩, ?_⟩
      exact Bool.and_eq_true_iff.2 ⟨hk, decide_eq_true (by omega)⟩
  · rw [if_neg hc, and_iff_left fun h => (hc h).elim]
    exact Iff.rfl

end

theorem packetAt_le (n : Nat) : packetAt n ≤ n := by
  unfold packetAt
  split <;> omega

section
variable (byte : Nat → UInt8) (lltable : List Llentry) (t : List Nat) (hn : n < 2 ^ 32)
include hn

theorem icmpInput_safe_iff :
    let b := packetAt n
    let h := headerLen byte b
    (final (icmpInput cfg h (reading byte lltable t b (n - b) true))).Safe n ↔
      (b + 4 ≤ n ∧ ∀ i ∈ t, i < n) ∧ b + h ≤ n ∧ (IcmpChecks cfg byte n →
        b + h < n ∧ ((byte (b + h)).toNat = icmpEcho → b + h + 4 ≤ n ∧ b + 20 ≤ n)) := by
  intro b h
  have hb : b ≤ n := packetAt_le n
  have hkept : (true && decide (h ≤ n - b)) = true ↔ b + h ≤ n := by
    rw [Bool.true_and, decide_eq_true_iff]
    omega
  obtain ⟨t', hin, heq⟩ := icmpInput_reading cfg byte lltable t true b (by omega : n - b < 2 ^ 32)
  have ht : b + h ≤ n → (Buffer.Within ⟨byte, t'⟩ n ↔ b + 4 ≤ n ∧ ∀ i ∈ t, i < n) :=
    fun hh => (hin n).trans (and_iff_right (message_inside hb hn hh _))
  have hsafe : Buffer.Within ⟨byte, t'⟩ n ∧ (true && decide (h ≤ n - b)) = true ↔
      (b + 4 ≤ n ∧ ∀ i ∈ t, i < n) ∧ b + h ≤ n := by
    rw [hkept]
    exact and_congr_left ht
  rw [heq]
  split
  · rename_i hsum
    have hno : ¬IcmpChecks cfg byte n := hsum
    rw [and_iff_left (b := IcmpChecks cfg byte n → _) fun h => (hno h).elim]
    exact hsafe
  · rename_i hsum
    have hchecks : IcmpChecks cfg byte n := not_not.mp hsum
    have hs : (reading byte lltable ((b + h) :: t') b (n - b) (true && decide (h ≤ n - b))).Safe n ↔
        (b + h < n ∧ Buffer.Within ⟨byte, t'⟩ n) ∧ (true && decide (h ≤ n - b)) = true :=
      and_congr_left fun _ => forall_mem_cons
    refine (icmpAnswer_safe_iff cfg hb hn lltable _ _ byte (headerLen_lt byte b) _ _).trans ?_
    rw [hs, forall_prop_of_true hchecks, and_assoc (a := b + h < n), hsafe]
    tauto

theorem ipInput_safe_iff (ht : ∀ i ∈ t, i < n) :
    let b := packetAt n
    let h := headerLen byte b
    (final (ipInput cfg (reading byte lltable t 0 n true))).Safe n ↔
      b + 10 ≤ n ∧ ((byte (b + 9)).toNat = ipprotoIcmp →
        b + h ≤ n ∧ (IcmpChecks cfg byte n →
          b + h < n ∧ ((byte (b + h)).toNat = icmpEcho → b + h + 4 ≤ n ∧ b + 20 ≤ n))) := by
  intro b h
  have hin : (∀ i ∈ (b + 9) :: b :: t, i < n) ↔ b + 10 ≤ n := by
    simp only [forall_mem_cons, and_iff_left ht]
    omega
  rw [ipInput_reading cfg hn]
  by_cases hp : (byte (b + 9)).toNat = ipprotoIcmp
  · rw [if_pos hp, forall_prop_of_true hp]
    refine (icmpInput_safe_iff cfg byte lltable _ hn).trans ?_
    rw [hin]
    exact and_congr_left fun _ => by omega
  · rw [if_neg hp, and_iff_left (a := b + 10 ≤ n) fun h => (hp h).elim, ← hin]
    exact and_iff_left rfl

theorem ip6Input_safe_iff (ht : ∀ i ∈ t, i < n) :
    (final (ip6Input (reading byte lltable t 0 n true))).Safe n ↔ packetAt n + 7 ≤ n := by
  rw [ip6Input_reading hn]
  exact (and_iff_left rfl).trans (forall_mem_cons.trans (and_iff_left ht))

theorem arpInput_safe_iff (ht : ∀ i ∈ t, i < n) :
    (final (arpInput cfg (reading byte lltable t 0 n true))).Safe n ↔
      packetAt n + 8 ≤ n ∧ (ArpHeard byte (packetAt n) → packetAt n + 28 ≤ n) := by
  obtain ⟨tbl, t', hin, h⟩ := arpInput_sends cfg byte lltable t true hn
  have hfinal := Ensures.final_iff.1
    (h.mono (fun _ _ h => h.safe_iff (n := n)) fun _ _ h => h.1.safe_iff)
  exact hfinal.trans ((and_iff_left rfl).trans ((hin n).trans (and_iff_left ht)))

end

end

def Harmless (cfg : Config) (byte : Nat → UInt8) (n : Nat) : Prop :=
  let b := packetAt n
  let h := headerLen byte b
  if shortAt byte 12 = ethertypeArp then
    b + 8 ≤ n ∧ (ArpHeard byte b → b + 28 ≤ n)
  else if shortAt byte 12 = ethertypeIp then
    b + 10 ≤ n ∧ ((byte (b + 9)).toNat = ipprotoIcmp →
      b + h ≤ n ∧ (IcmpChecks cfg byte n →
        b + h < n ∧ ((byte (b + h)).toNat = icmpEcho → b + h + 4 ≤ n ∧ b + 20 ≤ n)))
  else if shortAt byte 12 = ethertypeIpv6 then
    b + 7 ≤ n
  else
    True

/-- A frame is processed inside its bytes exactly if it is one of those. -/
theorem frame_safe_iff (cfg : Config) (byte : Nat → UInt8) (lltable : List Llentry)
    (h14 : 14 ≤ n) (hn : n < 2 ^ 32) :
    (final (etherInput cfg (received byte n lltable))).Safe n ↔ Harmless cfg byte n := by
  have ht : Buffer.Within ⟨byte, [13, 12]⟩ n :=
    forall_mem_cons.mpr ⟨by omega, forall_mem_singleton.mpr (by omega)⟩
  rw [etherInput_received, Harmless]
  by_cases harp : shortAt byte 12 = ethertypeArp
  · rw [if_pos harp, if_pos harp, ← arpInput_safe_iff cfg byte lltable _ hn ht]
    exact bind_safe_iff fun _ _ => Iff.rfl
  · rw [if_neg harp, if_neg harp]
    by_cases hip : shortAt byte 12 = ethertypeIp
    · rw [if_pos hip, if_pos hip]
      exact ipInput_safe_iff cfg byte lltable _ hn ht
    · rw [if_neg hip, if_neg hip]
      by_cases hip6 : shortAt byte 12 = ethertypeIpv6
      · rw [if_pos hip6, if_pos hip6]
        exact ip6Input_safe_iff byte lltable _ hn ht
      · rw [if_neg hip6, if_neg hip6]
        exact iff_of_true ⟨ht, rfl⟩ trivial

theorem frame_safe_echo : (final (etherInput ramConfig (received echoByte 42 []))).Safe 42 := by
  apply (frame_safe_iff ramConfig echoByte [] (by decide) (by decide)).mpr
  rw [Harmless, if_neg (by decide), if_pos (by decide)]
  exact ⟨by decide, fun _ => ⟨by decide, fun _ => ⟨by decide, fun _ => by decide⟩⟩⟩

/-- A frame that ends in the IP header is read behind its end, and one that gives its header a
length beyond its end makes `m_len` wrap. -/
theorem frame_overrun :
    ¬ (final (etherInput ramConfig (received echoByte 20 []))).Safe 20 ∧
      (final (etherInput ramConfig (received (Function.update echoByte 14 0x4f) 42 []))).lenKept =
        false := by
  decide +kernel

end Mdepx.Net
