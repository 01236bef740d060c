import Mathlib.Tactic.Choose
import Mdepx.Net.Input

namespace Mdepx.Net
open Mdepx.Lib

def State.Scanned (s : State) (w k : Nat) (s' : State) : Prop :=
  ∃ t, s' = { s with buf := ⟨s.buf.byte, t⟩ } ∧
    ∀ n, s'.buf.Within n ↔ (k = 0 ∨ w + k ≤ n) ∧ s.buf.Within n

namespace State.Scanned

theorem refl (s : State) (w : Nat) : s.Scanned w 0 s :=
  ⟨s.buf.touched, rfl, fun _ => ⟨fun h => ⟨.inl rfl, h⟩, fun h => h.2⟩⟩

theorem trans (h : State.Scanned s w j s') (h' : s'.Scanned (w + j) k s'') :
    s.Scanned w (j + k) s'' := by
  obtain ⟨t, rfl, ht⟩ := h
  obtain ⟨t', rfl, ht'⟩ := h'
  refine ⟨t', rfl, fun n => ?_⟩
  rw [ht', ht, ← and_assoc]
  have hjk : ((k = 0 ∨ w + j + k ≤ n) ∧ (j = 0 ∨ w + j ≤ n)) ↔ (j + k = 0 ∨ w + (j + k) ≤ n) := by
    omega
  rw [hjk]

end State.Scanned

/--
The program reads the `k` bytes at `w` and changes nothing. What it returns meets `P` and
depends on memory only.
-/
def Scans (x : NetM α) (w k : Nat) (P : α → Prop) : Prop :=
  ∃ v : (Nat → UInt8) → α, (∀ m, P (v m)) ∧
    ∀ s, ∃ s', x s = .ok (v s.buf.byte) s' ∧ s.Scanned w k s'

namespace Scans

variable {x : NetM α} {P : α → Prop} {f : α → NetM β} {Q : β → Prop}

theorem pure (h : P a) (w : Nat) : Scans (Pure.pure a) w 0 P :=
  ⟨fun _ => a, fun _ => h, fun s => ⟨s, rfl, .refl s w⟩⟩

theorem bind (hx : Scans x w j P) (hf : ∀ a, P a → Scans (f a) (w + j) k Q) :
    Scans (x >>= f) w (j + k) Q := by
  obtain ⟨v, hv, hs⟩ := hx
  choose u hu hus using fun m => hf (v m) (hv m)
  refine ⟨fun m => u m m, fun m => hu m m, fun s => ?_⟩
  obtain ⟨s', hr, hscan⟩ := hs s
  obtain ⟨s'', hr', hscan'⟩ := hus s.buf.byte s'
  refine ⟨s'', ?_, hscan.trans hscan'⟩
  rw [bind_of_ok hr, hr']
  obtain ⟨t, rfl, _⟩ := hscan
  rfl

theorem map (hx : Scans x w k P) (g : α → β) (hg : ∀ a, P a → Q (g a)) :
    Scans (x >>= fun a => Pure.pure (g a)) w k Q := by
  have h := hx.bind fun a ha => Scans.pure (hg a ha) (w + k)
  rw [add_zero] at h
  exact h

theorem mono {P' : α → Prop} (h : Scans x w k P) (hP : ∀ a, P a → P' a) : Scans x w k P' := by
  obtain ⟨v, hv, hs⟩ := h
  exact ⟨v, fun m => hP _ (hv m), hs⟩

theorem readByte (o : Nat) : Scans (readByte o) o 1 fun _ => True := by
  refine ⟨fun m => m o, fun _ => trivial, fun s => ⟨_, rfl, o :: s.buf.touched, rfl, fun n => ?_⟩⟩
  have ho : o < n ↔ 1 = 0 ∨ o + 1 ≤ n := by omega
  rw [← ho]
  exact Buffer.within_get

theorem readBytes (o len : Nat) : Scans (readBytes o len) o len fun _ => True := by
  refine ⟨fun m => (List.range len).map fun i => m (o + i), fun _ => trivial, fun s => ?_⟩
  exact ⟨_, rfl, List.range' o len ++ s.buf.touched, rfl, fun n => Buffer.within_read⟩

end Scans

namespace Cksum

section
variable (cfg : Config)

theorem addWords_scans {k : Nat} (hk : 0 < k) (rounds w : Nat) (m : Int) (hr : m ≤ rounds) :
    ∃ j : Nat, (j = 0 ∨ j ≤ m) ∧ m - j < 2 * k ∧
      ∀ a : Cksum, a.w = w → a.mlen = m → Scans (addWords cfg k rounds a) w j fun a' =>
        a'.w = w + j ∧ a'.mlen = m - j - 2 * k := by
  induction rounds generalizing w m with
  | zero =>
    refine ⟨0, .inl rfl, by omega, fun a hw hm => Scans.pure ?_ w⟩
    subst hw hm
    exact ⟨rfl, by dsimp only; omega⟩
  | succ rounds ih =>
    by_cases h : 0 ≤ m - 2 * k
    · obtain ⟨j, hj, hlt, hs⟩ := ih (w + 2 * k) (m - 2 * k) (by omega)
      refine ⟨2 * k + j, by omega, by omega, fun a hw hm => ?_⟩
      subst hw hm
      rw [addWords, if_pos h]
      apply Scans.bind (Scans.readBytes a.w (2 * k))
      intro bs _
      apply Scans.mono (hs { a with
        sum := a.sum + sumShorts cfg bs
        w := a.w + 2 * k
        mlen := a.mlen - 2 * k } rfl rfl)
      intro a' ha'
      omega
    · refine ⟨0, .inl rfl, by omega, fun a hw hm => ?_⟩
      subst hw hm
      rw [addWords, if_neg h]
      apply Scans.pure
      exact ⟨rfl, by dsimp only; omega⟩

theorem addAll_scans {k : Nat} (hk : 0 < k) (w : Nat) (m : Int) :
    ∃ j : Nat, (j = 0 ∨ j ≤ m) ∧ m - j < 2 * k ∧
      ∀ a : Cksum, a.w = w → a.mlen = m → Scans (addAll cfg k a) w j fun a' =>
        a'.w = w + j ∧ a'.mlen = m - j - 2 * k := by
  obtain ⟨j, hj, hlt, hs⟩ := addWords_scans cfg hk m.toNat w m (Int.self_le_toNat m)
  refine ⟨j, hj, hlt, fun a hw hm => ?_⟩
  have ha := hs a hw hm
  subst hm
  exact ha

theorem finish_scans (a : Cksum) : Scans (finish cfg a) a.w a.mlen.toNat fun _ => True := by
  unfold finish
  split
  · rename_i h
    rw [h.1]
    exact Scans.pure trivial a.w
  · obtain ⟨j, hj, hlt, hs⟩ := addAll_scans cfg (k := 1) (by decide) a.w a.mlen
    have hsplit : a.mlen.toNat = j + (if a.mlen - j = 1 then 1 else 0) := by
      split <;> omega
    rw [hsplit]
    apply Scans.bind (hs { a with sum := reduce a.sum } rfl rfl)
    intro a' ha'
    obtain ⟨hw, hm⟩ := ha'
    have hodd : a'.mlen = -1 ↔ a.mlen - j = 1 := by omega
    simp only [hodd]
    rw [← hw]
    by_cases h1 : a.mlen - j = 1
    · simp only [if_pos h1]
      split
      · exact (Scans.readByte a'.w).map _ fun _ _ => trivial
      · exact (Scans.readByte a'.w).map _ fun _ _ => trivial
    · simp only [if_neg h1]
      split
      · exact Scans.pure trivial _
      · exact Scans.pure trivial _

theorem toEven_scans (a : Cksum) :
    ∃ j : Nat, (j = 0 ∨ j ≤ a.mlen) ∧ Scans (toEven cfg a) a.w j fun a' =>
      a'.w = a.w + j ∧ a'.mlen = a.mlen - j := by
  unfold toEven
  split
  · rename_i h
    refine ⟨1, by omega, ?_⟩
    exact (Scans.readByte a.w).map _ fun _ _ => ⟨rfl, rfl⟩
  · exact ⟨0, .inl rfl, Scans.pure ⟨rfl, by omega⟩ a.w⟩

end

theorem clip_mlen (a : Cksum) : a.clip.mlen = min a.len a.mlen := by
  unfold clip
  dsimp only
  split <;> omega

theorem spanWord_first (cfg : Config) (mLen : Nat) {a : Cksum} (ha : a.mlen = 0) :
    spanWord cfg mLen a = Pure.pure { a with mlen := toInt mLen } := by
  rw [spanWord, if_neg]
  omega

theorem mbuf_scans (cfg : Config) (mData : Nat) (hL : mLen ≠ 0) (a : Cksum) (ha : a.mlen = 0) :
    Scans (mbuf cfg mData mLen a) mData (min a.len (toInt mLen)).toNat fun _ => True := by
  have hspan := spanWord_first cfg mLen (a := { a with w := mData }) ha
  generalize toInt mLen = m at hspan ⊢
  let c : Cksum := clip { a with w := mData, mlen := m }
  have hc : c.mlen = min a.len m := clip_mlen _
  obtain ⟨j₀, hj₀, h₀⟩ := toEven_scans cfg c
  obtain ⟨j₁, hj₁, -, h₁⟩ := addAll_scans cfg (k := 16) (by decide) (mData + j₀) (c.mlen - j₀)
  obtain ⟨j₂, hj₂, -, h₂⟩ :=
    addAll_scans cfg (k := 4) (by decide) (mData + j₀ + j₁) (c.mlen - j₀ - j₁)
  have hsum : (min a.len m).toNat =
      j₀ + (j₁ + (j₂ + (c.mlen - j₀ - j₁ - j₂).toNat)) := by
    omega
  rw [hsum, mbuf, if_neg hL, hspan, pure_bind]
  apply Scans.bind h₀
  intro a₀ ⟨hw₀, hm₀⟩
  apply Scans.bind (h₁ a₀ hw₀ hm₀)
  intro a₁ ⟨hw₁, hm₁⟩
  apply Scans.bind (h₂ { a₁ with mlen := a₁.mlen + 32 } hw₁ (by dsimp only; omega))
  intro a₂ ⟨hw₂, hm₂⟩
  have hf := finish_scans cfg { a₂ with mlen := a₂.mlen + 8 }
  have hlast : a₂.mlen + 8 = c.mlen - j₀ - j₁ - j₂ := by omega
  rw [← hlast, ← hw₂]
  exact hf

end Cksum

theorem toInt_zero : toInt 0 = 0 := rfl

theorem inCksumChain_scans (cfg : Config) (mData mLen : Nat) (len : Int) :
    Scans (inCksumChain cfg [(mData, mLen)] len) mData (min len (toInt mLen)).toNat
      fun _ => True := by
  have hchain : Scans (Cksum.chain cfg [(mData, mLen)] ⟨0, len, 0, 0, false, 0⟩) mData
      (min len (toInt mLen)).toNat fun _ => True := by
    rw [Cksum.chain]
    by_cases hlen : len = 0
    · have hz : (min len (toInt mLen)).toNat = 0 := by omega
      rw [if_pos hlen, hz]
      exact Scans.pure trivial mData
    · rw [if_neg hlen]
      by_cases hL : mLen = 0
      · have hz : (min len (toInt mLen)).toNat = 0 := by
          rw [hL, toInt_zero]
          omega
        rw [hz, Cksum.mbuf, if_pos hL]
        exact Scans.pure trivial mData
      · exact (Cksum.mbuf_scans cfg mData hL _ rfl).map id fun _ _ => trivial
  exact hchain.map (Cksum.result cfg) fun _ _ => trivial

end Mdepx.Net
