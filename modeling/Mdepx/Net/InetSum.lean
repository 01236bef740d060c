import Mdepx.Lib.OnesComplement
import Mdepx.Net.Path

namespace Mdepx.Net
open Mdepx.Lib

/-! `in_cksum` on one mbuf, for any byte order and alignment. -/

/-- What a word on the network is multiplied with when the machine reads it. -/
def byteOrder (cfg : Config) : Nat := if cfg.bigEndian then 1 else 256

section
variable (cfg : Config) (b₀ b₁ : UInt8)

theorem shortOf_onesEq : OnesEq (shortOf cfg b₀ b₁) (byteOrder cfg * word b₀ b₁) := by
  unfold shortOf byteOrder word
  split
  · rw [one_mul]
    exact .refl _
  · have hmul : 256 * (256 * b₀.toNat + b₁.toNat) = 65536 * b₀.toNat + 256 * b₁.toNat := by omega
    rw [hmul]
    exact (OnesEq.shift_add _ _).symm

theorem shortOf_le : shortOf cfg b₀ b₁ ≤ 65535 := by
  have h₀ := b₀.toNat_lt
  have h₁ := b₁.toNat_lt
  unfold shortOf
  split <;> omega

theorem shortOf_eq_add : shortOf cfg b₀ b₁ = shortOf cfg b₀ 0 + shortOf cfg 0 b₁ := by
  unfold shortOf
  split <;> simp

end

theorem shortOf_swap (cfg : Config) (b : UInt8) :
    OnesEq (256 * shortOf cfg b 0) (shortOf cfg 0 b) := by
  unfold shortOf
  split
  · have hmul : 256 * (256 * b.toNat + (0 : UInt8).toNat) = 65536 * b.toNat := by simp; omega
    rw [hmul]
    simpa using OnesEq.shift b.toNat
  · simpa using OnesEq.refl (256 * b.toNat)

def shortSum (cfg : Config) : List UInt8 → Nat
  | b₀ :: b₁ :: bs => shortOf cfg b₀ b₁ + shortSum cfg bs
  | [b] => shortOf cfg b 0
  | [] => 0

theorem shortSum_onesEq (cfg : Config) :
    (bs : List UInt8) → OnesEq (shortSum cfg bs) (byteOrder cfg * wordSum bs)
  | b₀ :: b₁ :: bs => by
    rw [shortSum, wordSum, mul_add]
    exact (shortOf_onesEq cfg b₀ b₁).add (shortSum_onesEq cfg bs)
  | [b] => shortOf_onesEq cfg b 0
  | [] => .refl _

theorem shortSum_append (cfg : Config) (h : bs.length = 2 * k) (cs : List UInt8) :
    shortSum cfg (bs ++ cs) = sumShorts cfg bs + shortSum cfg cs := by
  induction k generalizing bs with
  | zero => rw [List.eq_nil_of_length_eq_zero h, List.nil_append, sumShorts, zero_add]; simp
  | succ k ih =>
    match bs, h with
    | b₀ :: b₁ :: bs, h =>
      have hlen : bs.length = 2 * k := by
        simp only [List.length_cons] at h
        omega
      rw [List.cons_append, List.cons_append, shortSum, sumShorts, ih hlen, add_assoc]

theorem shortSum_le (cfg : Config) :
    (bs : List UInt8) → shortSum cfg bs ≤ 65535 * ((bs.length + 1) / 2)
  | b₀ :: b₁ :: bs => by
    have hword := shortOf_le cfg b₀ b₁
    have hsum := shortSum_le cfg bs
    rw [shortSum, List.length_cons, List.length_cons]
    omega
  | [b] => by simpa only [shortSum, List.length_singleton] using shortOf_le cfg b 0
  | [] => Nat.zero_le _

theorem shortSum_cons (cfg : Config) (b : UInt8) :
    (bs : List UInt8) → OnesEq (shortSum cfg (b :: bs)) (shortOf cfg b 0 + 256 * shortSum cfg bs)
  | [] => .refl _
  | c :: cs => by
    have hrest : OnesEq (256 * shortSum cfg (c :: cs)) (shortOf cfg 0 c + shortSum cfg cs) := by
      apply ((shortSum_cons cfg c cs).mul_left 256).trans
      have hmul : 256 * (shortOf cfg c 0 + 256 * shortSum cfg cs) =
          256 * shortOf cfg c 0 + 65536 * shortSum cfg cs := by omega
      rw [hmul]
      exact (shortOf_swap cfg c).add (OnesEq.shift _)
    rw [shortSum, shortOf_eq_add, add_assoc]
    exact (OnesEq.refl _).add hrest.symm

theorem reduce_eq (h : n < 2 ^ 32) : reduce n = onesAdd (n / 65536) (n % 65536) := by
  have hhigh : n / 2 ^ 16 % 2 ^ 16 = n / 65536 := Nat.mod_eq_of_lt (by omega)
  unfold reduce onesAdd
  rw [hhigh, add_comm]
  dsimp only
  split <;> split <;> omega

theorem reduce_onesEq (h : n < 2 ^ 32) : OnesEq (reduce n) n := by
  rw [reduce_eq h]
  apply (onesAdd_onesEq _ _).trans
  have hshift := (OnesEq.shift_add (n / 65536) (n % 65536)).symm
  rwa [Nat.div_add_mod] at hshift

theorem reduce_le_self (h : n < 2 ^ 32) : reduce n ≤ n := by
  have hsplit := Nat.div_add_mod n 65536
  rw [reduce_eq h]
  unfold onesAdd
  split <;> omega

theorem reduce_le (n : Nat) : reduce n ≤ 65535 := by
  unfold reduce
  dsimp only
  split <;> omega

theorem swapped_onesEq (h : OnesEq (sum + rest) total) (hsum : sum < 2 ^ 32)
    (hrest : OnesEq (256 * rest) last) (first : Nat) :
    OnesEq (reduce sum * 256 + (first + last)) (first + 256 * total) := by
  have hall : OnesEq (256 * total) (256 * reduce sum + last) := by
    apply (h.symm.mul_left 256).trans
    rw [mul_add]
    exact ((reduce_onesEq hsum).symm.mul_left 256).add hrest
  have hcomm : reduce sum * 256 + (first + last) = first + (256 * reduce sum + last) := by
    omega
  rw [hcomm]
  exact (OnesEq.refl first).add hall.symm

def Yields (m : Nat → UInt8) (x : NetM α) (Q : α → Prop) : Prop :=
  ∀ s : State, s.buf.byte = m →
    Ensures x s (fun a s' => s'.buf.byte = m ∧ Q a) fun _ _ => False

namespace Yields

variable {m : Nat → UInt8} {x : NetM α} {P : α → Prop} {f : α → NetM β} {Q : β → Prop}

theorem pure (h : P a) : Yields m (Pure.pure a) P := fun _ hs => .of_ok rfl ⟨hs, h⟩

theorem bind (hx : Yields m x P) (hf : ∀ a, P a → Yields m (f a) Q) : Yields m (x >>= f) Q :=
  fun s hs => (hx s hs).bind fun a s' h => hf a h.2 s' h.1

theorem mono {P' : α → Prop} (hx : Yields m x P) (h : ∀ a, P a → P' a) : Yields m x P' :=
  fun s hs => (hx s hs).mono (fun a _ ha => ⟨ha.1, h a ha.2⟩) fun _ _ => id

theorem readByte (m : Nat → UInt8) (o : Nat) : Yields m (readByte o) (· = m o) :=
  fun _ hs => .of_ok rfl ⟨hs, congrFun hs o⟩

theorem readBytes (m : Nat → UInt8) (o len : Nat) :
    Yields m (readBytes o len) (· = fieldAt m o len) := by
  intro s hs
  subst hs
  exact .of_ok rfl ⟨rfl, rfl⟩

end Yields

theorem fieldAt_add (m : Nat → UInt8) (o i j : Nat) :
    fieldAt m o (i + j) = fieldAt m o i ++ fieldAt m (o + i) j := by
  rw [fieldAt, bytesAt_add]
  simp only [fieldAt, add_assoc]

namespace Cksum

variable {cfg : Config} {m : Nat → UInt8}

structure Owes (cfg : Config) (m : Nat → UInt8) (a : Cksum) (left total : Nat) : Prop where
  sum : OnesEq (a.sum + shortSum cfg (fieldAt m a.w left)) total
  small : a.sum + shortSum cfg (fieldAt m a.w left) < 2 ^ 32

theorem Owes.reduce (h : Owes cfg m a left total) :
    Owes cfg m { a with sum := reduce a.sum } left total := by
  have hsmall := h.small
  have hle : Net.reduce a.sum ≤ a.sum := reduce_le_self (by omega)
  exact ⟨((reduce_onesEq (by omega)).add (.refl _)).trans h.sum, by dsimp only; omega⟩

theorem Owes.addWords (h : Owes cfg m a (2 * k + left) total) (mlen : Int) :
    Owes cfg m { a with
      sum := a.sum + sumShorts cfg (fieldAt m a.w (2 * k))
      w := a.w + 2 * k
      mlen := mlen } left total := by
  have hsum : a.sum + shortSum cfg (fieldAt m a.w (2 * k + left)) =
      a.sum + sumShorts cfg (fieldAt m a.w (2 * k)) +
        shortSum cfg (fieldAt m (a.w + 2 * k) left) := by
    rw [fieldAt_add, shortSum_append cfg (fieldAt_length m a.w (2 * k)), add_assoc]
  exact ⟨hsum ▸ h.sum, hsum ▸ h.small⟩

theorem addWords_yields (hk : 0 < k) (rounds : Nat) (a : Cksum) (left : Nat)
    (hleft : a.mlen = left) (hr : left ≤ rounds) (h : Owes cfg m a left total) :
    Yields m (addWords cfg k rounds a) fun a' => ∃ left' : Nat, left' < 2 * k ∧
      a'.mlen = left' - 2 * k ∧ Owes cfg m a' left' total ∧
      a'.swapped = a.swapped ∧ a'.c₀ = a.c₀ := by
  induction rounds generalizing a left with
  | zero =>
    rw [addWords]
    exact .pure ⟨left, by omega, by rw [hleft], ⟨h.sum, h.small⟩, rfl, rfl⟩
  | succ rounds ih =>
    rw [addWords]
    by_cases hc : 0 ≤ a.mlen - 2 * k
    · obtain ⟨rest, rfl⟩ : ∃ rest, left = 2 * k + rest := ⟨left - 2 * k, by omega⟩
      rw [if_pos hc]
      apply Yields.bind (Yields.readBytes m a.w (2 * k))
      intro bs hbs
      subst hbs
      exact ih _ rest (by dsimp only; omega) (by omega) (h.addWords _)
    · rw [if_neg hc]
      exact .pure ⟨left, by omega, by rw [hleft], ⟨h.sum, h.small⟩, rfl, rfl⟩

theorem addAll_yields (hk : 0 < k) (a : Cksum) (left : Nat) (hleft : a.mlen = left)
    (h : Owes cfg m a left total) :
    Yields m (addAll cfg k a) fun a' => ∃ left' : Nat, left' < 2 * k ∧
      a'.mlen = left' - 2 * k ∧ Owes cfg m a' left' total ∧
      a'.swapped = a.swapped ∧ a'.c₀ = a.c₀ :=
  addWords_yields hk a.mlen.toNat a left hleft (by omega) h

def Ends (cfg : Config) (a : Cksum) (total : Nat) : Prop :=
  ∃ r ≤ 65535, OnesEq r total ∧ a.result cfg = 65535 - r

theorem Ends.of_even (hlast : a.mlen ≠ -1) (h : OnesEq a.sum total) (hsmall : a.sum < 2 ^ 32) :
    Ends cfg a total := by
  refine ⟨_, reduce_le _, (reduce_onesEq hsmall).trans h, ?_⟩
  have hle := reduce_le a.sum
  unfold result
  rw [if_neg hlast]
  dsimp only
  omega

theorem Ends.of_odd (hlast : a.mlen = -1) (h : OnesEq (a.sum + shortOf cfg a.c₀ 0) total)
    (hsmall : a.sum + shortOf cfg a.c₀ 0 < 2 ^ 32) : Ends cfg a total := by
  refine ⟨_, reduce_le _, (reduce_onesEq hsmall).trans h, ?_⟩
  have hle := reduce_le (a.sum + shortOf cfg a.c₀ 0)
  unfold result
  rw [if_pos hlast]
  dsimp only
  omega

def whole (cfg : Config) (a : Cksum) (total : Nat) : Nat :=
  if a.swapped then shortOf cfg a.c₀ 0 + 256 * total else total

theorem finish_yields (a : Cksum) (left : Nat) (hleft : a.mlen = left)
    (h : Owes cfg m a left total) :
    Yields m (finish cfg a) fun a' =>
      Ends cfg a' (whole cfg a total) := by
  rw [finish]
  by_cases hdone : a.mlen = 0 ∧ a.swapped = false
  · obtain rfl : left = 0 := by omega
    rw [if_pos hdone, whole, if_neg (Bool.eq_false_iff.1 hdone.2)]
    exact .pure (.of_even (by omega) h.sum h.small)
  · rw [if_neg hdone]
    apply Yields.bind (addAll_yields one_pos { a with sum := Net.reduce a.sum } left hleft
      h.reduce)
    intro a' ⟨left', hlt, hmlen, howes, hswapped, hc⟩
    dsimp only at hswapped hc
    have hsum := howes.sum
    have hsmall := howes.small
    have hreduce := reduce_le a'.sum
    have hodd : a'.mlen = -1 ↔ left' = 1 := by omega
    rw [whole, hswapped, ← hc]
    simp only [hodd]
    obtain rfl | rfl : left' = 0 ∨ left' = 1 := by omega
    · rw [if_neg zero_ne_one, if_neg zero_ne_one]
      cases a.swapped with
      | false => exact .pure (.of_even (by omega) hsum hsmall)
      | true =>
        have hword := shortOf_le cfg a'.c₀ 0
        have hall := swapped_onesEq hsum hsmall (OnesEq.refl 0) (shortOf cfg a'.c₀ 0)
        exact .pure (.of_odd rfl hall (by dsimp only; omega))
    · rw [if_pos rfl, if_pos rfl]
      cases a.swapped with
      | false =>
        apply Yields.bind (Yields.readByte m a'.w)
        intro c hc
        subst hc
        exact .pure (.of_odd hmlen hsum hsmall)
      | true =>
        apply Yields.bind (Yields.readByte m a'.w)
        intro c hc
        subst hc
        have hword := shortOf_le cfg a'.c₀ (m a'.w)
        have hall := swapped_onesEq hsum (by omega) (shortOf_swap cfg (m a'.w))
          (shortOf cfg a'.c₀ 0)
        rw [← shortOf_eq_add] at hall
        exact .pure (.of_even (by dsimp only; omega) hall (by dsimp only; omega))

theorem Owes.start (hsum : a.sum = 0) (hshort : left ≤ 65535) :
    Owes cfg m a left (shortSum cfg (fieldAt m a.w left)) := by
  have hle := shortSum_le cfg (fieldAt m a.w left)
  rw [fieldAt_length] at hle
  constructor
  · rw [hsum, zero_add]
    exact .refl _
  · omega

theorem toEven_yields (a : Cksum) (len : Nat) (hlen : a.mlen = len) (hsum : a.sum = 0)
    (hswapped : a.swapped = false) (hshort : len ≤ 65535) :
    Yields m (toEven cfg a) fun a' => ∃ left total : Nat, a'.mlen = left ∧
      Owes cfg m a' left total ∧
      OnesEq (whole cfg a' total) (shortSum cfg (fieldAt m a.w len)) := by
  rw [toEven]
  by_cases hodd : (cfg.address + a.w) % 2 = 1 ∧ 0 < a.mlen
  · obtain ⟨left, rfl⟩ : ∃ left, len = 1 + left := ⟨len - 1, by omega⟩
    rw [if_pos hodd]
    apply Yields.bind (Yields.readByte m a.w)
    intro c hc
    subst hc
    have hzero : Net.reduce a.sum * 256 = 0 := by
      rw [hsum]
      rfl
    refine .pure ⟨left, _, by dsimp only; omega, .start hzero (by omega), ?_⟩
    rw [fieldAt_add]
    exact (shortSum_cons cfg (m a.w) _).symm
  · rw [if_neg hodd]
    refine .pure ⟨len, _, hlen, .start hsum hshort, ?_⟩
    rw [whole, if_neg (Bool.eq_false_iff.1 hswapped)]
    exact .refl _

theorem mbuf_yields (a : Cksum) (len : Nat) (hlen : a.len = len) (ha : a.mlen = 0)
    (hsum : a.sum = 0) (hswapped : a.swapped = false) (hL₀ : mLen ≠ 0) (hle : len ≤ mLen)
    (hL : mLen < 2 ^ 31) (hshort : len ≤ 65535) (mData : Nat) :
    Yields m (mbuf cfg mData mLen a) fun a' =>
      Ends cfg a' (shortSum cfg (fieldAt m mData len)) := by
  have hint : toInt mLen = mLen := by
    unfold toInt
    rw [Int.bmod_def]
    omega
  have hclip : (clip { a with w := mData, mlen := toInt mLen }).mlen = len := by
    rw [clip_mlen, hint]
    dsimp only
    omega
  have hspan := spanWord_first cfg mLen (a := { a with w := mData }) ha
  rw [mbuf, if_neg hL₀, hspan, pure_bind]
  apply Yields.bind (toEven_yields (clip { a with w := mData, mlen := toInt mLen }) len hclip hsum
    hswapped hshort)
  rintro a₀ ⟨left₀, total, hmlen₀, howes₀, hwhole⟩
  apply Yields.bind (addAll_yields (by decide) a₀ left₀ hmlen₀ howes₀)
  rintro a₁ ⟨left₁, hlt₁, hmlen₁, howes₁, hsw₁, hc₁⟩
  apply Yields.bind (addAll_yields (by decide) { a₁ with mlen := a₁.mlen + 32 } left₁
    (by dsimp only; omega) ⟨howes₁.sum, howes₁.small⟩)
  rintro a₂ ⟨left₂, hlt₂, hmlen₂, howes₂, hsw₂, hc₂⟩
  apply Yields.mono (finish_yields { a₂ with mlen := a₂.mlen + 8 } left₂ (by dsimp only; omega)
    ⟨howes₂.sum, howes₂.small⟩)
  rintro a' ⟨r, hr, hends, hres⟩
  dsimp only at hsw₂ hc₂ hends
  rw [hsw₂, hc₂, hsw₁, hc₁] at hends
  exact ⟨r, hr, hends.trans hwhole, hres⟩

end Cksum

theorem cksumOf_eq (cfg : Config) (m : Nat → UInt8) (d : Nat) (hle : len ≤ L) (hL : L < 2 ^ 31)
    (hshort : len ≤ 65535) :
    ∃ r ≤ 65535, OnesEq r (shortSum cfg (fieldAt m d len)) ∧ cksumOf cfg m d L len = 65535 - r := by
  have hchain : Yields m (Cksum.chain cfg [(d, L)] ⟨0, len, 0, 0, false, 0⟩) fun a =>
      a.Ends cfg (shortSum cfg (fieldAt m d len)) := by
    rw [Cksum.chain]
    by_cases hlen : (len : Int) = 0
    · obtain rfl : len = 0 := by omega
      rw [if_pos hlen]
      exact .pure (.of_even (by decide) (.refl _) (by decide))
    · rw [if_neg hlen]
      apply Yields.bind (Cksum.mbuf_yields _ len rfl rfl rfl rfl (by omega) hle hL hshort d)
      exact fun a ha => .pure ha
  have hall : Yields m (inCksumChain cfg [(d, L)] len) fun sum => ∃ r ≤ 65535,
      OnesEq r (shortSum cfg (fieldAt m d len)) ∧ sum = 65535 - r :=
    hchain.bind fun a ha => .pure ha
  obtain ⟨sum, s, hrun, -, hsum⟩ := (hall (received m 0 []) rfl).returns fun _ _ => id
  unfold cksumOf
  rw [hrun]
  exact hsum

theorem exists_machineSum (cfg : Config) (hv : v ≤ 65535) :
    ∃ r ≤ 65535, OnesEq r (byteOrder cfg * v) ∧ (r = 65535 ↔ v = 65535) ∧
      shortBytes cfg (65535 - r) = wordBytes (65535 - v) := by
  unfold byteOrder shortBytes
  by_cases hbig : cfg.bigEndian = true
  · rw [if_pos hbig]
    refine ⟨v, hv, ?_, Iff.rfl, ?_⟩
    · rw [one_mul]
      exact .refl v
    · rw [if_pos hbig]
      rfl
  · obtain ⟨p, q, hq, rfl⟩ : ∃ p q, q < 256 ∧ v = 256 * p + q :=
      ⟨v / 256, v % 256, Nat.mod_lt _ (by decide), (Nat.div_add_mod v 256).symm⟩
    rw [if_neg hbig]
    refine ⟨p + 256 * q, by omega, ?_, by omega, ?_⟩
    · have hmul : 256 * (256 * p + q) = 65536 * p + 256 * q := by omega
      rw [hmul]
      exact (OnesEq.shift_add p _).symm
    · have hr : 65535 - (p + 256 * q) = 256 * (255 - q) + (255 - p) := by omega
      have hv : 65535 - (256 * p + q) = 256 * (255 - p) + (255 - q) := by omega
      rw [if_neg hbig, hr, hv, wordBytes, Nat.mul_add_div (by decide), Nat.mul_add_div (by decide),
        Nat.div_eq_of_lt (by omega), Nat.div_eq_of_lt (by omega), add_zero, add_zero]
      simp [UInt8.ofNat_add, UInt8.ofNat_mul]

theorem cksumOf_checksum (cfg : Config) (m : Nat → UInt8) (d : Nat) (hle : len ≤ L)
    (hL : L < 2 ^ 31) (hshort : len ≤ 65535) :
    shortBytes cfg (cksumOf cfg m d L len) = wordBytes (checksum (fieldAt m d len)) ∧
      (cksumOf cfg m d L len = 0 ↔ Verifies (fieldAt m d len)) := by
  obtain ⟨r, hr, hsum, hcksum⟩ := cksumOf_eq cfg m d hle hL hshort
  obtain ⟨r', hr', hsum', hfull, hbytes⟩ := exists_machineSum cfg (onesSum_le (fieldAt m d len))
  have hword : OnesEq r (byteOrder cfg * onesSum (fieldAt m d len)) :=
    (hsum.trans (shortSum_onesEq cfg _)).trans ((onesSum_onesEq _).symm.mul_left _)
  obtain rfl : r = r' := (hword.trans hsum'.symm).eq hr hr'
  rw [hcksum, Verifies, ← hfull]
  exact ⟨hbytes, by omega⟩

end Mdepx.Net
