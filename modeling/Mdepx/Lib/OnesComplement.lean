import Mathlib.Data.Nat.ModEq

namespace Mdepx.Lib
open List

/-! Sums of 16-bit words in one's complement arithmetic, and their checksum. -/

def onesAdd (a b : Nat) : Nat := if a + b ≤ 65535 then a + b else a + b - 65535

def word (b₀ b₁ : UInt8) : Nat := 256 * b₀.toNat + b₁.toNat

def wordBytes (v : Nat) : List UInt8 := [UInt8.ofNat (v / 256), UInt8.ofNat v]

/-- The one's complement sum of the words in a list of bytes; a single last byte is the high one of
its word. -/
def onesSum : List UInt8 → Nat
  | b₀ :: b₁ :: bs => onesAdd (word b₀ b₁) (onesSum bs)
  | [b] => word b 0
  | [] => 0

def checksum (bs : List UInt8) : Nat := 65535 - onesSum bs

/-- The check of bytes that contain their checksum: the sum has all its bits set. -/
def Verifies (bs : List UInt8) : Prop := onesSum bs = 65535

instance (bs : List UInt8) : Decidable (Verifies bs) := inferInstanceAs (Decidable (_ = _))

/-- Two numbers fold to the same word. Zero is kept apart from the multiples of 65535, which fold to
the word with all bits set. -/
structure OnesEq (a b : Nat) : Prop where
  mod : a % 65535 = b % 65535
  zero : a = 0 ↔ b = 0

namespace OnesEq

theorem refl (a : Nat) : OnesEq a a := ⟨rfl, Iff.rfl⟩

theorem symm (h : OnesEq a b) : OnesEq b a := ⟨h.mod.symm, h.zero.symm⟩

theorem trans (h : OnesEq a b) (h' : OnesEq b c) : OnesEq a c :=
  ⟨h.mod.trans h'.mod, h.zero.trans h'.zero⟩

theorem add (h : OnesEq a b) (h' : OnesEq c d) : OnesEq (a + c) (b + d) := by
  refine ⟨Nat.ModEq.add h.mod h'.mod, ?_⟩
  rw [Nat.add_eq_zero_iff, Nat.add_eq_zero_iff, h.zero, h'.zero]

theorem mul_left (k : Nat) (h : OnesEq a b) : OnesEq (k * a) (k * b) := by
  refine ⟨Nat.ModEq.mul_left k h.mod, ?_⟩
  rw [Nat.mul_eq_zero, Nat.mul_eq_zero, h.zero]

theorem shift (a : Nat) : OnesEq (65536 * a) a := ⟨by omega, by omega⟩

theorem shift_add (a b : Nat) : OnesEq (65536 * a + b) (a + b) := (shift a).add (refl b)

theorem eq (h : OnesEq a b) (ha : a ≤ 65535) (hb : b ≤ 65535) : a = b := by
  have hmod := h.mod
  have hzero := h.zero
  omega

end OnesEq

theorem onesAdd_onesEq (a b : Nat) : OnesEq (onesAdd a b) (a + b) := by
  unfold onesAdd
  split
  · exact .refl _
  · exact ⟨by omega, by omega⟩

theorem onesAdd_le (ha : a ≤ 65535) (hb : b ≤ 65535) : onesAdd a b ≤ 65535 := by
  unfold onesAdd
  split <;> omega

theorem word_le (b₀ b₁ : UInt8) : word b₀ b₁ ≤ 65535 := by
  have h₀ := b₀.toNat_lt
  have h₁ := b₁.toNat_lt
  unfold word
  omega

theorem onesSum_le : (bs : List UInt8) → onesSum bs ≤ 65535
  | b₀ :: b₁ :: bs => onesAdd_le (word_le b₀ b₁) (onesSum_le bs)
  | [b] => word_le b 0
  | [] => Nat.zero_le _

def wordSum : List UInt8 → Nat
  | b₀ :: b₁ :: bs => word b₀ b₁ + wordSum bs
  | [b] => word b 0
  | [] => 0

theorem onesSum_onesEq : (bs : List UInt8) → OnesEq (onesSum bs) (wordSum bs)
  | _ :: _ :: bs => (onesAdd_onesEq _ _).trans ((OnesEq.refl _).add (onesSum_onesEq bs))
  | [_] => .refl _
  | [] => .refl _

theorem wordSum_append (h : bs.length = 2 * k) (cs : List UInt8) :
    wordSum (bs ++ cs) = wordSum bs + wordSum cs := by
  induction k generalizing bs with
  | zero => rw [eq_nil_of_length_eq_zero h, nil_append, wordSum, zero_add]
  | succ k ih =>
    match bs, h with
    | b₀ :: b₁ :: bs, h =>
      have hlen : bs.length = 2 * k := by
        simp only [length_cons] at h
        omega
      rw [cons_append, cons_append, wordSum, wordSum, ih hlen, add_assoc]

theorem wordSum_wordBytes (hv : v ≤ 65535) (bs : List UInt8) :
    wordSum (wordBytes v ++ bs) = v + wordSum bs := by
  have hword : word (UInt8.ofNat (v / 256)) (UInt8.ofNat v) = v := by
    simp only [word, UInt8.toNat_ofNat']
    omega
  rw [wordBytes, cons_append, cons_append, nil_append, wordSum, hword]

theorem verifies_checksum (h : pre.length = 2 * k) (post : List UInt8) :
    Verifies (pre ++ (wordBytes (checksum (pre ++ (wordBytes 0 ++ post))) ++ post)) := by
  have hle := onesSum_le (pre ++ (wordBytes 0 ++ post))
  have hsum := onesSum_onesEq (pre ++ (wordBytes 0 ++ post))
  have hv : checksum (pre ++ (wordBytes 0 ++ post)) ≤ 65535 := Nat.sub_le _ _
  have hback : checksum (pre ++ (wordBytes 0 ++ post)) + onesSum (pre ++ (wordBytes 0 ++ post)) =
      65535 := Nat.sub_add_cancel hle
  rw [wordSum_append h, wordSum_wordBytes (Nat.zero_le _), Nat.zero_add] at hsum
  have hall : OnesEq
      (onesSum (pre ++ (wordBytes (checksum (pre ++ (wordBytes 0 ++ post))) ++ post))) 65535 := by
    apply (onesSum_onesEq _).trans
    rw [wordSum_append h, wordSum_wordBytes hv, add_left_comm, ← hback]
    exact (OnesEq.refl _).add hsum.symm
  exact hall.eq (onesSum_le _) le_rfl

end Mdepx.Lib
