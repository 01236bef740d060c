import Mathlib.Data.List.Infix
import Mathlib.Data.Nat.Bitwise

namespace Mdepx.Lib

/-! The encoding of the code points below `0x10000` in one, two or three bytes. -/

namespace Utf8

def encode (c : Nat) : List UInt8 :=
  if c < 0x80 then [UInt8.ofNat c]
  else if c < 0x800 then [UInt8.ofNat (0xc0 + c / 64), UInt8.ofNat (0x80 + c % 64)]
  else
    [UInt8.ofNat (0xe0 + c / 4096), UInt8.ofNat (0x80 + c / 64 % 64), UInt8.ofNat (0x80 + c % 64)]

def Tail (b : UInt8) : Prop := 0x80 ≤ b.toNat ∧ b.toNat < 0xc0

instance (b : UInt8) : Decidable (Tail b) := inferInstanceAs (Decidable (_ ∧ _))

theorem toNat_and_mask (b m : UInt8) (k : Nat) (hm : m.toNat = 2 ^ k - 1) :
    (b &&& m).toNat = b.toNat % 2 ^ k := by
  rw [UInt8.toNat_and, hm, Nat.and_two_pow_sub_one_eq_mod]

theorem and_e0_eq (b : UInt8) : b &&& 0xe0 = 0xe0 ↔ 0xe0 ≤ b.toNat := by
  have hall : ∀ n < 256, n &&& 0xe0 = 0xe0 ↔ 0xe0 ≤ n := by decide +kernel
  rw [← UInt8.toNat_inj, UInt8.toNat_and]
  exact hall b.toNat b.toNat_lt

theorem and_c0_eq (b : UInt8) : b &&& 0xc0 = 0xc0 ↔ 0xc0 ≤ b.toNat := by
  have hall : ∀ n < 256, n &&& 0xc0 = 0xc0 ↔ 0xc0 ≤ n := by decide +kernel
  rw [← UInt8.toNat_inj, UInt8.toNat_and]
  exact hall b.toNat b.toNat_lt

theorem shiftLeft_or (a : Nat) (hb : b < 64) : a <<< 6 ||| b = a * 64 + b := by
  rw [← Nat.shiftLeft_add_eq_or_of_lt (b := b) (i := 6) hb, Nat.shiftLeft_eq]

theorem shiftLeft_or_or (a : Nat) (hb : b < 64) (hc : c < 64) :
    a <<< 12 ||| b <<< 6 ||| c = a * 4096 + b * 64 + c := by
  have hhigh : a <<< 12 ||| b <<< 6 = (a * 64 + b) <<< 6 := by
    rw [← shiftLeft_or a hb, Nat.shiftLeft_or_distrib, ← Nat.shiftLeft_add]
  rw [hhigh, shiftLeft_or _ hc]
  omega

end Utf8

end Mdepx.Lib
