import Mathlib.Algebra.Order.Ring.Int
import Mathlib.Algebra.Order.Monoid.Unbundled.Pow
import Mathlib.Data.BitVec

namespace Mdepx.Lib
open BitVec

/-! Signed machine numbers as the images of integers. -/

def Fits (w : Nat) (a : Int) : Prop := -2 ^ (w - 1) ≤ a ∧ a < 2 ^ (w - 1)

theorem Fits.mono (h : Fits w a) (hv : w ≤ v) : Fits v a := by
  have hp : (2 : Int) ^ (w - 1) ≤ 2 ^ (v - 1) := by
    apply pow_le_pow_right₀ (by decide)
    exact Nat.sub_le_sub_right hv 1
  obtain ⟨hlo, hhi⟩ := h
  exact ⟨by omega, by omega⟩

theorem Fits.toInt_ofInt (hw : 0 < w) (h : Fits w a) : (BitVec.ofInt w a).toInt = a :=
  toInt_ofInt_eq_self hw h.1 h.2

theorem ofInt_sub (w : Nat) (a b : Int) :
    BitVec.ofInt w (a - b) = BitVec.ofInt w a - BitVec.ofInt w b := by
  rw [Int.sub_eq_add_neg, ofInt_add, ofInt_neg, sub_eq_add_neg]

theorem ofNat_eq_ofInt (w n : Nat) :
    (OfNat.ofNat n : BitVec w) = BitVec.ofInt w (OfNat.ofNat n) :=
  (ofInt_natCast w n).symm

theorem setWidth_eq_ofInt (x : BitVec w) (v : Nat) : x.setWidth v = BitVec.ofInt v x.toNat := by
  rw [ofInt_natCast, ofNat_toNat]

theorem sdiv_ofInt (hw : 0 < w) (ha : Fits w a) (hb : Fits w b) :
    (BitVec.ofInt w a).sdiv (BitVec.ofInt w b) = BitVec.ofInt w (a.tdiv b) := by
  apply eq_of_toInt_eq
  rw [toInt_sdiv, ha.toInt_ofInt hw, hb.toInt_ofInt hw, toInt_ofInt]

theorem fits_word (hw : 32 ≤ w) (hlo : -2147483648 ≤ a) (hhi : a < 2147483648) : Fits w a :=
  Fits.mono ⟨hlo, hhi⟩ hw

theorem sdiv_ofInt_word (hw : 32 ≤ w) (ha : 0 ≤ a) (ha' : a < 2147483648) (hb : 0 ≤ b)
    (hb' : b < 2147483648) :
    (BitVec.ofInt w a).sdiv (BitVec.ofInt w b) = BitVec.ofInt w (a / b) := by
  have h := sdiv_ofInt (lt_of_lt_of_le (by decide) hw)
    (fits_word hw (le_trans (by decide) ha) ha')
    (fits_word hw (le_trans (by decide) hb) hb')
  rw [h, Int.tdiv_eq_ediv_of_nonneg ha]

theorem signExtend_ofInt (hw : 0 < w) (h : Fits w a) :
    (BitVec.ofInt w a).signExtend v = BitVec.ofInt v a := by
  apply eq_of_toInt_eq
  rcases Nat.le_total v w with hv | hv
  · rw [toInt_signExtend_eq_toInt_bmod_of_le _ hv, h.toInt_ofInt hw, toInt_ofInt]
  · rw [toInt_signExtend_of_le hv, h.toInt_ofInt hw,
      (h.mono hv).toInt_ofInt (lt_of_lt_of_le hw hv)]

theorem signExtend_ofInt_word (hw : 32 ≤ w) (hlo : -2147483648 ≤ a) (hhi : a < 2147483648) :
    (BitVec.ofInt w a).signExtend v = BitVec.ofInt v a :=
  signExtend_ofInt (lt_of_lt_of_le (by decide) hw) (fits_word hw hlo hhi)

end Mdepx.Lib
