import Mathlib.Algebra.GroupWithZero.Nat
import Mathlib.Data.Nat.Init

namespace Mdepx.Lib

abbrev Bytes := Nat → UInt8

namespace Bytes

def load (m : Bytes) (a : Nat) : Nat → Nat
  | 0 => 0
  | n + 1 => (m a).toNat + 256 * load m (a + 1) n

def store (m : Bytes) (a n v : Nat) : Bytes :=
  fun x => if a ≤ x ∧ x < a + n then UInt8.ofNat (v / 256 ^ (x - a)) else m x

def fill (m : Bytes) (a n : Nat) (b : UInt8) : Bytes :=
  fun x => if a ≤ x ∧ x < a + n then b else m x

def copy (m : Bytes) (dst src n : Nat) : Bytes :=
  fun x => if dst ≤ x ∧ x < dst + n then m (src + (x - dst)) else m x

variable {m m' : Bytes}

theorem store_of_outside (h : x < a ∨ a + n ≤ x) : m.store a n v x = m x := by
  apply if_neg
  omega

theorem fill_of_outside (h : x < a ∨ a + n ≤ x) : m.fill a n b x = m x := by
  apply if_neg
  omega

theorem copy_of_outside (h : x < d ∨ d + n ≤ x) : m.copy d s n x = m x := by
  apply if_neg
  omega

theorem copy_of_inside (h : i < n) : m.copy d s n (d + i) = m (s + i) := by
  unfold copy
  rw [if_pos (by omega), Nat.add_sub_cancel_left]

theorem load_congr (h : ∀ x, a ≤ x → x < a + n → m x = m' x) : m.load a n = m'.load a n := by
  induction n generalizing a with
  | zero => rfl
  | succ n ih =>
    have h₀ := h a (Nat.le_refl a) (by omega)
    have h₁ : m.load (a + 1) n = m'.load (a + 1) n := by
      apply ih
      intro x hx hn
      exact h x (by omega) (by omega)
    rw [load, load, h₀, h₁]

theorem load_lt (m : Bytes) (a n : Nat) : m.load a n < 256 ^ n := by
  induction n generalizing a with
  | zero => exact Nat.one_pos
  | succ n ih =>
    have hb := (m a).toNat_lt
    have hr := ih (a + 1)
    rw [load, pow_succ]
    omega

theorem load_store_other (h : b + k ≤ a ∨ a + n ≤ b) : (m.store a n v).load b k = m.load b k := by
  apply load_congr
  intro x hx hk
  exact store_of_outside (by omega)

theorem load_store_self (m : Bytes) (a n v : Nat) : (m.store a n v).load a n = v % 256 ^ n := by
  induction n generalizing m a v with
  | zero => rw [load, pow_zero, Nat.mod_one]
  | succ n ih =>
    have hb : m.store a (n + 1) v a = UInt8.ofNat v := by
      unfold store
      rw [if_pos (by omega), Nat.sub_self, Nat.pow_zero, Nat.div_one]
    have ht : (m.store a (n + 1) v).load (a + 1) n =
        (m.store (a + 1) n (v / 256)).load (a + 1) n := by
      apply load_congr
      intro x hx hn
      unfold store
      have hd : x - a = x - (a + 1) + 1 := by omega
      rw [if_pos (by omega), if_pos (by omega), Nat.div_div_eq_div_mul, hd, pow_succ']
    have hmod : v % 256 ^ (n + 1) = v % 256 + 256 * (v / 256 % 256 ^ n) := by
      rw [pow_succ', Nat.mod_mul]
    rw [load, hb, ht, ih, UInt8.toNat_ofNat', hmod]

theorem load_fill_zero (h : a ≤ b ∧ b + k ≤ a + n) : (m.fill a n 0).load b k = 0 := by
  induction k generalizing b with
  | zero => rfl
  | succ k ih =>
    have hb : m.fill a n 0 b = 0 := if_pos (by omega)
    have ht : (m.fill a n 0).load (b + 1) k = 0 := ih (by omega)
    rw [load, hb, ht]
    rfl

end Bytes
end Mdepx.Lib
