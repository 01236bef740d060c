import Mdepx.Lib.Bytes
import Mathlib.Data.List.GetD
import Mathlib.Data.Nat.Digits.Lemmas

namespace Mdepx.Lib
open List

/-! Numbers from bytes, the most significant byte first, and accumulators of `w` bits. -/

def ofBytes (bs : List UInt8) : Nat := Nat.ofDigits 256 (bs.reverse.map UInt8.toNat)

theorem ofBytes_append (bs cs : List UInt8) :
    ofBytes (bs ++ cs) = ofBytes bs * 256 ^ cs.length + ofBytes cs := by
  rw [ofBytes, reverse_append, map_append, Nat.ofDigits_append, length_map,
    length_reverse, add_comm, mul_comm]
  rfl

theorem ofBytes_singleton (b : UInt8) : ofBytes [b] = b.toNat := Nat.ofDigits_singleton ..

theorem ofBytes_lt (bs : List UInt8) : ofBytes bs < 256 ^ bs.length := by
  have hdigits : ∀ d ∈ bs.reverse.map UInt8.toNat, d < 256 := by
    intro d hd
    obtain ⟨b, -, rfl⟩ := mem_map.1 hd
    exact b.toNat_lt
  have h := Nat.ofDigits_lt_base_pow_length (by decide) hdigits
  rwa [length_map, length_reverse] at h

theorem ofBytes_zeros (n : Nat) : ofBytes (List.replicate n 0) = 0 := by
  induction n with
  | zero => rfl
  | succ n ih => rw [replicate_succ', ofBytes_append, ih, zero_mul, ofBytes_singleton]; rfl

def shiftIn (w buf n v : Nat) : Nat := (buf <<< n) % 2 ^ w ||| v

def Pending (buf : Nat) (bs : List UInt8) : Prop := buf % 256 ^ bs.length = ofBytes bs

theorem pending_nil (buf : Nat) : Pending buf [] := Nat.mod_one buf

theorem two_pow_mul_eight (n : Nat) : 2 ^ (8 * n) = 256 ^ n := pow_mul 2 8 n

theorem shiftIn_eq (hn : n ≤ w) (hv : v < 2 ^ n) :
    shiftIn w buf n v = buf % 2 ^ (w - n) * 2 ^ n + v := by
  have hw : 2 ^ w = 2 ^ (w - n) * 2 ^ n := by rw [← pow_add, Nat.sub_add_cancel hn]
  rw [shiftIn, Nat.shiftLeft_eq, hw, Nat.mul_mod_mul_right, ← Nat.shiftLeft_eq,
    ← Nat.shiftLeft_add_eq_or_of_lt hv]

theorem Pending.shiftIn (h : Pending buf bs) (cs : List UInt8)
    (hw : 8 * (bs.length + cs.length) ≤ w) :
    Pending (shiftIn w buf (8 * cs.length) (ofBytes cs)) (bs ++ cs) := by
  have hv : ofBytes cs < 2 ^ (8 * cs.length) := by
    rw [two_pow_mul_eight]
    exact ofBytes_lt cs
  have hdvd : 256 ^ bs.length ∣ 2 ^ (w - 8 * cs.length) := by
    rw [← two_pow_mul_eight]
    exact Nat.pow_dvd_pow 2 (by omega)
  rw [Pending, shiftIn_eq (by omega) hv, two_pow_mul_eight, length_append, pow_add,
    ofBytes_append, ← h, ← Nat.mod_mod_of_dvd buf hdvd]
  have hc := ofBytes_lt cs
  generalize buf % 2 ^ (w - 8 * cs.length) = x
  rw [mul_comm (256 ^ bs.length), Nat.mod_mul, mul_comm x, Nat.mul_add_mod_self_left,
    Nat.mod_eq_of_lt hc, Nat.mul_add_div (Nat.pow_pos (by decide)), Nat.div_eq_of_lt hc,
    Nat.add_zero, Nat.add_comm, Nat.mul_comm]

theorem Pending.take (h : Pending buf (bs ++ cs)) :
    (buf >>> (8 * cs.length)) % 256 ^ bs.length = ofBytes bs := by
  rw [Pending, length_append, Nat.pow_add, Nat.mul_comm (256 ^ bs.length),
    ofBytes_append] at h
  rw [Nat.shiftRight_eq_div_pow, two_pow_mul_eight, ← Nat.mod_mul_right_div_self, h,
    Nat.mul_comm, Nat.mul_add_div (Nat.pow_pos (by decide)),
    Nat.div_eq_of_lt (ofBytes_lt cs), Nat.add_zero]

theorem Pending.rest (h : Pending buf (bs ++ cs)) : Pending buf cs := by
  rw [Pending, length_append, pow_add, ofBytes_append] at h
  rw [Pending, ← Nat.mod_mul_left_mod buf (256 ^ bs.length), h, Nat.mul_add_mod_self_right,
    Nat.mod_eq_of_lt (ofBytes_lt cs)]

theorem Pending.pad (h : Pending buf bs) (n : Nat) :
    (buf <<< (8 * n)) % 256 ^ (bs.length + n) = ofBytes (bs ++ List.replicate n 0) := by
  rw [ofBytes_append, ofBytes_zeros, length_replicate, add_zero, Nat.shiftLeft_eq,
    two_pow_mul_eight, pow_add, Nat.mul_mod_mul_right, h]

def slice (m : Bytes) : Nat → Nat → List UInt8
  | _, 0 => []
  | a, n + 1 => m a :: slice m (a + 1) n

@[simp] theorem slice_length (m : Bytes) (a n : Nat) : (slice m a n).length = n := by
  induction n generalizing a with
  | zero => rfl
  | succ n ih => rw [slice, length_cons, ih]

theorem slice_add (m : Bytes) (a n k : Nat) :
    slice m a (n + k) = slice m a n ++ slice m (a + n) k := by
  induction n generalizing a with
  | zero => rw [zero_add]; rfl
  | succ n ih => rw [Nat.succ_add, slice, ih, slice, cons_append, add_assoc, add_comm 1]

def putBytes (m : Bytes) (a : Nat) (bs : List UInt8) : Bytes :=
  fun x => if a ≤ x then bs.getD (x - a) (m x) else m x

theorem putBytes_of_outside (h : x < a ∨ a + bs.length ≤ x) : putBytes m a bs x = m x := by
  unfold putBytes
  split
  · exact getD_eq_default _ _ (by omega)
  · rfl

section
variable (m : Bytes) (a : Nat)

theorem putBytes_add (h : i < bs.length) : putBytes m a bs (a + i) = bs[i] := by
  unfold putBytes
  rw [if_pos (Nat.le_add_right a i), Nat.add_sub_cancel_left, getD_eq_getElem _ _ h]

theorem putBytes_nil : putBytes m a [] = m := by
  funext x
  exact ite_self (m x)

theorem putBytes_append (bs cs : List UInt8) :
    putBytes (putBytes m a bs) (a + bs.length) cs = putBytes m a (bs ++ cs) := by
  funext x
  unfold putBytes
  by_cases hx : a ≤ x
  · by_cases hb : a + bs.length ≤ x
    · have hout : bs.getD (x - a) (m x) = m x := getD_eq_default _ _ (by omega)
      rw [if_pos hb, if_pos hx, if_pos hx, getD_append_right _ _ _ _ (by omega), hout,
        Nat.sub_sub]
    · rw [if_neg hb, if_pos hx, if_pos hx, getD_append _ _ _ _ (by omega)]
  · rw [if_neg hx, if_neg hx, if_neg (by omega)]

end

def storeBig (m : Bytes) (a n v : Nat) : Bytes :=
  fun x => if a ≤ x ∧ x < a + n then UInt8.ofNat (v / 256 ^ (a + n - 1 - x)) else m x

theorem ofBytes_digit (bs : List UInt8) (b : UInt8) (cs : List UInt8) :
    UInt8.ofNat (ofBytes (bs ++ b :: cs) / 256 ^ cs.length) = b := by
  rw [append_cons, ofBytes_append, Nat.mul_comm, Nat.mul_add_div (Nat.pow_pos (by decide)),
    Nat.div_eq_of_lt (ofBytes_lt cs), Nat.add_zero, ofBytes_append, ofBytes_singleton]
  apply UInt8.toNat_inj.1
  rw [UInt8.toNat_ofNat', length_singleton, Nat.pow_one, Nat.mul_add_mod_self_right]
  exact Nat.mod_eq_of_lt b.toNat_lt

theorem storeBig_ofBytes (m : Bytes) (a : Nat) (bs : List UInt8) :
    storeBig m a bs.length (ofBytes bs) = putBytes m a bs := by
  funext x
  unfold storeBig putBytes
  by_cases hx : a ≤ x ∧ x < a + bs.length
  · obtain ⟨i, rfl⟩ := Nat.exists_eq_add_of_le hx.1
    have hi : i < bs.length := by omega
    have hsplit : bs.take i ++ bs[i] :: bs.drop (i + 1) = bs := by
      rw [getElem_cons_drop, take_append_drop]
    have hd := ofBytes_digit (bs.take i) bs[i] (bs.drop (i + 1))
    rw [hsplit, length_drop] at hd
    rw [if_pos hx, if_pos hx.1, Nat.add_sub_cancel_left, getD_eq_getElem _ _ hi,
      show a + bs.length - 1 - (a + i) = bs.length - (i + 1) by omega]
    exact hd
  · rw [if_neg hx]
    by_cases ha : a ≤ x
    · rw [if_pos ha, getD_eq_default _ _ (by omega)]
    · rw [if_neg ha]

end Mdepx.Lib
