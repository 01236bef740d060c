import Mathlib.Data.Nat.Basic
import Mathlib.Logic.Function.Basic

namespace Mdepx.Lib
open Function List

/-- The slots of a cycle of `n` slots that the positions from `r` to below `s` of an endless
sequence fall on. -/
def Window (n r s i : Nat) : Prop := ∃ j, r ≤ j ∧ j < s ∧ j % n = i

theorem slot_inj {j k n : Nat} (hle : j ≤ k) (hlt : k < j + n) (h : j % n = k % n) : j = k := by
  have hmod : (k - j) % n = 0 := Nat.sub_mod_eq_zero_of_mod_eq h.symm
  rw [Nat.mod_eq_of_lt (by omega)] at hmod
  omega

theorem window_end (hn : 0 < n) (hr : r ≤ s) (hs : s ≤ r + n) :
    Window n r s (s % n) ↔ s = r + n := by
  constructor
  · rintro ⟨j, hrj, hjs, hj⟩
    apply le_antisymm hs
    apply Nat.le_of_not_lt
    intro hlt
    have heq := slot_inj (le_of_lt hjs) (by omega) hj
    omega
  · rintro rfl
    exact ⟨r, le_refl r, by omega, (Nat.add_mod_right r n).symm⟩

theorem window_start : Window n r s (r % n) ↔ r < s := by
  constructor
  · rintro ⟨j, hrj, hjs, -⟩
    omega
  · intro h
    exact ⟨r, le_refl r, h, rfl⟩

theorem window_push (hr : r ≤ s) : Window n r (s + 1) i ↔ i = s % n ∨ Window n r s i := by
  constructor
  · rintro ⟨j, hrj, hjs, rfl⟩
    rcases lt_or_eq_of_le (Nat.le_of_lt_succ hjs) with h | rfl
    · exact .inr ⟨j, hrj, h, rfl⟩
    · exact .inl rfl
  · rintro (rfl | ⟨j, hrj, hjs, rfl⟩)
    · exact ⟨s, hr, Nat.lt_succ_self s, rfl⟩
    · exact ⟨j, hrj, Nat.lt_succ_of_lt hjs, rfl⟩

theorem window_pop (hs : s ≤ r + n) :
    Window n (r + 1) s i ↔ i ≠ r % n ∧ Window n r s i := by
  constructor
  · rintro ⟨j, hrj, hjs, rfl⟩
    refine ⟨?_, j, by omega, hjs, rfl⟩
    intro h
    have heq := slot_inj (j := r) (k := j) (by omega) (by omega) h.symm
    omega
  · rintro ⟨hne, j, hrj, hjs, rfl⟩
    rcases lt_or_eq_of_le hrj with h | rfl
    · exact ⟨j, h, hjs, rfl⟩
    · exact absurd rfl hne

theorem or_mask_and_mask (f m : BitVec w) : (f ||| m) &&& m = m := by
  ext i hi
  rw [BitVec.getElem_and, BitVec.getElem_or]
  cases m[i] with
  | false => exact Bool.and_false _
  | true => exact Bool.and_true _ |>.trans (Bool.or_true _)

theorem and_not_mask_and_mask (f m : BitVec w) : (f &&& ~~~m) &&& m = 0 := by
  rw [BitVec.and_assoc, BitVec.not_and_self]
  exact BitVec.and_zero

theorem forall_lt_update {P : Nat → α → Prop} {f : Nat → α} (hf : ∀ i < k, P i (f i))
    (hx : P k x) : ∀ i < k + 1, P i (update f k x i) := by
  intro i hi
  rcases lt_or_eq_of_le (Nat.le_of_lt_succ hi) with hlt | rfl
  · rw [update_of_ne (ne_of_lt hlt)]
    exact hf i hlt
  · rw [update_self]
    exact hx

/-- A cycle of `n` slots holds the values of a sequence from position `r` on. -/
def Holds (n : Nat) (f : Nat → α) (xs : List α) (r : Nat) : Prop :=
  ∀ j, r ≤ j → j < xs.length → xs[j]? = some (f (j % n))

section
variable {f : Nat → α} {xs : List α} {n r : Nat}

theorem Holds.nil : Holds n f [] r := by
  intro j _ hj
  exact absurd hj (Nat.not_lt_zero j)

section
variable (h : Holds n f xs r)
include h

theorem Holds.first (hr : r < xs.length) : xs[r]? = some (f (r % n)) :=
  h r (le_refl r) hr

theorem Holds.push (hr : xs.length < r + n) (x : α) :
    Holds n (update f (xs.length % n) x) (xs ++ [x]) r := by
  intro j hrj hj
  rw [length_append, length_singleton] at hj
  rcases lt_or_eq_of_le (Nat.le_of_lt_succ hj) with hlt | rfl
  · have hne : j % n ≠ xs.length % n := by
      intro he
      exact absurd (slot_inj (le_of_lt hlt) (by omega) he) (ne_of_lt hlt)
    rw [getElem?_append_left hlt, update_of_ne hne]
    exact h j hrj hlt
  · rw [getElem?_concat_length, update_self]

theorem Holds.pop : Holds n f xs (r + 1) := by
  intro j hrj hj
  exact h j (Nat.le_of_succ_le hrj) hj

theorem Holds.discard (hr : xs.length ≤ r + n) (x : α) :
    Holds n (update f (r % n) x) xs (r + 1) := by
  intro j hrj hj
  have hne : j % n ≠ r % n := by
    intro he
    exact absurd (slot_inj (Nat.le_of_succ_le hrj) (by omega) he.symm) (ne_of_lt hrj)
  rw [update_of_ne hne]
  exact h j (Nat.le_of_succ_le hrj) hj

theorem Holds.drop_eq : xs.drop r = (range (xs.length - r)).map fun i => f ((r + i) % n) := by
  apply ext_getElem?
  intro i
  rw [getElem?_drop, getElem?_map]
  by_cases hi : i < xs.length - r
  · rw [getElem?_range hi, h (r + i) (Nat.le_add_right r i) (by omega)]
    rfl
  · have hlen : (range (xs.length - r)).length ≤ i := by
      rw [length_range]
      exact Nat.le_of_not_lt hi
    rw [getElem?_eq_none hlen, getElem?_eq_none (by omega)]
    rfl

end

end

end Mdepx.Lib
