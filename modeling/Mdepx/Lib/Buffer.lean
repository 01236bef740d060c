import Mathlib.Data.List.Basic

namespace Mdepx.Lib
open List

/-- Memory from the start of a buffer on, with the offsets that have been read or written. -/
structure Buffer where
  byte : Nat → UInt8
  touched : List Nat

def bytesAt (mem : Nat → UInt8) (len : Nat) : List UInt8 := (range len).map mem

namespace Buffer

def get (b : Buffer) (i : Nat) : UInt8 × Buffer := (b.byte i, { b with touched := i :: b.touched })

def read (b : Buffer) (i len : Nat) : List UInt8 × Buffer :=
  ((range len).map fun k => b.byte (i + k),
    { b with touched := range' i len ++ b.touched })

def put (b : Buffer) (i : Nat) (bs : List UInt8) : Buffer where
  byte := fun j => if i ≤ j then bs.getD (j - i) (b.byte j) else b.byte j
  touched := range' i bs.length ++ b.touched

def Within (b : Buffer) (n : Nat) : Prop := ∀ i ∈ b.touched, i < n

@[simp] theorem get_fst (b : Buffer) (i : Nat) : (b.get i).1 = b.byte i := rfl

@[simp] theorem get_byte (b : Buffer) (i : Nat) : (b.get i).2.byte = b.byte := rfl

@[simp] theorem within_get : (get b i).2.Within n ↔ i < n ∧ b.Within n := forall_mem_cons

theorem forall_mem_range' : (∀ j ∈ range' i len, j < n) ↔ len = 0 ∨ i + len ≤ n := by
  simp only [mem_range'_1]
  constructor
  · intro h
    cases len with
    | zero => exact .inl rfl
    | succ len => exact .inr (h (i + len) ⟨by omega, by omega⟩)
  · intro h j hj
    omega

@[simp] theorem within_read : (read b i len).2.Within n ↔ (len = 0 ∨ i + len ≤ n) ∧ b.Within n := by
  rw [Within, read, forall_mem_append, forall_mem_range']
  rfl

theorem within_put : (put b i bs).Within n ↔ (bs = [] ∨ i + bs.length ≤ n) ∧ b.Within n := by
  rw [Within, put, forall_mem_append, forall_mem_range', length_eq_zero_iff]
  rfl

theorem put_byte_of_lt (h : j < i) : (put b i bs).byte j = b.byte j := if_neg (Nat.not_le.2 h)

theorem put_byte_add (b : Buffer) (i : Nat) (bs : List UInt8) (j : Nat) :
    (b.put i bs).byte (i + j) = bs.getD j (b.byte (i + j)) := by
  rw [put]
  dsimp only
  rw [if_pos (Nat.le_add_right i j), Nat.add_sub_cancel_left]

end Buffer

@[simp] theorem bytesAt_length (mem : Nat → UInt8) (len : Nat) :
    (bytesAt mem len).length = len := by
  simp [bytesAt]

theorem bytesAt_congr (h : ∀ i < len, mem i = mem' i) : bytesAt mem len = bytesAt mem' len :=
  map_congr_left fun i hi => h i (mem_range.1 hi)

theorem bytesAt_add (mem : Nat → UInt8) (i j : Nat) :
    bytesAt mem (i + j) = bytesAt mem i ++ bytesAt (fun k => mem (i + k)) j := by
  simp only [bytesAt, range_add, map_append, map_map, Function.comp_def]

theorem bytesAt_eq_append (xs : List UInt8) (h : bytesAt mem (xs.length + n) = xs ++ ys) :
    bytesAt mem xs.length = xs ∧ bytesAt (fun k => mem (xs.length + k)) n = ys := by
  rw [bytesAt_add] at h
  exact append_inj h (bytesAt_length _ _)

theorem bytesAt_put (b : Buffer) (i : Nat) (bs : List UInt8) :
    bytesAt (b.put i bs).byte (i + bs.length) = bytesAt b.byte i ++ bs := by
  rw [bytesAt_add]
  congr 1
  · exact bytesAt_congr fun j hj => Buffer.put_byte_of_lt hj
  · apply ext_getElem
    · simp
    · intro k hk hk'
      simp only [bytesAt, getElem_map, getElem_range, Buffer.put_byte_add]
      rw [getD_eq_getElem?_getD, getElem?_eq_getElem hk', Option.getD_some]

theorem bytesAt_put_one (b : Buffer) (i n : Nat) (x : UInt8) :
    bytesAt (b.put i [x]).byte n = (bytesAt b.byte n).set i x := by
  apply ext_getElem
  · simp
  · intro k hk hk'
    rw [getElem_set]
    simp only [bytesAt, getElem_map, getElem_range]
    by_cases hik : i = k
    · subst hik
      rw [if_pos rfl]
      exact Buffer.put_byte_add b i [x] 0
    · rw [if_neg hik]
      rcases Nat.lt_or_gt_of_ne hik with hlt | hlt
      · obtain ⟨d, rfl⟩ := Nat.exists_eq_add_of_lt hlt
        rw [Nat.add_assoc, Buffer.put_byte_add]
        rfl
      · exact Buffer.put_byte_of_lt hlt

end Mdepx.Lib
