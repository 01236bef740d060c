import Mdepx.Heap.Basic
import Mdepx.Lib.Chain
import Mathlib.Data.List.Pairwise

namespace Mdepx.Heap
open Lib List

/-! How a heap lies in memory. -/

section
variable {A : Abi} {m m' : Bytes}

namespace Abi

theorem ptr_le (A : Abi) : 4 ≤ A.ptr := by
  rcases A.ptr_eq with h | h
  · omega
  · omega

theorem nodeS_def (A : Abi) : A.nodeS = 2 * A.ptr + 8 := rfl

theorem off_len (A : Abi) (f : Field) : A.off f + A.len f ≤ A.nodeS := by
  have hp := A.ptr_le
  cases f with
  | next | prev | size | flags => simp only [off, len, nodeS]; omega

theorem get_set_self (A : Abi) (f : Field) (m : Bytes) (a v : Nat) :
    A.get f (A.set f m a v) a = v % 256 ^ A.len f := Bytes.load_store_self ..

theorem get_set_field (h : f ≠ g) : A.get f (A.set g m a v) a = A.get f m a := by
  apply Bytes.load_store_other
  cases f <;> cases g <;> simp only [ne_eq, not_true_eq_false, off, len] at h ⊢ <;> omega

theorem get_set_same (A : Abi) (f g : Field) (m : Bytes) (a v : Nat) :
    A.get f (A.set g m a v) a = if f = g then v % 256 ^ A.len f else A.get f m a := by
  by_cases h : f = g
  · subst h
    rw [if_pos rfl, get_set_self]
  · rw [if_neg h, get_set_field h]

theorem get_set_apart (h : a + A.nodeS ≤ b ∨ b + A.nodeS ≤ a) :
    A.get f (A.set g m b v) a = A.get f m a := by
  have hf := A.off_len f
  have hg := A.off_len g
  exact Bytes.load_store_other (by omega)

theorem set_outside (h : x < a ∨ a + A.nodeS ≤ x) : A.set f m a v x = m x := by
  have hf := A.off_len f
  exact Bytes.store_of_outside (by omega)

theorem setFlags_outside (h : x < a + 2 * A.ptr + 4 ∨ a + 2 * A.ptr + 8 ≤ x) :
    A.set .flags m a v x = m x := by
  apply Bytes.store_of_outside
  simp only [off, len]
  omega

theorem get_congr (f : Field) (h : ∀ x, a ≤ x → x < a + A.nodeS → m x = m' x) :
    A.get f m a = A.get f m' a := by
  have hf := A.off_len f
  apply Bytes.load_congr
  intro x hx hn
  exact h x (by omega) (by omega)

theorem get_lt (A : Abi) (f : Field) (m : Bytes) (a : Nat) : A.get f m a < 256 ^ A.len f :=
  Bytes.load_lt ..

def links (A : Abi) (m : Bytes) : Links Nat := ⟨A.get .next m, A.get .prev m⟩

end Abi

/-- A block: `live` says that it has `FLAG_ALLOCATED`, `linked` that it is in the list. -/
structure Block where
  size : Nat
  live : Bool
  linked : Bool
deriving DecidableEq

structure Cell extends Block where
  addr : Nat
  prev : Nat
deriving DecidableEq

def total (bs : List Block) : Nat := (bs.map Block.size).sum

def lastSize (p : Nat) : List Block → Nat
  | [] => p
  | b :: bs => lastSize b.size bs

def cells : Nat → Nat → List Block → List Cell
  | _, _, [] => []
  | a, p, b :: bs => ⟨b, a, p⟩ :: cells (a + b.size) b.size bs

@[simp] theorem total_nil : total [] = 0 := rfl

@[simp] theorem total_cons (b : Block) (bs : List Block) : total (b :: bs) = b.size + total bs := by
  simp only [total, map_cons, sum_cons]

@[simp] theorem total_append (l t : List Block) : total (l ++ t) = total l + total t := by
  simp only [total, map_append, sum_append]

theorem lastSize_append (p : Nat) (l t : List Block) :
    lastSize p (l ++ t) = lastSize (lastSize p l) t := by
  induction l generalizing p with
  | nil => rfl
  | cons b l ih => exact ih b.size

theorem cells_append (a p : Nat) (l t : List Block) :
    cells a p (l ++ t) = cells a p l ++ cells (a + total l) (lastSize p l) t := by
  induction l generalizing a p with
  | nil => rfl
  | cons b l ih =>
    rw [cons_append, cells, ih, cells, total_cons, add_assoc]
    rfl

theorem cell_bounds (h : c ∈ cells a p bs) : a ≤ c.addr ∧ c.addr + c.size ≤ a + total bs := by
  induction bs generalizing a p with
  | nil => cases h
  | cons b bs ih =>
    rw [total_cons]
    rcases mem_cons.1 h with rfl | h
    · simp only
      omega
    · have hb := ih h
      omega

theorem cell_mem (h : c ∈ cells a p bs) : c.toBlock ∈ bs := by
  induction bs generalizing a p with
  | nil => cases h
  | cons b bs ih =>
    rcases mem_cons.1 h with rfl | h
    · exact mem_cons_self
    · exact mem_cons_of_mem _ (ih h)

theorem cells_sorted (a p : Nat) (bs : List Block) :
    (cells a p bs).Pairwise fun c d => c.addr + c.size ≤ d.addr := by
  induction bs generalizing a p with
  | nil => exact .nil
  | cons b bs ih =>
    apply List.Pairwise.cons
    · intro d hd
      exact (cell_bounds hd).1
    · exact ih _ _

theorem cells_split (h : c ∈ cells a p bs) :
    ∃ l t, bs = l ++ c.toBlock :: t ∧ c.addr = a + total l ∧ c.prev = lastSize p l := by
  induction bs generalizing a p with
  | nil => cases h
  | cons b bs ih =>
    rcases mem_cons.1 h with rfl | h
    · exact ⟨[], bs, rfl, rfl, rfl⟩
    · obtain ⟨l, t, hbs, ha, hp⟩ := ih h
      refine ⟨b :: l, t, ?_, ?_, hp⟩
      · rw [hbs, cons_append]
      · rw [ha, total_cons, add_assoc]

def Abi.sentinel (A : Abi) : Block := ⟨A.nodeS, true, false⟩

structure Region where
  base : Nat
  blocks : List Block
deriving DecidableEq

namespace Region

def full (A : Abi) (r : Region) : List Block := A.sentinel :: (r.blocks ++ [A.sentinel])

def cells (A : Abi) (r : Region) : List Cell := Heap.cells r.base 0 (r.full A)

def size (A : Abi) (r : Region) : Nat := total (r.full A)

def extent (A : Abi) (r : Region) : Nat × Nat := (r.base, r.size A)

end Region

theorem region_size (A : Abi) (r : Region) : r.size A = 2 * A.nodeS + total r.blocks := by
  simp only [Region.size, Region.full, total_cons, total_append, Abi.sentinel, total_nil]
  omega

theorem mem_regionCells {l bs t : List Block} :
    c ∈ Region.cells A ⟨base, l ++ bs ++ t⟩ ↔ c = ⟨A.sentinel, base, 0⟩ ∨
      c ∈ cells (base + A.nodeS) A.nodeS l ∨
      c ∈ cells (base + A.nodeS + total l) (lastSize A.nodeS l) bs ∨
      c ∈ cells (base + A.nodeS + total l + total bs) (lastSize (lastSize A.nodeS l) bs)
        (t ++ [A.sentinel]) := by
  simp only [Region.cells, Region.full, cells, mem_cons, Abi.sentinel, append_assoc,
    cells_append, mem_append]

def Cells (A : Abi) (rs : List Region) (c : Cell) : Prop := ∃ r ∈ rs, c ∈ r.cells A

def Tagged (A : Abi) (m : Bytes) (c : Cell) : Prop :=
  A.get .size m c.addr = c.size ∧ A.get .flags m c.addr = c.prev + if c.live then 2 ^ 31 else 0

inductive Item where
  | head (i : Nat) | node (addr size : Nat)
deriving DecidableEq

namespace Item

def addr (A : Abi) (fl : Nat) : Item → Nat
  | .head i => A.head fl i
  | .node a _ => a

def size : Item → Nat
  | .head _ => 0
  | .node _ s => s

/-- The order of the list: head `i` comes before the blocks of size `16 * 2 ^ i` and more. -/
def key : Item → Nat
  | .head i => if i = 0 then 0 else 2 ^ (i + 5)
  | .node _ s => 2 * s + 1

end Item

structure Spread (A : Abi) (fl : Nat) (es : List (Nat × Nat)) : Prop where
  zone : fl + 32 * A.nodeS ≤ A.top
  bound : ∀ e ∈ es, e.1 + e.2 ≤ A.top ∧ e.2 < 2 ^ 31
  off : ∀ e ∈ es, e.1 + e.2 ≤ fl ∨ fl + 32 * A.nodeS ≤ e.1
  apart : es.Pairwise fun e e' => e.1 + e.2 ≤ e'.1 ∨ e'.1 + e'.2 ≤ e.1

/-- The memory `m` holds the zone at `fl` with the regions `rs`, and the list goes from the first
head through `items`. -/
structure Shape (A : Abi) (fl : Nat) (m : Bytes) (rs : List Region) (items : List Item) :
    Prop where
  spread : Spread A fl (rs.map (Region.extent A))
  sized : ∀ r ∈ rs, ∀ b ∈ r.blocks, A.nodeS ≤ b.size
  tags : ∀ c, Cells A rs c → Tagged A m c
  heads : ∀ i < 32, A.get .size m (A.head fl i) = 0
  chain : Chain (A.links m) 0 (A.head fl 0) (items.map (Item.addr A fl))
  nodup : (A.head fl 0 :: items.map (Item.addr A fl)).Nodup
  headItems : ∀ i, .head i ∈ items ↔ 0 < i ∧ i < 32
  nodeItems : ∀ x s, .node x s ∈ items ↔
    ∃ c, Cells A rs c ∧ c.linked = true ∧ c.addr = x ∧ c.size = s
  sorted : (Item.head 0 :: items).Pairwise fun x y => x.key ≤ y.key

def Header (A : Abi) (fl : Nat) (rs : List Region) (h : Nat) : Prop :=
  (∃ i < 32, h = A.head fl i) ∨ ∃ c, Cells A rs c ∧ h = c.addr

theorem head_apart (A : Abi) (fl : Nat) (h : i ≠ j) :
    A.head fl i + A.nodeS ≤ A.head fl j ∨ A.head fl j + A.nodeS ≤ A.head fl i := by
  unfold Abi.head
  rcases Nat.lt_or_gt_of_ne h with h | h
  · have := Nat.mul_le_mul_right A.nodeS h
    rw [Nat.succ_mul] at this
    omega
  · have := Nat.mul_le_mul_right A.nodeS h
    rw [Nat.succ_mul] at this
    omega

theorem head_bounds (A : Abi) (fl : Nat) (h : i < 32) :
    fl ≤ A.head fl i ∧ A.head fl i + A.nodeS ≤ fl + 32 * A.nodeS := by
  unfold Abi.head
  have := Nat.mul_le_mul_right A.nodeS h
  rw [Nat.succ_mul] at this
  omega

variable {fl : Nat} {rs : List Region} {items : List Item}

theorem region_bounds {r : Region} (h : c ∈ r.cells A) :
    r.base ≤ c.addr ∧ c.addr + c.size ≤ r.base + r.size A := cell_bounds h

namespace Shape

section
variable (h : Shape A fl m rs items)
include h

theorem cell_size (hc : Cells A rs c) : A.nodeS ≤ c.size := by
  obtain ⟨r, hr, hc⟩ := hc
  have hm := cell_mem hc
  simp only [Region.full, mem_cons, mem_append, not_mem_nil, or_false] at hm
  have hs : A.nodeS ≤ A.sentinel.size := Nat.le_refl _
  rcases hm with hm | hm | hm
  · rw [hm]
    exact hs
  · exact h.sized r hr _ hm
  · rw [hm]
    exact hs

theorem bound (hr : r ∈ rs) :
    r.base + r.size A ≤ A.top ∧ r.size A < 2 ^ 31 :=
  h.spread.bound _ (mem_map_of_mem hr)

theorem off_zone (hr : r ∈ rs) :
    r.base + r.size A ≤ fl ∨ fl + 32 * A.nodeS ≤ r.base :=
  h.spread.off _ (mem_map_of_mem hr)

theorem cell_lt (hc : Cells A rs c) :
    c.addr + c.size ≤ A.top ∧ c.size < 2 ^ 31 := by
  obtain ⟨r, hr, hc⟩ := hc
  have hb := region_bounds hc
  have ht := h.bound hr
  omega

theorem cell_off_zone (hc : Cells A rs c) :
    c.addr + c.size ≤ fl ∨ fl + 32 * A.nodeS ≤ c.addr := by
  obtain ⟨r, hr, hc⟩ := hc
  have hb := region_bounds hc
  have ho := h.off_zone hr
  omega

theorem cells_apart (hc : Cells A rs c) (hc' : Cells A rs c') :
    c = c' ∨ c.addr + c.size ≤ c'.addr ∨ c'.addr + c'.size ≤ c.addr := by
  obtain ⟨r, hr, hc⟩ := hc
  obtain ⟨r', hr', hc'⟩ := hc'
  have hsymm : Std.Symm fun r r' : Region =>
      r.base + r.size A ≤ r'.base ∨ r'.base + r'.size A ≤ r.base := ⟨fun _ _ h => h.symm⟩
  have hq : rs.Pairwise fun r r' =>
      r.base + r.size A ≤ r'.base ∨ r'.base + r'.size A ≤ r.base :=
    pairwise_map.1 h.spread.apart
  by_cases he : r = r'
  · subst he
    have hsymm : Std.Symm fun c c' : Cell =>
        c.addr + c.size ≤ c'.addr ∨ c'.addr + c'.size ≤ c.addr := ⟨fun _ _ h => h.symm⟩
    have hq : (r.cells A).Pairwise fun c c' =>
        c.addr + c.size ≤ c'.addr ∨ c'.addr + c'.size ≤ c.addr :=
      (cells_sorted r.base 0 (r.full A)).imp .inl
    by_cases hcc : c = c'
    · exact .inl hcc
    · exact .inr (hq.forall hc hc' hcc)
  · have ha := hq.forall hr hr' he
    have hb := region_bounds hc
    have hb' := region_bounds hc'
    omega

theorem headers_apart (hx : Header A fl rs x)
    (hy : Header A fl rs y) : x = y ∨ x + A.nodeS ≤ y ∨ y + A.nodeS ≤ x := by
  rcases hx with ⟨i, hi, rfl⟩ | ⟨c, hc, rfl⟩
  · rcases hy with ⟨j, hj, rfl⟩ | ⟨c, hc, rfl⟩
    · by_cases hij : i = j
      · exact .inl (by rw [hij])
      · exact .inr (head_apart A fl hij)
    · have hb := head_bounds A fl hi
      have ho := h.cell_off_zone hc
      have hs := h.cell_size hc
      omega
  · have hs := h.cell_size hc
    rcases hy with ⟨j, hj, rfl⟩ | ⟨c', hc', rfl⟩
    · have hb := head_bounds A fl hj
      have ho := h.cell_off_zone hc
      omega
    · have hs' := h.cell_size hc'
      rcases h.cells_apart hc hc' with rfl | ha
      · exact .inl rfl
      · omega

theorem header_of_item (hx : x ∈ items) :
    Header A fl rs (x.addr A fl) := by
  cases x with
  | head i => exact .inl ⟨i, ((h.headItems i).1 hx).2, rfl⟩
  | node a s =>
    obtain ⟨c, hc, -, he, -⟩ := (h.nodeItems a s).1 hx
    exact .inr ⟨c, hc, he.symm⟩

end

theorem header_zero (A : Abi) (fl : Nat) (rs : List Region) : Header A fl rs (A.head fl 0) :=
  .inl ⟨0, by decide, rfl⟩

section
variable (h : Shape A fl m rs items)
include h

theorem header_of_chain
    (hx : x ∈ A.head fl 0 :: items.map (Item.addr A fl)) : Header A fl rs x := by
  rcases mem_cons.1 hx with rfl | hx
  · exact header_zero A fl rs
  · obtain ⟨y, hy, rfl⟩ := mem_map.1 hx
    exact h.header_of_item hy

theorem header_lt (hx : Header A fl rs x) : x + A.nodeS ≤ A.top := by
  rcases hx with ⟨i, hi, rfl⟩ | ⟨c, hc, rfl⟩
  · have hb := head_bounds A fl hi
    have hz := h.spread.zone
    omega
  · have hb := h.cell_lt hc
    have hs := h.cell_size hc
    omega

theorem item_pos (hx : x ∈ items) : 0 < x.addr A fl := by
  have hn := A.nodeS_def
  cases x with
  | head i =>
    have hi := ((h.headItems i).1 hx).1
    have := Nat.mul_le_mul_right A.nodeS hi
    simp only [Item.addr, Abi.head]
    omega
  | node a s =>
    obtain ⟨c, ⟨r, hr, hc⟩, hl, he, -⟩ := (h.nodeItems a s).1 hx
    rcases mem_cons.1 hc with rfl | hc'
    · cases hl
    · have hb := (cell_bounds hc').1
      have hs : A.sentinel.size = A.nodeS := rfl
      simp only [Item.addr]
      omega

theorem null_notMem : 0 ∉ items.map (Item.addr A fl) := by
  intro hm
  obtain ⟨x, hx, he⟩ := mem_map.1 hm
  have := h.item_pos hx
  omega

theorem item_size (hx : x ∈ items) :
    A.get .size m (x.addr A fl) = x.size := by
  cases x with
  | head i => exact h.heads i ((h.headItems i).1 hx).2
  | node a s =>
    obtain ⟨c, hc, -, rfl, rfl⟩ := (h.nodeItems a s).1 hx
    exact (h.tags c hc).1

theorem frame
    (htag : ∀ c, Cells A rs c → A.get .size m' c.addr = A.get .size m c.addr ∧
      A.get .flags m' c.addr = A.get .flags m c.addr)
    (hhead : ∀ i < 32, A.get .size m' (A.head fl i) = A.get .size m (A.head fl i))
    (hlink : ∀ x ∈ A.head fl 0 :: items.map (Item.addr A fl),
      A.get .next m' x = A.get .next m x ∧ A.get .prev m' x = A.get .prev m x) :
    Shape A fl m' rs items := by
  refine ⟨h.spread, h.sized, ?_, ?_, ?_, h.nodup, h.headItems, h.nodeItems, h.sorted⟩
  · intro c hc
    obtain ⟨hs, hf⟩ := htag c hc
    obtain ⟨hts, htf⟩ := h.tags c hc
    exact ⟨hs.trans hts, hf.trans htf⟩
  · intro i hi
    exact (hhead i hi).trans (h.heads i hi)
  · apply h.chain.congr
    · intro x hx
      exact (hlink x hx).1
    · intro x hx
      exact (hlink x (mem_cons_of_mem _ hx)).2

theorem frame_bytes
    (hb : ∀ y, Header A fl rs y → ∀ x, y ≤ x → x < y + A.nodeS → m x = m' x) :
    Shape A fl m' rs items := by
  have hget (f : Field) {y : Nat} (hy : Header A fl rs y) : A.get f m' y = A.get f m y :=
    (Abi.get_congr f (hb y hy)).symm
  apply h.frame
  · intro c hc
    have hy : Header A fl rs c.addr := .inr ⟨c, hc, rfl⟩
    exact ⟨hget _ hy, hget _ hy⟩
  · intro i hi
    exact hget _ (.inl ⟨i, hi, rfl⟩)
  · intro x hx
    have hy := h.header_of_chain hx
    exact ⟨hget _ hy, hget _ hy⟩

end

end Shape

def Clear (A : Abi) (H : Nat → Prop) (x : Nat) : Prop := ∀ y, H y → x < y ∨ y + A.nodeS ≤ x

def Only (A : Abi) (H : Nat → Prop) (m m' : Bytes) : Prop := ∀ x, Clear A H x → m' x = m x

namespace Only
variable {H H' : Nat → Prop} {m'' : Bytes}

theorem refl (A : Abi) (H : Nat → Prop) (m : Bytes) : Only A H m m := fun _ _ => rfl

theorem trans (h : Only A H m m') (h' : Only A H m' m'') : Only A H m m'' :=
  fun x hx => (h' x hx).trans (h x hx)

theorem mono (h : Only A H m m') (hH : ∀ y, H y → H' y) : Only A H' m m' :=
  fun x hx => h x fun y hy => hx y (hH y hy)

theorem set (h : Only A H m m') (hy : H y) : Only A H m (A.set f m' y v) := by
  intro x hx
  rw [Abi.set_outside (hx y hy)]
  exact h x hx

end Only

theorem Shape.clear_payload (h : Shape A fl m rs items) (hc : Cells A rs c)
    (hx : c.addr + A.nodeS ≤ x) (hx' : x < c.addr + c.size) : Clear A (Header A fl rs) x := by
  intro y hy
  rcases hy with ⟨i, hi, rfl⟩ | ⟨d, hd, rfl⟩
  · have hz := h.cell_off_zone hc
    have hb := head_bounds A fl hi
    omega
  · have hs := h.cell_size hd
    rcases h.cells_apart hc hd with rfl | hap
    · exact .inr hx
    · omega

def Outside (A : Abi) (fl : Nat) (es : List (Nat × Nat)) (x : Nat) : Prop :=
  (x < fl ∨ fl + 32 * A.nodeS ≤ x) ∧ ∀ e ∈ es, x < e.1 ∨ e.1 + e.2 ≤ x

theorem Shape.clear_outside (h : Shape A fl m rs items)
    (hx : Outside A fl (rs.map (Region.extent A)) x) : Clear A (Header A fl rs) x := by
  intro y hy
  rcases hy with ⟨i, hi, rfl⟩ | ⟨c, hc, rfl⟩
  · have hb := head_bounds A fl hi
    have hz := hx.1
    omega
  · have hs := h.cell_size hc
    obtain ⟨r, hr, hc⟩ := hc
    have hb := region_bounds hc
    have ho := hx.2 (r.extent A) (mem_map_of_mem hr)
    simp only [Region.extent] at ho
    omega

def Around (A : Abi) (R₁ R₂ : List Region) (base : Nat) (l : List Block) (e s : Nat)
    (t : List Block) (c : Cell) : Prop :=
  (∃ r ∈ R₁ ++ R₂, c ∈ r.cells A) ∨ c = ⟨A.sentinel, base, 0⟩ ∨
    c ∈ cells (base + A.nodeS) A.nodeS l ∨ c ∈ cells e s (t ++ [A.sentinel])

theorem cells_iff {R₁ R₂ : List Region} {l bs t : List Block} :
    Cells A (R₁ ++ ⟨base, l ++ bs ++ t⟩ :: R₂) c ↔
      c ∈ cells (base + A.nodeS + total l) (lastSize A.nodeS l) bs ∨
      Around A R₁ R₂ base l (base + A.nodeS + total l + total bs)
        (lastSize (lastSize A.nodeS l) bs) t c := by
  have hr : Cells A (R₁ ++ ⟨base, l ++ bs ++ t⟩ :: R₂) c ↔
      (∃ r ∈ R₁ ++ R₂, c ∈ r.cells A) ∨ c ∈ Region.cells A ⟨base, l ++ bs ++ t⟩ := by
    constructor
    · rintro ⟨r, hr, hc⟩
      simp only [mem_append, mem_cons] at hr
      rcases hr with hr | rfl | hr
      · exact .inl ⟨r, mem_append_left _ hr, hc⟩
      · exact .inr hc
      · exact .inl ⟨r, mem_append_right _ hr, hc⟩
    · rintro (⟨r, hr, hc⟩ | hc)
      · refine ⟨r, ?_, hc⟩
        simp only [mem_append, mem_cons] at hr ⊢
        exact hr.imp_right .inr
      · exact ⟨_, by simp, hc⟩
  rw [hr, mem_regionCells]
  constructor
  · rintro (hc | hc | hc | hc | hc)
    · exact .inr (.inl hc)
    · exact .inr (.inr (.inl hc))
    · exact .inr (.inr (.inr (.inl hc)))
    · exact .inl hc
    · exact .inr (.inr (.inr (.inr hc)))
  · rintro (hc | hc | hc | hc | hc)
    · exact .inr (.inr (.inr (.inl hc)))
    · exact .inl hc
    · exact .inr (.inl hc)
    · exact .inr (.inr (.inl hc))
    · exact .inr (.inr (.inr (.inr hc)))

end
end Mdepx.Heap
