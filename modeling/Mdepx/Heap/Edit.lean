import Mdepx.Heap.Layout
import Mdepx.Lib.Fuel
import Mathlib.Data.Nat.Log

namespace Mdepx.Heap
open Lib List

/-! The edits of a heap that the allocator is made of. -/

section
variable {A : Abi} {m m' : Bytes} {fl : Nat} {rs R₁ R₂ : List Region} {items : List Item}
  {l t bs bs' : List Block} {b : Block}

section
variable (h : Shape A fl m rs items) (hx : Header A fl rs x)
include h hx

theorem Shape.get_set (hy : Header A fl rs y) :
    A.get f (A.set g m' y v) x =
      if x = y ∧ f = g then v % 256 ^ A.len f else A.get f m' x := by
  rcases h.headers_apart hx hy with rfl | ha
  · rw [Abi.get_set_same]
    simp only [true_and]
  · rw [Abi.get_set_apart ha, if_neg]
    have hn := A.nodeS_def
    rintro ⟨rfl, -⟩
    omega

theorem Shape.get_put (hy : Header A fl rs y) (hv : v < 256 ^ A.len g) :
    A.get f (A.set g m' y v) x = if x = y ∧ f = g then v else A.get f m' x := by
  rw [h.get_set hx hy]
  split
  · rename_i hc
    rw [hc.2, Nat.mod_eq_of_lt hv]
  · rfl

theorem Shape.get_put_prev (hn : n ≠ 0 → Header A fl rs n) (hv : v < 256 ^ A.len .prev) :
    A.get f (if n ≠ 0 then A.set .prev m' n v else m') x =
      if (x = n ∧ n ≠ 0) ∧ f = .prev then v else A.get f m' x := by
  by_cases h0 : n = 0
  · simp only [h0, ne_eq, not_true_eq_false, if_false, and_false, false_and]
  · simp only [ne_eq, h0, not_false_eq_true, if_true, and_true, h.get_put hx (hn h0) hv]

end

structure Removed (A : Abi) (m m' : Bytes) (a x : Nat) : Prop where
  next : A.get .next m' x = if x = A.get .prev m a then A.get .next m a else A.get .next m x
  prev : A.get .prev m' x =
    if x = A.get .next m a ∧ A.get .next m a ≠ 0 then A.get .prev m a else A.get .prev m x
  size : A.get .size m' x = A.get .size m x
  flags : A.get .flags m' x = A.get .flags m x

section
variable (h : Shape A fl m rs items) (ha : Header A fl rs a) (hp : Header A fl rs (A.get .prev m a))
include h ha hp

theorem Shape.links_kept (hne : a ≠ A.get .prev m a) :
    A.get .next (A.set .next m (A.get .prev m a) (A.get .next m a)) a = A.get .next m a ∧
    A.get .prev (A.set .next m (A.get .prev m a) (A.get .next m a)) a = A.get .prev m a := by
  constructor
  · rw [h.get_set ha hp, if_neg]
    rintro ⟨he, -⟩
    exact hne he
  · rw [h.get_set ha hp, if_neg]
    rintro ⟨-, he⟩
    cases he

theorem Shape.removed (hn : A.get .next m a ≠ 0 → Header A fl rs (A.get .next m a))
    (hne : a ≠ A.get .prev m a) (hx : Header A fl rs x) : Removed A m (removeNode A m a) a x := by
  obtain ⟨hn₁, hp₁⟩ := h.links_kept ha hp hne
  have hget (f : Field) : A.get f (removeNode A m a) x =
      if (x = A.get .next m a ∧ A.get .next m a ≠ 0) ∧ f = .prev then A.get .prev m a
      else if x = A.get .prev m a ∧ f = .next then A.get .next m a else A.get f m x := by
    unfold removeNode
    simp only [hn₁, hp₁]
    rw [h.get_put_prev hx hn (A.get_lt .prev m a), h.get_put hx hp (A.get_lt .next m a)]
  constructor
  · simp only [hget, reduceCtorEq, and_false, and_true, if_false]
  · simp only [hget, reduceCtorEq, and_false, and_true, if_false]
  · simp only [hget, reduceCtorEq, and_false, if_false]
  · simp only [hget, reduceCtorEq, and_false, if_false]

theorem Shape.removeNode_only (hn : A.get .next m a ≠ 0 → Header A fl rs (A.get .next m a))
    (hne : a ≠ A.get .prev m a) : Only A (Header A fl rs) m (removeNode A m a) := by
  obtain ⟨hn₁, hp₁⟩ := h.links_kept ha hp hne
  have hset := (Only.refl A (Header A fl rs) m).set (f := .next) (v := A.get .next m a) hp
  unfold removeNode
  simp only [hn₁, hp₁]
  split
  · rename_i h0
    exact hset.set (hn h0)
  · exact hset

end

structure Linked (A : Abi) (m m' : Bytes) (a p n x : Nat) : Prop where
  next : A.get .next m' x = if x = p then a else if x = a then n else A.get .next m x
  prev : A.get .prev m' x = if x = a then p else if x = n ∧ n ≠ 0 then a else A.get .prev m x
  size : A.get .size m' x = A.get .size m x
  flags : A.get .flags m' x = A.get .flags m x

theorem Shape.linked (h : Shape A fl m rs items) (ha : Header A fl rs a) (hp : Header A fl rs p)
    (hn : n ≠ 0 → Header A fl rs n) (hap : a ≠ p) (han : a ≠ n)
    (hx : Header A fl rs x) : Linked A m (linkNode A m a p n) a p n x := by
  have hlt {y : Nat} (hy : Header A fl rs y) : y < 256 ^ A.ptr := by
    have hlt := h.header_lt hy
    have hs := A.nodeS_def
    unfold Abi.top at hlt
    omega
  have hnlt : n < 256 ^ A.ptr := by
    by_cases h0 : n = 0
    · rw [h0]
      exact Nat.zero_lt_of_lt (hlt ha)
    · exact hlt (hn h0)
  have hget (f : Field) : A.get f (linkNode A m a p n) x =
      if (x = n ∧ n ≠ 0) ∧ f = .prev then a
      else if x = a ∧ f = .next then n else if x = a ∧ f = .prev then p
      else if x = p ∧ f = .next then a else A.get f m x := by
    unfold linkNode
    rw [h.get_put_prev hx hn (hlt ha), h.get_put hx ha hnlt, h.get_put hx ha (hlt hp),
      h.get_put hx hp (hlt ha)]
  constructor
  · simp only [hget, reduceCtorEq, and_false, and_true, if_false]
    by_cases hxp : x = p
    · rw [if_pos hxp, if_pos hxp, if_neg]
      exact fun hxa => hap (hxa.symm.trans hxp)
    · simp only [if_neg hxp]
  · simp only [hget, reduceCtorEq, and_false, and_true, if_false]
    by_cases hxa : x = a
    · rw [if_pos hxa, if_pos hxa, if_neg]
      exact fun hxn => han (hxa.symm.trans hxn.1)
    · simp only [if_neg hxa]
  · simp only [hget, reduceCtorEq, and_false, if_false]
  · simp only [hget, reduceCtorEq, and_false, if_false]

theorem linkNode_only {H : Nat → Prop} (ha : H a) (hp : H p) (hn : n ≠ 0 → H n) :
    Only A H m (linkNode A m a p n) := by
  have hset := (((Only.refl A H m).set (f := .next) (v := a) hp).set (f := .prev) (v := p)
    ha).set (f := .next) (v := n) ha
  unfold linkNode
  simp only
  split
  · rename_i h0
    exact hset.set (hn h0)
  · exact hset

theorem Shape.others_apart {r r' : Region} (h : Shape A fl m (R₁ ++ r :: R₂) items)
    (hr : r' ∈ R₁ ++ R₂) :
    r'.base + r'.size A ≤ r.base ∨ r.base + r.size A ≤ r'.base := by
  have hq : (R₁ ++ r :: R₂).Pairwise fun r r' =>
      r.base + r.size A ≤ r'.base ∨ r'.base + r'.size A ≤ r.base :=
    pairwise_map.1 h.spread.apart
  obtain ⟨-, h₂, h₁⟩ := pairwise_append.1 hq
  rcases mem_append.1 hr with hr | hr
  · exact h₁ r' hr r mem_cons_self
  · exact ((pairwise_cons.1 h₂).1 r' hr).symm

theorem Shape.around_apart (h : Shape A fl m (R₁ ++ ⟨base, l ++ bs ++ t⟩ :: R₂) items)
    (ha : a = base + A.nodeS + total l) (he : e = a + total bs)
    (hc : Around A R₁ R₂ base l e s t c) : c.addr + c.size ≤ a ∨ e ≤ c.addr := by
  have hsize := region_size A ⟨base, l ++ bs ++ t⟩
  simp only [total_append] at hsize
  rcases hc with ⟨r, hr, hc⟩ | hc | hc | hc
  · have hb := region_bounds hc
    have ho := h.others_apart hr
    simp only [hsize] at ho
    omega
  · have hs : A.sentinel.size = A.nodeS := rfl
    rw [hc]
    simp only
    omega
  · have hb := cell_bounds hc
    omega
  · have hb := cell_bounds hc
    omega

theorem cells_one : Cells A (R₁ ++ ⟨base, l ++ [b] ++ t⟩ :: R₂) c ↔
    c = ⟨b, base + A.nodeS + total l, lastSize A.nodeS l⟩ ∨
    Around A R₁ R₂ base l (base + A.nodeS + total l + b.size) b.size t c := by
  rw [cells_iff, total_cons, total_nil, add_zero]
  simp only [cells, mem_singleton, lastSize]

theorem cells_prev (h : c ∈ cells a p bs) (q : Nat) : ∃ c' ∈ cells a q bs, c'.addr = c.addr := by
  cases bs with
  | nil => cases h
  | cons b =>
    rcases mem_cons.1 h with rfl | h
    · exact ⟨⟨b, a, q⟩, mem_cons_self, rfl⟩
    · exact ⟨c, mem_cons_of_mem _ h, rfl⟩

theorem Header.recut (h : Header A fl (R₁ ++ ⟨base, l ++ bs ++ t⟩ :: R₂) y)
    (ha : a = base + A.nodeS + total l) (htotal : total bs' = total bs)
    (hbs : ∀ c ∈ cells a (lastSize A.nodeS l) bs,
      ∃ c' ∈ cells a (lastSize A.nodeS l) bs', c'.addr = c.addr) :
    Header A fl (R₁ ++ ⟨base, l ++ bs' ++ t⟩ :: R₂) y := by
  rcases h with h | ⟨c, hc, rfl⟩
  · exact .inl h
  · right
    rw [cells_iff, ← ha] at hc
    simp only [cells_iff, ← ha]
    rcases hc with hc | hc | hc | hc | hc
    · obtain ⟨c', hc', he⟩ := hbs c hc
      exact ⟨c', .inl hc', he.symm⟩
    · exact ⟨c, .inr (.inl hc), rfl⟩
    · exact ⟨c, .inr (.inr (.inl hc)), rfl⟩
    · exact ⟨c, .inr (.inr (.inr (.inl hc))), rfl⟩
    · obtain ⟨c', hc', he⟩ := cells_prev hc (lastSize (lastSize A.nodeS l) bs')
      rw [← htotal] at hc'
      exact ⟨c', .inr (.inr (.inr (.inr hc'))), he.symm⟩

theorem Header.resized (h : Header A fl (R₁ ++ ⟨base, l ++ [b] ++ t⟩ :: R₂) y)
    (hs : d.size = b.size) : Header A fl (R₁ ++ ⟨base, l ++ [d] ++ t⟩ :: R₂) y := by
  apply h.recut rfl
  · simp only [total_cons, hs]
  · intro c hc
    rw [mem_singleton.1 hc]
    exact ⟨_, mem_singleton.2 rfl, rfl⟩

def InList (A : Abi) (rs : List Region) (x s : Nat) : Prop :=
  ∃ c, Cells A rs c ∧ c.linked = true ∧ c.addr = x ∧ c.size = s

def AroundInList (A : Abi) (R₁ R₂ : List Region) (base : Nat) (l : List Block) (e s : Nat)
    (t : List Block) (x z : Nat) : Prop :=
  ∃ c, Around A R₁ R₂ base l e s t c ∧ c.linked = true ∧ c.addr = x ∧ c.size = z

theorem inList_one : InList A (R₁ ++ ⟨base, l ++ [b] ++ t⟩ :: R₂) x s ↔
    (b.linked = true ∧ x = base + A.nodeS + total l ∧ s = b.size) ∨
    AroundInList A R₁ R₂ base l (base + A.nodeS + total l + b.size) b.size t x s := by
  constructor
  · rintro ⟨c, hc, hl, rfl, rfl⟩
    rcases cells_one.1 hc with rfl | hc
    · exact .inl ⟨hl, rfl, rfl⟩
    · exact .inr ⟨c, hc, hl, rfl, rfl⟩
  · rintro (⟨hl, rfl, rfl⟩ | ⟨c, hc, hl, hx, hs⟩)
    · exact ⟨_, cells_one.2 (.inl rfl), hl, rfl, rfl⟩
    · exact ⟨c, cells_one.2 (.inr hc), hl, hx, hs⟩

theorem Shape.aroundInList_ne (h : Shape A fl m (R₁ ++ ⟨base, l ++ [b] ++ t⟩ :: R₂) items)
    (ha : a = base + A.nodeS + total l)
    (hx : AroundInList A R₁ R₂ base l (a + b.size) b.size t x s) : x ≠ a := by
  obtain ⟨c, hc, -, rfl, -⟩ := hx
  have hb : A.nodeS ≤ b.size := h.sized _ (mem_append_right _ mem_cons_self) b (by simp)
  rw [ha] at hc
  have hs := h.cell_size (cells_one.2 (.inr hc))
  have hap := h.around_apart ha (by rw [ha, total_cons, total_nil]; rfl) hc
  have hn := A.nodeS_def
  omega

theorem Shape.relink (h : Shape A fl m (R₁ ++ ⟨base, l ++ [b] ++ t⟩ :: R₂) items)
    (hs : b'.size = b.size) (hl : b'.live = b.live)
    (htag : ∀ x, Header A fl (R₁ ++ ⟨base, l ++ [b] ++ t⟩ :: R₂) x →
      A.get .size m' x = A.get .size m x ∧ A.get .flags m' x = A.get .flags m x)
    (hchain : Chain (A.links m') 0 (A.head fl 0) (items'.map (Item.addr A fl)))
    (hnodup : (A.head fl 0 :: items'.map (Item.addr A fl)).Nodup)
    (hheads : ∀ i, .head i ∈ items' ↔ .head i ∈ items)
    (hnodes : ∀ x s, .node x s ∈ items' ↔ InList A (R₁ ++ ⟨base, l ++ [b'] ++ t⟩ :: R₂) x s)
    (hsorted : (Item.head 0 :: items').Pairwise fun x y => x.key ≤ y.key) :
    Shape A fl m' (R₁ ++ ⟨base, l ++ [b'] ++ t⟩ :: R₂) items' := by
  refine ⟨?_, ?_, ?_, ?_, hchain, hnodup, ?_, hnodes, hsorted⟩
  · have he : Region.extent A ⟨base, l ++ [b'] ++ t⟩ = Region.extent A ⟨base, l ++ [b] ++ t⟩ := by
      simp only [Region.extent, region_size, total_append, total_cons, total_nil, hs]
    have hsp := h.spread
    rw [map_append, map_cons] at hsp ⊢
    rw [he]
    exact hsp
  · intro r hr d hd
    simp only [mem_append, mem_cons] at hr
    have hold := h.sized
    rcases hr with hr | rfl | hr
    · exact hold r (by simp [hr]) d hd
    · have hmid := hold ⟨base, l ++ [b] ++ t⟩ (by simp)
      simp only [mem_append, mem_singleton] at hd
      rcases hd with (hd | rfl) | hd
      · exact hmid d (by simp [hd])
      · rw [hs]
        exact hmid b (by simp)
      · exact hmid d (by simp [hd])
    · exact hold r (by simp [hr]) d hd
  · intro c hc
    have hone : Cells A (R₁ ++ ⟨base, l ++ [b] ++ t⟩ :: R₂) { c with linked := b.linked } ∨
        Cells A (R₁ ++ ⟨base, l ++ [b] ++ t⟩ :: R₂) c := by
      rcases cells_one.1 hc with rfl | hc
      · left
        apply cells_one.2
        left
        obtain ⟨size, live, linked⟩ := b
        simp only at hs hl
        simp only [hs, hl]
      · rw [hs] at hc
        exact .inr (cells_one.2 (.inr hc))
    rcases hone with hc | hc
    · obtain ⟨h₁, h₂⟩ := h.tags _ hc
      obtain ⟨h₃, h₄⟩ := htag _ (.inr ⟨_, hc, rfl⟩)
      exact ⟨h₃.trans h₁, h₄.trans h₂⟩
    · obtain ⟨h₁, h₂⟩ := h.tags c hc
      obtain ⟨h₃, h₄⟩ := htag _ (.inr ⟨c, hc, rfl⟩)
      exact ⟨h₃.trans h₁, h₄.trans h₂⟩
  · intro i hi
    exact (htag _ (.inl ⟨i, hi, rfl⟩)).1.trans (h.heads i hi)
  · intro i
    rw [hheads, h.headItems]

theorem Shape.gap (h : Shape A fl m rs (J₁ ++ J₂)) :
    Header A fl rs ((J₁.map (Item.addr A fl)).getLastD (A.head fl 0)) ∧
      ((J₂.map (Item.addr A fl)).headD 0 ≠ 0 →
        Header A fl rs ((J₂.map (Item.addr A fl)).headD 0)) := by
  constructor
  · apply h.header_of_chain
    rw [map_append]
    exact getLastD_mem_append _ _ _
  · intro h0
    apply h.header_of_chain
    rw [map_append]
    exact mem_cons_of_mem _ (headD_mem_append h0 _)

theorem Shape.neighbours (h : Shape A fl m rs (I₁ ++ .node a s :: I₂)) :
    Header A fl rs a ∧ Header A fl rs (A.get .prev m a) ∧
      (A.get .next m a ≠ 0 → Header A fl rs (A.get .next m a)) ∧ a ≠ A.get .prev m a := by
  have hchain := h.chain
  have hnodup := h.nodup
  rw [map_append, map_cons] at hchain hnodup
  have hprev : A.get .prev m a = (I₁.map (Item.addr A fl)).getLastD (A.head fl 0) := hchain.drop.1
  have hnext : A.get .next m a = (I₂.map (Item.addr A fl)).headD 0 := hchain.drop.2.next_start
  have hsplit : I₁ ++ .node a s :: I₂ = (I₁ ++ [.node a s]) ++ I₂ := by simp
  refine ⟨h.header_of_item (x := .node a s) (by simp), ?_, ?_, ?_⟩
  · rw [hprev]
    exact h.gap.1
  · rw [hnext]
    rw [hsplit] at h
    exact h.gap.2
  · intro he
    have hmem := getLastD_mem_cons (l := I₁.map (Item.addr A fl)) (a := A.head fl 0)
    rw [← hprev, ← he] at hmem
    rw [← cons_append] at hnodup
    have hd := nodup_middle.1 hnodup
    exact (nodup_cons.1 hd).1 (mem_append_left _ hmem)

theorem Shape.nodes_remove
    (h : Shape A fl m (R₁ ++ ⟨base, l ++ [b] ++ t⟩ :: R₂) (I₁ ++ .node a b.size :: I₂))
    (ha : a = base + A.nodeS + total l) (x s : Nat) :
    .node x s ∈ I₁ ++ I₂ ↔
      InList A (R₁ ++ ⟨base, l ++ [{ b with linked := false }] ++ t⟩ :: R₂) x s := by
  have hold := (h.nodeItems x s).trans inList_one
  have hnot : Item.node x s ∈ I₁ ++ I₂ → x ≠ a := by
    rintro hx rfl
    have hnodup := (nodup_cons.1 h.nodup).2
    rw [map_append, map_cons] at hnodup
    have hmem : x ∈ (I₁ ++ I₂).map (Item.addr A fl) :=
      mem_map_of_mem (f := Item.addr A fl) hx
    rw [map_append] at hmem
    exact (nodup_cons.1 (nodup_middle.1 hnodup)).1 hmem
  rw [inList_one]
  constructor
  · intro hx
    have hxi : Item.node x s ∈ I₁ ++ Item.node a b.size :: I₂ := by
      simp only [mem_append, mem_cons] at hx ⊢
      exact hx.imp_right .inr
    rcases hold.1 hxi with ⟨-, he, -⟩ | hr
    · exact absurd (he.trans ha.symm) (hnot hx)
    · exact .inr hr
  · rintro (⟨hf, -⟩ | hr)
    · cases hf
    · have hxi := hold.2 (.inr hr)
      rw [← ha] at hr
      have hxa := h.aroundInList_ne ha hr
      simp only [mem_append, mem_cons, Item.node.injEq] at hxi ⊢
      rcases hxi with hxi | ⟨he, -⟩ | hxi
      · exact .inl hxi
      · exact absurd he hxa
      · exact .inr hxi

theorem Shape.remove (h : Shape A fl m (R₁ ++ ⟨base, l ++ [b] ++ t⟩ :: R₂) items)
    (hb : b.linked = true) (ha : a = base + A.nodeS + total l) :
    ∃ I₁ I₂, items = I₁ ++ .node a b.size :: I₂ ∧
      Only A (Header A fl (R₁ ++ ⟨base, l ++ [b] ++ t⟩ :: R₂)) m (removeNode A m a) ∧
      Shape A fl (removeNode A m a)
        (R₁ ++ ⟨base, l ++ [{ b with linked := false }] ++ t⟩ :: R₂) (I₁ ++ I₂) := by
  have hmem : Item.node a b.size ∈ items := by
    rw [h.nodeItems]
    exact inList_one.2 (.inl ⟨hb, ha, rfl⟩)
  obtain ⟨I₁, I₂, rfl⟩ := append_of_mem hmem
  obtain ⟨hah, hph, hnh, hne⟩ := h.neighbours
  have hchain := h.chain
  have hnodup := h.nodup
  have hnull := h.null_notMem
  rw [map_append, map_cons] at hchain hnodup hnull
  have haddr : Item.addr A fl (.node a b.size) = a := rfl
  rw [haddr] at hchain hnodup hnull
  have hheader {x : Nat} (hx : x ∈ A.head fl 0 :: (I₁.map (Item.addr A fl) ++
      a :: I₂.map (Item.addr A fl))) : Header A fl (R₁ ++ ⟨base, l ++ [b] ++ t⟩ :: R₂) x := by
    apply h.header_of_chain
    rw [map_append, map_cons]
    exact hx
  have hrem {x : Nat} (hx : Header A fl (R₁ ++ ⟨base, l ++ [b] ++ t⟩ :: R₂) x) :=
    h.removed hah hph hnh hne hx
  refine ⟨I₁, I₂, rfl, h.removeNode_only hah hph hnh hne,
    h.relink rfl rfl ?_ ?_ ?_ ?_ (h.nodes_remove ha) ?_⟩
  · intro x hx
    exact ⟨(hrem hx).size, (hrem hx).flags⟩
  · rw [map_append]
    apply hchain.remove hnodup hnull
    · intro y hy
      apply (hrem (hheader ?_)).next
      simp only [mem_cons, mem_append] at hy ⊢
      exact hy.imp_right (·.imp_right .inr)
    · intro y hy
      have hyc : y ∈ I₁.map (Item.addr A fl) ++ a :: I₂.map (Item.addr A fl) := by
        simp only [mem_cons, mem_append] at hy ⊢
        exact hy.imp_right .inr
      have hy0 : y ≠ 0 := by
        rintro rfl
        exact hnull hyc
      have hp := (hrem (hheader (mem_cons_of_mem _ hyc))).prev
      refine hp.trans ?_
      apply if_congr _ rfl rfl
      constructor
      · exact fun h => h.1
      · rintro rfl
        exact ⟨rfl, hy0⟩
  · rw [map_append]
    apply List.Nodup.sublist _ hnodup
    exact (List.Sublist.append_left (sublist_cons_self _ _) _).cons_cons _
  · intro i
    simp
  · apply List.Pairwise.sublist _ h.sorted
    exact (List.Sublist.append_left (sublist_cons_self _ _) _).cons_cons _

theorem Shape.split_unique (h : Shape A fl m rs (I₁ ++ x :: I₂))
    (he : I₁ ++ x :: I₂ = J₁ ++ x :: J₂) : I₁ = J₁ ∧ I₂ = J₂ := by
  have hnodup := List.Nodup.of_map (Item.addr A fl) (nodup_cons.1 h.nodup).2
  have hx := (nodup_cons.1 (nodup_middle.1 hnodup)).1
  simp only [mem_append, not_or] at hx
  obtain ⟨h₁, -, h₂⟩ := (append_cons_inj_of_notMem hx.1 hx.2).1 he
  exact ⟨h₁, h₂⟩

theorem size2iLoop_eq (k s i : Nat) (h : s < 2 ^ k) : size2iLoop k s i = i + Nat.log 2 s := by
  induction k generalizing s i with
  | zero =>
    have h0 : s = 0 := by omega
    rw [h0]
    rfl
  | succ k ih =>
    unfold size2iLoop
    rw [pow_succ] at h
    split
    · rename_i h1
      rw [ih _ _ (by rw [Nat.shiftRight_one]; omega), Nat.shiftRight_one,
        Nat.log_of_one_lt_of_le (b := 2) (n := s) (by decide) h1]
      omega
    · rename_i h1
      rw [Nat.log_of_lt (by omega)]
      rfl

theorem size2i_spec (h : s < 2 ^ 32) :
    size2i s < 32 ∧ (size2i s = 0 ∨ 2 ^ (size2i s + 4) ≤ s) ∧ s < 2 ^ (size2i s + 5) := by
  have he : size2i s = Nat.log 2 (s / 16) := by
    unfold size2i
    rw [Nat.mod_eq_of_lt h, Nat.shiftRight_eq_div_pow, size2iLoop_eq _ _ _ (by omega), zero_add]
  have hlt := Nat.lt_pow_succ_log_self (b := 2) (by decide) (s / 16)
  rw [← he] at hlt
  have hp5 : 2 ^ (size2i s + 5) = 16 * 2 ^ (size2i s).succ := by
    rw [Nat.succ_eq_add_one, pow_succ, pow_add]
    omega
  refine ⟨?_, ?_, by omega⟩
  · rw [he]
    apply Nat.log_lt_of_lt_pow' (by decide)
    omega
  · by_cases h0 : s / 16 = 0
    · left
      rw [he, h0]
      rfl
    · right
      have hle := Nat.pow_log_le_self 2 h0
      rw [← he] at hle
      rw [pow_add]
      omega

theorem Shape.at_head (h : Shape A fl m rs items) (hi : i < 32) :
    ∃ I₁ I₂, items = I₁ ++ I₂ ∧
      (I₁.map (Item.addr A fl)).getLastD (A.head fl 0) = A.head fl i ∧
      A.get .next m (A.head fl i) = (I₂.map (Item.addr A fl)).headD 0 ∧
      Item.head i ∈ Item.head 0 :: I₁ ∧
      ∀ x ∈ Item.head 0 :: I₁, x.key ≤ (Item.head i).key := by
  by_cases h0 : i = 0
  · subst h0
    refine ⟨[], items, rfl, rfl, h.chain.next_start, mem_cons_self, ?_⟩
    intro x hx
    rw [mem_singleton.1 hx]
  · obtain ⟨I, J, rfl⟩ := append_of_mem ((h.headItems i).2 ⟨Nat.pos_of_ne_zero h0, hi⟩)
    have hchain := h.chain
    rw [map_append, map_cons] at hchain
    refine ⟨I ++ [.head i], J, by simp, ?_, hchain.drop.2.next_start, by simp, ?_⟩
    · rw [map_append, map_singleton, getLastD_concat]
      rfl
    · intro x hx
      have hs := h.sorted
      rw [← cons_append] at hs
      obtain ⟨-, -, hs⟩ := pairwise_append.1 hs
      rw [← cons_append] at hx
      rcases mem_append.1 hx with hx | hx
      · exact hs x hx _ mem_cons_self
      · rw [mem_singleton.1 hx]

theorem Shape.visit (h : Shape A fl m rs items) (hsplit : items = I₁ ++ z :: I₂) :
    0 < z.addr A fl ∧ A.get .size m (z.addr A fl) = z.size ∧
      A.get .next m (z.addr A fl) = (I₂.map (Item.addr A fl)).headD 0 := by
  have hz : z ∈ items := by
    rw [hsplit]
    exact mem_append_right _ mem_cons_self
  have hchain := h.chain
  rw [hsplit, map_append, map_cons] at hchain
  exact ⟨h.item_pos hz, h.item_size hz, hchain.drop.2.next_start⟩

theorem Shape.addNodeLoop_returns (h : Shape A fl m (rs) items) (hsplit : items = I₁ ++ I₂)
    (hkey : ∀ x ∈ Item.head 0 :: I₁, x.key < 2 * s + 1) :
    Returns (fun k => addNodeLoop A m s k ((I₁.map (Item.addr A fl)).getLastD (A.head fl 0))
      ((I₂.map (Item.addr A fl)).headD 0))
      fun r => ∃ J₁ J₂, items = J₁ ++ J₂ ∧ I₁ ⊆ J₁ ∧
        r = ((J₁.map (Item.addr A fl)).getLastD (A.head fl 0),
          (J₂.map (Item.addr A fl)).headD 0) ∧
        (∀ x ∈ Item.head 0 :: J₁, x.key < 2 * s + 1) ∧
        ∀ z, J₂.head? = some z → z.size = 0 ∨ s ≤ z.size := by
  induction I₂ generalizing I₁ with
  | nil =>
    apply Returns.round (.pure ⟨I₁, [], hsplit, List.Subset.refl _, rfl, hkey, nofun⟩) rfl
    intro k
    rfl
  | cons z I₂ ih =>
    obtain ⟨hpos, hsize, hnext⟩ := h.visit hsplit
    by_cases hc : z.size ≠ 0 ∧ z.size < s
    · have hlast : ((I₁ ++ [z]).map (Item.addr A fl)).getLastD (A.head fl 0) = z.addr A fl := by
        rw [map_append, map_singleton, getLastD_concat]
      have hkey' : ∀ x ∈ Item.head 0 :: (I₁ ++ [z]), x.key < 2 * s + 1 := by
        intro x hx
        rw [← cons_append] at hx
        rcases mem_append.1 hx with hx | hx
        · exact hkey x hx
        · rw [mem_singleton.1 hx]
          cases z with
          | head => exact absurd rfl hc.1
          | node a z =>
            have hlt : z < s := hc.2
            simp only [Item.key]
            omega
      have hsplit' : items = (I₁ ++ [z]) ++ I₂ := by simp [hsplit]
      have hr := ih hsplit' hkey'
      rw [hlast] at hr
      apply Returns.round (hr.mono ?_) rfl
      · intro k
        simp only [map_cons, headD_cons, addNodeLoop, hsize, hnext]
        rw [if_pos ⟨by omega, hc⟩]
      · rintro r ⟨J₁, J₂, hJ, hsub, hrest⟩
        exact ⟨J₁, J₂, hJ, fun x hx => hsub (mem_append_left _ hx), hrest⟩
    · have hstop : ∀ y, (z :: I₂).head? = some y → y.size = 0 ∨ s ≤ y.size := by
        intro y hy
        cases hy
        omega
      apply Returns.round
        (.pure ⟨I₁, z :: I₂, hsplit, List.Subset.refl _, rfl, hkey, hstop⟩) rfl
      intro k
      simp only [map_cons, headD_cons, addNodeLoop, hsize]
      exact if_neg fun h => hc h.2

theorem Shape.notMem_chain (h : Shape A fl m (R₁ ++ ⟨base, l ++ [b] ++ t⟩ :: R₂) items)
    (hb : b.linked = false) (ha : a = base + A.nodeS + total l) :
    a ∉ A.head fl 0 :: items.map (Item.addr A fl) := by
  have hcell : Cells A (R₁ ++ ⟨base, l ++ [b] ++ t⟩ :: R₂) ⟨b, a, lastSize A.nodeS l⟩ := by
    rw [ha]
    exact cells_one.2 (.inl rfl)
  have hzone (i : Nat) (hi : i < 32) : a ≠ A.head fl i := by
    have ho := h.cell_off_zone hcell
    have hs := h.cell_size hcell
    have hd := head_bounds A fl hi
    have hn := A.nodeS_def
    simp only at ho hs
    omega
  intro hm
  rcases mem_cons.1 hm with hm | hm
  · exact hzone 0 (by decide) hm
  · obtain ⟨x, hx, he⟩ := mem_map.1 hm
    cases x with
    | head i => exact hzone i ((h.headItems i).1 hx).2 he.symm
    | node x s =>
      have he : x = a := he
      rcases inList_one.1 ((h.nodeItems x s).1 hx) with ⟨hl, -⟩ | hr
      · rw [hb] at hl
        cases hl
      · rw [← ha] at hr
        exact h.aroundInList_ne ha hr he

section
variable (h : Shape A fl m (R₁ ++ ⟨base, l ++ [b] ++ t⟩ :: R₂) (J₁ ++ J₂)) (hb : b.linked = false)
  (ha : a = base + A.nodeS + total l)
include h hb ha

theorem Shape.nodes_link (x s : Nat) :
    .node x s ∈ J₁ ++ .node a b.size :: J₂ ↔
      InList A (R₁ ++ ⟨base, l ++ [{ b with linked := true }] ++ t⟩ :: R₂) x s := by
  have hold := (h.nodeItems x s).trans inList_one
  rw [inList_one, mem_append, mem_cons, ← ha]
  rw [mem_append, ← ha, hb] at hold
  have hother (hx : Item.node x s ∈ J₁ ∨ Item.node x s ∈ J₂) :
      AroundInList A R₁ R₂ base l (a + b.size) b.size t x s :=
    (hold.1 hx).resolve_left fun hl => Bool.false_ne_true hl.1
  constructor
  · rintro (hx | hx | hx)
    · exact .inr (hother (.inl hx))
    · cases hx
      exact .inl ⟨rfl, rfl, rfl⟩
    · exact .inr (hother (.inr hx))
  · rintro (⟨-, rfl, rfl⟩ | hr)
    · exact .inr (.inl rfl)
    · exact (hold.2 (.inr hr)).imp_right .inr

theorem Shape.link (hle : ∀ x ∈ Item.head 0 :: J₁, x.key ≤ 2 * b.size + 1)
    (hge : ∀ x ∈ J₂, 2 * b.size + 1 ≤ x.key) :
    Shape A fl (linkNode A m a ((J₁.map (Item.addr A fl)).getLastD (A.head fl 0))
      ((J₂.map (Item.addr A fl)).headD 0))
      (R₁ ++ ⟨base, l ++ [{ b with linked := true }] ++ t⟩ :: R₂) (J₁ ++ .node a b.size :: J₂) := by
  have hout := h.notMem_chain hb ha
  have hchain := h.chain
  have hnodup := h.nodup
  have hnull := h.null_notMem
  rw [map_append] at hchain hnodup hnull hout
  have haddr : Item.addr A fl (.node a b.size) = a := rfl
  have hah : Header A fl (R₁ ++ ⟨base, l ++ [b] ++ t⟩ :: R₂) a :=
    .inr ⟨_, cells_one.2 (.inl rfl), ha⟩
  have hapos : a ≠ 0 := by
    have hn := A.nodeS_def
    omega
  have hap : a ≠ (J₁.map (Item.addr A fl)).getLastD (A.head fl 0) := by
    intro he
    apply hout
    rw [he]
    exact getLastD_mem_append _ _ _
  have han : a ≠ (J₂.map (Item.addr A fl)).headD 0 := by
    intro he
    apply hout
    rw [he]
    rw [he] at hapos
    exact mem_cons_of_mem _ (headD_mem_append hapos _)
  have hlink {x : Nat} (hx : Header A fl (R₁ ++ ⟨base, l ++ [b] ++ t⟩ :: R₂) x) :=
    h.linked hah h.gap.1 h.gap.2 hap han hx
  have hheader {x : Nat} (hx : x ∈ A.head fl 0 :: (J₁.map (Item.addr A fl) ++
      a :: J₂.map (Item.addr A fl))) : Header A fl (R₁ ++ ⟨base, l ++ [b] ++ t⟩ :: R₂) x := by
    rw [← cons_append] at hx
    rcases mem_cons.1 (perm_middle.mem_iff.1 hx) with rfl | hx
    · exact hah
    · apply h.header_of_chain
      rw [map_append]
      exact hx
  have hnodup' :
      (A.head fl 0 :: (J₁.map (Item.addr A fl) ++ a :: J₂.map (Item.addr A fl))).Nodup := by
    rw [← cons_append, nodup_middle, cons_append]
    exact nodup_cons.2 ⟨hout, hnodup⟩
  have hnull' : 0 ∉ J₁.map (Item.addr A fl) ++ a :: J₂.map (Item.addr A fl) := by
    intro hm
    rcases mem_cons.1 (perm_middle.mem_iff.1 hm) with hm | hm
    · exact hapos hm.symm
    · exact hnull hm
  refine h.relink rfl rfl ?_ ?_ ?_ ?_ (h.nodes_link hb ha) ?_
  · intro x hx
    exact ⟨(hlink hx).size, (hlink hx).flags⟩
  · rw [map_append, map_cons, haddr]
    apply hchain.insert hnodup' hnull'
    · intro y hy
      exact (hlink (hheader hy)).next
    · intro y hy
      have hy0 : y ≠ 0 := by
        rintro rfl
        exact hnull' hy
      refine (hlink (hheader (mem_cons_of_mem _ hy))).prev.trans ?_
      apply if_congr Iff.rfl rfl
      apply if_congr _ rfl rfl
      constructor
      · exact fun h => h.1
      · rintro rfl
        exact ⟨rfl, hy0⟩
  · rw [map_append, map_cons, haddr]
    exact hnodup'
  · intro i
    simp
  · have hs := h.sorted
    rw [← cons_append] at hs ⊢
    obtain ⟨h₁, h₂, h₁₂⟩ := pairwise_append.1 hs
    apply pairwise_append.2
    refine ⟨h₁, pairwise_cons.2 ⟨hge, h₂⟩, ?_⟩
    intro x hx y hy
    rcases mem_cons.1 hy with rfl | hy
    · exact hle x hx
    · exact h₁₂ x hx y hy

end

theorem Shape.head_lt (h : Shape A fl m rs (J₁ ++ .head j :: J₂))
    (hi : Item.head i ∈ Item.head 0 :: J₁) : i < j := by
  have hj := (h.headItems j).1 (by simp)
  have hsorted := h.sorted
  rw [← cons_append] at hsorted
  have hkey := (pairwise_append.1 hsorted).2.2 _ hi _ mem_cons_self
  have hne : i ≠ j := by
    rintro rfl
    rcases mem_cons.1 hi with hh | hh
    · injection hh with hh
      omega
    · have hnd := (nodup_cons.1 h.nodup).2
      rw [map_append, map_cons] at hnd
      apply (nodup_cons.1 (nodup_middle.1 hnd)).1
      exact mem_append_left _ (mem_map_of_mem hh)
  simp only [Item.key] at hkey
  rw [if_neg (by omega : ¬j = 0)] at hkey
  split at hkey
  · omega
  · have hle := (Nat.pow_le_pow_iff_right (by decide : 1 < 2)).1 hkey
    omega

theorem Shape.keys_behind (h : Shape A fl m rs (J₁ ++ J₂)) (hup : s < 2 ^ (i + 5))
    (hhead : Item.head i ∈ Item.head 0 :: J₁)
    (hstop : ∀ z, J₂.head? = some z → z.size = 0 ∨ s ≤ z.size) :
    ∀ x ∈ J₂, 2 * s + 1 ≤ x.key := by
  cases J₂ with
  | nil => exact nofun
  | cons z =>
    have hz : 2 * s + 1 ≤ z.key := by
      cases z with
      | node x r =>
        obtain ⟨c, hc, -, -, hs⟩ := (h.nodeItems x r).1 (by simp)
        have hcs := h.cell_size hc
        have hn := A.nodeS_def
        have hst := hstop _ rfl
        simp only [Item.size] at hst
        simp only [Item.key]
        omega
      | head j =>
        have hij := h.head_lt hhead
        have hpow : 2 ^ (i + 6) ≤ 2 ^ (j + 5) := Nat.pow_le_pow_right (by decide) (by omega)
        have hp6 : 2 ^ (i + 6) = 2 * 2 ^ (i + 5) := Nat.pow_succ'
        simp only [Item.key]
        rw [if_neg (by omega : ¬j = 0)]
        omega
    have hsorted := h.sorted
    rw [← cons_append] at hsorted
    have hbehind := (pairwise_append.1 hsorted).2.1
    intro y hy
    rcases mem_cons.1 hy with rfl | hy
    · exact hz
    · exact le_trans hz ((pairwise_cons.1 hbehind).1 y hy)

theorem Shape.addNode (h : Shape A fl m (R₁ ++ ⟨base, l ++ [b] ++ t⟩ :: R₂) items)
    (hb : b.linked = false) (ha : a = base + A.nodeS + total l) :
    Returns (fun k => mdxFlAddNode A k m fl a) fun m' => ∃ J₁ J₂, items = J₁ ++ J₂ ∧
      (∀ x ∈ J₁, x.key < 2 * b.size + 1) ∧ (∀ x ∈ J₂, 2 * b.size + 1 ≤ x.key) ∧
      Only A (Header A fl (R₁ ++ ⟨base, l ++ [b] ++ t⟩ :: R₂)) m m' ∧
      Shape A fl m' (R₁ ++ ⟨base, l ++ [{ b with linked := true }] ++ t⟩ :: R₂)
        (J₁ ++ .node a b.size :: J₂) := by
  have hcell : Cells A (R₁ ++ ⟨base, l ++ [b] ++ t⟩ :: R₂) ⟨b, a, lastSize A.nodeS l⟩ := by
    rw [ha]
    exact cells_one.2 (.inl rfl)
  have hsize : A.get .size m a = b.size := (h.tags _ hcell).1
  have hlt : b.size < 2 ^ 31 := (h.cell_lt hcell).2
  have hpos : A.nodeS ≤ b.size := h.cell_size hcell
  obtain ⟨hi, hlow, hup⟩ := size2i_spec (s := b.size) (by omega)
  obtain ⟨I₁, I₂, rfl, hlast, hnext, hhead, hkeys⟩ := h.at_head hi
  have hkey : ∀ x ∈ Item.head 0 :: I₁, x.key < 2 * b.size + 1 := by
    intro x hx
    apply Nat.lt_succ_of_le
    apply le_trans (hkeys x hx)
    simp only [Item.key]
    split
    · omega
    · have hp : 2 ^ (size2i b.size + 5) = 2 * 2 ^ (size2i b.size + 4) := Nat.pow_succ'
      omega
  have hr := h.addNodeLoop_returns rfl hkey
  unfold mdxFlAddNode
  simp only [hsize, hnext]
  rw [hlast] at hr
  apply hr.map
  rintro r ⟨J₁, J₂, hJ, hsub, rfl, hlt, hstop⟩
  rw [hJ] at h
  have hhead' : Item.head (size2i b.size) ∈ Item.head 0 :: J₁ :=
    cons_subset_cons _ hsub hhead
  have hge := h.keys_behind hup hhead' hstop
  have hle : ∀ x ∈ Item.head 0 :: J₁, x.key ≤ 2 * b.size + 1 :=
    fun x hx => le_of_lt (hlt x hx)
  refine ⟨J₁, J₂, hJ, fun x hx => hlt x (mem_cons_of_mem _ hx), hge, ?_,
    h.link hb ha hle hge⟩
  exact linkNode_only (.inr ⟨_, hcell, rfl⟩) h.gap.1 h.gap.2

end
end Mdepx.Heap
