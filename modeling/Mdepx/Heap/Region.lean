import Mdepx.Heap.Alloc

namespace Mdepx.Heap
open Lib List

/-! `mdx_fl_init` and `mdx_fl_add_region`. -/

section
variable {A : Abi} {m m' : Bytes} {fl : Nat} {rs : List Region} {items : List Item}

theorem head_get_set (A : Abi) (f g : Field) (m : Bytes) (fl i j v : Nat) :
    A.get f (A.set g m (A.head fl j) v) (A.head fl i) =
      if i = j ∧ f = g then v % 256 ^ A.len f else A.get f m (A.head fl i) := by
  by_cases h : i = j
  · subst h
    rw [Abi.get_set_same]
    simp only [true_and]
  · rw [Abi.get_set_apart (head_apart A fl h), if_neg fun hc => h hc.1]

structure Threaded (A : Abi) (fl j : Nat) (m : Bytes) (i : Nat) : Prop where
  next : A.get .next m (A.head fl i) = if i < j then A.head fl (i + 1) else 0
  prev : A.get .prev m (A.head fl i) = if 0 < i ∧ i ≤ j then A.head fl (i - 1) else 0
  size : A.get .size m (A.head fl i) = 0

theorem initHead_threaded (hz : fl + 32 * A.nodeS ≤ A.top) (hj : j < 31)
    (h : ∀ i < 32, Threaded A fl j m i) (hi : i < 32) :
    Threaded A fl (j + 1) (initHead A fl m (j + 1)) i := by
  have hmod {k : Nat} (hk : k < 32) : A.head fl k % 256 ^ A.ptr = A.head fl k := by
    have hb := head_bounds A fl hk
    have hn := A.nodeS_def
    apply Nat.mod_eq_of_lt
    change A.head fl k < A.top
    omega
  have hnext : A.len .next = A.ptr := rfl
  have hprev : A.len .prev = A.ptr := rfl
  obtain ⟨hin, hip, his⟩ := h i hi
  unfold initHead
  rw [Nat.add_sub_cancel]
  constructor
  · rw [head_get_set, head_get_set, hnext, hmod (k := j + 1) (by omega), hin]
    simp only [reduceCtorEq, and_false, if_false, and_true]
    by_cases hij : i = j
    · rw [if_pos hij, if_pos (by omega), hij]
    · rw [if_neg hij]
      by_cases hlt : i < j
      · rw [if_pos hlt, if_pos (by omega)]
      · rw [if_neg hlt, if_neg (by omega)]
  · rw [head_get_set, head_get_set, hprev, hmod (k := j) (by omega), hip]
    simp only [reduceCtorEq, and_false, if_false, and_true]
    by_cases hij : i = j + 1
    · rw [if_pos hij, if_pos (by omega), hij, Nat.add_sub_cancel]
    · rw [if_neg hij]
      by_cases hle : 0 < i ∧ i ≤ j
      · rw [if_pos hle, if_pos (by omega)]
      · rw [if_neg hle, if_neg (by omega)]
  · rw [head_get_set, head_get_set]
    simp only [reduceCtorEq, and_false, if_false]
    exact his

theorem init_threaded (hz : fl + 32 * A.nodeS ≤ A.top) (hj : j ≤ 31) :
    ∀ i < 32, Threaded A fl j
      ((range' 1 j).foldl (initHead A fl) (m.fill fl (A.nodeS * 32) 0)) i := by
  induction j with
  | zero =>
    intro i hi
    have hb := head_bounds A fl hi
    have hget (f : Field) : A.get f (m.fill fl (A.nodeS * 32) 0) (A.head fl i) = 0 := by
      have hf := A.off_len f
      exact Bytes.load_fill_zero (by omega)
    constructor
    · rw [if_neg (Nat.not_lt_zero i)]
      exact hget .next
    · rw [if_neg (by omega)]
      exact hget .prev
    · exact hget .size
  | succ j ih =>
    intro i hi
    rw [range'_1_concat, foldl_append, add_comm 1 j]
    exact initHead_threaded hz hj (ih (by omega)) hi

theorem chain_heads (h : ∀ i < 32, Threaded A fl 31 m i) (hi : i + n = 31) :
    Chain (A.links m) 0 (A.head fl i)
      (((range' (i + 1) n).map Item.head).map (Item.addr A fl)) := by
  induction n generalizing i with
  | zero =>
    have hn := (h i (by omega)).next
    rw [if_neg (by omega)] at hn
    exact hn
  | succ n ih =>
    have hn := (h i (by omega)).next
    have hp := (h (i + 1) (by omega)).prev
    rw [if_pos (by omega)] at hn
    rw [if_pos (by omega), Nat.add_sub_cancel] at hp
    rw [range'_succ, map_cons, map_cons]
    exact ⟨⟨hn, hp⟩, ih (by omega)⟩

theorem mdxFlInit_outside (hy : y < fl ∨ fl + 32 * A.nodeS ≤ y) : mdxFlInit A m fl y = m y := by
  have hset {f : Field} {m : Bytes} {i v : Nat} (hi : i < 32) :
      A.set f m (A.head fl i) v y = m y := by
    have hb := head_bounds A fl hi
    exact Abi.set_outside (by omega)
  have hloop (is : List Nat) (his : ∀ i ∈ is, i < 32) (m : Bytes) :
      is.foldl (initHead A fl) m y = m y := by
    induction is generalizing m with
    | nil => rfl
    | cons i is ih =>
      obtain ⟨hi, his⟩ := forall_mem_cons.1 his
      rw [foldl_cons, ih his, initHead, hset hi, hset (by omega)]
  unfold mdxFlInit
  rw [hloop _ (by decide)]
  exact Bytes.fill_of_outside (by omega)

theorem mdxFlInit_zone (m : Bytes) (hz : fl + 32 * A.nodeS ≤ A.top) :
    Zone A fl (mdxFlInit A m fl) [] := by
  have h : ∀ i < 32, Threaded A fl 31 (mdxFlInit A m fl) i := init_threaded hz (le_refl 31)
  have hall : Item.head 0 :: (range' 1 31).map Item.head = (range' 0 32).map Item.head :=
    rfl
  refine ⟨⟨(range' 1 31).map .head, ⟨hz, nofun, nofun, .nil⟩, nofun, ?_, ?_, ?_, ?_, ?_, ?_,
    ?_⟩, nofun⟩
  · rintro c ⟨r, hr, -⟩
    cases hr
  · intro i hi
    exact (h i hi).size
  · exact chain_heads h rfl
  · have hmap : A.head fl 0 :: ((range' 1 31).map Item.head).map (Item.addr A fl) =
        (range' 0 32).map (A.head fl) := rfl
    rw [hmap]
    apply List.Nodup.map_on _ nodup_range'
    intro i _ j _ he
    by_contra hij
    have hap := head_apart A fl hij
    have hn := A.nodeS_def
    omega
  · intro i
    simp only [mem_map, mem_range'_1, Item.head.injEq, exists_eq_right]
    omega
  · intro x s
    constructor
    · intro hx
      simp at hx
    · rintro ⟨c, ⟨r, hr, -⟩, -⟩
      cases hr
  · rw [hall]
    apply List.Pairwise.map (R := fun i j => i < j) _ _ pairwise_lt_range'
    intro i j hij
    simp only [Item.key]
    rw [if_neg (by omega : ¬j = 0)]
    split
    · exact Nat.zero_le _
    · exact Nat.pow_le_pow_right (by decide) (by omega)

theorem Shape.extend {r : Region} (h : Shape A fl m rs items)
    (hbound : r.base + r.size A ≤ A.top ∧ r.size A < 2 ^ 31)
    (hoff : r.base + r.size A ≤ fl ∨ fl + 32 * A.nodeS ≤ r.base)
    (hap : ∀ r' ∈ rs, r'.base + r'.size A ≤ r.base ∨ r.base + r.size A ≤ r'.base)
    (hsized : ∀ b ∈ r.blocks, A.nodeS ≤ b.size) (hfree : ∀ b ∈ r.blocks, b.linked = false)
    (hm : ∀ x, x < r.base ∨ r.base + r.size A ≤ x → m' x = m x)
    (htags : ∀ c ∈ r.cells A, Tagged A m' c) : Shape A fl m' (rs ++ [r]) items := by
  have hcells {c : Cell} : Cells A (rs ++ [r]) c ↔ Cells A rs c ∨ c ∈ r.cells A := by
    constructor
    · rintro ⟨r', hr', hc⟩
      rcases mem_append.1 hr' with hr' | hr'
      · exact .inl ⟨r', hr', hc⟩
      · rw [mem_singleton.1 hr'] at hc
        exact .inr hc
    · rintro (⟨r', hr', hc⟩ | hc)
      · exact ⟨r', mem_append_left _ hr', hc⟩
      · exact ⟨r, mem_append_right _ mem_cons_self, hc⟩
  have hkeep : Shape A fl m' rs items := by
    apply h.frame_bytes
    intro y hy x hx hx'
    apply (hm x _).symm
    rcases hy with ⟨i, hi, rfl⟩ | ⟨c, hc, rfl⟩
    · have hb := head_bounds A fl hi
      omega
    · have hs := h.cell_size hc
      obtain ⟨r', hr', hc⟩ := hc
      have hb := region_bounds hc
      have ha := hap r' hr'
      omega
  refine ⟨⟨h.spread.zone, ?_, ?_, ?_⟩, ?_, ?_, hkeep.heads, hkeep.chain, h.nodup, h.headItems, ?_,
    h.sorted⟩
  · rw [map_append, forall_mem_append]
    exact ⟨h.spread.bound, by simpa [Region.extent] using hbound⟩
  · rw [map_append, forall_mem_append]
    exact ⟨h.spread.off, by simpa [Region.extent] using hoff⟩
  · rw [map_append]
    apply pairwise_append.2
    refine ⟨h.spread.apart, pairwise_singleton _ _, ?_⟩
    intro e he e' he'
    obtain ⟨r', hr', rfl⟩ := mem_map.1 he
    rw [mem_singleton.1 he']
    exact hap r' hr'
  · rw [forall_mem_append]
    exact ⟨h.sized, by simpa using hsized⟩
  · intro c hc
    rcases hcells.1 hc with hc | hc
    · exact hkeep.tags c hc
    · exact htags c hc
  · intro x s
    rw [h.nodeItems]
    constructor
    · rintro ⟨c, hc, hrest⟩
      exact ⟨c, hcells.2 (.inl hc), hrest⟩
    · rintro ⟨c, hc, hl, hrest⟩
      rcases hcells.1 hc with hc | hc
      · exact ⟨c, hc, hl, hrest⟩
      · have hf := hfree _ (cell_mem (linked_cell hc hl))
        rw [hl] at hf
        cases hf

theorem Shape.apart_of_unlinked (h : Shape A fl m rs items) (hc : Cells A rs c)
    (hl : c.linked = false) (hx : x ∈ A.head fl 0 :: items.map (Item.addr A fl)) :
    x + A.nodeS ≤ c.addr ∨ c.addr + A.nodeS ≤ x := by
  have hn := A.nodeS_def
  have hcs := h.cell_size hc
  have hhead {i : Nat} (hi : i < 32) :
      A.head fl i + A.nodeS ≤ c.addr ∨ c.addr + A.nodeS ≤ A.head fl i := by
    have hb := head_bounds A fl hi
    have ho := h.cell_off_zone hc
    omega
  rcases mem_cons.1 hx with rfl | hx
  · exact hhead (by decide)
  · obtain ⟨y, hy, rfl⟩ := mem_map.1 hx
    cases y with
    | head i => exact hhead ((h.headItems i).1 hy).2
    | node x s =>
      obtain ⟨d, hd, hdl, rfl, -⟩ := (h.nodeItems x s).1 hy
      have hds := h.cell_size hd
      rcases h.cells_apart hc hd with rfl | ha
      · rw [hl] at hdl
        cases hdl
      · simp only [Item.addr]
        omega

theorem Shape.head_mem (h : Shape A fl m rs items) (hi : i < 32) :
    A.head fl i ∈ A.head fl 0 :: items.map (Item.addr A fl) := by
  by_cases h0 : i = 0
  · rw [h0]
    exact mem_cons_self
  · apply mem_cons_of_mem
    exact mem_map_of_mem ((h.headItems i).2 ⟨Nat.pos_of_ne_zero h0, hi⟩)

theorem set_comm (h : a + A.nodeS ≤ b ∨ b + A.nodeS ≤ a) :
    A.set f (A.set g m a v) b w = A.set g (A.set f m b w) a v := by
  have hf := A.off_len f
  have hg := A.off_len g
  funext x
  simp only [Abi.set, Bytes.store]
  split
  · rw [if_neg (by omega)]
  · rfl

theorem addNodeLoop_congr {X : Nat → Prop}
    (hget : ∀ x, X x → A.get .size m' x = A.get .size m x ∧ A.get .next m' x = A.get .next m x)
    (hnext : ∀ x, X x → A.get .next m x = 0 ∨ X (A.get .next m x))
    (hp : X p) (hn : n = 0 ∨ X n) :
    addNodeLoop A m' s k p n = addNodeLoop A m s k p n ∧
      ∀ r, addNodeLoop A m s k p n = some r → X r.1 ∧ (r.2 = 0 ∨ X r.2) := by
  induction k generalizing p n with
  | zero => exact ⟨rfl, nofun⟩
  | succ k ih =>
    rcases hn with rfl | hn
    · refine ⟨rfl, ?_⟩
      intro r hr
      cases hr
      exact ⟨hp, .inl rfl⟩
    · simp only [addNodeLoop, (hget n hn).1, (hget n hn).2]
      split
      · exact ih hn (hnext n hn)
      · refine ⟨rfl, ?_⟩
        intro r hr
        cases hr
        exact ⟨hp, .inr hn⟩

theorem linkNode_comm (ha : a + A.nodeS ≤ e ∨ e + A.nodeS ≤ a)
    (hp : p + A.nodeS ≤ e ∨ e + A.nodeS ≤ p)
    (hn : n = 0 ∨ n + A.nodeS ≤ e ∨ e + A.nodeS ≤ n) :
    linkNode A (A.set f m e v) a p n = A.set f (linkNode A m a p n) e v := by
  unfold linkNode
  simp only
  rw [set_comm hp.symm, set_comm ha.symm, set_comm ha.symm]
  split
  · rename_i h0
    rw [set_comm (hn.resolve_left h0).symm]
  · rfl

def rightSentinel (A : Abi) (m : Bytes) (e K : Nat) : Bytes :=
  A.set .flags (A.set .size m e A.nodeS) e (K ||| flagAllocated)

theorem Shape.addNode_rightSentinel (h : Shape A fl (rightSentinel A m c.addr K) rs items)
    (hc : Cells A rs c) (hl : c.linked = false) (hd : Cells A rs d) (hcd : d.addr ≠ c.addr) :
    mdxFlAddNode A k (rightSentinel A m c.addr K) fl d.addr =
      (mdxFlAddNode A k m fl d.addr).map fun m => rightSentinel A m c.addr K := by
  have hget {x : Nat} (hx : x + A.nodeS ≤ c.addr ∨ c.addr + A.nodeS ≤ x) (g : Field) :
      A.get g (rightSentinel A m c.addr K) x = A.get g m x := by
    rw [rightSentinel, Abi.get_set_apart hx, Abi.get_set_apart hx]
  have hap : d.addr + A.nodeS ≤ c.addr ∨ c.addr + A.nodeS ≤ d.addr := by
    rcases h.headers_apart (.inr ⟨d, hd, rfl⟩) (.inr ⟨c, hc, rfl⟩) with he | ha
    · exact absurd he hcd
    · exact ha
  have hchain {x : Nat} (hx : x ∈ A.head fl 0 :: items.map (Item.addr A fl)) (g : Field) :
      A.get g (rightSentinel A m c.addr K) x = A.get g m x :=
    hget (h.apart_of_unlinked hc hl hx) g
  have hnext : ∀ x ∈ A.head fl 0 :: items.map (Item.addr A fl), A.get .next m x = 0 ∨
      A.get .next m x ∈ A.head fl 0 :: items.map (Item.addr A fl) := by
    intro x hx
    rw [← hchain hx .next]
    exact (h.chain.next_mem hx).imp_right (mem_cons_of_mem _)
  have hhead := h.head_mem (size2i_lt (A.get .size m d.addr))
  have hloop := addNodeLoop_congr (s := A.get .size m d.addr) (k := k)
    (fun x hx => ⟨hchain hx .size, hchain hx .next⟩) hnext hhead (hnext _ hhead)
  unfold mdxFlAddNode
  simp only [hget hap .size]
  rw [hchain hhead .next, hloop.1, Option.map_map]
  cases hr : addNodeLoop A m (A.get .size m d.addr) k (A.head fl (size2i (A.get .size m d.addr)))
      (A.get .next m (A.head fl (size2i (A.get .size m d.addr)))) with
  | none => rfl
  | some r =>
    obtain ⟨hp, hn⟩ := hloop.2 r hr
    have hp := h.apart_of_unlinked hc hl hp
    have hn := hn.imp_right (h.apart_of_unlinked hc hl)
    simp only [Option.map_some, Function.comp]
    rw [rightSentinel, linkNode_comm hap hp hn, linkNode_comm hap hp hn]
    rfl

def regionNodes (A : Abi) (m : Bytes) (base K : Nat) : Bytes :=
  let m := A.set .size m base A.nodeS
  let m := A.set .flags m base flagAllocated
  let m := A.set .size m (base + A.nodeS) K
  A.set .flags m (base + A.nodeS) A.nodeS

theorem regionNodes_outside (hy : y < base ∨ base + (2 * A.nodeS + K) ≤ y) :
    rightSentinel A (regionNodes A m base K) (base + A.nodeS + K) K y = m y := by
  unfold rightSentinel regionNodes
  rw [Abi.set_outside (by omega), Abi.set_outside (by omega), Abi.set_outside (by omega),
    Abi.set_outside (by omega), Abi.set_outside (by omega), Abi.set_outside (by omega)]

theorem Shape.newRegion (h : Shape A fl m rs items) (hK : A.nodeS ≤ K)
    (hbound : base + (2 * A.nodeS + K) ≤ A.top ∧ 2 * A.nodeS + K < 2 ^ 31)
    (hoff : base + (2 * A.nodeS + K) ≤ fl ∨ fl + 32 * A.nodeS ≤ base)
    (hap : ∀ r ∈ rs, r.base + r.size A ≤ base ∨ base + (2 * A.nodeS + K) ≤ r.base) :
    Shape A fl (rightSentinel A (regionNodes A m base K) (base + A.nodeS + K) K)
      (rs ++ [⟨base, [loose K]⟩]) items := by
  have hsize : Region.size A ⟨base, [loose K]⟩ = 2 * A.nodeS + K := by
    rw [region_size]
    rfl
  apply h.extend
  · rw [hsize]
    exact hbound
  · rw [hsize]
    exact hoff
  · intro r hr
    rw [hsize]
    exact hap r hr
  · simpa [loose] using hK
  · simp [loose]
  · intro x hx
    rw [hsize] at hx
    exact regionNodes_outside hx
  · have hab : base + A.nodeS ≤ base + A.nodeS ∨ base + A.nodeS + A.nodeS ≤ base :=
      .inl le_rfl
    have hae : base + A.nodeS ≤ base + A.nodeS + K ∨ base + A.nodeS + K + A.nodeS ≤ base :=
      .inl (by omega)
    have hbe : base + A.nodeS + A.nodeS ≤ base + A.nodeS + K ∨
        base + A.nodeS + K + A.nodeS ≤ base + A.nodeS := .inl (by omega)
    intro c hc
    have hc' : c = ⟨A.sentinel, base, 0⟩ ∨ c = ⟨loose K, base + A.nodeS, A.nodeS⟩ ∨
        c = ⟨A.sentinel, base + A.nodeS + K, K⟩ := by
      simpa [Region.cells, Region.full, cells, loose, Abi.sentinel] using hc
    unfold rightSentinel regionNodes
    rcases hc' with rfl | rfl | rfl
    · constructor
      · simp only [Abi.get_set_apart hae, Abi.get_set_apart hab]
        rw [Abi.get_set_field (by decide), get_set_size (by omega)]
        rfl
      · simp only [Abi.get_set_apart hae, Abi.get_set_apart hab]
        rw [get_set_flags (by decide)]
        exact (zero_add flagAllocated).symm
    · constructor
      · simp only [Abi.get_set_apart hbe]
        rw [Abi.get_set_field (by decide), get_set_size (by omega)]
        rfl
      · simp only [Abi.get_set_apart hbe]
        exact get_set_flags (by omega)
    · constructor
      · simp only
        rw [Abi.get_set_field (by decide), get_set_size (by omega)]
        rfl
      · simp only
        rw [or_flagAllocated (by omega), get_set_flags (tag_lt (by omega) true)]
        rfl

theorem Zone.addRegion (h : Zone A fl m rs) (hsize : 3 * A.nodeS ≤ size) (h31 : size < 2 ^ 31)
    (htop : base + size ≤ A.top) (hoff : base + size ≤ fl ∨ fl + 32 * A.nodeS ≤ base)
    (hap : ∀ r ∈ rs, r.base + r.size A ≤ base ∨ base + size ≤ r.base) :
    Returns (fun k => mdxFlAddRegion A k m fl base size) fun m' =>
      Zone A fl m' (rs ++ [⟨base, [avail (size - 2 * A.nodeS)]⟩]) ∧
      ∀ y, Outside A fl (rs.map (Region.extent A) ++ [(base, size)]) y → m' y = m y := by
  obtain ⟨⟨items, hs⟩, hset⟩ := h
  have hn := A.nodeS_def
  have h32 := A.two_pow_le_top
  obtain ⟨K, rfl⟩ := Nat.exists_eq_add_of_le (by omega : 2 * A.nodeS ≤ size)
  have hK : A.sub (2 * A.nodeS + K) (2 * A.nodeS) = K := by
    rw [Abi.sub_eq (by omega) (by omega), Nat.add_sub_cancel_left]
  have he : A.incoffset base (A.sub (2 * A.nodeS + K) A.nodeS) = base + A.nodeS + K := by
    rw [Abi.sub_eq (by omega) (by omega), Abi.incoffset_eq (by omega)]
    omega
  have hnew := hs.newRegion (by omega) ⟨htop, h31⟩ hoff hap
  have hnode : Cells A (rs ++ [⟨base, [loose K]⟩]) ⟨loose K, base + A.nodeS, A.nodeS⟩ :=
    ⟨_, mem_append_right _ mem_cons_self, mem_cons_of_mem _ mem_cons_self⟩
  have hright : Cells A (rs ++ [⟨base, [loose K]⟩]) ⟨A.sentinel, base + A.nodeS + K, K⟩ :=
    ⟨_, mem_append_right _ mem_cons_self,
      mem_cons_of_mem _ (mem_cons_of_mem _ mem_cons_self)⟩
  have hcomm (k : Nat) := hnew.addNode_rightSentinel (k := k) hright rfl hnode (by simp only; omega)
  unfold mdxFlAddRegion
  simp only [hK, he, Abi.incoffset_eq (by omega : base + A.nodeS < A.top), Nat.add_sub_cancel_left]
  have hadd : Returns (fun k => mdxFlAddNode A k
      (rightSentinel A (regionNodes A m base K) (base + A.nodeS + K) K) fl (base + A.nodeS))
      fun m' => (∃ items', Shape A fl m' (rs ++ ⟨base, [] ++ [avail K] ++ []⟩ :: []) items') ∧
        Only A (Header A fl (rs ++ [⟨base, [loose K]⟩]))
          (rightSentinel A (regionNodes A m base K) (base + A.nodeS + K) K) m' := by
    apply (Shape.addNode (l := []) (t := []) hnew rfl rfl).mono
    rintro m' ⟨J₁, J₂, -, -, -, honly, h'⟩
    exact ⟨⟨_, h'⟩, honly⟩
  simp only [hcomm] at hadd
  apply hadd.mono
  rintro m' ⟨⟨items', h'⟩, honly⟩
  refine ⟨⟨⟨items', h'⟩, ?_⟩, fun y hy => ?_⟩
  · rw [forall_mem_append]
    exact ⟨hset, by simpa using settled_avail K⟩
  · have hsize : Region.extent A ⟨base, [loose K]⟩ = (base, 2 * A.nodeS + K) := by
      rw [Region.extent, region_size]
      rfl
    have hclear : Clear A (Header A fl (rs ++ [⟨base, [loose K]⟩])) y := by
      apply hnew.clear_outside
      rw [map_append, map_singleton, hsize]
      exact hy
    rw [honly y hclear]
    exact regionNodes_outside (hy.2 _ (mem_append_right _ mem_cons_self))

end
end Mdepx.Heap
