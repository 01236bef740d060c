import Mdepx.Heap.Blocks

namespace Mdepx.Heap
open Lib List

/-! `mdx_fl_malloc` and `mdx_fl_calloc`. -/

section
variable {A : Abi} {m m' : Bytes} {fl : Nat} {rs rs' R₁ R₂ : List Region} {items : List Item}
  {l t bs : List Block}

structure Zone (A : Abi) (fl : Nat) (m : Bytes) (rs : List Region) : Prop where
  shape : ∃ items, Shape A fl m rs items
  settled : ∀ r ∈ rs, Settled r.blocks

def roundUp (n : Nat) : Nat := (n + 15) / 16 * 16

theorem and_15 (n : Nat) : n &&& 0xf = n % 16 := Nat.and_two_pow_sub_one_eq_mod n 4

namespace Abi

theorem align_eq (A : Abi) (k n : Nat) (hk : roundUp n ≤ n + k) (ht : roundUp n < A.top) :
    A.align k n = roundUp n := by
  induction k generalizing n with
  | zero =>
    unfold roundUp at *
    simp only [align]
    omega
  | succ k ih =>
    simp only [align, and_15]
    split
    · unfold roundUp
      omega
    · have he : roundUp (n + 1) = roundUp n := by
        unfold roundUp
        omega
      have hlt : n + 1 ≤ roundUp n := by
        unfold roundUp
        omega
      rw [Nat.mod_eq_of_lt (by omega), ih (n + 1) (by omega) (by omega), he]

def Fits (A : Abi) (size : Nat) : Prop := roundUp (size + A.nodeS) < A.top

instance (A : Abi) (size : Nat) : Decidable (A.Fits size) := inferInstanceAs (Decidable (_ < _))

theorem round_eq (h : A.Fits size) : A.round size = roundUp (size + A.nodeS) := by
  unfold Fits at h
  have hle : size + A.nodeS ≤ roundUp (size + A.nodeS) := by
    unfold roundUp
    omega
  unfold round
  rw [Nat.mod_eq_of_lt (by omega)]
  apply align_eq A 15 _ _ h
  unfold roundUp
  omega

theorem round_le (h : A.Fits size) :
    size + A.nodeS ≤ A.round size ∧ A.round size < A.top := by
  rw [round_eq h]
  refine ⟨?_, h⟩
  unfold roundUp
  omega

theorem incoffset_eq (h : a + n < A.top) : A.incoffset a n = a + n := Nat.mod_eq_of_lt h

theorem decoffset_eq (h : a + n < A.top) : A.decoffset (a + n) n = a := by
  unfold decoffset
  rw [Nat.add_right_comm, Nat.add_sub_cancel, Nat.add_mod_right, Nat.mod_eq_of_lt (by omega)]

theorem sub_eq (hn : n ≤ s) (hs : s < A.top) : A.sub s n = s - n := by
  unfold sub
  rw [show s + A.top - n = s - n + A.top by omega, Nat.add_mod_right, Nat.mod_eq_of_lt (by omega)]

theorem ofInt_eq (h : v < 2 ^ 31) : A.ofInt v = v := if_pos h

theorem two_pow_le_top (A : Abi) : 2 ^ 32 ≤ A.top := by
  have h := Nat.pow_le_pow_right (n := 256) (by decide) A.ptr_le
  unfold top
  omega

end Abi

theorem size2i_lt (s : Nat) : size2i s < 32 := by
  have h := (size2i_spec (s := s % 2 ^ 32) (Nat.mod_lt _ (by decide))).1
  unfold size2i at h ⊢
  rw [Nat.mod_mod] at h
  exact h

theorem Shape.mallocLoop_returns (h : Shape A fl m rs items) (hsplit : items = I₁ ++ I₂)
    (hN : 0 < N) :
    Returns (fun k => mallocLoop A m N k ((I₂.map (Item.addr A fl)).headD 0))
      fun a => (a = 0 ∧ ∀ z ∈ I₂, z.size < N) ∨
        ∃ J₁ s J₂, I₂ = J₁ ++ .node a s :: J₂ ∧ a ≠ 0 ∧ N ≤ s ∧ ∀ z ∈ J₁, z.size < N := by
  induction I₂ generalizing I₁ with
  | nil =>
    apply Returns.round (.pure (.inl ⟨rfl, nofun⟩)) rfl
    intro k
    rfl
  | cons z I₂ ih =>
    obtain ⟨hpos, hsize, hnext⟩ := h.visit hsplit
    by_cases hc : z.size < N
    · have hsplit' : items = (I₁ ++ [z]) ++ I₂ := by simp [hsplit]
      have hr := ih hsplit'
      apply Returns.round (hr.mono ?_) rfl
      · intro k
        simp only [map_cons, headD_cons, mallocLoop, hsize, hnext]
        rw [if_pos ⟨by omega, hc⟩]
      · rintro a (⟨h0, hlt⟩ | ⟨J₁, s, J₂, hJ, ha, hs, hlt⟩)
        · exact .inl ⟨h0, forall_mem_cons.2 ⟨hc, hlt⟩⟩
        · refine .inr ⟨z :: J₁, s, J₂, ?_, ha, hs, forall_mem_cons.2 ⟨hc, hlt⟩⟩
          rw [hJ]
          rfl
    · cases z with
      | head => exact absurd hN hc
      | node a s =>
        have ha : a ≠ 0 := ne_of_gt hpos
        apply Returns.round
          (.pure (.inr ⟨[], s, I₂, rfl, ha, Nat.le_of_not_lt hc, nofun⟩)) rfl
        intro k
        simp only [map_cons, headD_cons, mallocLoop, hsize]
        exact if_neg fun h => hc h.2

def takeNode (A : Abi) (m : Bytes) (node : Nat) : Bytes :=
  let m := A.set .flags m node (A.get .flags m node ||| flagAllocated)
  let m := A.set .next m node 0
  A.set .prev m node 0

theorem Shape.takeNode (h : Shape A fl m (R₁ ++ ⟨base, l ++ [loose s] ++ t⟩ :: R₂) items)
    (ha : a = base + A.nodeS + total l) :
    Shape A fl (takeNode A m a) (R₁ ++ ⟨base, l ++ [used s] ++ t⟩ :: R₂) items := by
  have hs : A.nodeS ≤ s := h.block_size
  have hlt := h.sizes_lt.1
  have hl := lastSize_le A.nodeS l
  obtain ⟨hsize, hflags⟩ := h.tag ha mem_cons_self
  have hflags : A.get .flags m a = lastSize A.nodeS l := hflags
  have hap : a + s + A.nodeS ≤ a ∨ a + A.nodeS ≤ a + s := .inr (by omega)
  apply h.mark ha
  · exact (((Within.refl A a (a + s) m).set (le_refl a) (by omega)).set (le_refl a)
      (by omega)).set (le_refl a) (by omega)
  · rw [Heap.takeNode, Abi.get_set_field (by decide), Abi.get_set_field (by decide),
      Abi.get_set_field (by decide)]
    exact hsize
  · rw [Heap.takeNode, Abi.get_set_field (by decide), Abi.get_set_field (by decide), hflags,
      or_flagAllocated (by omega), get_set_flags (tag_lt (by omega) true)]
  · rw [Heap.takeNode, Abi.get_set_apart hap, Abi.get_set_apart hap, Abi.get_set_apart hap]

theorem takeNode_only {H : Nat → Prop} (ha : H a) : Only A H m (takeNode A m a) :=
  (((Only.refl A H m).set ha).set ha).set ha

def Leftover (a s z : Nat) (I : List Item) (bs : List Block) (I' : List Item) : Prop :=
  (bs = [] ∧ s = z ∧ I' = I) ∨
    ∃ K J₁ J₂, bs = [avail K] ∧ s + K = z ∧ I = J₁ ++ J₂ ∧ I' = J₁ ++ .node (a + s) K :: J₂

theorem Leftover.blocks (h : Leftover a s z I bs I') :
    bs = [] ∧ s = z ∨ ∃ K, bs = [avail K] ∧ s + K = z := by
  rcases h with ⟨hbs, hs, -⟩ | ⟨K, -, -, hbs, hs, -⟩
  · exact .inl ⟨hbs, hs⟩
  · exact .inr ⟨K, hbs, hs⟩

theorem Leftover.le (h : Leftover a s z I bs I') : s ≤ z := by
  rcases h.blocks with ⟨-, hs⟩ | ⟨K, -, hs⟩
  · exact le_of_eq hs
  · exact Nat.le.intro hs

theorem Shape.splitNode (h : Shape A fl m (R₁ ++ ⟨base, l ++ [loose s] ++ t⟩ :: R₂) items)
    (ha : a = base + A.nodeS + total l) (hN : A.nodeS ≤ N) (hs : N ≤ s) :
    Returns (fun k => splitNode A k m fl a N) fun m' => ∃ N' bs items', N ≤ N' ∧
      Leftover a N' s items bs items' ∧
      Only A (Header A fl (R₁ ++ ⟨base, l ++ [loose N'] ++ (bs ++ t)⟩ :: R₂)) m m' ∧
      Shape A fl m' (R₁ ++ ⟨base, l ++ [loose N'] ++ (bs ++ t)⟩ :: R₂) items' := by
  obtain ⟨hlt, htop⟩ := h.sizes_lt
  simp only [total_cons, total_nil, loose] at hlt htop
  have h32 := A.two_pow_le_top
  have hn := A.nodeS_def
  have hsize : A.get .size m a = s := (h.tag ha mem_cons_self).1
  unfold Heap.splitNode
  simp only
  rw [hsize, Abi.sub_eq hs (by omega), Nat.mod_eq_of_lt (by omega), Abi.ofInt_eq (by omega),
    Abi.incoffset_eq (by omega), Abi.incoffset_eq (by omega)]
  split
  · rename_i hK
    obtain ⟨K, rfl⟩ := Nat.exists_eq_add_of_le hs
    rw [Nat.add_sub_cancel_left] at hK ⊢
    rw [← add_assoc]
    have hcut : Shape A fl (resplit A m a (a + N + K) N K)
        (R₁ ++ ⟨base, (l ++ [loose N]) ++ [loose K] ++ t⟩ :: R₂) items := by
      rw [append_assoc l]
      exact (h.recut ha (forall_mem_nil _) hN (le_of_lt hK) rfl).2
    have hnew : a + N = base + A.nodeS + total (l ++ [loose N]) := by
      rw [total_append, total_cons, total_nil, ha, add_assoc]
      rfl
    have hwrite : Only A (Header A fl (R₁ ++ ⟨base, (l ++ [loose N]) ++ [loose K] ++ t⟩ :: R₂)) m
        (resplit A m a (a + N + K) N K) := by
      rw [append_assoc l]
      refine (recut_only ?_ ?_ ?_).2
      · exact header_in ha (c := ⟨loose N, a, _⟩) mem_cons_self
      · exact header_in ha (c := ⟨loose K, a + N, N⟩) (mem_cons_of_mem _ mem_cons_self)
      · exact header_behind ha (by rw [add_assoc]; rfl)
    apply (hcut.addNode rfl hnew).mono
    rintro m' ⟨J₁, J₂, hJ, -, -, hadd, h'⟩
    have honly := (hwrite.trans hadd).mono fun y hy => hy.resized (d := avail K) rfl
    rw [append_assoc _ [_] t] at h' honly
    exact ⟨N, [avail K], _, le_refl N, .inr ⟨K, J₁, J₂, rfl, rfl, hJ, rfl⟩, honly, h'⟩
  · exact .pure ⟨s, [], items, hs, .inl ⟨rfl, rfl, rfl⟩, Only.refl _ _ m, h⟩

structure Taken (A : Abi) (fl N : Nat) (rs : List Region) (m' : Bytes) (a s : Nat)
    (rs' : List Region) : Prop where
  zone : Zone A fl m' rs'
  extents : rs'.map (Region.extent A) = rs.map (Region.extent A)
  size : N ≤ s
  fresh : ∀ x ∈ live A rs, x.1 ≠ a
  live : ∀ x, x ∈ live A rs' ↔ x = (a, s) ∨ x ∈ live A rs

theorem settled_region {r r' : Region} (h : ∀ x ∈ R₁ ++ r :: R₂, Settled x.blocks)
    (hr : Settled r'.blocks) : ∀ x ∈ R₁ ++ r' :: R₂, Settled x.blocks := by
  intro x hx
  simp only [mem_append, mem_cons] at h hx
  rcases hx with hx | rfl | hx
  · exact h x (.inl hx)
  · exact hr
  · exact h x (.inr (.inr hx))

theorem extents_eq (h : total bs = total bs') :
    (R₁ ++ ⟨base, bs⟩ :: R₂).map (Region.extent A) =
      (R₁ ++ ⟨base, bs'⟩ :: R₂).map (Region.extent A) := by
  have he : Region.extent A ⟨base, bs⟩ = Region.extent A ⟨base, bs'⟩ := by
    simp only [Region.extent, region_size, h]
  rw [map_append, map_append, map_cons, map_cons, he]

theorem Zone.taken (h : ∀ r ∈ R₁ ++ ⟨base, l ++ [avail z] ++ t⟩ :: R₂, Settled r.blocks)
    (hold : Shape A fl m (R₁ ++ ⟨base, l ++ [avail z] ++ t⟩ :: R₂) items₀)
    (ha : a = base + A.nodeS + total l) (hN : N ≤ s)
    (hbs : bs = [] ∧ s = z ∨ ∃ K, bs = [avail K] ∧ s + K = z)
    (hs : Shape A fl m' (R₁ ++ ⟨base, l ++ [used s] ++ (bs ++ t)⟩ :: R₂) items) :
    Taken A fl N (R₁ ++ ⟨base, l ++ [avail z] ++ t⟩ :: R₂) m' a s
      (R₁ ++ ⟨base, l ++ [used s] ++ (bs ++ t)⟩ :: R₂) := by
  obtain ⟨⟨hl, -⟩, ht, hst⟩ := settled_around_avail.1 (h ⟨base, l ++ [avail z] ++ t⟩ (by simp))
  have htotal : s + total bs = z := by
    rcases hbs with ⟨rfl, rfl⟩ | ⟨K, rfl, rfl⟩
    · rfl
    · rfl
  have hset : Settled (l ++ [used s] ++ (bs ++ t)) := by
    rcases hbs with ⟨rfl, -⟩ | ⟨K, rfl, -⟩
    · exact settled_around_used.2 ⟨hl, ht⟩
    · apply settled_around_used.2 ⟨hl, _⟩
      exact settled_avail_append ht hst
  have hnone (a : Nat) : liveOf a bs = [] := by
    rcases hbs with ⟨rfl, -⟩ | ⟨K, rfl, -⟩
    · rfl
    · rfl
  refine ⟨⟨⟨items, hs⟩, settled_region h hset⟩, ?_, hN, ?_, ?_⟩
  · apply extents_eq
    simp only [total_append, total_cons, total_nil, used, avail]
    omega
  · intro x hx
    apply hold.around_live ha
    rw [mem_live_region, ← ha] at hx
    exact hx.resolve_left nofun
  · intro x
    have he : base + A.nodeS + total l + total [used s] + total bs =
        base + A.nodeS + total l + total [avail z] := by
      simp only [total_cons, total_nil, used, avail]
      omega
    rw [mem_live_region, mem_live_region, liveOf_append, hnone, nil_append, he, ha]
    simp only [liveOf, used, avail, if_true, Bool.false_eq_true, if_false, append_nil,
      mem_singleton, not_mem_nil, false_or]

theorem size2i_mod (s : Nat) : size2i (s % 2 ^ 32) = size2i s := by
  unfold size2i
  rw [Nat.mod_mod]

theorem Item.size_lt_of_key {x : Item} (hN : 0 < N) (h : x.key ≤ (Item.head (size2i N)).key) :
    x.size < N := by
  cases x with
  | head => exact hN
  | node a s =>
    obtain ⟨-, hlow, -⟩ := size2i_spec (s := N % 2 ^ 32) (Nat.mod_lt _ (by decide))
    rw [size2i_mod] at hlow
    have hmod := Nat.mod_le N (2 ^ 32)
    have hp : 2 ^ (size2i N + 5) = 2 * 2 ^ (size2i N + 4) := Nat.pow_succ'
    simp only [Item.key] at h
    simp only [Item.size]
    split at h
    · omega
    · omega

structure Carved (A : Abi) (fl N : Nat) (m : Bytes) (R₁ R₂ : List Region) (base : Nat)
    (l t : List Block) (I₁ I₂ : List Item) (a z : Nat) (r : Bytes × Nat) (s : Nat)
    (bs : List Block) (I' : List Item) : Prop where
  ptr : r.2 = a + A.nodeS
  addr : a = base + A.nodeS + total l
  passed : ∀ x ∈ I₁, x.size < N
  size : N ≤ s
  rest : Leftover a s z (I₁ ++ I₂) bs I'
  only : Only A (Header A fl (R₁ ++ ⟨base, l ++ [used s] ++ (bs ++ t)⟩ :: R₂)) m r.1
  shape : Shape A fl r.1 (R₁ ++ ⟨base, l ++ [used s] ++ (bs ++ t)⟩ :: R₂) I'

/-- `mdx_fl_malloc` returns. It returns `NULL` with the memory as it was if no block of the list is
large enough, or else takes the first one that is. -/
theorem Shape.malloc (h : Shape A fl m rs items) (hset : ∀ r ∈ rs, Settled r.blocks)
    (h0 : size ≠ 0) (hf : A.Fits size) :
    Returns (fun k => mdxFlMalloc A k m fl size) fun r =>
      (r = (m, 0) ∧ ∀ x ∈ items, x.size < A.round size) ∨
      ∃ R₁ R₂ base l t I₁ I₂ a z s bs I', rs = R₁ ++ ⟨base, l ++ [avail z] ++ t⟩ :: R₂ ∧
        items = I₁ ++ .node a z :: I₂ ∧
        Carved A fl (A.round size) m R₁ R₂ base l t I₁ I₂ a z r s bs I' := by
  unfold mdxFlMalloc
  simp only [if_neg h0]
  obtain ⟨hround, htop⟩ := Abi.round_le hf
  generalize A.round size = N at hround htop
  obtain ⟨I₁, I₂, hI, -, hnext, -, hkeys⟩ := h.at_head (size2i_lt N)
  have hbefore : ∀ x ∈ I₁, x.size < N := fun x hx =>
    Item.size_lt_of_key (by omega) (hkeys x (mem_cons_of_mem _ hx))
  rw [hnext]
  apply (h.mallocLoop_returns hI (N := N) (by omega)).bind
  rintro a (⟨rfl, hsmall⟩ | ⟨J₁, s, J₂, rfl, ha, hN, hsmall⟩)
  · simp only [if_true]
    refine .pure (.inl ⟨rfl, ?_⟩)
    rw [hI]
    exact forall_mem_append.2 ⟨hbefore, hsmall⟩
  · simp only [if_neg ha]
    have hitems : items = (I₁ ++ J₁) ++ .node a s :: J₂ := by rw [hI, append_assoc]
    have hin : InList A rs a s := by
      rw [InList, ← h.nodeItems, hitems]
      simp
    obtain ⟨R₁, R₂, base, l, t, rfl, hbase⟩ := hin.split hset
    obtain ⟨K₁, K₂, rfl, honly, h'⟩ := h.remove rfl hbase
    obtain ⟨rfl, rfl⟩ := h.split_unique hitems
    apply (h'.splitNode hbase (by omega) hN).map
    rintro m' ⟨N', bs, I', hN', hrest, hwrite, hm⟩
    have hlt := hm.sizes_lt.2
    have hn := A.nodeS_def
    have hb : A.nodeS ≤ (loose N').size := hm.block_size
    simp only [total_cons, total_nil, loose] at hlt hb
    have hkeep (y : Nat) (hy : Header A fl (R₁ ++ ⟨base, l ++ [avail s] ++ t⟩ :: R₂) y) :
        Header A fl (R₁ ++ ⟨base, l ++ [used N'] ++ (bs ++ t)⟩ :: R₂) y := by
      have htotal : total ([used N'] ++ bs) = total [avail s] := by
        rcases hrest.blocks with ⟨rfl, rfl⟩ | ⟨K, rfl, rfl⟩
        · rfl
        · rfl
      rw [append_assoc l, ← append_assoc [used N'], ← append_assoc l]
      apply hy.recut rfl htotal
      intro c hc
      rw [mem_singleton.1 hc]
      exact ⟨_, mem_cons_self, rfl⟩
    refine .inr ⟨R₁, R₂, base, l, t, _, _, a, s, N', bs, I', rfl, hitems,
      Abi.incoffset_eq (by omega), hbase, forall_mem_append.2 ⟨hbefore, hsmall⟩, hN', hrest,
      ?_, hm.takeNode hbase⟩
    apply ((honly.mono hkeep).trans (hwrite.mono fun y hy => hy.resized rfl)).trans
    exact takeNode_only (header_in hbase (c := ⟨used N', a, _⟩) mem_cons_self)

theorem Zone.malloc (h : Zone A fl m rs) (hf : A.Fits size) :
    Returns (fun k => mdxFlMalloc A k m fl size) fun r => r = (m, 0) ∨
      ∃ a s rs', r.2 = a + A.nodeS ∧ Taken A fl (A.round size) rs r.1 a s rs' ∧
        Only A (Header A fl rs') m r.1 := by
  obtain ⟨⟨items, hs⟩, hset⟩ := h
  by_cases h0 : size = 0
  · simp only [mdxFlMalloc, if_pos h0]
    exact .pure (.inl rfl)
  · apply (hs.malloc hset h0 hf).mono
    rintro r (⟨hr, -⟩ | ⟨R₁, R₂, base, l, t, I₁, I₂, a, z, s, bs, I', rfl, -, hc⟩)
    · exact .inl hr
    · have ht := Zone.taken hset hs hc.addr hc.size hc.rest.blocks hc.shape
      exact .inr ⟨a, s, _, hc.ptr, ht, hc.only⟩

theorem Shape.payload (h : Shape A fl m rs items) (hc : Cells A rs c)
    (hm : ∀ y, y < c.addr + A.nodeS ∨ c.addr + c.size ≤ y → m' y = m y) :
    Shape A fl m' rs items := by
  apply h.frame_bytes
  intro y hy x hx hx'
  apply (hm x _).symm
  by_contra hin
  have hclear := h.clear_payload hc (x := x) (by omega) (by omega) y hy
  omega

theorem cells_of_live (hs : ∀ r ∈ rs, Settled r.blocks) (hx : x ∈ live A rs) :
    ∃ c, Cells A rs c ∧ c.addr = x.1 ∧ c.size = x.2 ∧ c.live = true := by
  obtain ⟨R₁, R₂, base, l, t, rfl, ha⟩ := live_split hs hx
  exact ⟨_, cells_one.2 (.inl rfl), ha.symm, rfl, rfl⟩

def Held (A : Abi) (xs : List (Nat × Nat)) (y : Nat) : Prop :=
  ∃ x ∈ xs, x.1 + A.nodeS ≤ y ∧ y < x.1 + x.2

section
variable (h : Zone A fl m rs)
include h

theorem Zone.clear_held (hy : Held A (live A rs) y) : Clear A (Header A fl rs) y := by
  obtain ⟨⟨items, hs⟩, hset⟩ := h
  obtain ⟨x, hx, hlo, hhi⟩ := hy
  obtain ⟨c, hc, ha, hsz, -⟩ := cells_of_live hset hx
  exact hs.clear_payload hc (by omega) (by omega)

theorem Zone.clear_outside (hy : Outside A fl (rs.map (Region.extent A)) y) :
    Clear A (Header A fl rs) y := by
  obtain ⟨⟨items, hs⟩, -⟩ := h
  exact hs.clear_outside hy

section
variable (hx : x ∈ live A rs)
include hx

theorem Zone.size_live : A.get .size m x.1 = x.2 := by
  obtain ⟨⟨items, hs⟩, hset⟩ := h
  obtain ⟨c, hc, hca, hcs, -⟩ := cells_of_live hset hx
  rw [← hca, ← hcs]
  exact (hs.tags c hc).1

theorem Zone.live_apart (hy : y ∈ live A rs) (hne : x ≠ y) : x.1 + x.2 ≤ y.1 ∨ y.1 + y.2 ≤ x.1 := by
  obtain ⟨⟨items, hs⟩, hset⟩ := h
  obtain ⟨c, hc, hcx, hcs, -⟩ := cells_of_live hset hx
  obtain ⟨d, hd, hdy, hds, -⟩ := cells_of_live hset hy
  rw [← hcx, ← hcs, ← hdy, ← hds]
  apply (hs.cells_apart hc hd).resolve_left
  rintro rfl
  exact hne (Prod.ext (hcx.symm.trans hdy) (hcs.symm.trans hds))

theorem Zone.live_inside (hy : Outside A fl (rs.map (Region.extent A)) y) :
    y < x.1 ∨ x.1 + x.2 ≤ y := by
  obtain ⟨c, ⟨r, hr, hc⟩, hcx, hcs, -⟩ := cells_of_live h.settled hx
  have hb := region_bounds hc
  have ho := hy.2 (r.extent A) (mem_map_of_mem hr)
  simp only [Region.extent] at ho
  omega

theorem Zone.write (hm : ∀ y, y < x.1 + A.nodeS ∨ x.1 + x.2 ≤ y → m' y = m y) :
    Zone A fl m' rs := by
  obtain ⟨⟨items, hs⟩, hset⟩ := h
  obtain ⟨c, hc, ha, hsz, -⟩ := cells_of_live hset hx
  rw [← ha, ← hsz] at hm
  exact ⟨⟨items, hs.payload hc hm⟩, hset⟩

end

end

theorem Taken.write (h : Taken A fl N rs m a s rs')
    (hm : ∀ y, y < a + A.nodeS ∨ a + s ≤ y → m' y = m y) : Taken A fl N rs m' a s rs' where
  zone := h.zone.write ((h.live (a, s)).2 (.inl rfl)) hm
  extents := h.extents
  size := h.size
  fresh := h.fresh
  live := h.live

theorem Zone.calloc (h : Zone A fl m rs) (hf : A.Fits (number * size % A.top)) :
    Returns (fun k => mdxFlCalloc A k m fl number size) fun r => r = (m, 0) ∨
      ∃ a s rs', r.2 = a + A.nodeS ∧
        Taken A fl (A.round (number * size % A.top)) rs r.1 a s rs' ∧
        (∀ y, Clear A (Header A fl rs') y → y < a + A.nodeS ∨ a + s ≤ y → r.1 y = m y) ∧
        ∀ i < number * size % A.top, r.1 (r.2 + i) = 0 := by
  unfold mdxFlCalloc
  simp only
  apply (h.malloc hf).map
  rintro ⟨m', p⟩ (he | ⟨a, s, rs', hp, ht, honly⟩)
  · cases he
    exact .inl rfl
  · right
    have hr := (Abi.round_le hf).1
    have hs := ht.size
    have hn := A.nodeS_def
    simp only at hp ht honly ⊢
    rw [if_pos (by omega : p ≠ 0)]
    have hout {y : Nat} (hy : y < a + A.nodeS ∨ a + s ≤ y) :
        m'.fill p (number * size % A.top) 0 y = m' y := Bytes.fill_of_outside (by omega)
    refine ⟨a, s, rs', hp, ht.write fun y hy => hout hy, ?_, ?_⟩
    · intro y hy hout'
      exact (hout hout').trans (honly y hy)
    · intro i hi
      exact if_pos (by omega)

end
end Mdepx.Heap
