import Mdepx.Heap.Run

namespace Mdepx.Heap
open Lib List

/-! Which block `mdx_fl_malloc` takes, and that `mdx_fl_free` puts it back where it was. -/

section
variable {A : Abi} {m m' : Bytes} {fl : Nat} {rs R₁ R₂ : List Region} {items I₁ I₂ : List Item}
  {l t : List Block}

theorem Shape.behind_le (h : Shape A fl m rs (I₁ ++ .node a z :: I₂)) (hx : .node b s ∈ I₂) :
    z ≤ s := by
  have hsorted := (pairwise_append.1 (pairwise_cons.1 h.sorted).2).2.1
  have hle := (pairwise_cons.1 hsorted).1 _ hx
  simp only [Item.key] at hle
  omega

/-- `mdx_fl_malloc` of one byte or more returns `NULL`, with the memory as it was, exactly if every
free block is too small. It takes one of the smallest free blocks that are large enough else. -/
theorem malloc_best_fit (h : Zone A fl m rs) (h1 : 1 ≤ size) (hf : A.Fits size) :
    Returns (fun k => mdxFlMalloc A k m fl size) fun r =>
      (r.2 = 0 ↔ ∀ c, Cells A rs c → c.live = false → c.size < roundUp (size + A.nodeS)) ∧
      (r.2 = 0 → r.1 = m) ∧
      (r.2 ≠ 0 → ∃ c s rs', Cells A rs c ∧ c.live = false ∧ r.2 = c.addr + A.nodeS ∧
        roundUp (size + A.nodeS) ≤ c.size ∧
        (∀ d, Cells A rs d → d.live = false → roundUp (size + A.nodeS) ≤ d.size →
          c.size ≤ d.size) ∧
        Taken A fl (roundUp (size + A.nodeS)) rs r.1 c.addr s rs') := by
  obtain ⟨⟨items, hs⟩, hset⟩ := h
  have hn := A.nodeS_def
  rw [← Abi.round_eq hf]
  apply (hs.malloc hset (by omega) hf).mono
  rintro r (⟨rfl, hsmall⟩ | ⟨R₁, R₂, base, l, t, I₁, I₂, a, z, s, bs, I', hrs, hitems, hc⟩)
  · have hall (c : Cell) (hc : Cells A rs c) (hl : c.live = false) : c.size < A.round size :=
      hsmall (.node c.addr c.size) ((hs.free_items hset).2 ⟨c, hc, hl, rfl, rfl⟩)
    exact ⟨⟨fun _ => hall, fun _ => rfl⟩, fun _ => rfl, fun h0 => absurd rfl h0⟩
  · have hp := hc.ptr
    have hp0 : r.2 ≠ 0 := by omega
    have hNz : A.round size ≤ z := hc.size.trans hc.rest.le
    have hmem : Item.node a z ∈ items := by simp [hitems]
    obtain ⟨c, hcell, hl, rfl, rfl⟩ := (hs.free_items hset).1 hmem
    have hbest (d : Cell) (hd : Cells A rs d) (hdl : d.live = false)
        (hNd : A.round size ≤ d.size) : c.size ≤ d.size := by
      have hdm := (hs.free_items hset).2 ⟨d, hd, hdl, rfl, rfl⟩
      rw [hitems] at hs hdm
      rcases mem_append.1 hdm with hd₁ | hd₂
      · exact absurd hNd (Nat.not_le.2 (hc.passed _ hd₁))
      · rcases mem_cons.1 hd₂ with he | hd₂
        · exact le_of_eq (Item.node.inj he).2.symm
        · exact hs.behind_le hd₂
    refine ⟨⟨fun h0 => absurd h0 hp0, fun hall => ?_⟩, fun h0 => absurd h0 hp0, fun _ => ?_⟩
    · exact absurd hNz (Nat.not_le.2 (hall c hcell hl))
    · subst hrs
      exact ⟨c, s, _, hcell, hl, hp, hNz, hbest,
        Zone.taken hset hs hc.addr hc.size hc.rest.blocks hc.shape⟩

theorem malloc_best_fit_second :
    ∃ (s : State) (rs : List Region), Zone ilp32 64 s.mem rs ∧
      (∃ k r, mdxFlMalloc ilp32 k s.mem 64 100 = some r ∧ r.2 = 1296 ∧
        ∃ c s' rs', Cells ilp32 rs c ∧ c.live = false ∧ r.2 = c.addr + ilp32.nodeS ∧
          roundUp (100 + ilp32.nodeS) ≤ c.size ∧
          (∀ d, Cells ilp32 rs d → d.live = false → roundUp (100 + ilp32.nodeS) ≤ d.size →
            c.size ≤ d.size) ∧
          Taken ilp32 64 (roundUp (100 + ilp32.nodeS)) rs r.1 c.addr s' rs') := by
  obtain ⟨s, hr, hm⟩ := run_calls ilp32 64 40 (start ilp32 64 fun _ => 0)
    (p := fun s c => Permitted ilp32 64 s c ∧ Roomy ilp32 c)
    [.addRegion 1024 512, .malloc 80, .malloc 60, .malloc 40, .free 1056]
    (fun s => (mdxFlMalloc ilp32 40 s.mem 64 100).map (·.2) = some 1296) (by decide +kernel)
  obtain ⟨rs, hi⟩ := run_inv (by decide) hr
  obtain ⟨r, hm, hp⟩ := Option.map_eq_some_iff.1 hm
  have hpost := (malloc_best_fit hi.zone (by decide) (by decide)).post hm
  exact ⟨s, rs, hi.zone, 40, r, hm, hp, hpost.2.2 (by omega)⟩

theorem Item.cut_unique {J₁ J₂ : List Item} (he : I₁ ++ I₂ = J₁ ++ J₂)
    (h₁ : ∀ x ∈ I₁, x.key < n) (h₂ : ∀ x ∈ I₂, n ≤ x.key) (h₁' : ∀ x ∈ J₁, x.key < n)
    (h₂' : ∀ x ∈ J₂, n ≤ x.key) : I₁ = J₁ ∧ I₂ = J₂ := by
  have hcut {K₁ K₂ : List Item} (hlow : ∀ x ∈ K₁, x.key < n) (hup : ∀ x ∈ K₂, n ≤ x.key) :
      (K₁ ++ K₂).filter (·.key < n) = K₁ := by
    have hlow : K₁.filter (·.key < n) = K₁ :=
      filter_eq_self.2 fun x hx => decide_eq_true (hlow x hx)
    have hup : K₂.filter (·.key < n) = [] := by
      apply filter_eq_nil_iff.2
      intro x hx hlt
      exact Nat.not_lt.2 (hup x hx) (of_decide_eq_true hlt)
    rw [filter_append, hlow, hup, append_nil]
  have hI : I₁ = J₁ := by rw [← hcut h₁ h₂, he, hcut h₁' h₂']
  exact ⟨hI, append_cancel_left (hI ▸ he)⟩

theorem Shape.readd (h : Shape A fl m (R₁ ++ ⟨base, l ++ [loose z] ++ t⟩ :: R₂) (I₁ ++ I₂))
    (ha : a = base + A.nodeS + total l) (h₁ : ∀ x ∈ I₁, x.key < 2 * z + 1)
    (h₂ : ∀ x ∈ I₂, 2 * z + 1 ≤ x.key) :
    Returns (fun k => mdxFlAddNode A k m fl a) fun m' =>
      Shape A fl m' (R₁ ++ ⟨base, l ++ [avail z] ++ t⟩ :: R₂) (I₁ ++ .node a z :: I₂) := by
  apply (h.addNode rfl ha).mono
  rintro m' ⟨J₁, J₂, he, h₁', h₂', -, h'⟩
  obtain ⟨rfl, rfl⟩ := Item.cut_unique he h₁ h₂ h₁' h₂'
  exact h'

theorem Shape.key_lt (h : Shape A fl m rs (I₁ ++ .node a z :: I₂)) (hN : N ≤ z)
    (hI : ∀ x ∈ I₁, x.size < N) : ∀ x ∈ I₁, x.key < 2 * z + 1 := by
  intro x hx
  have hsorted := pairwise_append.1 (pairwise_cons.1 h.sorted).2
  have hle := hsorted.2.2 x hx _ mem_cons_self
  have hsize := hI x hx
  cases x with
  | head i =>
    simp only [Item.key] at hle ⊢
    have hp : 2 ^ (i + 5) = 2 * 2 ^ (i + 4) := Nat.pow_succ'
    split at hle
    · rw [if_pos (by assumption)]
      omega
    · rw [if_neg (by assumption)]
      omega
  | node =>
    simp only [Item.key, Item.size] at hsize ⊢
    omega

theorem Shape.key_le (h : Shape A fl m rs (I₁ ++ .node a z :: I₂)) :
    ∀ x ∈ I₂, 2 * z + 1 ≤ x.key :=
  (pairwise_cons.1 (pairwise_append.1 (pairwise_cons.1 h.sorted).2).2.1).1

theorem Shape.rejoin
    (h : Shape A fl m (R₁ ++ ⟨base, l ++ [used s] ++ (bs ++ t)⟩ :: R₂) I')
    (hrest : Leftover a s z (I₁ ++ I₂) bs I') (ha : a = base + A.nodeS + total l)
    (ht : StartsUsed t) :
    Shape A fl (Heap.mergeNext A (A.set .flags m a (A.get .flags m a &&& (flagAllocated - 1))) a).1
      (R₁ ++ ⟨base, l ++ [loose z] ++ t⟩ :: R₂) (I₁ ++ I₂) := by
  have hclear := h.clear ha
  rcases hrest with ⟨rfl, rfl, rfl⟩ | ⟨K, J₁, J₂, rfl, rfl, hJ, rfl⟩
  · rw [hclear.mergeNext_used ha ht]
    exact hclear
  · obtain ⟨-, -, P₁, P₂, hP, h'⟩ := Shape.mergeNext_avail hclear ha
    obtain ⟨rfl, rfl⟩ := hclear.split_unique hP
    rw [hJ]
    exact h'

theorem Carved.free (hc : Carved A fl N m' R₁ R₂ base l t I₁ I₂ a z r s bs I')
    (h : Shape A fl m (R₁ ++ ⟨base, l ++ [avail z] ++ t⟩ :: R₂) (I₁ ++ .node a z :: I₂))
    (hset : Settled (l ++ [avail z] ++ t)) :
    Returns (fun k => mdxFlFree A k r.1 fl r.2) fun m' =>
      Shape A fl m' (R₁ ++ ⟨base, l ++ [avail z] ++ t⟩ :: R₂) (I₁ ++ .node a z :: I₂) := by
  obtain ⟨⟨-, hl⟩, -, ht⟩ := settled_around_avail.1 hset
  have hn := A.nodeS_def
  have htop := hc.shape.sizes_lt.2
  have hb : A.nodeS ≤ s := hc.shape.block_size
  simp only [total_cons, total_nil, used] at htop
  have haddr := hc.addr
  have hnode : A.decoffset (a + A.nodeS) A.nodeS = a := Abi.decoffset_eq (by omega)
  have hjoin := hc.shape.rejoin hc.rest hc.addr ht
  unfold mdxFlFree
  simp only [hc.ptr, if_neg (by omega : ¬a + A.nodeS = 0), hnode]
  rw [hjoin.mergePrev_used hc.addr hl]
  exact hjoin.readd hc.addr (h.key_lt (hc.size.trans hc.rest.le) hc.passed) h.key_le

/-- If `mdx_fl_malloc` returns a pointer, `mdx_fl_free` of it makes the blocks, what their nodes
say and the order of the list what they were. -/
theorem free_undoes_malloc (h : Shape A fl m rs items) (hset : ∀ r ∈ rs, Settled r.blocks)
    (hf : A.Fits size) (hm : mdxFlMalloc A k m fl size = some (m', p)) (hp : p ≠ 0) :
    Returns (fun k => mdxFlFree A k m' fl p) fun m'' => Shape A fl m'' rs items ∧
      ∀ c, Cells A rs c → A.get .size m'' c.addr = A.get .size m c.addr ∧
        A.get .flags m'' c.addr = A.get .flags m c.addr := by
  have h0 : size ≠ 0 := by
    rintro rfl
    cases hm
    exact hp rfl
  rcases (h.malloc hset h0 hf).post hm with ⟨he, -⟩ |
    ⟨R₁, R₂, base, l, t, I₁, I₂, a, z, s, bs, I', rfl, rfl, hc⟩
  · cases he
    exact absurd rfl hp
  · apply (hc.free h (hset ⟨base, l ++ [avail z] ++ t⟩ (by simp))).mono
    intro m'' h'
    refine ⟨h', fun c hc => ?_⟩
    obtain ⟨hs, hfl⟩ := h.tags c hc
    obtain ⟨hs', hfl'⟩ := h'.tags c hc
    exact ⟨hs'.trans hs.symm, hfl'.trans hfl.symm⟩

theorem free_undoes_malloc_split :
    ∃ (s : State) (rs : List Region) (items : List Item) (m' : Bytes) (p : Nat),
      Shape ilp32 64 s.mem rs items ∧ (∀ r ∈ rs, Settled r.blocks) ∧
      mdxFlMalloc ilp32 40 s.mem 64 100 = some (m', p) ∧ p ≠ 0 ∧
      Returns (fun k => mdxFlFree ilp32 k m' 64 p) fun m'' => Shape ilp32 64 m'' rs items ∧
        ∀ c, Cells ilp32 rs c → ilp32.get .size m'' c.addr = ilp32.get .size s.mem c.addr ∧
          ilp32.get .flags m'' c.addr = ilp32.get .flags s.mem c.addr := by
  obtain ⟨s, hr, hm⟩ := run_calls ilp32 64 40 (start ilp32 64 fun _ => 0)
    (p := fun s c => Permitted ilp32 64 s c ∧ Roomy ilp32 c)
    [.addRegion 1024 512, .malloc 60, .malloc 200, .malloc 60, .free 1136]
    (fun s => (mdxFlMalloc ilp32 40 s.mem 64 100).map (·.2) = some 1136) (by decide +kernel)
  obtain ⟨rs, hi⟩ := run_inv (by decide) hr
  obtain ⟨⟨items, hs⟩, hset⟩ := hi.zone
  obtain ⟨⟨m', p⟩, hm, hp⟩ := Option.map_eq_some_iff.1 hm
  have hp : p ≠ 0 := fun h0 => absurd (hp.symm.trans h0) (by decide)
  exact ⟨s, rs, items, m', p, hs, hset, hm, hp, free_undoes_malloc hs hset (by decide) hm hp⟩

/-- Calls of `mdx_fl_malloc`, each with those that are made before its block is given back. -/
inductive Nest (A : Abi) where
  | done
  | within (size : Nat) (hf : A.Fits size) (inner rest : Nest A)

def Nest.run (k fl : Nat) : Nest A → Bytes → Option Bytes
  | .done, m => some m
  | .within size _ inner rest, m =>
    (mdxFlMalloc A k m fl size).bind fun r =>
      (inner.run k fl r.1).bind fun m => (mdxFlFree A k m fl r.2).bind (rest.run k fl)

theorem Shape.nest (h : Shape A fl m rs items) (hset : ∀ r ∈ rs, Settled r.blocks) (n : Nest A) :
    Returns (fun k => n.run k fl m) fun m' => Shape A fl m' rs items := by
  induction n generalizing m rs items with
  | done => exact .pure h
  | within size hf inner rest ihi ihr =>
    by_cases h0 : size = 0
    · simp only [Nest.run, mdxFlMalloc, if_pos h0, Option.bind_some]
      apply (ihi h hset).bind
      intro m' h'
      exact ihr h' hset
    · apply (h.malloc hset h0 hf).bind
      rintro r (⟨rfl, -⟩ | ⟨R₁, R₂, base, l, t, I₁, I₂, a, z, s, bs, I', rfl, rfl, hc⟩)
      · apply (ihi h hset).bind
        intro m' h'
        exact ihr h' hset
      · have ht := Zone.taken hset h hc.addr hc.size hc.rest.blocks hc.shape
        apply (ihi hc.shape ht.zone.settled).bind
        intro m' h'
        have hc' : Carved A fl (A.round size) m' R₁ R₂ base l t I₁ I₂ a z (m', r.2) s bs I' :=
          ⟨hc.ptr, hc.addr, hc.passed, hc.size, hc.rest, Only.refl _ _ _, h'⟩
        apply (hc'.free h (hset ⟨base, l ++ [avail z] ++ t⟩ (by simp))).bind
        intro m'' h''
        exact ihr h'' hset

/-- Whatever the state, calls of `mdx_fl_malloc` whose blocks are given back in the reverse order
leave the blocks and the list as they were. -/
theorem nested_calls_restore (hz : fl + 32 * A.nodeS ≤ A.top)
    (h : Run (Next A fl) (fun s c => Permitted A fl s c ∧ Roomy A c) (start A fl m) s)
    (n : Nest A) :
    ∃ rs items, Intact A fl s rs items ∧
      Returns (fun k => n.run k fl s.mem) fun m' => Intact A fl { s with mem := m' } rs items := by
  obtain ⟨rs, hi⟩ := run_inv hz h
  obtain ⟨⟨items, hs⟩, hset⟩ := hi.zone
  refine ⟨rs, items, hi.intact_of hs, (hs.nest hset n).mono ?_⟩
  intro m' h'
  exact Inv.intact_of ⟨⟨⟨items, h'⟩, hset⟩, hi.regions, hi.pointers⟩ h'

def nestTwo : Nest ilp32 := .within 40 (by decide) (.within 60 (by decide) .done .done) .done

theorem nested_calls_restore_two :
    ∃ s rs items, s.live = [1056] ∧ Intact ilp32 64 s rs items ∧
      Returns (fun k => nestTwo.run k 64 s.mem)
        fun m' => Intact ilp32 64 { s with mem := m' } rs items := by
  obtain ⟨s, hr, hl⟩ := run_calls ilp32 64 40 (start ilp32 64 fun _ => 0)
    (p := fun s c => Permitted ilp32 64 s c ∧ Roomy ilp32 c) [.addRegion 1024 512, .malloc 60]
    (fun s => s.live = [1056]) (by decide +kernel)
  obtain ⟨rs, items, hi, hn⟩ := nested_calls_restore (by decide) hr nestTwo
  exact ⟨s, rs, items, hl, hi, hn⟩

theorem Settled.whole (h : Settled bs) (hfree : ∀ b ∈ bs, b.live = false) :
    bs = [] ∨ ∃ z, bs = [avail z] := by
  rcases bs with _ | ⟨b, _ | ⟨d, bs⟩⟩
  · exact .inl rfl
  · have hb := hfree b mem_cons_self
    rcases h.block mem_cons_self with he | he
    · rw [he] at hb
      cases hb
    · exact .inr ⟨b.size, congrArg (fun b => [b]) he⟩
  · obtain ⟨hapart, -⟩ := isChain_cons_cons.1 h.apart
    rw [hfree b mem_cons_self, hfree d (mem_cons_of_mem _ mem_cons_self)] at hapart
    cases hapart with
    | inl h | inr h => cases h

theorem Inv.free_of_no_live (h : Inv A fl s rs) (hlive : s.live = []) (hr : r ∈ rs)
    (hb : b ∈ r.blocks) : b.live = false := by
  rw [← Bool.not_eq_true]
  intro hl
  obtain ⟨l, t, hbs⟩ := append_of_mem hb
  have hx : (r.base + A.nodeS + total l, b.size) ∈ live A rs := by
    refine mem_flatMap.2 ⟨r, hr, ?_⟩
    rw [hbs, liveOf_append, liveOf, if_pos hl]
    simp
  have hp := (h.pointers _).2 ⟨_, hx, rfl⟩
  rw [hlive] at hp
  cases hp

/-- When every block has been given back, in whatever order, a block that fits into a region as it
was added is there. -/
theorem emptied_heap_serves (hz : fl + 32 * A.nodeS ≤ A.top)
    (h : Run (Next A fl) (fun s c => Permitted A fl s c ∧ Roomy A c) (start A fl m) s)
    (hlive : s.live = []) (he : (base, n) ∈ s.regions) (h1 : 1 ≤ size)
    (hroom : roundUp (size + A.nodeS) + 2 * A.nodeS ≤ n) :
    Returns (fun k => mdxFlMalloc A k s.mem fl size) fun r => r.2 ≠ 0 := by
  obtain ⟨rs, hi⟩ := run_inv hz h
  obtain ⟨⟨items, hs⟩, hset⟩ := hi.zone
  rw [← hi.regions] at he
  have hbound : base + n ≤ A.top := (hs.spread.bound _ he).1
  obtain ⟨⟨base, bs⟩, hr, hext⟩ := mem_map.1 he
  have hsize := region_size A ⟨base, bs⟩
  cases hext
  have hn := A.nodeS_def
  rcases (hset _ hr).whole fun b hb => hi.free_of_no_live hlive hr hb with rfl | ⟨z, rfl⟩
  · simp only [total_nil] at hsize
    unfold roundUp at hroom
    omega
  · have hcell : Cells A rs ⟨avail z, base + A.nodeS, A.nodeS⟩ :=
      ⟨_, hr, mem_cons_of_mem _ mem_cons_self⟩
    have hmem := (hs.free_items hset).2 ⟨_, hcell, rfl, rfl, rfl⟩
    have hf : A.Fits size := by
      unfold Abi.Fits
      omega
    apply (hs.malloc hset (by omega) hf).mono
    rintro r (⟨rfl, hsmall⟩ | ⟨R₁, R₂, base, l, t, I₁, I₂, a, z, s, bs, I', -, -, hc⟩)
    · have hlt := hsmall _ hmem
      rw [Abi.round_eq hf] at hlt
      simp only [total_cons, total_nil] at hsize
      change z < _ at hlt
      change _ = 2 * A.nodeS + (z + 0) at hsize
      omega
    · rw [hc.ptr]
      omega

theorem emptied_heap_serves_whole :
    ∃ s : State, s.live = [] ∧ s.regions = [(1024, 512)] ∧
      Returns (fun k => mdxFlMalloc ilp32 k s.mem 64 464) fun r => r.2 ≠ 0 := by
  obtain ⟨s, hr, hl, hs⟩ := run_calls ilp32 64 40 (start ilp32 64 fun _ => 0)
    (p := fun s c => Permitted ilp32 64 s c ∧ Roomy ilp32 c)
    [.addRegion 1024 512, .malloc 60, .malloc 200, .malloc 60, .free 1056, .free 1360, .free 1136]
    (fun s => s.live = [] ∧ s.regions = [(1024, 512)]) (by decide +kernel)
  have he : (1024, 512) ∈ s.regions := by
    rw [hs]
    exact mem_cons_self
  exact ⟨s, hl, hs, emptied_heap_serves (by decide) hr hl he (by decide) (by decide)⟩

end
end Mdepx.Heap
