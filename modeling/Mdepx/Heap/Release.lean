import Mdepx.Heap.Alloc

namespace Mdepx.Heap
open Lib List

/-! `mdx_fl_free`. -/

section
variable {A : Abi} {m m' : Bytes} {fl : Nat} {rs rs' R₁ R₂ : List Region} {items : List Item}
  {l t bs : List Block}

theorem Shape.prev_lt (h : Shape A fl m rs items) (hc : Cells A rs c) : c.prev < 2 ^ 31 := by
  obtain ⟨r, hr, hc⟩ := hc
  obtain ⟨f, g, hfg, -, hp⟩ := cells_split hc
  have hb := (h.bound hr).2
  have hl := lastSize_le 0 f
  rw [Region.size, hfg, total_append] at hb
  omega

theorem Shape.flag (h : Shape A fl m rs items) (hc : Cells A rs c) :
    A.get .flags m c.addr &&& flagAllocated = allocBit c.live := by
  have hf : A.get .flags m c.addr = c.prev + allocBit c.live := (h.tags c hc).2
  rw [hf, and_flagAllocated (h.prev_lt hc)]

theorem allocBit_ne_zero : allocBit true ≠ 0 := by decide

theorem Shape.next_used (h : Shape A fl m (R₁ ++ ⟨base, l ++ bs ++ t⟩ :: R₂) items)
    (ha : a = base + A.nodeS + total l) (ht : StartsUsed t) :
    A.get .flags m (a + total bs) &&& flagAllocated ≠ 0 := by
  obtain ⟨d, ds, hd⟩ : ∃ d ds, t ++ [A.sentinel] = d :: ds := exists_cons_of_ne_nil (by simp)
  have hlive : d.live = true := by
    cases t with
    | nil =>
      cases hd
      rfl
    | cons =>
      cases hd
      exact ht _ rfl
  have hc : Cells A (R₁ ++ ⟨base, l ++ bs ++ t⟩ :: R₂)
      ⟨d, a + total bs, lastSize (lastSize A.nodeS l) bs⟩ :=
    (cells_stretch ha rfl hd).2 (.inr (.inl rfl))
  have hf := h.flag hc
  simp only [hlive] at hf
  rw [hf]
  exact allocBit_ne_zero

theorem cell_before (hl : EndsUsed l) :
    ∃ c, Cells A (R₁ ++ ⟨base, l ++ bs ++ t⟩ :: R₂) c ∧
      c.addr + lastSize A.nodeS l = base + A.nodeS + total l ∧ c.live = true := by
  rcases l.eq_nil_or_concat with rfl | ⟨l', b, rfl⟩
  · exact ⟨⟨A.sentinel, base, 0⟩, cells_iff.2 (.inr (.inr (.inl rfl))), rfl, rfl⟩
  · rw [concat_eq_append] at hl ⊢
    refine ⟨⟨b, base + A.nodeS + total l', lastSize A.nodeS l'⟩, ?_, ?_, ?_⟩
    · apply cells_iff.2
      right
      right
      right
      left
      rw [cells_append]
      exact mem_append_right _ mem_cons_self
    · rw [lastSize_append, total_append]
      simp only [lastSize, total_cons, total_nil]
      omega
    · exact hl b (by rw [List.getLast?_concat]; rfl)

theorem Shape.mergeNext_used (h : Shape A fl m (R₁ ++ ⟨base, l ++ [loose s] ++ t⟩ :: R₂) items)
    (ha : a = base + A.nodeS + total l) (ht : StartsUsed t) : mergeNext A m a = (m, a + s) := by
  have htop := h.sizes_lt.2
  have hn := A.nodeS_def
  simp only [total_cons, total_nil, loose] at htop
  have hsize : A.get .size m a = s := (h.tag ha mem_cons_self).1
  have hnext : A.incoffset a s = a + s := Abi.incoffset_eq (by omega)
  have hf : A.get .flags m (a + s) &&& flagAllocated ≠ 0 := h.next_used ha ht
  unfold Heap.mergeNext
  simp only [hsize, hnext, if_neg hf]

section
variable {s : Nat} {q : Bool}
  (h : Shape A fl m (R₁ ++ ⟨base, l ++ [⟨s, q, false⟩] ++ (avail z :: t)⟩ :: R₂) items)
  (ha : a = base + A.nodeS + total l)
include h ha

theorem Shape.unlink_next :
    A.get .size m (a + s) = z ∧ A.get .flags m (a + s) &&& flagAllocated = 0 ∧
    Only A (Header A fl (R₁ ++ ⟨base, l ++ [⟨s, q, false⟩] ++ (avail z :: t)⟩ :: R₂)) m
      (removeNode A m (a + s)) ∧
    ∃ I₁ I₂, items = I₁ ++ .node (a + s) z :: I₂ ∧ Shape A fl (removeNode A m (a + s))
      (R₁ ++ ⟨base, l ++ [⟨s, q, false⟩, loose z] ++ t⟩ :: R₂) (I₁ ++ I₂) := by
  have h₂ : Shape A fl m (R₁ ++ ⟨base, (l ++ [⟨s, q, false⟩]) ++ [avail z] ++ t⟩ :: R₂) items := by
    rw [append_assoc _ [_]]
    exact h
  have ha₂ : a + s = base + A.nodeS + total (l ++ [⟨s, q, false⟩]) := by
    rw [total_append, ha, add_assoc]
    rfl
  have hcell : Cells A (R₁ ++ ⟨base, (l ++ [⟨s, q, false⟩]) ++ [avail z] ++ t⟩ :: R₂)
      ⟨avail z, a + s, lastSize A.nodeS (l ++ [⟨s, q, false⟩])⟩ := by
    rw [ha₂]
    exact cells_one.2 (.inl rfl)
  obtain ⟨I₁, I₂, hI, honly, h₃⟩ := h₂.remove rfl ha₂
  rw [append_assoc l] at h₃
  rw [append_assoc _ [_]] at honly
  exact ⟨(h₂.tags _ hcell).1, h₂.flag hcell, honly, I₁, I₂, hI, h₃⟩

theorem Shape.absorb :
    Only A (Header A fl (R₁ ++ ⟨base, l ++ [⟨s, q, false⟩] ++ (avail z :: t)⟩ :: R₂)) m
      (Heap.refuse A (removeNode A m (a + s)) a (a + (s + z)) (s + z)) ∧
    ∃ I₁ I₂, items = I₁ ++ .node (a + s) z :: I₂ ∧
      Shape A fl (Heap.refuse A (removeNode A m (a + s)) a (a + (s + z)) (s + z))
        (R₁ ++ ⟨base, l ++ [⟨s + z, q, false⟩] ++ t⟩ :: R₂) (I₁ ++ I₂) := by
  obtain ⟨-, -, honly, I₁, I₂, hI, h₃⟩ := h.unlink_next ha
  have hN : A.nodeS ≤ s := h.block_size
  have hr := h₃.refuse ha (by simp [loose]) (N := s + z) (by omega)
    (by simp only [total_cons, total_nil, loose, add_zero])
  have hwrite : Only A (Header A fl (R₁ ++ ⟨base, l ++ [⟨s, q, false⟩, avail z] ++ t⟩ :: R₂))
      (removeNode A m (a + s))
      (Heap.refuse A (removeNode A m (a + s)) a (a + (s + z)) (s + z)) := by
    apply refuse_only
    · exact header_in ha (c := ⟨⟨s, q, false⟩, a, _⟩) mem_cons_self
    · exact header_behind ha rfl
  have hassoc : l ++ [⟨s, q, false⟩, avail z] ++ t = l ++ [⟨s, q, false⟩] ++ (avail z :: t) := by
    simp
  rw [hassoc] at hwrite
  exact ⟨honly.trans hwrite, I₁, I₂, hI, hr⟩

end

theorem Shape.mergeNext_avail
    (h : Shape A fl m (R₁ ++ ⟨base, l ++ [loose s] ++ (avail z :: t)⟩ :: R₂) items)
    (ha : a = base + A.nodeS + total l) :
    (mergeNext A m a).2 = a + (s + z) ∧
    Only A (Header A fl (R₁ ++ ⟨base, l ++ [loose s] ++ (avail z :: t)⟩ :: R₂)) m
      (mergeNext A m a).1 ∧
    ∃ I₁ I₂, items = I₁ ++ .node (a + s) z :: I₂ ∧
      Shape A fl (mergeNext A m a).1 (R₁ ++ ⟨base, l ++ [loose (s + z)] ++ t⟩ :: R₂)
        (I₁ ++ I₂) := by
  obtain ⟨hlt, htop⟩ := h.sizes_lt
  have hn := A.nodeS_def
  simp only [total_cons, total_nil, loose, avail] at hlt htop
  have hsize : A.get .size m a = s := (h.tag ha mem_cons_self).1
  have hnext : A.incoffset a s = a + s := Abi.incoffset_eq (by omega)
  obtain ⟨hz, hf, -, I₁, I₂, hI, h₃⟩ := h.unlink_next ha
  have hs₃ : A.get .size (removeNode A m (a + s)) a = s := (h₃.tag ha mem_cons_self).1
  have hz₃ : A.get .size (removeNode A m (a + s)) (a + s) = z :=
    (h₃.tag ha (mem_cons_of_mem _ mem_cons_self)).1
  unfold Heap.mergeNext
  simp only [hsize, hnext]
  rw [if_pos hf, hz, hs₃, hz₃, get_set_size (by omega), Abi.incoffset_eq (by omega), add_assoc]
  exact ⟨rfl, h.absorb ha⟩

theorem Header.merged {c d : Block}
    (h : Header A fl (R₁ ++ ⟨base, l ++ [loose (c.size + d.size)] ++ t⟩ :: R₂) y) :
    Header A fl (R₁ ++ ⟨base, l ++ [c, d] ++ t⟩ :: R₂) y := by
  apply h.recut rfl
  · simp only [total_cons, total_nil, loose, add_zero]
  · intro e he
    rw [mem_singleton.1 he]
    exact ⟨_, mem_cons_self, rfl⟩

section
variable (h : Shape A fl m (R₁ ++ ⟨base, l ++ [loose s] ++ t⟩ :: R₂) items)
  (ha : a = base + A.nodeS + total l)
include h ha

theorem Shape.mergeNext (ht : Settled t) :
    ∃ s' t' items', (mergeNext A m a).2 = a + s' ∧
      Shape A fl (mergeNext A m a).1 (R₁ ++ ⟨base, l ++ [loose s'] ++ t'⟩ :: R₂) items' ∧
      (Settled t' ∧ StartsUsed t') ∧ s' + total t' = s + total t ∧
      liveOf (a + s') t' = liveOf (a + s) t ∧
      Only A (Header A fl (R₁ ++ ⟨base, l ++ [loose s] ++ t⟩ :: R₂)) m (mergeNext A m a).1 ∧
      ∀ y, Header A fl (R₁ ++ ⟨base, l ++ [loose s'] ++ t'⟩ :: R₂) y →
        Header A fl (R₁ ++ ⟨base, l ++ [loose s] ++ t⟩ :: R₂) y := by
  rcases ht.next with hu | ⟨z, t', rfl, ht', hu'⟩
  · rw [h.mergeNext_used ha hu]
    exact ⟨s, t, items, rfl, h, ⟨ht, hu⟩, rfl, rfl, Only.refl _ _ m, fun y hy => hy⟩
  · obtain ⟨hnext, honly, I₁, I₂, -, h'⟩ := h.mergeNext_avail ha
    refine ⟨s + z, t', I₁ ++ I₂, hnext, h', ⟨ht', hu'⟩, ?_, ?_, honly, ?_⟩
    · simp only [total_cons, avail]
      omega
    · rw [liveOf_avail, add_assoc]
    · intro y hy
      have hassoc : l ++ [loose s, avail z] ++ t' = l ++ [loose s] ++ (avail z :: t') := by simp
      rw [← hassoc]
      exact hy.merged

theorem Shape.mergePrev_used (hl : EndsUsed l) : mergePrev A m a e = (m, a) := by
  have htop := h.sizes_lt.2
  have hn := A.nodeS_def
  simp only [total_cons, total_nil, loose] at htop
  have hflags : A.get .flags m a = lastSize A.nodeS l := (h.tag ha mem_cons_self).2
  obtain ⟨c, hc, hca, hcl⟩ : ∃ c, Cells A (R₁ ++ ⟨base, l ++ [loose s] ++ t⟩ :: R₂) c ∧
      c.addr + lastSize A.nodeS l = base + A.nodeS + total l ∧ c.live = true := cell_before hl
  have hprev : A.decoffset a (lastSize A.nodeS l) = c.addr := by
    rw [ha, ← hca]
    exact Abi.decoffset_eq (by omega)
  have hf := h.flag hc
  rw [hcl] at hf
  unfold Heap.mergePrev
  simp only [hflags]
  rw [hprev, if_neg (by rw [hf]; exact allocBit_ne_zero)]

end

theorem Shape.mergePrev_avail
    (h : Shape A fl m (R₁ ++ ⟨base, l ++ [avail z] ++ [loose s] ++ t⟩ :: R₂) items)
    (ha : a = base + A.nodeS + total l + z) :
    (mergePrev A m a (a + s)).2 = base + A.nodeS + total l ∧
    Only A (Header A fl (R₁ ++ ⟨base, l ++ [avail z] ++ [loose s] ++ t⟩ :: R₂)) m
      (mergePrev A m a (a + s)).1 ∧
    ∃ items', Shape A fl (mergePrev A m a (a + s)).1
      (R₁ ++ ⟨base, l ++ [loose (z + s)] ++ t⟩ :: R₂) items' := by
  obtain ⟨hlt, htop⟩ := h.sizes_lt
  have hn := A.nodeS_def
  simp only [total_append, total_cons, total_nil, loose, avail] at hlt htop
  have ha' : a = base + A.nodeS + total (l ++ [avail z]) := by
    rw [ha, total_append, ← add_assoc]
    rfl
  have hflags : A.get .flags m a = lastSize A.nodeS (l ++ [avail z]) :=
    (h.tag ha' mem_cons_self).2
  have hz : lastSize A.nodeS (l ++ [avail z]) = z := by
    rw [lastSize_append]
    rfl
  have hprev : A.decoffset a z = base + A.nodeS + total l := by
    rw [ha]
    exact Abi.decoffset_eq (by omega)
  have h₂ : Shape A fl m (R₁ ++ ⟨base, l ++ [avail z] ++ ([loose s] ++ t)⟩ :: R₂) items := by
    rw [← append_assoc]
    exact h
  have hf : A.get .flags m (base + A.nodeS + total l) &&& flagAllocated = 0 :=
    h₂.flag (cells_one.2 (.inl rfl))
  obtain ⟨I₁, I₂, -, honly, h₃⟩ := h₂.remove rfl rfl
  have h₃ : Shape A fl (removeNode A m (base + A.nodeS + total l))
      (R₁ ++ ⟨base, l ++ [loose z, loose s] ++ t⟩ :: R₂) (I₁ ++ I₂) := by
    rw [← append_assoc, append_assoc l] at h₃
    exact h₃
  have hz₃ : A.get .size (removeNode A m (base + A.nodeS + total l))
      (base + A.nodeS + total l) = z := (h₃.tag rfl mem_cons_self).1
  have hs₃ : A.get .size (removeNode A m (base + A.nodeS + total l)) a = s := by
    rw [ha]
    exact (h₃.tag rfl (mem_cons_of_mem _ mem_cons_self)).1
  have hN : A.nodeS ≤ z := h₂.block_size
  have hr := h₃.refuse rfl (by simp [loose]) (N := z + s) (by omega)
    (by simp only [total_cons, total_nil, loose, add_zero])
  have hwrite : Only A (Header A fl (R₁ ++ ⟨base, l ++ [avail z, loose s] ++ t⟩ :: R₂))
      (removeNode A m (base + A.nodeS + total l))
      (Heap.refuse A (removeNode A m (base + A.nodeS + total l)) (base + A.nodeS + total l)
        (base + A.nodeS + total l + (z + s)) (z + s)) := by
    apply refuse_only
    · exact header_in rfl (c := ⟨avail z, base + A.nodeS + total l, _⟩) mem_cons_self
    · exact header_behind rfl rfl
  have hassoc : l ++ [avail z, loose s] ++ t = l ++ [avail z] ++ [loose s] ++ t := by simp
  rw [hassoc] at hwrite
  rw [← append_assoc] at honly
  unfold Heap.mergePrev
  simp only [hflags, hz, hprev]
  rw [if_pos hf, hs₃, hz₃, get_set_size (by omega), ha,
    add_assoc (base + A.nodeS + total l)]
  exact ⟨rfl, honly.trans hwrite, I₁ ++ I₂, hr⟩

theorem Shape.mergePrev (h : Shape A fl m (R₁ ++ ⟨base, l ++ [loose s] ++ t⟩ :: R₂) items)
    (ha : a = base + A.nodeS + total l) (hl : Settled l) :
    ∃ s' l' items', (mergePrev A m a (a + s)).2 = base + A.nodeS + total l' ∧
      Shape A fl (mergePrev A m a (a + s)).1 (R₁ ++ ⟨base, l' ++ [loose s'] ++ t⟩ :: R₂) items' ∧
      (Settled l' ∧ EndsUsed l') ∧ total l' + s' = total l + s ∧
      liveOf (base + A.nodeS) l' = liveOf (base + A.nodeS) l ∧
      Only A (Header A fl (R₁ ++ ⟨base, l ++ [loose s] ++ t⟩ :: R₂)) m
        (mergePrev A m a (a + s)).1 ∧
      ∀ y, Header A fl (R₁ ++ ⟨base, l' ++ [loose s'] ++ t⟩ :: R₂) y →
        Header A fl (R₁ ++ ⟨base, l ++ [loose s] ++ t⟩ :: R₂) y := by
  rcases hl.prev with hu | ⟨l', z, rfl, hl', hu'⟩
  · rw [h.mergePrev_used ha hu]
    exact ⟨s, l, items, ha, h, ⟨hl, hu⟩, rfl, rfl, Only.refl _ _ m, fun y hy => hy⟩
  · have haz : a = base + A.nodeS + total l' + z := by
      rw [ha, total_append, ← add_assoc]
      rfl
    obtain ⟨hprev, honly, items', h'⟩ := h.mergePrev_avail haz
    refine ⟨z + s, l', items', hprev, h', ⟨hl', hu'⟩, ?_, ?_, honly, ?_⟩
    · rw [total_append, add_assoc]
      rfl
    · rw [liveOf_append]
      exact (append_nil _).symm
    · intro y hy
      have hassoc : l' ++ [avail z, loose s] ++ t = l' ++ [avail z] ++ [loose s] ++ t := by simp
      rw [← hassoc]
      exact hy.merged

structure Freed (A : Abi) (fl : Nat) (rs : List Region) (m' : Bytes) (a : Nat)
    (rs' : List Region) : Prop where
  zone : Zone A fl m' rs'
  extents : rs'.map (Region.extent A) = rs.map (Region.extent A)
  live : ∀ x, x ∈ live A rs' ↔ x ∈ live A rs ∧ x.1 ≠ a

theorem Shape.clear (h : Shape A fl m (R₁ ++ ⟨base, l ++ [used s] ++ t⟩ :: R₂) items)
    (ha : a = base + A.nodeS + total l) :
    Shape A fl (A.set .flags m a (A.get .flags m a &&& (flagAllocated - 1)))
      (R₁ ++ ⟨base, l ++ [loose s] ++ t⟩ :: R₂) items := by
  have hs : A.nodeS ≤ s := h.block_size
  have hlt := h.sizes_lt.1
  have hl := lastSize_le A.nodeS l
  obtain ⟨hsize, hflags⟩ := h.tag ha mem_cons_self
  have hflags : A.get .flags m a = lastSize A.nodeS l + allocBit true := hflags
  apply h.mark ha
  · exact (Within.refl A a (a + s) m).set (le_refl a) (by omega)
  · rw [Abi.get_set_field (by decide)]
    exact hsize
  · rw [hflags, and_mask (by omega), get_set_flags (by omega)]
    rfl
  · rw [Abi.get_set_apart (.inr (by omega))]

theorem Zone.free (h : Zone A fl m rs) (hx : (a, s) ∈ live A rs) :
    Returns (fun k => mdxFlFree A k m fl (a + A.nodeS)) fun m' =>
      Only A (Header A fl rs) m m' ∧ ∃ rs', Freed A fl rs m' a rs' := by
  obtain ⟨⟨items, hs⟩, hset⟩ := h
  obtain ⟨R₁, R₂, base, l, t, rfl, ha⟩ := live_split hset hx
  simp only at ha hs hset
  obtain ⟨hl, ht⟩ := settled_around_used.1 (hset ⟨base, l ++ [used s] ++ t⟩ (by simp))
  have htop := hs.sizes_lt.2
  have hn := A.nodeS_def
  have hb : A.nodeS ≤ s := hs.block_size
  simp only [total_cons, total_nil, used] at htop
  have hnode : A.decoffset (a + A.nodeS) A.nodeS = a := Abi.decoffset_eq (by omega)
  obtain ⟨s₁, t₁, I₁, hnext, h₁, ht₁, htot₁, hlive₁, honly₁, hhead₁⟩ :=
    (hs.clear ha).mergeNext ha ht
  obtain ⟨s₂, l₂, I₂, hprev, h₂, hl₂, htot₂, hlive₂, honly₂, hhead₂⟩ := h₁.mergePrev ha hl
  unfold mdxFlFree
  simp only [if_neg (by omega : ¬a + A.nodeS = 0), hnode, hnext, hprev]
  apply (h₂.addNode rfl rfl).mono
  rintro m' ⟨J₁, J₂, -, -, -, honly₃, h'⟩
  have honly : Only A (Header A fl (R₁ ++ ⟨base, l ++ [used s] ++ t⟩ :: R₂)) m m' := by
    have hset := (Only.refl A (Header A fl (R₁ ++ ⟨base, l ++ [used s] ++ t⟩ :: R₂)) m).set
      (f := .flags) (v := A.get .flags m a &&& (flagAllocated - 1))
      (header_in ha (c := ⟨used s, a, _⟩) mem_cons_self)
    have hsame (y : Nat) (hy : Header A fl (R₁ ++ ⟨base, l ++ [loose s] ++ t⟩ :: R₂) y) :
        Header A fl (R₁ ++ ⟨base, l ++ [used s] ++ t⟩ :: R₂) y := hy.resized rfl
    have h₁ := honly₁.mono hsame
    have h₂ := honly₂.mono fun y hy => hsame y (hhead₁ y hy)
    have h₃ := honly₃.mono fun y hy => hsame y (hhead₁ y (hhead₂ y hy))
    exact ((hset.trans h₁).trans h₂).trans h₃
  refine ⟨honly, R₁ ++ ⟨base, l₂ ++ [avail s₂] ++ t₁⟩ :: R₂,
    ⟨⟨_, h'⟩, settled_region hset ?_⟩, ?_, ?_⟩
  · exact settled_around_avail.2 ⟨hl₂, ht₁⟩
  · apply extents_eq
    simp only [total_append, total_cons, total_nil, used, avail]
    omega
  · intro x
    have hend : base + A.nodeS + total l₂ + total [avail s₂] = a + s₁ := by
      simp only [total_cons, total_nil, avail]
      omega
    have hstart : base + A.nodeS + total l + total [used s] = a + s := by
      simp only [total_cons, total_nil, used]
      omega
    rw [mem_live_region, mem_live_region, hend, hstart, hlive₁, hlive₂]
    simp only [liveOf, used, avail, if_true, Bool.false_eq_true, if_false, append_nil,
      mem_singleton, not_mem_nil, false_or]
    constructor
    · intro hx
      exact ⟨.inr hx, hs.around_live ha hx⟩
    · rintro ⟨rfl | hx, hne⟩
      · exact absurd ha.symm hne
      · exact hx

end
end Mdepx.Heap
