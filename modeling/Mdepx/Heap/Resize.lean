import Mdepx.Heap.Release

namespace Mdepx.Heap
open Lib List

/-! `mdx_fl_realloc`. -/

section
variable {A : Abi} {m m' : Bytes} {fl : Nat} {rs rs' R₁ R₂ : List Region}
  {items items' : List Item} {l t t' bs : List Block}

theorem Shape.addNode_behind
    (h : Shape A fl m (R₁ ++ ⟨base, l ++ [used N, loose K] ++ t⟩ :: R₂) items)
    (ha : a = base + A.nodeS + total l) :
    Returns (fun k => mdxFlAddNode A k m fl (a + N)) fun m' =>
      Only A (Header A fl (R₁ ++ ⟨base, l ++ [used N] ++ ([avail K] ++ t)⟩ :: R₂)) m m' ∧
      ∃ items', Shape A fl m' (R₁ ++ ⟨base, l ++ [used N] ++ ([avail K] ++ t)⟩ :: R₂) items' := by
  have h' : Shape A fl m (R₁ ++ ⟨base, (l ++ [used N]) ++ [loose K] ++ t⟩ :: R₂) items := by
    rw [append_assoc l]
    exact h
  have hnew : a + N = base + A.nodeS + total (l ++ [used N]) := by
    rw [total_append, total_cons, total_nil, ha, add_assoc]
    rfl
  apply (h'.addNode rfl hnew).mono
  rintro m' ⟨J₁, J₂, -, -, -, honly, hm⟩
  have honly := honly.mono fun y hy => hy.resized (d := avail K) rfl
  rw [append_assoc _ [_] t] at hm honly
  exact ⟨honly, _, hm⟩

theorem recut_eq (hN : A.nodeS ≤ N) (hK : K < 2 ^ 32) :
    setPrevSize A (A.set .size (A.set .flags (A.set .size m (a + N) K) (a + N) N) a N) e
      (A.get .size (A.set .size (A.set .flags (A.set .size m (a + N) K) (a + N) N) a N) (a + N)) =
    recut A m a e N K := by
  rw [Abi.get_set_apart (.inr (by omega)), Abi.get_set_field (by decide), get_set_size hK]
  rfl

def Either (A : Abi) (fl : Nat) (rs rs' : List Region) (y : Nat) : Prop :=
  Header A fl rs y ∨ Header A fl rs' y

theorem recut_either (ha : a = base + A.nodeS + total l) (he : e = a + (N + K)) :
    Only A (Either A fl rs (R₁ ++ ⟨base, l ++ [used N] ++ ([avail K] ++ t)⟩ :: R₂)) m
      (recut A m a e N K) := by
  have hassoc : l ++ [used N] ++ ([avail K] ++ t) = l ++ [used N, avail K] ++ t := by simp
  rw [hassoc]
  refine (recut_only ?_ ?_ ?_).1
  · exact .inr (header_in ha (c := ⟨used N, a, _⟩) mem_cons_self)
  · exact .inr (header_in ha (c := ⟨avail K, a + N, N⟩)
      (mem_cons_of_mem _ mem_cons_self))
  · exact .inr (header_behind ha he)

theorem Shape.moveBound
    (h : Shape A fl m (R₁ ++ ⟨base, l ++ [used s] ++ (avail z :: t)⟩ :: R₂) items)
    (ha : a = base + A.nodeS + total l) (hN : A.nodeS ≤ N) (hK : A.nodeS ≤ K)
    (hsum : s + z = N + K) :
    Returns (fun k => moveBound A k m fl a (a + s) N) fun m' =>
      Only A (Either A fl (R₁ ++ ⟨base, l ++ [used s] ++ (avail z :: t)⟩ :: R₂)
        (R₁ ++ ⟨base, l ++ [used N] ++ ([avail K] ++ t)⟩ :: R₂)) m m' ∧
      ∃ items', Shape A fl m' (R₁ ++ ⟨base, l ++ [used N] ++ ([avail K] ++ t)⟩ :: R₂) items' := by
  obtain ⟨hlt, htop⟩ := h.sizes_lt
  have hn := A.nodeS_def
  have h32 := A.two_pow_le_top
  simp only [total_cons, total_nil, used, avail] at hlt htop
  obtain ⟨hz, -, honly, I₁, I₂, -, h₃⟩ := h.unlink_next ha
  have hs₃ : A.get .size (removeNode A m (a + s)) a = s := (h₃.tag ha mem_cons_self).1
  have hz₃ : A.get .size (removeNode A m (a + s)) (a + s) = z :=
    (h₃.tag ha (mem_cons_of_mem _ mem_cons_self)).1
  have hsub : A.sub ((z + s) % 2 ^ 32) N = K := by
    rw [Nat.mod_eq_of_lt (by omega), Abi.sub_eq (by omega) (by omega)]
    omega
  have hcut := (h₃.recut ha (by simp [loose]) hN hK
    (by simp only [total_cons, total_nil, loose, add_zero, hsum])).1
  unfold Heap.moveBound
  simp only [hz, hs₃, hz₃, hsub]
  rw [Abi.incoffset_eq (by omega), Abi.incoffset_eq (by omega), recut_eq hN (by omega),
    add_assoc a s, hsum, ← add_assoc a N]
  apply (hcut.addNode_behind ha).mono
  rintro m' ⟨hadd, h'⟩
  refine ⟨Only.trans (honly.mono fun y hy => .inl hy) ?_, h'⟩
  exact (recut_either ha (add_assoc a N K)).trans (hadd.mono fun y hy => .inr hy)

theorem Shape.cutNode (h : Shape A fl m (R₁ ++ ⟨base, l ++ [used s] ++ t⟩ :: R₂) items)
    (ha : a = base + A.nodeS + total l) (hN : A.nodeS ≤ N) (hK : A.nodeS ≤ K) (hsum : s = N + K) :
    Returns (fun k => cutNode A k m fl a (a + s) N) fun m' =>
      Only A (Either A fl (R₁ ++ ⟨base, l ++ [used s] ++ t⟩ :: R₂)
        (R₁ ++ ⟨base, l ++ [used N] ++ ([avail K] ++ t)⟩ :: R₂)) m m' ∧
      ∃ items', Shape A fl m' (R₁ ++ ⟨base, l ++ [used N] ++ ([avail K] ++ t)⟩ :: R₂) items' := by
  obtain ⟨hlt, htop⟩ := h.sizes_lt
  have hn := A.nodeS_def
  have h32 := A.two_pow_le_top
  simp only [total_cons, total_nil, used] at hlt htop
  have hs : A.get .size m a = s := (h.tag ha mem_cons_self).1
  have hsub : A.sub s N = K := by
    rw [Abi.sub_eq (by omega) (by omega)]
    omega
  have hcut := (h.recut ha (forall_mem_nil _) hN hK hsum).1
  unfold Heap.cutNode
  simp only [hs, hsub]
  rw [Abi.incoffset_eq (by omega), recut_eq hN (by omega), hsum, ← add_assoc]
  apply (hcut.addNode_behind ha).mono
  rintro m' ⟨hadd, h'⟩
  exact ⟨(recut_either ha (add_assoc a N K)).trans (hadd.mono fun y hy => .inr hy), h'⟩

theorem Shape.takeNext
    (h : Shape A fl m (R₁ ++ ⟨base, l ++ [used s] ++ (avail z :: t)⟩ :: R₂) items)
    (ha : a = base + A.nodeS + total l) :
    Only A (Header A fl (R₁ ++ ⟨base, l ++ [used s] ++ (avail z :: t)⟩ :: R₂)) m
      (takeNext A m a (a + s) (s + z)) ∧
    ∃ items', Shape A fl (takeNext A m a (a + s) (s + z))
      (R₁ ++ ⟨base, l ++ [used (s + z)] ++ t⟩ :: R₂) items' := by
  obtain ⟨hlt, htop⟩ := h.sizes_lt
  have hn := A.nodeS_def
  simp only [total_cons, total_nil, used, avail] at hlt htop
  obtain ⟨honly, I₁, I₂, -, h'⟩ := h.absorb ha
  unfold Heap.takeNext
  simp only [(h.unlink_next ha).1]
  rw [Abi.incoffset_eq (by omega), get_set_size (by omega), add_assoc]
  exact ⟨honly, _, h'⟩

structure Resized (A : Abi) (fl N : Nat) (rs : List Region) (m' : Bytes) (a b s : Nat)
    (rs' : List Region) : Prop where
  zone : Zone A fl m' rs'
  extents : rs'.map (Region.extent A) = rs.map (Region.extent A)
  size : N ≤ s
  live : ∀ x, x ∈ live A rs' ↔ x = (b, s) ∨ x ∈ live A rs ∧ x.1 ≠ a

theorem Shape.resized (h : Shape A fl m (R₁ ++ ⟨base, l ++ [used s] ++ t⟩ :: R₂) items)
    (hset : ∀ r ∈ R₁ ++ ⟨base, l ++ [used s] ++ t⟩ :: R₂, Settled r.blocks)
    (ha : a = base + A.nodeS + total l) (hN : N ≤ s') (ht' : Settled t')
    (htotal : s' + total t' = s + total t) (hlive : liveOf (a + s') t' = liveOf (a + s) t)
    (h' : Shape A fl m' (R₁ ++ ⟨base, l ++ [used s'] ++ t'⟩ :: R₂) items') :
    Resized A fl N (R₁ ++ ⟨base, l ++ [used s] ++ t⟩ :: R₂) m' a a s'
      (R₁ ++ ⟨base, l ++ [used s'] ++ t'⟩ :: R₂) := by
  obtain ⟨hl, -⟩ := settled_around_used.1 (hset ⟨base, l ++ [used s] ++ t⟩ (by simp))
  refine ⟨⟨⟨items', h'⟩, settled_region hset (settled_around_used.2 ⟨hl, ht'⟩)⟩, ?_, hN, ?_⟩
  · apply extents_eq
    simp only [total_append, total_cons, total_nil, used]
    omega
  · intro x
    have he (s : Nat) : base + A.nodeS + total l + total [used s] = a + s := by
      rw [ha]
      rfl
    rw [mem_live_region, mem_live_region, he, he, hlive, ← ha]
    simp only [liveOf, used, if_true, append_nil, mem_singleton]
    constructor
    · rintro (hx | hx)
      · exact .inl hx
      · exact .inr ⟨.inr hx, h.around_live ha hx⟩
    · rintro (hx | ⟨rfl | hx, hne⟩)
      · exact .inl hx
      · exact absurd rfl hne
      · exact .inr hx

structure Kept (A : Abi) (fl : Nat) (rs : List Region) (m m' : Bytes) (a s b s' : Nat) :
    Prop where
  contents : ∀ i, A.nodeS + i < s → A.nodeS + i < s' → m' (b + A.nodeS + i) = m (a + A.nodeS + i)
  others : ∀ x ∈ live A rs, x.1 ≠ a → ∀ y, Held A [x] y → m' y = m y
  outside : ∀ y, Outside A fl (rs.map (Region.extent A)) y → m' y = m y

theorem Zone.kept (h : Zone A fl m rs) (hr : Resized A fl N rs m' a a s' rs')
    (hx : (a, s) ∈ live A rs) (honly : Only A (Either A fl rs rs') m m') :
    Kept A fl rs m m' a s a s' := by
  have hboth {y : Nat} (hy : Clear A (Header A fl rs) y) (hy' : Clear A (Header A fl rs') y) :
      m' y = m y := by
    apply honly
    intro z hz
    rcases hz with hz | hz
    · exact hy z hz
    · exact hy' z hz
  refine ⟨?_, ?_, ?_⟩
  · intro i hi hi'
    apply hboth
    · apply h.clear_held
      exact ⟨_, hx, by simp only; omega, by simp only; omega⟩
    · apply hr.zone.clear_held
      exact ⟨_, (hr.live _).2 (.inl rfl), by simp only; omega, by simp only; omega⟩
  · intro x hxl hne y hy
    obtain ⟨x', hx', hy⟩ := hy
    rw [mem_singleton.1 hx'] at hy
    apply hboth
    · exact h.clear_held ⟨x, hxl, hy⟩
    · exact hr.zone.clear_held ⟨x, (hr.live x).2 (.inr ⟨hxl, hne⟩), hy⟩
  · intro y hy
    apply hboth
    · exact h.clear_outside hy
    · apply hr.zone.clear_outside
      rw [hr.extents]
      exact hy

theorem Zone.move (h : Zone A fl m rs) (hx : (a, s) ∈ live A rs) (hf : A.Fits N) (hN : s < N) :
    Returns (fun k => (mdxFlMalloc A k m fl N).bind fun r =>
        if r.2 ≠ 0 then
          (mdxFlFree A k (r.1.copy r.2 (a + A.nodeS) (A.get .size r.1 a)) fl (a + A.nodeS)).map
            (·, r.2)
        else some r)
      fun r => r = (m, 0) ∨
        ∃ b s' rs', r.2 = b + A.nodeS ∧ b ≠ a ∧ Resized A fl N rs r.1 a b s' rs' ∧
          Kept A fl rs m r.1 a s b s' := by
  apply (h.malloc hf).bind
  rintro ⟨m₁, p⟩ (he | ⟨b, s', rs₁, hp, ht, honly⟩)
  · cases he
    simp only [ne_eq, not_true_eq_false, if_false]
    exact .pure (.inl rfl)
  · have hn := A.nodeS_def
    have hp0 : p ≠ 0 := by omega
    simp only at hp ht honly
    simp only [if_pos hp0]
    rw [hp]
    have hx₁ := (ht.live (a, s)).2 (.inr hx)
    have hsize : A.get .size m₁ a = s := ht.zone.size_live hx₁
    have hround := (Abi.round_le hf).1
    have hroom := ht.size
    have hcopy : Taken A fl (A.round N) rs (m₁.copy (b + A.nodeS) (a + A.nodeS) s) b s' rs₁ := by
      apply ht.write
      intro y hy
      exact Bytes.copy_of_outside (by omega)
    have hba : b ≠ a := fun he => ht.fresh (a, s) hx he.symm
    rw [hsize]
    apply (hcopy.zone.free hx₁).map
    rintro m₂ ⟨hfree, rs₂, hfreed⟩
    -- a byte that no node of the heap with the new block covers is written by the copy alone
    have hbyte {y : Nat} (hy : Clear A (Header A fl rs₁) y) (hb : y < b + A.nodeS ∨ b + s' ≤ y) :
        m₂ y = m y :=
      ((hfree y hy).trans (Bytes.copy_of_outside (by omega))).trans (honly y hy)
    refine .inr ⟨b, s', rs₂, rfl, hba,
      ⟨hfreed.zone, hfreed.extents.trans ht.extents, by omega, ?_⟩, ?_, ?_, ?_⟩
    · intro x
      rw [hfreed.live, ht.live]
      constructor
      · rintro ⟨rfl | hx, hne⟩
        · exact .inl rfl
        · exact .inr ⟨hx, hne⟩
      · rintro (rfl | ⟨hx, hne⟩)
        · exact ⟨.inl rfl, hba⟩
        · exact ⟨.inr hx, hne⟩
    · intro i hi hi'
      have hto : Clear A (Header A fl rs₁) (b + A.nodeS + i) := by
        apply ht.zone.clear_held
        exact ⟨_, (ht.live _).2 (.inl rfl), by simp only; omega, by simp only; omega⟩
      have hfrom : Clear A (Header A fl rs₁) (a + A.nodeS + i) := by
        apply ht.zone.clear_held
        exact ⟨_, hx₁, by simp only; omega, by simp only; omega⟩
      simp only
      rw [hfree _ hto, Bytes.copy_of_inside (by omega)]
      exact honly _ hfrom
    · intro x hxl hne y hy
      obtain ⟨x', hx', hy⟩ := hy
      rw [mem_singleton.1 hx'] at hy
      have hxl₁ := (ht.live x).2 (.inr hxl)
      apply hbyte (ht.zone.clear_held ⟨x, hxl₁, hy⟩)
      have hxb : x ≠ (b, s') := fun he => ht.fresh x hxl (by rw [he])
      have hap := ht.zone.live_apart hxl₁ ((ht.live (b, s')).2 (.inl rfl)) hxb
      simp only at hap
      omega
    · intro y hy
      rw [← ht.extents] at hy
      apply hbyte (ht.zone.clear_outside hy)
      have hin := ht.zone.live_inside ((ht.live (b, s')).2 (.inl rfl)) hy
      simp only at hin
      omega

theorem Shape.resized_kept (h : Shape A fl m (R₁ ++ ⟨base, l ++ [used s] ++ t⟩ :: R₂) items)
    (hset : ∀ r ∈ R₁ ++ ⟨base, l ++ [used s] ++ t⟩ :: R₂, Settled r.blocks)
    (ha : a = base + A.nodeS + total l) (hN : N ≤ s') (ht' : Settled t')
    (htotal : s' + total t' = s + total t) (hlive : liveOf (a + s') t' = liveOf (a + s) t)
    (honly : Only A (Either A fl (R₁ ++ ⟨base, l ++ [used s] ++ t⟩ :: R₂)
      (R₁ ++ ⟨base, l ++ [used s'] ++ t'⟩ :: R₂)) m m')
    (h' : Shape A fl m' (R₁ ++ ⟨base, l ++ [used s'] ++ t'⟩ :: R₂) items') :
    ∃ s' rs', Resized A fl N (R₁ ++ ⟨base, l ++ [used s] ++ t⟩ :: R₂) m' a a s' rs' ∧
      Kept A fl (R₁ ++ ⟨base, l ++ [used s] ++ t⟩ :: R₂) m m' a s a s' := by
  have hr := h.resized hset ha hN ht' htotal hlive h'
  have hx : (a, s) ∈ live A (R₁ ++ ⟨base, l ++ [used s] ++ t⟩ :: R₂) := by
    rw [mem_live_region, ← ha]
    exact .inl mem_cons_self
  exact ⟨s', _, hr, Zone.kept ⟨⟨items, h⟩, hset⟩ hr hx honly⟩

def Reallocated (A : Abi) (fl N : Nat) (rs : List Region) (m : Bytes) (a s : Nat)
    (r : Bytes × Nat) : Prop :=
  r = (m, 0) ∨ ∃ b s' rs', r.2 = b + A.nodeS ∧ Resized A fl N rs r.1 a b s' rs' ∧
    Kept A fl rs m r.1 a s b s'

theorem Zone.realloc (h : Zone A fl m rs) (hx : (a, s) ∈ live A rs) (h0 : size ≠ 0)
    (hf : A.Fits size) (hf' : A.Fits (A.round size)) :
    Returns (fun k => mdxFlRealloc A k m fl fl (a + A.nodeS) size)
      (Reallocated A fl (A.round size) rs m a s) := by
  have hmove := h.move hx hf'
  obtain ⟨⟨items, hs⟩, hset⟩ := h
  obtain ⟨hround, -⟩ := Abi.round_le hf
  have hfits : A.round size + A.nodeS < A.top := by
    have := (Abi.round_le hf').1
    have := (Abi.round_le hf').2
    omega
  unfold mdxFlRealloc
  generalize A.round size = N at hround hfits hmove
  obtain ⟨R₁, R₂, base, l, t, rfl, ha⟩ := live_split hset hx
  simp only at ha hs hset
  obtain ⟨hl, ht⟩ := settled_around_used.1 (hset ⟨base, l ++ [used s] ++ t⟩ (by simp))
  obtain ⟨hlt, htop⟩ := hs.sizes_lt
  have hn := A.nodeS_def
  have hb : A.nodeS ≤ s := hs.block_size
  simp only [total_cons, total_nil, used] at hlt htop
  have hnode : A.decoffset (a + A.nodeS) A.nodeS = a := Abi.decoffset_eq (by omega)
  have hsize : A.get .size m a = s := (hs.tag ha mem_cons_self).1
  have hnext : A.incoffset a s = a + s := Abi.incoffset_eq (by omega)
  simp only [if_neg (by omega : ¬a + A.nodeS = 0), if_neg h0, hnode, hsize, hnext,
    Nat.mod_eq_of_lt hfits]
  have hmove (hN : s < N) := (hmove hN).mono fun r hr =>
    show Reallocated A fl N (R₁ ++ ⟨base, l ++ [used s] ++ t⟩ :: R₂) m a s r by
      obtain hr | ⟨b, s', rs', hp, -, hb⟩ := hr
      · exact .inl hr
      · exact .inr ⟨b, s', rs', hp, hb⟩
  have hstay {m' : Bytes} (hm : ∃ s' rs',
      Resized A fl N (R₁ ++ ⟨base, l ++ [used s] ++ t⟩ :: R₂) m' a a s' rs' ∧
        Kept A fl (R₁ ++ ⟨base, l ++ [used s] ++ t⟩ :: R₂) m m' a s a s') :
      Reallocated A fl N (R₁ ++ ⟨base, l ++ [used s] ++ t⟩ :: R₂) m a s (m', a + A.nodeS) := by
    obtain ⟨s', rs', hr, hk⟩ := hm
    exact .inr ⟨a, s', rs', rfl, hr, hk⟩
  rcases ht.next with hu | ⟨z, t', rfl, ht', hu'⟩
  · have hflag : A.get .flags m (a + s) &&& flagAllocated ≠ 0 := hs.next_used ha hu
    simp only [hflag, decide_false, Bool.false_eq_true, false_and, if_false]
    split
    · rename_i hNs
      split
      · rename_i hcut
        obtain ⟨K, rfl⟩ := Nat.exists_eq_add_of_le hNs
        apply (hs.cutNode ha (by omega) (by omega) rfl).map
        rintro m' ⟨honly, items', h'⟩
        refine hstay (hs.resized_kept hset ha (le_refl N) ?_ ?_ ?_ honly h')
        · exact settled_avail_append ht hu
        · simp only [total_append, total_cons, total_nil, avail]
          omega
        · rw [singleton_append, liveOf_avail, add_assoc]
      · exact .pure (hstay (hs.resized_kept hset ha hNs ht rfl rfl (Only.refl _ _ m) hs))
    · exact hmove (by omega)
  · have hcell :
        Cells A (R₁ ++ ⟨base, l ++ [used s] ++ (avail z :: t')⟩ :: R₂) ⟨avail z, a + s, s⟩ :=
      (cells_stretch ha (by rfl) (by rfl)).2 (.inr (.inl rfl))
    have hz : A.get .size m (a + s) = z := (hs.tags _ hcell).1
    have hzb : A.nodeS ≤ z := hs.cell_size hcell
    have hflag : A.get .flags m (a + s) &&& flagAllocated = 0 := hs.flag hcell
    simp only [total_cons, avail] at hlt htop
    simp only [hflag, hz, decide_true, true_and, if_true,
      Nat.mod_eq_of_lt (by omega : s + z < 2 ^ 32)]
    have hmoved (hK : N + A.nodeS ≤ s + z) :
        Returns (fun k => (moveBound A k m fl a (a + s) N).map (·, a + A.nodeS))
          (Reallocated A fl N (R₁ ++ ⟨base, l ++ [used s] ++ (avail z :: t')⟩ :: R₂) m a s) := by
      obtain ⟨K, hK'⟩ := Nat.exists_eq_add_of_le (by omega : N ≤ s + z)
      apply (hs.moveBound ha (by omega) (by omega) hK').map
      rintro m' ⟨honly, items', h'⟩
      refine hstay (hs.resized_kept hset ha (le_refl N) ?_ ?_ ?_ honly h')
      · exact settled_avail_append ht' hu'
      · simp only [singleton_append, total_cons, avail]
        omega
      · rw [singleton_append, liveOf_avail, liveOf_avail, add_assoc, add_assoc, hK']
    split
    · exact hmoved (by omega)
    · split
      · exact hmoved (by omega)
      · split
        · rename_i hsum
          subst hsum
          obtain ⟨honly, items', h'⟩ := hs.takeNext ha
          refine .pure (hstay (hs.resized_kept hset ha le_rfl ht' ?_ ?_
            (honly.mono fun y hy => .inl hy) h'))
          · simp only [total_cons, avail]
            omega
          · rw [liveOf_avail, add_assoc]
        · exact hmove (by omega)

end
end Mdepx.Heap
