import Mdepx.Heap.Edit

namespace Mdepx.Heap
open Lib List

/-! One stretch of a region is cut into blocks anew. -/

section
variable {A : Abi} {m m' : Bytes} {fl : Nat} {rs R₁ R₂ : List Region} {items : List Item}
  {l t bs bs' ds : List Block} {d : Block}

def Within (A : Abi) (a e : Nat) (m m' : Bytes) : Prop :=
  ∀ x, x < a ∨ e ≤ x → x < e + A.off .flags ∨ e + A.off .flags + 4 ≤ x → m' x = m x

namespace Within

theorem refl (A : Abi) (a e : Nat) (m : Bytes) : Within A a e m m := fun _ _ _ => rfl

section
variable (h : Within A a e m m')
include h

theorem set (ha : a ≤ y) (he : y + A.nodeS ≤ e) : Within A a e m (A.set f m' y v) := by
  intro x hx hf
  rw [Abi.set_outside (by omega)]
  exact h x hx hf

theorem setFlags : Within A a e m (A.set .flags m' e v) := by
  intro x hx hf
  rw [Abi.setFlags_outside (by simp only [Abi.off] at hf; omega)]
  exact h x hx hf

theorem setPrevSize : Within A a e m (setPrevSize A m' e s) :=
  h.setFlags.setFlags

theorem get (hae : a ≤ e) (f : Field) (hy : y + A.nodeS ≤ a ∨ e + A.nodeS ≤ y) :
    A.get f m' y = A.get f m y := by
  have hn := A.nodeS_def
  apply Abi.get_congr
  intro x hx hx'
  apply h x
  · omega
  · simp only [Abi.off]
    omega

theorem get_next (hf : f ≠ .flags) : A.get f m' e = A.get f m e := by
  have hp := A.ptr_le
  apply Bytes.load_congr
  intro x hx hx'
  apply h x
  · exact .inr (by omega)
  · left
    cases f with
    | flags => exact absurd rfl hf
    | next | prev | size => simp only [Abi.off, Abi.len] at hx hx' ⊢; omega

end

end Within

def Rest (A : Abi) (R₁ R₂ : List Region) (base : Nat) (l : List Block) (e : Nat) (d : Block)
    (ds : List Block) (c : Cell) : Prop :=
  (∃ r ∈ R₁ ++ R₂, c ∈ r.cells A) ∨ c = ⟨A.sentinel, base, 0⟩ ∨
    c ∈ cells (base + A.nodeS) A.nodeS l ∨ c ∈ cells (e + d.size) d.size ds

theorem around_iff (hd : t ++ [A.sentinel] = d :: ds) :
    Around A R₁ R₂ base l e s t c ↔ c = ⟨d, e, s⟩ ∨ Rest A R₁ R₂ base l e d ds c := by
  simp only [Around, Rest, hd, cells, mem_cons]
  constructor
  · rintro (h | h | h | h | h)
    · exact .inr (.inl h)
    · exact .inr (.inr (.inl h))
    · exact .inr (.inr (.inr (.inl h)))
    · exact .inl h
    · exact .inr (.inr (.inr (.inr h)))
  · rintro (h | h | h | h | h)
    · exact .inr (.inr (.inr (.inl h)))
    · exact .inl h
    · exact .inr (.inl h)
    · exact .inr (.inr (.inl h))
    · exact .inr (.inr (.inr (.inr h)))

section
variable (ha : a = base + A.nodeS + total l)
include ha

theorem cells_stretch (he : e = a + total bs) (hd : t ++ [A.sentinel] = d :: ds) :
    Cells A (R₁ ++ ⟨base, l ++ bs ++ t⟩ :: R₂) c ↔
      c ∈ cells a (lastSize A.nodeS l) bs ∨ c = ⟨d, e, lastSize (lastSize A.nodeS l) bs⟩ ∨
      Rest A R₁ R₂ base l e d ds c := by
  rw [cells_iff, ← ha, ← he, around_iff hd]

theorem header_in (hc : c ∈ cells a (lastSize A.nodeS l) bs) :
    Header A fl (R₁ ++ ⟨base, l ++ bs ++ t⟩ :: R₂) c.addr := by
  rw [ha] at hc
  exact .inr ⟨c, cells_iff.2 (.inl hc), rfl⟩

theorem header_behind (he : e = a + total bs) :
    Header A fl (R₁ ++ ⟨base, l ++ bs ++ t⟩ :: R₂) e := by
  obtain ⟨d, ds, hd⟩ : ∃ d ds, t ++ [A.sentinel] = d :: ds := exists_cons_of_ne_nil (by simp)
  exact .inr ⟨_, (cells_stretch ha he hd).2 (.inr (.inl rfl)), rfl⟩

end

structure Bounds (A : Abi) (fl e : Nat) (d : Block) : Prop where
  size : A.nodeS ≤ d.size
  top : e + d.size ≤ A.top
  zone : e + d.size ≤ fl ∨ fl + 32 * A.nodeS ≤ e

theorem Shape.bounds (h : Shape A fl m (R₁ ++ ⟨base, l ++ bs ++ t⟩ :: R₂) items)
    (ha : a = base + A.nodeS + total l) (he : e = a + total bs)
    (hd : t ++ [A.sentinel] = d :: ds) : Bounds A fl e d := by
  have hc : Cells A (R₁ ++ ⟨base, l ++ bs ++ t⟩ :: R₂) ⟨d, e, lastSize (lastSize A.nodeS l) bs⟩ :=
    (cells_stretch ha he hd).2 (.inr (.inl rfl))
  exact ⟨h.cell_size hc, (h.cell_lt hc).1, h.cell_off_zone hc⟩

theorem stretch_size (ha : a = base + A.nodeS + total l) (he : e = a + total bs)
    (hd : t ++ [A.sentinel] = d :: ds) :
    base + Region.size A ⟨base, l ++ bs ++ t⟩ = e + d.size + total ds := by
  have ht := congrArg total hd
  have hs : A.sentinel.size = A.nodeS := rfl
  simp only [total_append, total_cons, total_nil, hs] at ht
  rw [region_size]
  simp only [total_append]
  omega

theorem Shape.rest_apart (h : Shape A fl m (R₁ ++ ⟨base, l ++ bs ++ t⟩ :: R₂) items)
    (ha : a = base + A.nodeS + total l) (he : e = a + total bs)
    (hd : t ++ [A.sentinel] = d :: ds) (hc : Rest A R₁ R₂ base l e d ds c) :
    c.addr + c.size ≤ a ∨ e + d.size ≤ c.addr := by
  have hsize : base + Region.size A ⟨base, l ++ bs ++ t⟩ = e + d.size + total ds :=
    stretch_size ha he hd
  rcases hc with ⟨r, hr, hc⟩ | hc | hc | hc
  · have hb := region_bounds hc
    have ho := h.others_apart hr
    simp only at ho
    omega
  · have hs : A.sentinel.size = A.nodeS := rfl
    rw [hc]
    simp only
    omega
  · have hb := cell_bounds hc
    omega
  · have hb := cell_bounds hc
    omega

theorem inList_stretch (ha : a = base + A.nodeS + total l) (he : e = a + total bs)
    (hd : t ++ [A.sentinel] = d :: ds) (hbs : ∀ b ∈ bs, b.linked = false) :
    InList A (R₁ ++ ⟨base, l ++ bs ++ t⟩ :: R₂) x s ↔
      (d.linked = true ∧ e = x ∧ d.size = s) ∨
      ∃ c, Rest A R₁ R₂ base l e d ds c ∧ c.linked = true ∧ c.addr = x ∧ c.size = s := by
  constructor
  · rintro ⟨c, hc, hl, hx, hs⟩
    rcases (cells_stretch ha he hd).1 hc with hc | rfl | hc
    · have hf := hbs _ (cell_mem hc)
      rw [hl] at hf
      cases hf
    · exact .inl ⟨hl, hx, hs⟩
    · exact .inr ⟨c, hc, hl, hx, hs⟩
  · rintro (⟨hl, hx, hs⟩ | ⟨c, hc, hl, hx, hs⟩)
    · exact ⟨_, (cells_stretch ha he hd).2 (.inr (.inl rfl)), hl, hx, hs⟩
    · exact ⟨c, (cells_stretch ha he hd).2 (.inr (.inr hc)), hl, hx, hs⟩

theorem Shape.replace (h : Shape A fl m (R₁ ++ ⟨base, l ++ bs ++ t⟩ :: R₂) items)
    (ha : a = base + A.nodeS + total l) (he : e = a + total bs) (hw : Within A a e m m')
    (hbs : ∀ b ∈ bs, b.linked = false)
    (hbs' : ∀ b ∈ bs', b.linked = false ∧ A.nodeS ≤ b.size) (htotal : total bs' = total bs)
    (htags : ∀ c ∈ cells a (lastSize A.nodeS l) bs', Tagged A m' c)
    (hflags : ∀ live : Bool,
      A.get .flags m e = lastSize (lastSize A.nodeS l) bs + (if live then 2 ^ 31 else 0) →
      A.get .flags m' e = lastSize (lastSize A.nodeS l) bs' + if live then 2 ^ 31 else 0) :
    Shape A fl m' (R₁ ++ ⟨base, l ++ bs' ++ t⟩ :: R₂) items := by
  obtain ⟨d, ds, hd⟩ : ∃ d ds, t ++ [A.sentinel] = d :: ds := exists_cons_of_ne_nil (by simp)
  have he' : e = a + total bs' := by rw [he, htotal]
  have hb := h.bounds ha he hd
  have hcells {c : Cell} : Cells A (R₁ ++ ⟨base, l ++ bs ++ t⟩ :: R₂) c ↔ _ :=
    cells_stretch ha he hd
  have hcells' {c : Cell} : Cells A (R₁ ++ ⟨base, l ++ bs' ++ t⟩ :: R₂) c ↔ _ :=
    cells_stretch ha he' hd
  have hrest {c : Cell} (f : Field) (hc : Rest A R₁ R₂ base l e d ds c) :
      A.get f m' c.addr = A.get f m c.addr := by
    have hap := h.rest_apart ha he hd hc
    have hs := h.cell_size (hcells.2 (.inr (.inr hc)))
    have hds := hb.size
    exact hw.get (by omega) f (by omega)
  have hhead {i : Nat} (f : Field) (hi : i < 32) :
      A.get f m' (A.head fl i) = A.get f m (A.head fl i) := by
    have hz := h.off_zone (r := ⟨base, l ++ bs ++ t⟩) (by simp)
    have hsz : base + Region.size A ⟨base, l ++ bs ++ t⟩ = e + d.size + total ds :=
      stretch_size ha he hd
    have hds := hb.size
    have hhb := head_bounds A fl hi
    simp only at hz
    exact hw.get (by omega) f (by omega)
  refine ⟨?_, ?_, ?_, ?_, ?_, h.nodup, h.headItems, ?_, h.sorted⟩
  · have hext : Region.extent A ⟨base, l ++ bs' ++ t⟩ = Region.extent A ⟨base, l ++ bs ++ t⟩ := by
      simp only [Region.extent, region_size, total_append, htotal]
    have hsp := h.spread
    rw [map_append, map_cons] at hsp ⊢
    rw [hext]
    exact hsp
  · intro r hr b hbr
    have hold := h.sized
    simp only [mem_append, mem_cons] at hr
    rcases hr with hr | rfl | hr
    · exact hold r (by simp [hr]) b hbr
    · have hmid := hold ⟨base, l ++ bs ++ t⟩ (by simp)
      simp only [mem_append] at hbr hmid
      rcases hbr with (hbr | hbr) | hbr
      · exact hmid b (.inl (.inl hbr))
      · exact (hbs' b hbr).2
      · exact hmid b (.inr hbr)
    · exact hold r (by simp [hr]) b hbr
  · intro c hc
    rcases hcells'.1 hc with hc | rfl | hc
    · exact htags c hc
    · obtain ⟨hs, hf⟩ := h.tags _ (hcells.2 (.inr (.inl rfl)))
      exact ⟨(hw.get_next (by decide)).trans hs, hflags d.live hf⟩
    · obtain ⟨hs, hf⟩ := h.tags c (hcells.2 (.inr (.inr hc)))
      exact ⟨(hrest .size hc).trans hs, (hrest .flags hc).trans hf⟩
  · intro i hi
    exact (hhead .size hi).trans (h.heads i hi)
  · have hlink {x : Nat} (f : Field) (hf : f ≠ .flags)
        (hx : x ∈ A.head fl 0 :: items.map (Item.addr A fl)) : A.get f m' x = A.get f m x := by
      rcases mem_cons.1 hx with rfl | hx
      · exact hhead f (by decide)
      · obtain ⟨y, hy, rfl⟩ := mem_map.1 hx
        cases y with
        | head i => exact hhead f ((h.headItems i).1 hy).2
        | node x s =>
          rcases (inList_stretch ha he hd hbs).1 ((h.nodeItems x s).1 hy) with
            ⟨-, rfl, -⟩ | ⟨c, hc, -, rfl, -⟩
          · exact hw.get_next hf
          · exact hrest f hc
    apply h.chain.congr
    · intro x hx
      exact hlink .next (by decide) hx
    · intro x hx
      exact hlink .prev (by decide) (mem_cons_of_mem _ hx)
  · intro x s
    refine (h.nodeItems x s).trans ((inList_stretch ha he hd hbs).trans ?_)
    exact (inList_stretch ha he' hd fun b hb => (hbs' b hb).1).symm

def allocBit (live : Bool) : Nat := if live then 2 ^ 31 else 0

section
variable (hs : s < 2 ^ 31)
include hs

theorem or_size (live : Bool) : allocBit live ||| s = s + allocBit live := by
  cases live with
  | false => simp only [allocBit, Bool.false_eq_true, if_false, Nat.zero_or, add_zero]
  | true =>
    have ho := Nat.two_pow_add_eq_or_of_lt hs 1
    rw [mul_one] at ho
    simp only [allocBit, if_true]
    rw [← ho, add_comm]

theorem and_flagAllocated (live : Bool) :
    (s + allocBit live) &&& flagAllocated = allocBit live := by
  have h₀ : s &&& flagAllocated = 0 := by
    apply Nat.eq_of_testBit_eq
    intro i
    rw [Nat.testBit_and, flagAllocated, Nat.testBit_two_pow, Nat.zero_testBit]
    by_cases hi : 31 = i
    · rw [← hi, Nat.testBit_lt_two_pow hs, Bool.false_and]
    · rw [decide_eq_false hi, Bool.and_false]
  rw [← or_size hs, Nat.and_or_distrib_right, h₀, Nat.or_zero]
  cases live with
  | false | true => rfl

theorem or_flagAllocated : s ||| flagAllocated = s + allocBit true := by
  rw [Nat.or_comm]
  exact or_size hs true

theorem and_mask (live : Bool) : (s + allocBit live) &&& (flagAllocated - 1) = s := by
  unfold flagAllocated
  rw [Nat.and_two_pow_sub_one_eq_mod]
  cases live with
  | false => exact Nat.mod_eq_of_lt hs
  | true => exact (Nat.add_mod_right s (2 ^ 31)).trans (Nat.mod_eq_of_lt hs)

theorem tag_lt (live : Bool) : s + allocBit live < 256 ^ 4 := by
  have hb : allocBit live ≤ 2 ^ 31 := by
    cases live with
    | false => exact Nat.zero_le _
    | true => exact Nat.le_refl _
  omega

end

theorem get_set_size (hs : s < 2 ^ 32) : A.get .size (A.set .size m a s) a = s :=
  (A.get_set_self .size m a s).trans (Nat.mod_eq_of_lt hs)

theorem get_set_flags (hs : s < 2 ^ 32) : A.get .flags (A.set .flags m a s) a = s :=
  (A.get_set_self .flags m a s).trans (Nat.mod_eq_of_lt hs)

theorem setPrevSize_flags (hs : s < 2 ^ 31) (hs' : s' < 2 ^ 31)
    (h : A.get .flags m e = s + allocBit live) :
    A.get .flags (setPrevSize A m e s') e = s' + allocBit live := by
  have hb : allocBit live < 2 ^ 32 := lt_of_le_of_lt (Nat.le_add_left _ _) (tag_lt hs live)
  unfold setPrevSize
  simp only
  rw [h, and_flagAllocated hs, get_set_flags hb, or_size hs', get_set_flags (tag_lt hs' live)]

theorem setPrevSize_apart (h : x + A.nodeS ≤ e ∨ e + A.nodeS ≤ x) :
    A.get f (setPrevSize A m e s) x = A.get f m x := by
  unfold setPrevSize
  rw [Abi.get_set_apart h, Abi.get_set_apart h]

def loose (s : Nat) : Block := ⟨s, false, false⟩

theorem lastSize_le (p : Nat) (l : List Block) : lastSize p l ≤ p + total l := by
  induction l generalizing p with
  | nil => exact le_rfl
  | cons b l ih =>
    have hb := ih b.size
    rw [total_cons]
    simp only [lastSize]
    omega

section
variable (h : Shape A fl m (R₁ ++ ⟨base, l ++ bs ++ t⟩ :: R₂) items)
include h

theorem Shape.sizes_lt :
    2 * A.nodeS + (total l + total bs + total t) < 2 ^ 31 ∧
    base + (2 * A.nodeS + (total l + total bs + total t)) ≤ A.top := by
  have hb := h.bound (r := ⟨base, l ++ bs ++ t⟩) (by simp)
  rw [region_size] at hb
  simp only [total_append] at hb
  exact ⟨hb.2, hb.1⟩

theorem Shape.fuse (ha : a = base + A.nodeS + total l) (hbs : ∀ b ∈ bs, b.linked = false)
    (hN : A.nodeS ≤ N) (htotal : total bs = N) (hw : Within A a (a + N) m m')
    (hsize : A.get .size m' a = N) (hflags : A.get .flags m' a = lastSize A.nodeS l + allocBit live)
    (hnext : ∀ q, A.get .flags m (a + N) = lastSize (lastSize A.nodeS l) bs + allocBit q →
      A.get .flags m' (a + N) = N + allocBit q) :
    Shape A fl m' (R₁ ++ ⟨base, l ++ [⟨N, live, false⟩] ++ t⟩ :: R₂) items := by
  apply h.replace ha (e := a + N) (by rw [htotal]) hw hbs
  · intro b hb
    rw [mem_singleton.1 hb]
    exact ⟨rfl, hN⟩
  · rw [htotal]
    simp only [total_cons, total_nil, add_zero]
  · intro c hc
    rw [mem_singleton.1 hc]
    exact ⟨hsize, hflags⟩
  · exact hnext

theorem Shape.cut (ha : a = base + A.nodeS + total l) (hbs : ∀ b ∈ bs, b.linked = false)
    (hN : A.nodeS ≤ N) (hK : A.nodeS ≤ K) (htotal : total bs = N + K)
    (hw : Within A a (a + N + K) m m') (hsize : A.get .size m' a = N)
    (hflags : A.get .flags m' a = lastSize A.nodeS l + allocBit live)
    (hsize' : A.get .size m' (a + N) = K) (hflags' : A.get .flags m' (a + N) = N)
    (hnext : ∀ q, A.get .flags m (a + N + K) = lastSize (lastSize A.nodeS l) bs + allocBit q →
      A.get .flags m' (a + N + K) = K + allocBit q) :
    Shape A fl m' (R₁ ++ ⟨base, l ++ [⟨N, live, false⟩, loose K] ++ t⟩ :: R₂) items := by
  apply h.replace ha (e := a + N + K) (by rw [htotal, add_assoc]) hw hbs
  · intro b hb
    simp only [mem_cons, not_mem_nil, or_false] at hb
    rcases hb with rfl | rfl
    · exact ⟨rfl, hN⟩
    · exact ⟨rfl, hK⟩
  · rw [htotal]
    simp only [total_cons, total_nil, add_zero, loose]
  · intro c hc
    simp only [cells, mem_cons, not_mem_nil, or_false] at hc
    rcases hc with rfl | rfl
    · exact ⟨hsize, hflags⟩
    · exact ⟨hsize', hflags'⟩
  · exact hnext

theorem Shape.tag (ha : a = base + A.nodeS + total l) (hc : c ∈ cells a (lastSize A.nodeS l) bs) :
    Tagged A m c := by
  apply h.tags c
  rw [cells_iff, ← ha]
  exact .inl hc

end

def recut (A : Abi) (m : Bytes) (node e N K : Nat) : Bytes :=
  let m := A.set .size m (node + N) K
  let m := A.set .flags m (node + N) N
  let m := A.set .size m node N
  setPrevSize A m e K

def resplit (A : Abi) (m : Bytes) (node e N K : Nat) : Bytes :=
  let m := setPrevSize A m e K
  let m := A.set .size m node N
  let m := A.set .size m (node + N) K
  A.set .flags m (node + N) N

def refuse (A : Abi) (m : Bytes) (node e N : Nat) : Bytes :=
  setPrevSize A (A.set .size m node N) e N

theorem Only.setPrevSize (h : Only A H m m') (he : H e) : Only A H m (setPrevSize A m' e s) :=
  (h.set he).set he

theorem recut_only {H : Nat → Prop} (ha : H a) (hn : H (a + N)) (he : H e) :
    Only A H m (recut A m a e N K) ∧ Only A H m (resplit A m a e N K) :=
  ⟨((((Only.refl A H m).set hn).set hn).set ha).setPrevSize he,
    ((((Only.refl A H m).setPrevSize he).set ha).set hn).set hn⟩

theorem refuse_only {H : Nat → Prop} (ha : H a) (he : H e) : Only A H m (refuse A m a e N) :=
  ((Only.refl A H m).set ha).setPrevSize he

section
variable (h : Shape A fl m (R₁ ++ ⟨base, l ++ ⟨s, live, false⟩ :: bs ++ t⟩ :: R₂) items)
include h

theorem Shape.lastSize_lt : lastSize (lastSize A.nodeS l) (⟨s, live, false⟩ :: bs) < 2 ^ 31 := by
  have hlt := h.sizes_lt.1
  have hlast := lastSize_le (lastSize A.nodeS l) (⟨s, live, false⟩ :: bs)
  have hl := lastSize_le A.nodeS l
  omega

theorem Shape.recut (ha : a = base + A.nodeS + total l) (hbs : ∀ b ∈ bs, b.linked = false)
    (hN : A.nodeS ≤ N) (hK : A.nodeS ≤ K) (htotal : s + total bs = N + K) :
    Shape A fl (recut A m a (a + N + K) N K)
      (R₁ ++ ⟨base, l ++ [⟨N, live, false⟩, loose K] ++ t⟩ :: R₂) items ∧
    Shape A fl (resplit A m a (a + N + K) N K)
      (R₁ ++ ⟨base, l ++ [⟨N, live, false⟩, loose K] ++ t⟩ :: R₂) items := by
  have hlt := h.sizes_lt.1
  simp only [total_cons] at hlt
  have hprev := h.lastSize_lt
  have hflags : A.get .flags m a = lastSize A.nodeS l + allocBit live :=
    (h.tag ha mem_cons_self).2
  have hbs' : ∀ b ∈ (⟨s, live, false⟩ : Block) :: bs, b.linked = false :=
    forall_mem_cons.2 ⟨rfl, hbs⟩
  have han : a + A.nodeS ≤ a + N ∨ a + N + A.nodeS ≤ a := .inl (by omega)
  have hae : a + A.nodeS ≤ a + N + K ∨ a + N + K + A.nodeS ≤ a := .inl (by omega)
  have hne : a + N + A.nodeS ≤ a + N + K ∨ a + N + K + A.nodeS ≤ a + N := .inl (by omega)
  constructor
  · apply h.cut ha hbs' hN hK (by rw [total_cons, htotal])
    · exact ((((Within.refl A a (a + N + K) m).set (by omega) (by omega)).set (by omega)
        (by omega)).set (by omega) (by omega)).setPrevSize
    · rw [Heap.recut, setPrevSize_apart hae, get_set_size (by omega)]
    · rw [Heap.recut, setPrevSize_apart hae, Abi.get_set_field (by decide),
        Abi.get_set_apart han, Abi.get_set_apart han, hflags]
    · rw [Heap.recut, setPrevSize_apart hne, Abi.get_set_apart han.symm,
        Abi.get_set_field (by decide), get_set_size (by omega)]
    · rw [Heap.recut, setPrevSize_apart hne, Abi.get_set_apart han.symm, get_set_flags (by omega)]
    · intro q hq
      apply setPrevSize_flags hprev (by omega)
      rw [Abi.get_set_apart hae.symm, Abi.get_set_apart hne.symm, Abi.get_set_apart hne.symm]
      exact hq
  · apply h.cut ha hbs' hN hK (by rw [total_cons, htotal])
    · exact (((Within.refl A a (a + N + K) m).setPrevSize.set (by omega) (by omega)).set (by omega)
        (by omega)).set (by omega) (by omega)
    · rw [Heap.resplit, Abi.get_set_apart han, Abi.get_set_apart han, get_set_size (by omega)]
    · rw [Heap.resplit, Abi.get_set_apart han, Abi.get_set_apart han,
        Abi.get_set_field (by decide), setPrevSize_apart hae, hflags]
    · rw [Heap.resplit, Abi.get_set_field (by decide), get_set_size (by omega)]
    · rw [Heap.resplit, get_set_flags (by omega)]
    · intro q hq
      rw [Heap.resplit, Abi.get_set_apart hne.symm, Abi.get_set_apart hne.symm,
        Abi.get_set_apart hae.symm]
      exact setPrevSize_flags hprev (by omega) hq

theorem Shape.refuse (ha : a = base + A.nodeS + total l) (hbs : ∀ b ∈ bs, b.linked = false)
    (hN : A.nodeS ≤ N) (htotal : s + total bs = N) :
    Shape A fl (refuse A m a (a + N) N)
      (R₁ ++ ⟨base, l ++ [⟨N, live, false⟩] ++ t⟩ :: R₂) items := by
  have hlt := h.sizes_lt.1
  simp only [total_cons] at hlt
  have hprev := h.lastSize_lt
  have hflags : A.get .flags m a = lastSize A.nodeS l + allocBit live :=
    (h.tag ha mem_cons_self).2
  have hae : a + A.nodeS ≤ a + N ∨ a + N + A.nodeS ≤ a := .inl (by omega)
  apply h.fuse ha _ hN (by rw [total_cons, htotal])
  · exact ((Within.refl A a (a + N) m).set (by omega) (by omega)).setPrevSize
  · rw [Heap.refuse, setPrevSize_apart hae, get_set_size (by omega)]
  · rw [Heap.refuse, setPrevSize_apart hae, Abi.get_set_field (by decide), hflags]
  · intro q hq
    apply setPrevSize_flags hprev (by omega)
    rw [Abi.get_set_apart hae.symm]
    exact hq
  · exact forall_mem_cons.2 ⟨rfl, hbs⟩

end

theorem Shape.mark (h : Shape A fl m (R₁ ++ ⟨base, l ++ [⟨s, live, false⟩] ++ t⟩ :: R₂) items)
    (ha : a = base + A.nodeS + total l) (hw : Within A a (a + s) m m')
    (hsize : A.get .size m' a = s)
    (hflags : A.get .flags m' a = lastSize A.nodeS l + allocBit live')
    (hnext : A.get .flags m' (a + s) = A.get .flags m (a + s)) :
    Shape A fl m' (R₁ ++ ⟨base, l ++ [⟨s, live', false⟩] ++ t⟩ :: R₂) items := by
  have hs : A.nodeS ≤ s := h.sized ⟨base, l ++ [⟨s, live, false⟩] ++ t⟩ (by simp)
    ⟨s, live, false⟩ (by simp)
  apply h.fuse ha _ hs (by simp only [total_cons, total_nil, add_zero]) hw hsize hflags
  · intro q hq
    exact hnext.trans hq
  · intro b hb
    rw [mem_singleton.1 hb]

end
end Mdepx.Heap
