import Mdepx.Heap.Stretch
import Mathlib.Data.List.Chain

namespace Mdepx.Heap
open Lib List

/-! The blocks of a heap between two calls. -/

section
variable {A : Abi} {m m' : Bytes} {fl : Nat} {rs R₁ R₂ : List Region} {items : List Item}
  {l t bs : List Block}

def used (s : Nat) : Block := ⟨s, true, false⟩

def avail (s : Nat) : Block := ⟨s, false, true⟩

structure Settled (bs : List Block) : Prop where
  linked : ∀ b ∈ bs, b.linked = !b.live
  apart : bs.IsChain fun b d => b.live = true ∨ d.live = true

def EndsUsed (l : List Block) : Prop := ∀ b ∈ l.getLast?, b.live = true

def StartsUsed (t : List Block) : Prop := ∀ b ∈ t.head?, b.live = true

theorem settled_nil : Settled [] := ⟨nofun, .nil⟩

theorem settled_append : Settled (l ++ t) ↔
    Settled l ∧ Settled t ∧ ∀ b ∈ l.getLast?, ∀ d ∈ t.head?, b.live = true ∨ d.live = true := by
  constructor
  · rintro ⟨hl, hc⟩
    obtain ⟨h₁, h₂, h₁₂⟩ := isChain_append.1 hc
    exact ⟨⟨fun b hb => hl b (mem_append_left _ hb), h₁⟩,
      ⟨fun b hb => hl b (mem_append_right _ hb), h₂⟩, h₁₂⟩
  · rintro ⟨h₁, h₂, h₁₂⟩
    refine ⟨?_, isChain_append.2 ⟨h₁.apart, h₂.apart, h₁₂⟩⟩
    intro b hb
    rcases mem_append.1 hb with hb | hb
    · exact h₁.linked b hb
    · exact h₂.linked b hb

theorem settled_used (s : Nat) : Settled [used s] := by
  refine ⟨?_, .singleton _⟩
  intro b hb
  rw [mem_singleton.1 hb]
  rfl

theorem settled_avail (s : Nat) : Settled [avail s] := by
  refine ⟨?_, .singleton _⟩
  intro b hb
  rw [mem_singleton.1 hb]
  rfl

theorem settled_around_used : Settled (l ++ [used s] ++ t) ↔ Settled l ∧ Settled t := by
  rw [settled_append, settled_append]
  constructor
  · rintro ⟨⟨hl, -, -⟩, ht, -⟩
    exact ⟨hl, ht⟩
  · rintro ⟨hl, ht⟩
    refine ⟨⟨hl, settled_used s, ?_⟩, ht, ?_⟩
    · intro b _ d hd
      cases hd
      exact .inr rfl
    · intro b hb d _
      rw [getLast?_concat] at hb
      cases hb
      exact .inl rfl

theorem settled_around_avail : Settled (l ++ [avail s] ++ t) ↔
    (Settled l ∧ EndsUsed l) ∧ Settled t ∧ StartsUsed t := by
  rw [settled_append, settled_append]
  constructor
  · rintro ⟨⟨hl, -, hb⟩, ht, hd⟩
    refine ⟨⟨hl, ?_⟩, ht, ?_⟩
    · intro b hb'
      exact (hb b hb' (avail s) rfl).resolve_right Bool.false_ne_true
    · intro d hd'
      have hb := hd (avail s) (by rw [getLast?_concat]; rfl) d hd'
      exact hb.resolve_left Bool.false_ne_true
  · rintro ⟨⟨hl, hb⟩, ht, hd⟩
    refine ⟨⟨hl, settled_avail s, ?_⟩, ht, ?_⟩
    · intro b hb' d _
      exact .inl (hb b hb')
    · intro b _ d hd'
      exact .inr (hd d hd')

theorem settled_avail_append (ht : Settled t) (hu : StartsUsed t) : Settled ([avail s] ++ t) :=
  settled_around_avail (l := []).2 ⟨⟨settled_nil, nofun⟩, ht, hu⟩

theorem Settled.block (h : Settled bs) (hb : b ∈ bs) : b = used b.size ∨ b = avail b.size := by
  have hl := h.linked b hb
  obtain ⟨s, live, linked⟩ := b
  simp only at hl
  subst hl
  cases live with
  | true => exact .inl rfl
  | false => exact .inr rfl

theorem Settled.next (h : Settled t) :
    StartsUsed t ∨ ∃ z t', t = avail z :: t' ∧ Settled t' ∧ StartsUsed t' := by
  cases t with
  | nil => exact .inl nofun
  | cons b t =>
    rcases h.block mem_cons_self with hb | hb
    · left
      intro d hd
      cases hd
      rw [hb]
      rfl
    · right
      rw [hb] at h
      obtain ⟨-, ht⟩ := settled_around_avail (l := []).1 h
      exact ⟨b.size, t, by rw [← hb], ht⟩

theorem Settled.prev (h : Settled l) :
    EndsUsed l ∨ ∃ l' z, l = l' ++ [avail z] ∧ Settled l' ∧ EndsUsed l' := by
  rcases l.eq_nil_or_concat with rfl | ⟨l', b, rfl⟩
  · exact .inl nofun
  · rw [concat_eq_append] at h ⊢
    rcases h.block (mem_append_right _ mem_cons_self) with hb | hb
    · left
      intro d hd
      rw [getLast?_concat] at hd
      cases hd
      rw [hb]
      rfl
    · right
      rw [hb] at h
      have h' := h
      rw [← append_nil (l' ++ _)] at h'
      exact ⟨l', b.size, by rw [← hb], (settled_around_avail.1 h').1⟩

def liveOf : Nat → List Block → List (Nat × Nat)
  | _, [] => []
  | a, b :: bs => (if b.live then [(a, b.size)] else []) ++ liveOf (a + b.size) bs

def live (A : Abi) (rs : List Region) : List (Nat × Nat) :=
  rs.flatMap fun r => liveOf (r.base + A.nodeS) r.blocks

theorem liveOf_append (a : Nat) (l t : List Block) :
    liveOf a (l ++ t) = liveOf a l ++ liveOf (a + total l) t := by
  induction l generalizing a with
  | nil => rfl
  | cons b l ih => rw [cons_append, liveOf, ih, liveOf, total_cons, add_assoc,
      append_assoc]

theorem liveOf_avail (a s : Nat) (t : List Block) :
    liveOf a (avail s :: t) = liveOf (a + s) t := rfl

theorem live_append (R₁ R₂ : List Region) : live A (R₁ ++ R₂) = live A R₁ ++ live A R₂ :=
  flatMap_append

theorem mem_live_region : x ∈ live A (R₁ ++ ⟨base, l ++ bs ++ t⟩ :: R₂) ↔
    x ∈ liveOf (base + A.nodeS + total l) bs ∨ x ∈ live A (R₁ ++ R₂) ∨
      x ∈ liveOf (base + A.nodeS) l ∨ x ∈ liveOf (base + A.nodeS + total l + total bs) t := by
  have he : live A (⟨base, l ++ bs ++ t⟩ :: R₂) =
      liveOf (base + A.nodeS) (l ++ bs ++ t) ++ live A R₂ := rfl
  rw [live_append, live_append, he, liveOf_append, liveOf_append, total_append, ← add_assoc]
  simp only [mem_append]
  constructor
  · rintro (h | ((h | h) | h) | h)
    · exact .inr (.inl (.inl h))
    · exact .inr (.inr (.inl h))
    · exact .inl h
    · exact .inr (.inr (.inr h))
    · exact .inr (.inl (.inr h))
  · rintro (h | (h | h) | h | h)
    · exact .inr (.inl (.inl (.inr h)))
    · exact .inl h
    · exact .inr (.inr h)
    · exact .inr (.inl (.inl (.inl h)))
    · exact .inr (.inl (.inr h))

theorem liveOf_split (h : x ∈ liveOf a bs) :
    ∃ l b t, bs = l ++ [b] ++ t ∧ b.live = true ∧ x = (a + total l, b.size) := by
  induction bs generalizing a with
  | nil => cases h
  | cons b bs ih =>
    rcases mem_append.1 h with h | h
    · split at h
      · rename_i hl
        exact ⟨[], b, bs, rfl, hl, mem_singleton.1 h⟩
      · cases h
    · obtain ⟨l, d, t, hbs, hd, hx⟩ := ih h
      refine ⟨b :: l, d, t, ?_, hd, ?_⟩
      · rw [hbs]
        rfl
      · rw [hx, total_cons, add_assoc]

theorem live_split (hs : ∀ r ∈ rs, Settled r.blocks) (h : x ∈ live A rs) :
    ∃ R₁ R₂ base l t, rs = R₁ ++ ⟨base, l ++ [used x.2] ++ t⟩ :: R₂ ∧
      x.1 = base + A.nodeS + total l := by
  obtain ⟨r, hr, hx⟩ := mem_flatMap.1 h
  obtain ⟨R₁, R₂, rfl⟩ := append_of_mem hr
  obtain ⟨l, b, t, hbs, hb, rfl⟩ := liveOf_split hx
  have hset := hs r hr
  rw [hbs] at hset
  obtain ⟨base, blocks⟩ := r
  simp only at hbs
  subst hbs
  refine ⟨R₁, R₂, base, l, t, ?_, rfl⟩
  rcases hset.block (b := b) (by simp) with hu | hu
  · rw [← hu]
  · rw [hu] at hb
    cases hb

theorem linked_cell {r : Region} (hc : c ∈ r.cells A) (hl : c.linked = true) :
    c ∈ cells (r.base + A.nodeS) A.nodeS r.blocks := by
  obtain ⟨base, blocks⟩ := r
  have hc' : c ∈ Region.cells A ⟨base, [] ++ blocks ++ []⟩ := by
    rw [nil_append, append_nil]
    exact hc
  rcases mem_regionCells.1 hc' with rfl | hc | hc | hc
  · cases hl
  · cases hc
  · exact hc
  · rw [mem_singleton.1 hc] at hl
    cases hl

theorem cell_linked (h : ∀ r ∈ rs, Settled r.blocks) (hc : Cells A rs c) :
    c.linked = !c.live := by
  obtain ⟨r, hr, hc⟩ := hc
  have hm := cell_mem hc
  simp only [Region.full, mem_cons, mem_append, not_mem_nil, or_false] at hm
  rcases hm with hm | hm | hm
  · rw [hm]
    rfl
  · exact (h r hr).linked _ hm
  · rw [hm]
    rfl

theorem Shape.free_items (h : Shape A fl m rs items) (hs : ∀ r ∈ rs, Settled r.blocks) :
    .node x z ∈ items ↔ ∃ c, Cells A rs c ∧ c.live = false ∧ c.addr = x ∧ c.size = z := by
  rw [h.nodeItems]
  constructor
  · rintro ⟨c, hc, hl, hrest⟩
    have hcl := cell_linked hs hc
    rw [hl] at hcl
    exact ⟨c, hc, by simpa using hcl.symm, hrest⟩
  · rintro ⟨c, hc, hl, hrest⟩
    have hcl := cell_linked hs hc
    rw [hl] at hcl
    exact ⟨c, hc, hcl, hrest⟩

theorem InList.split (hs : ∀ r ∈ rs, Settled r.blocks) (h : InList A rs x s) :
    ∃ R₁ R₂ base l t, rs = R₁ ++ ⟨base, l ++ [avail s] ++ t⟩ :: R₂ ∧
      x = base + A.nodeS + total l := by
  obtain ⟨c, ⟨r, hr, hc⟩, hl, rfl, rfl⟩ := h
  obtain ⟨R₁, R₂, rfl⟩ := append_of_mem hr
  have hset := hs r hr
  obtain ⟨l, t, hbs, ha, -⟩ := cells_split (linked_cell hc hl)
  obtain ⟨base, blocks⟩ := r
  simp only at hbs hset
  subst hbs
  refine ⟨R₁, R₂, base, l, t, ?_, ha⟩
  rcases hset.block (b := c.toBlock) (by simp) with hu | hu
  · rw [hu] at hl
    cases hl
  · rw [append_assoc, singleton_append, ← hu]

theorem Shape.block_size (h : Shape A fl m (R₁ ++ ⟨base, l ++ [b] ++ t⟩ :: R₂) items) :
    A.nodeS ≤ b.size := h.sized ⟨base, l ++ [b] ++ t⟩ (by simp) b (by simp)

theorem liveOf_cell (h : x ∈ liveOf a bs) (p : Nat) :
    ∃ c ∈ cells a p bs, c.addr = x.1 := by
  obtain ⟨l, b, t, rfl, -, rfl⟩ := liveOf_split h
  refine ⟨⟨b, a + total l, lastSize p l⟩, ?_, rfl⟩
  rw [cells_append, cells_append]
  exact mem_append_left _ (mem_append_right _ mem_cons_self)

theorem Shape.around_live (h : Shape A fl m (R₁ ++ ⟨base, l ++ [b] ++ t⟩ :: R₂) items)
    (ha : a = base + A.nodeS + total l)
    (hx : x ∈ live A (R₁ ++ R₂) ∨ x ∈ liveOf (base + A.nodeS) l ∨ x ∈ liveOf (a + b.size) t) :
    x.1 ≠ a := by
  have haround : ∃ c, Around A R₁ R₂ base l (a + b.size) b.size t c ∧ c.addr = x.1 := by
    rcases hx with hx | hx | hx
    · obtain ⟨r, hr, hx⟩ := mem_flatMap.1 hx
      obtain ⟨c, hc, hcx⟩ := liveOf_cell hx A.nodeS
      refine ⟨c, .inl ⟨r, hr, ?_⟩, hcx⟩
      apply mem_cons_of_mem
      rw [cells_append]
      exact mem_append_left _ hc
    · obtain ⟨c, hc, hcx⟩ := liveOf_cell hx A.nodeS
      exact ⟨c, .inr (.inr (.inl hc)), hcx⟩
    · obtain ⟨c, hc, hcx⟩ := liveOf_cell hx b.size
      refine ⟨c, .inr (.inr (.inr ?_)), hcx⟩
      rw [cells_append]
      exact mem_append_left _ hc
  obtain ⟨c, hc, hcx⟩ := haround
  have hn := A.nodeS_def
  have hb := h.block_size
  have hap := h.around_apart ha rfl (by
    rw [total_cons, total_nil, add_zero]
    exact hc)
  rw [ha] at hc
  have hcs := h.cell_size (cells_one.2 (.inr hc))
  rw [total_cons, total_nil, add_zero] at hap
  omega

end
end Mdepx.Heap
