import Mdepx.Heap.Region
import Mdepx.Heap.Resize
import Mdepx.Lib.Run

namespace Mdepx.Heap
open Lib List

/-! Programs that use a zone. -/

section
variable {A : Abi} {fl : Nat} {m m' : Bytes} {rs rs' : List Region} {items : List Item}

/-- The memory, the regions that have been added with their sizes, and the pointers that have been
returned and not been freed. -/
structure State where
  mem : Bytes
  regions : List (Nat × Nat)
  live : List Nat

inductive Call where
  | addRegion (base size : Nat)
  | malloc (size : Nat)
  | free (ptr : Nat)
  | calloc (number size : Nat)
  | realloc (ptr size : Nat)
  | write (addr : Nat) (byte : UInt8)
deriving DecidableEq

def State.returned (s : State) (r : Bytes × Nat) : State :=
  { s with mem := r.1, live := if r.2 = 0 then s.live else r.2 :: s.live }

def State.freed (s : State) (ptr : Nat) (m : Bytes) : State :=
  { s with mem := m, live := s.live.filter (· ≠ ptr) }

/-- One call on the zone at `fl`, which is the default zone, with `k` rounds for each loop. -/
def exec (A : Abi) (fl k : Nat) (s : State) : Call → Option State
  | .addRegion base size =>
    (mdxFlAddRegion A k s.mem fl base size).map fun m =>
      { s with mem := m, regions := s.regions ++ [(base, size)] }
  | .malloc size => (mdxFlMalloc A k s.mem fl size).map s.returned
  | .free ptr => (mdxFlFree A k s.mem fl ptr).map (s.freed ptr)
  | .calloc number size => (mdxFlCalloc A k s.mem fl number size).map s.returned
  | .realloc ptr size =>
    (mdxFlRealloc A k s.mem fl fl ptr size).map fun r =>
      if size ≠ 0 ∧ r.2 = 0 then { s with mem := r.1 }
      else (s.freed ptr r.1).returned r
  | .write x b => some { s with mem := Function.update s.mem x b }

def Next (A : Abi) (fl : Nat) (s : State) (c : Call) (s' : State) : Prop :=
  ∃ k, exec A fl k s c = some s'

def start (A : Abi) (fl : Nat) (m : Bytes) : State := ⟨mdxFlInit A m fl, [], []⟩

/-- The calls a program may make: the regions are aligned and lie apart, pointers that are passed
are live, sizes do not wrap when they are rounded up, and the program writes to its blocks only. -/
def Permitted (A : Abi) (fl : Nat) (s : State) : Call → Prop
  | .addRegion base size =>
    16 ∣ base ∧ 3 * A.nodeS ≤ size ∧ size < 2 ^ 31 ∧ base + size ≤ A.top ∧
      (base + size ≤ fl ∨ fl + 32 * A.nodeS ≤ base) ∧
      ∀ r ∈ s.regions, r.1 + r.2 ≤ base ∨ base + size ≤ r.1
  | .malloc size => A.Fits size
  | .free ptr => ptr = 0 ∨ ptr ∈ s.live
  | .calloc number size => A.Fits (number * size % A.top)
  | .realloc ptr size => (ptr = 0 ∨ ptr ∈ s.live) ∧ A.Fits size
  | .write x _ =>
    ∃ p ∈ s.live, p ≤ x ∧ x < p - A.nodeS + A.get .size s.mem (p - A.nodeS)

/-- `mdx_fl_realloc` adds `NODE_S` to a size that it has rounded up before. -/
def Roomy (A : Abi) : Call → Prop
  | .realloc ptr size => ptr ≠ 0 → size ≠ 0 → A.Fits (A.round size)
  | _ => True

def Pointers (A : Abi) (rs : List Region) (ps : List Nat) : Prop :=
  ∀ p, p ∈ ps ↔ ∃ x ∈ live A rs, p = x.1 + A.nodeS

structure Inv (A : Abi) (fl : Nat) (s : State) (rs : List Region) : Prop where
  zone : Zone A fl s.mem rs
  regions : rs.map (Region.extent A) = s.regions
  pointers : Pointers A rs s.live

theorem Pointers.cons (h : Pointers A rs ps)
    (hl : ∀ x, x ∈ live A rs' ↔ x = (a, s) ∨ x ∈ live A rs) :
    Pointers A rs' ((a + A.nodeS) :: ps) := by
  intro p
  rw [mem_cons, h p]
  constructor
  · rintro (hp | ⟨x, hx, hp⟩)
    · exact ⟨(a, s), (hl _).2 (.inl rfl), hp⟩
    · exact ⟨x, (hl x).2 (.inr hx), hp⟩
  · rintro ⟨x, hx, hp⟩
    rcases (hl x).1 hx with rfl | hx
    · exact .inl hp
    · exact .inr ⟨x, hx, hp⟩

theorem Pointers.remove (h : Pointers A rs ps)
    (hl : ∀ x, x ∈ live A rs' ↔ x ∈ live A rs ∧ x.1 ≠ a) :
    Pointers A rs' (ps.filter (· ≠ a + A.nodeS)) := by
  intro p
  rw [mem_filter, h p, decide_eq_true_iff]
  constructor
  · rintro ⟨⟨x, hx, rfl⟩, hne⟩
    exact ⟨x, (hl x).2 ⟨hx, fun he => hne (by rw [he])⟩, rfl⟩
  · rintro ⟨x, hx, rfl⟩
    obtain ⟨hx, hne⟩ := (hl x).1 hx
    exact ⟨⟨x, hx, rfl⟩, by omega⟩

theorem Pointers.filter_null (h : Pointers A rs ps) : ps.filter (· ≠ 0) = ps := by
  apply filter_eq_self.2
  intro p hp
  obtain ⟨x, -, rfl⟩ := (h p).1 hp
  have hn := A.nodeS_def
  rw [decide_eq_true_iff]
  omega

section
variable (h : Inv A fl s rs)
include h

theorem Inv.taken
    (hr : r = (s.mem, 0) ∨ ∃ a z rs', r.2 = a + A.nodeS ∧ Taken A fl N rs r.1 a z rs') :
    ∃ rs', Inv A fl (s.returned r) rs' := by
  rcases hr with rfl | ⟨a, z, rs', hp, ht⟩
  · exact ⟨rs, h.zone, h.regions, h.pointers⟩
  · have hn := A.nodeS_def
    refine ⟨rs', ht.zone, ht.extents.trans h.regions, ?_⟩
    simp only [State.returned]
    rw [if_neg (by omega), hp]
    exact h.pointers.cons ht.live

theorem Inv.free (hp : ptr = 0 ∨ ptr ∈ s.live) :
    Returns (fun k => mdxFlFree A k s.mem fl ptr) fun m => ∃ rs', Inv A fl (s.freed ptr m) rs' := by
  rcases hp with rfl | hp
  · refine .pure ⟨rs, h.zone, h.regions, ?_⟩
    rw [State.freed, h.pointers.filter_null]
    exact h.pointers
  · obtain ⟨⟨a, z⟩, hx, rfl⟩ := (h.pointers ptr).1 hp
    apply (h.zone.free hx).mono
    rintro m ⟨-, rs', hf⟩
    exact ⟨rs', hf.zone, hf.extents.trans h.regions, h.pointers.remove hf.live⟩

theorem Inv.resized (hr : Resized A fl N rs r.1 a b z rs')
    (hb : r.2 = b + A.nodeS) : Inv A fl ((s.freed (a + A.nodeS) r.1).returned r) rs' := by
  have hn := A.nodeS_def
  refine ⟨hr.zone, hr.extents.trans h.regions, ?_⟩
  simp only [State.returned, State.freed]
  rw [if_neg (by omega), hb]
  intro p
  rw [mem_cons, mem_filter, decide_eq_true_iff, h.pointers p]
  constructor
  · rintro (hp | ⟨⟨x, hx, rfl⟩, hne⟩)
    · exact ⟨(b, z), (hr.live _).2 (.inl rfl), hp⟩
    · exact ⟨x, (hr.live x).2 (.inr ⟨hx, fun he => hne (by rw [he])⟩), rfl⟩
  · rintro ⟨x, hx, hp⟩
    rcases (hr.live x).1 hx with rfl | ⟨hx, hne⟩
    · exact .inl hp
    · exact .inr ⟨⟨x, hx, hp⟩, by omega⟩

theorem Inv.realloc (hp : ptr ∈ s.live) (h0 : size ≠ 0) (hf : A.Fits size)
    (hf' : A.Fits (A.round size)) :
    Returns (fun k => (mdxFlRealloc A k s.mem fl fl ptr size).map fun r =>
      if size ≠ 0 ∧ r.2 = 0 then { s with mem := r.1 } else (s.freed ptr r.1).returned r)
      fun s' => ∃ rs', Inv A fl s' rs' := by
  have hn := A.nodeS_def
  obtain ⟨⟨a, z⟩, hx, rfl⟩ := (h.pointers ptr).1 hp
  apply (h.zone.realloc hx h0 hf hf').map
  rintro r (rfl | ⟨b, z', rs', hb, hr, -⟩)
  · rw [if_pos ⟨h0, rfl⟩]
    exact ⟨rs, h.zone, h.regions, h.pointers⟩
  · rw [if_neg (by omega)]
    exact ⟨rs', h.resized hr hb⟩

theorem Inv.addRegion (hc : Permitted A fl s (.addRegion base size)) :
    Returns (fun k => exec A fl k s (.addRegion base size)) fun s' => ∃ rs', Inv A fl s' rs' := by
  obtain ⟨-, hsize, h31, htop, hoff, hap⟩ := hc
  have hap' : ∀ r ∈ rs, r.base + r.size A ≤ base ∨ base + size ≤ r.base := by
    intro r hr
    apply hap (r.extent A)
    rw [← h.regions]
    exact mem_map_of_mem hr
  apply (h.zone.addRegion hsize h31 htop hoff hap').map
  rintro m ⟨hm, -⟩
  refine ⟨_, hm, ?_, ?_⟩
  · have hr : Region.extent A ⟨base, [avail (size - 2 * A.nodeS)]⟩ = (base, size) := by
      rw [Region.extent, region_size, total_cons, total_nil]
      simp only [avail]
      congr 1
      omega
    rw [map_append, h.regions, map_singleton, hr]
  · intro p
    rw [h.pointers p, live_append]
    have hnone : live A [⟨base, [avail (size - 2 * A.nodeS)]⟩] = [] := rfl
    rw [hnone, append_nil]

theorem Inv.write (hc : Permitted A fl s (.write x b)) :
    Inv A fl { s with mem := Function.update s.mem x b } rs := by
  obtain ⟨p, hp, hpx, hxp⟩ := hc
  obtain ⟨⟨a, z⟩, hlive, rfl⟩ := (h.pointers p).1 hp
  simp only [Nat.add_sub_cancel] at hxp hpx
  have hsize : A.get .size s.mem a = z := h.zone.size_live hlive
  refine ⟨h.zone.write hlive ?_, h.regions, h.pointers⟩
  intro y hy
  apply Function.update_of_ne
  rintro rfl
  omega

theorem Inv.realloc_null (hf : A.Fits size) :
    Returns (fun k => exec A fl k s (.realloc 0 size)) fun s' => ∃ rs', Inv A fl s' rs' := by
  have hfreed (m : Bytes) : s.freed 0 m = { s with mem := m } := by
    rw [State.freed, h.pointers.filter_null]
  have hstate (r : Bytes × Nat) : (if size ≠ 0 ∧ r.2 = 0 then { s with mem := r.1 }
      else (s.freed 0 r.1).returned r) = s.returned r := by
    split
    · rename_i hr
      rw [State.returned, if_pos hr.2]
    · rw [hfreed]
      rfl
  simp only [exec, hstate, mdxFlRealloc, if_true]
  exact (h.zone.malloc hf).map fun r hr =>
    h.taken (hr.imp_right fun ⟨a, z, rs', hp, ht, _⟩ => ⟨a, z, rs', hp, ht⟩)

theorem Inv.realloc_zero (hp : ptr ∈ s.live) :
    Returns (fun k => exec A fl k s (.realloc ptr 0)) fun s' => ∃ rs', Inv A fl s' rs' := by
  have hp0 : ptr ≠ 0 := by
    obtain ⟨x, -, rfl⟩ := (h.pointers ptr).1 hp
    have hn := A.nodeS_def
    omega
  simp only [exec, mdxFlRealloc, if_neg hp0, if_true, Option.map_map]
  exact (h.free (.inr hp)).map fun m hm => hm

theorem Inv.call (hc : Permitted A fl s c) (hr : Roomy A c) :
    Returns (fun k => exec A fl k s c) fun s' => ∃ rs', Inv A fl s' rs' := by
  cases c with
  | addRegion => exact h.addRegion hc
  | malloc =>
    exact (h.zone.malloc hc).map fun r hr =>
      h.taken (hr.imp_right fun ⟨a, z, rs', hp, ht, _⟩ => ⟨a, z, rs', hp, ht⟩)
  | free => exact (h.free hc).map fun m hm => hm
  | calloc =>
    exact (h.zone.calloc hc).map fun r hr =>
      h.taken (hr.imp_right fun ⟨a, z, rs', hp, ht, _⟩ => ⟨a, z, rs', hp, ht⟩)
  | realloc ptr size =>
    obtain ⟨hp, hf⟩ := hc
    by_cases h0 : ptr = 0
    · subst h0
      exact h.realloc_null hf
    · have hp := hp.resolve_left h0
      by_cases hs : size = 0
      · subst hs
        exact h.realloc_zero hp
      · exact h.realloc hp hs hf (hr h0 hs)
  | write => exact .pure ⟨rs, h.write hc⟩

end

theorem run_inv (hz : fl + 32 * A.nodeS ≤ A.top)
    (h : Run (Next A fl) (fun s c => Permitted A fl s c ∧ Roomy A c) (start A fl m) s) :
    ∃ rs, Inv A fl s rs := by
  apply h.invariant fun s => ∃ rs, Inv A fl s rs
  · refine ⟨[], mdxFlInit_zone m hz, rfl, ?_⟩
    intro p
    constructor
    · intro hp
      cases hp
    · rintro ⟨x, hx, -⟩
      cases hx
  · rintro s c s' ⟨rs, hi⟩ ⟨hc, hr⟩ ⟨k, hk⟩
    exact (hi.call hc hr).post hk

structure Intact (A : Abi) (fl : Nat) (s : State) (rs : List Region) (items : List Item) :
    Prop where
  /-- The sentinels and the blocks between them, one behind the other, make up each region. -/
  tiles : rs.map (Region.extent A) = s.regions
  sized : ∀ r ∈ rs, ∀ b ∈ r.blocks, A.nodeS ≤ b.size
  /-- A node has the size of its block, the size of the one before, and the allocated bit. -/
  tags : ∀ c, Cells A rs c → A.get .size s.mem c.addr = c.size ∧
    A.get .flags s.mem c.addr % 2 ^ 31 = c.prev ∧
    (2 ^ 31 ≤ A.get .flags s.mem c.addr ↔ c.live = true)
  /-- The blocks with the allocated bit are those of the live pointers. -/
  pointers : Pointers A rs s.live
  /-- Of two blocks next to each other one is not free. -/
  apart : ∀ r ∈ rs, r.blocks.IsChain fun b d => b.live = true ∨ d.live = true
  chain : Chain (A.links s.mem) 0 (A.head fl 0) (items.map (Item.addr A fl))
  nodup : (A.head fl 0 :: items.map (Item.addr A fl)).Nodup
  heads : ∀ i, .head i ∈ items ↔ 0 < i ∧ i < 32
  /-- The blocks of the list are the free ones. -/
  nodes : ∀ x z, .node x z ∈ items ↔ ∃ c, Cells A rs c ∧ c.live = false ∧ c.addr = x ∧ c.size = z
  /-- The head before a block is that of its bucket. -/
  bucket : ∀ I x z J, .head 0 :: items = I ++ .node x z :: J →
    ∃ I₁ I₂, I = I₁ ++ .head (size2i z) :: I₂ ∧ ∀ i, .head i ∉ I₂
  /-- The sizes grow along the list. -/
  ascending : items.Pairwise fun x y => ∀ a s b z, x = .node a s → y = .node b z → s ≤ z

theorem Shape.bucket (h : Shape A fl m rs items)
    (hI : .head 0 :: items = I ++ .node x z :: J) :
    ∃ I₁ I₂, I = I₁ ++ .head (size2i z) :: I₂ ∧ ∀ i, .head i ∉ I₂ := by
  have hmem : Item.node x z ∈ items := by
    have hn : Item.node x z ∈ Item.head 0 :: items := by simp [hI]
    exact (mem_cons.1 hn).resolve_left nofun
  obtain ⟨c, hc, -, -, rfl⟩ := (h.nodeItems x z).1 hmem
  have hlt := (h.cell_lt hc).2
  obtain ⟨hi, hlow, hup⟩ := size2i_spec (s := c.size) (by omega)
  generalize size2i c.size = i at hi hlow hup
  have hsorted := h.sorted
  have hnodup : (Item.head 0 :: items).Nodup := List.Nodup.of_map (Item.addr A fl) h.nodup
  have hhead : Item.head i ∈ I ++ .node x c.size :: J := by
    rw [← hI]
    by_cases h0 : i = 0
    · rw [h0]
      exact mem_cons_self
    · exact mem_cons_of_mem _ ((h.headItems i).2 ⟨Nat.pos_of_ne_zero h0, hi⟩)
  have hp5 : 2 ^ (i + 5) = 2 * 2 ^ (i + 4) := Nat.pow_succ'
  have hp6 : 2 ^ (i + 6) = 2 * 2 ^ (i + 5) := Nat.pow_succ'
  rw [hI] at hsorted hnodup
  obtain ⟨-, hsJ, hsI⟩ := pairwise_append.1 hsorted
  have hin : Item.head i ∈ I := by
    rcases mem_append.1 hhead with hh | hh
    · exact hh
    · have hh := (mem_cons.1 hh).resolve_left nofun
      have hk := (pairwise_cons.1 hsJ).1 _ hh
      simp only [Item.key] at hk
      split at hk
      · omega
      · omega
  obtain ⟨I₁, I₂, rfl⟩ := append_of_mem hin
  refine ⟨I₁, I₂, rfl, ?_⟩
  intro j hj
  have hle := hsI (.head j) (by simp [hj]) _ mem_cons_self
  have hge :=
    (pairwise_cons.1 (pairwise_append.1 (pairwise_append.1 hsorted).1).2.1).1 _ hj
  have hne : j ≠ i := by
    rintro rfl
    have hd := (nodup_append.1 (nodup_append.1 hnodup).1).2.1
    exact (nodup_cons.1 hd).1 hj
  simp only [Item.key] at hle hge
  by_cases hi0 : i = 0
  · rw [if_neg (by omega : ¬j = 0)] at hle
    have hj6 : 2 ^ (i + 6) ≤ 2 ^ (j + 5) := Nat.pow_le_pow_right (by decide) (by omega)
    omega
  · rw [if_neg hi0] at hge
    by_cases hj0 : j = 0
    · rw [if_pos hj0] at hge
      have := Nat.two_pow_pos (i + 5)
      omega
    · rw [if_neg hj0] at hle hge
      have hij := (Nat.pow_le_pow_iff_right (by decide : 1 < 2)).1 hge
      have hj6 : 2 ^ (i + 6) ≤ 2 ^ (j + 5) := Nat.pow_le_pow_right (by decide) (by omega)
      omega

theorem Inv.intact_of (h : Inv A fl s rs) (hs : Shape A fl s.mem rs items) :
    Intact A fl s rs items := by
  have hset := h.zone.settled
  refine ⟨h.regions, hs.sized, ?_, h.pointers, fun r hr => (hset r hr).apart, hs.chain,
    hs.nodup, hs.headItems, fun x z => hs.free_items hset, fun I x z J hI => hs.bucket hI, ?_⟩
  · intro c hc
    obtain ⟨hsize, hflags⟩ := hs.tags c hc
    have hp := hs.prev_lt hc
    have hf : A.get .flags s.mem c.addr = c.prev + allocBit c.live := hflags
    rw [hf]
    refine ⟨hsize, ?_, ?_⟩
    · cases c.live with
      | true => exact (Nat.add_mod_right _ _).trans (Nat.mod_eq_of_lt hp)
      | false => exact Nat.mod_eq_of_lt hp
    · cases c.live with
      | true => exact ⟨fun _ => rfl, fun _ => Nat.le_add_left _ _⟩
      | false => exact ⟨fun hle => absurd hle (Nat.not_le.2 hp), nofun⟩
  · apply (pairwise_cons.1 hs.sorted).2.imp
    rintro _ _ hle a s b z rfl rfl
    simp only [Item.key] at hle
    omega

theorem Inv.intact (h : Inv A fl s rs) : ∃ items, Intact A fl s rs items := by
  obtain ⟨items, hs⟩ := h.zone.shape
  exact ⟨items, h.intact_of hs⟩

/-- In every run whose reallocs leave room for a second `NODE_S`, the heap is intact after every
call, and every call returns. -/
theorem free_list_intact (hz : fl + 32 * A.nodeS ≤ A.top)
    (h : Run (Next A fl) (fun s c => Permitted A fl s c ∧ Roomy A c) (start A fl m) s) :
    (∃ rs items, Intact A fl s rs items) ∧
    ∀ c, Permitted A fl s c → Roomy A c → ∃ s', Next A fl s c s' := by
  obtain ⟨rs, hi⟩ := run_inv hz h
  obtain ⟨items, hs⟩ := hi.intact
  refine ⟨⟨rs, items, hs⟩, ?_⟩
  intro c hc hr
  obtain ⟨k, s', hk⟩ := (hi.call hc hr).exists_some
  exact ⟨s', k, hk⟩

instance (A : Abi) (fl : Nat) (s : State) (c : Call) : Decidable (Permitted A fl s c) := by
  unfold Permitted
  split <;> infer_instance

instance (A : Abi) (c : Call) : Decidable (Roomy A c) := by
  unfold Roomy
  split <;> infer_instance

theorem run_calls (A : Abi) (fl k : Nat) (s : State) {p : State → Call → Prop}
    [∀ s c, Decidable (p s c)] (calls : List Call) (q : State → Prop) [DecidablePred q]
    (h : (calls.foldlM (fun s c => if p s c then exec A fl k s c else none) s).map
      (fun s => decide (q s)) = some true) :
    ∃ s', Run (Next A fl) p s s' ∧ q s' := by
  obtain ⟨s', hs', hq⟩ := Option.map_eq_some_iff.1 h
  refine ⟨s', Run.of_foldlM ?_ hs', of_decide_eq_true hq⟩
  intro c _ s t hx
  split at hx
  · rename_i hp
    exact ⟨hp, k, hx⟩
  · cases hx

def ilp32 : Abi := ⟨4, .inl rfl⟩

theorem free_list_intact_resized :
    ∃ s, (Run (Next ilp32 64) (fun s c => Permitted ilp32 64 s c ∧ Roomy ilp32 c)
        (start ilp32 64 fun _ => 0) s ∧ s.live = [1120] ∧ s.regions = [(1024, 512)]) ∧
      (∃ rs items, Intact ilp32 64 s rs items) ∧
      ∀ c, Permitted ilp32 64 s c → Roomy ilp32 c → ∃ s', Next ilp32 64 s c s' := by
  obtain ⟨s, hr, hs⟩ := run_calls ilp32 64 40 (start ilp32 64 fun _ => 0)
    (p := fun s c => Permitted ilp32 64 s c ∧ Roomy ilp32 c)
    [.addRegion 1024 512, .malloc 40, .calloc 5 20, .write 1130 7, .free 1056, .realloc 1120 300]
    (fun s => s.live = [1120] ∧ s.regions = [(1024, 512)]) (by decide +kernel)
  exact ⟨s, ⟨hr, hs⟩, free_list_intact (by decide) hr⟩

theorem Intact.first_size (h : Intact A fl s rs items) (hr : (base, z) ∈ s.regions)
    (hz : 2 * A.nodeS < z) : A.get .size s.mem (base + A.nodeS) ≤ z := by
  rw [← h.tiles] at hr
  obtain ⟨⟨base', blocks⟩, hin, he⟩ := mem_map.1 hr
  obtain ⟨rfl, rfl⟩ := Prod.mk.inj he
  have hsize := region_size A ⟨base', blocks⟩
  cases blocks with
  | nil =>
    rw [hsize] at hz
    simp at hz
  | cons b bs =>
    have hc : Cells A rs ⟨b, base' + A.nodeS, A.nodeS⟩ :=
      ⟨⟨base', b :: bs⟩, hin, mem_cons_of_mem _ mem_cons_self⟩
    rw [(h.tags _ hc).1, hsize, total_cons]
    simp only
    omega

/-- A realloc to a size that wraps with a second `NODE_S` writes that size to the block. -/
theorem realloc_breaks_heap :
    ∃ s, Run (Next ilp32 64) (Permitted ilp32 64) (start ilp32 64 fun _ => 0) s ∧
      ¬ ∃ rs items, Intact ilp32 64 s rs items := by
  obtain ⟨s, hr, hregions, hsize⟩ := run_calls ilp32 64 40 (start ilp32 64 fun _ => 0)
    (p := Permitted ilp32 64)
    [.addRegion 1024 512, .malloc 40, .realloc 1056 (2 ^ 32 - 32)]
    (fun s => s.regions = [(1024, 512)] ∧ ilp32.get .size s.mem 1040 = 2 ^ 32 - 16)
    (by decide +kernel)
  refine ⟨s, hr, ?_⟩
  rintro ⟨rs, items, hi⟩
  have hmem : (1024, 512) ∈ s.regions := by
    rw [hregions]
    exact mem_singleton.2 rfl
  have hle : ilp32.get .size s.mem 1040 ≤ 512 := hi.first_size hmem (by decide)
  omega

end
end Mdepx.Heap
