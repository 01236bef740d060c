import Mdepx.Heap.Run

namespace Mdepx.Heap
open Lib List

/-! What a program finds behind the pointers it gets. -/

section
variable {A : Abi} {fl : Nat} {m m' : Bytes} {rs rs' : List Region} {s : State}

/-- The `n` bytes at `p` lie behind the node of one block in use. No node and no other block in use
overlaps them. -/
def Usable (A : Abi) (fl : Nat) (s : State) (p n : Nat) : Prop :=
  ∃ rs items a z, Intact A fl s rs items ∧ (a, z) ∈ live A rs ∧ p = a + A.nodeS ∧ p + n ≤ a + z ∧
    (∀ x ∈ live A rs, x ≠ (a, z) → x.1 + x.2 ≤ p ∨ p + n ≤ x.1 + A.nodeS) ∧
    ∀ y, Header A fl rs y → y + A.nodeS ≤ p ∨ p + n ≤ y

theorem Inv.usable (h : Inv A fl s rs) (hx : (a, z) ∈ live A rs) (hn : n + A.nodeS ≤ z) :
    Usable A fl s (a + A.nodeS) n := by
  obtain ⟨items, hi⟩ := h.intact
  refine ⟨rs, items, a, z, hi, hx, rfl, by omega, fun x hx' hne => ?_, fun y hy => ?_⟩
  · have hap := h.zone.live_apart hx' hx hne
    simp only at hap
    omega
  · obtain ⟨⟨items, hs⟩, hset⟩ := h.zone
    obtain ⟨c, hc, hca, hcs, -⟩ := cells_of_live hset hx
    simp only at hca hcs
    rcases hy with ⟨i, hi, rfl⟩ | ⟨d, hd, rfl⟩
    · have hb := head_bounds A fl hi
      have ho := hs.cell_off_zone hc
      omega
    · rcases hs.cells_apart hc hd with rfl | hcd
      · omega
      · have hd' := hs.cell_size hd
        omega

theorem live_le (hx : x ∈ live A rs) : ∃ r ∈ rs, x.2 ≤ r.size A := by
  obtain ⟨r, hr, hx⟩ := mem_flatMap.1 hx
  obtain ⟨l, b, t, hbs, -, rfl⟩ := liveOf_split hx
  refine ⟨r, hr, ?_⟩
  rw [region_size, hbs, total_append, total_append, total_cons]
  simp only
  omega

theorem Inv.usable_lt (h : Inv A fl s rs) (hu : Usable A fl s' p n)
    (hregions : s'.regions = s.regions) : n < 2 ^ 31 := by
  obtain ⟨rs', items, a, z, hi, hx, rfl, hle, -⟩ := hu
  obtain ⟨r, hr, hz⟩ := live_le hx
  have hmem : r.extent A ∈ rs.map (Region.extent A) := by
    rw [h.regions, ← hregions, ← hi.tiles]
    exact mem_map_of_mem hr
  obtain ⟨⟨items, hs⟩, -⟩ := h.zone
  have hb := (hs.spread.bound _ hmem).2
  simp only [Region.extent] at hb hz
  omega

theorem Abi.fits_of_lt (h : n < 2 ^ 31) : A.Fits n := by
  have htop := A.two_pow_le_top
  have hn := A.nodeS_def
  have hp : A.ptr ≤ 8 := by
    rcases A.ptr_eq with h | h
    · omega
    · omega
  unfold Fits roundUp
  omega

theorem Inv.taken_usable (h : Inv A fl s rs) (hp : r.2 = a + A.nodeS)
    (ht : Taken A fl N rs r.1 a z rs') (hn : n + A.nodeS ≤ N) :
    Usable A fl (s.returned r) r.2 n := by
  have hn0 := A.nodeS_def
  have hi : Inv A fl (s.returned r) rs' := by
    refine ⟨ht.zone, ht.extents.trans h.regions, ?_⟩
    simp only [State.returned]
    rw [if_neg (by omega), hp]
    exact h.pointers.cons ht.live
  rw [hp]
  exact hi.usable ((ht.live _).2 (.inl rfl)) (hn.trans ht.size)

/-- For every size, `mdx_fl_malloc` and `mdx_fl_calloc` return a pointer to as many bytes as asked
for exactly if the size does not wrap when `NODE_S` is added and it is rounded up. The size for
`mdx_fl_calloc` is the product, which is not to wrap either. -/
theorem allocations_usable_iff (hz : fl + 32 * A.nodeS ≤ A.top)
    (h : Run (Next A fl) (fun s c => Permitted A fl s c ∧ Roomy A c) (start A fl m) s) :
    (∀ size < A.top, ∀ k r, mdxFlMalloc A k s.mem fl size = some r → r.2 ≠ 0 →
      (Usable A fl (s.returned r) r.2 size ↔ A.Fits size)) ∧
    ∀ number < A.top, ∀ size < A.top, ∀ k r, mdxFlCalloc A k s.mem fl number size = some r →
      r.2 ≠ 0 → ((Usable A fl (s.returned r) r.2 (number * size) ∧
        ∀ i < number * size, r.1 (r.2 + i) = 0) ↔ A.Fits (number * size)) := by
  obtain ⟨rs, hi⟩ := run_inv hz h
  have hfits {r : Bytes × Nat} {n : Nat} (hu : Usable A fl (s.returned r) r.2 n) : A.Fits n :=
    Abi.fits_of_lt (hi.usable_lt hu rfl)
  refine ⟨fun size _ k r hr hp => ⟨hfits, fun hf => ?_⟩,
    fun number _ size _ k r hr hp => ⟨fun hu => hfits hu.1, fun hf => ?_⟩⟩
  · rcases (hi.zone.malloc hf).post hr with rfl | ⟨a, z, rs', ha, ht, -⟩
    · exact absurd rfl hp
    · exact hi.taken_usable ha ht (Abi.round_le hf).1
  · have hlt : number * size < A.top := by
      have hle := (Abi.round_le hf).1
      have htop := (Abi.round_le hf).2
      omega
    have hmod := Nat.mod_eq_of_lt hlt
    have hf' : A.Fits (number * size % A.top) := by rwa [hmod]
    rcases (hi.zone.calloc hf').post hr with rfl | ⟨a, z, rs', ha, ht, -, hzero⟩
    · exact absurd rfl hp
    · rw [hmod] at ht hzero
      exact ⟨hi.taken_usable ha ht (Abi.round_le hf).1, hzero⟩

theorem allocations_usable_hundred :
    ∃ s r, Run (Next ilp32 64) (fun s c => Permitted ilp32 64 s c ∧ Roomy ilp32 c)
        (start ilp32 64 fun _ => 0) s ∧ s.live = [1056] ∧
      mdxFlMalloc ilp32 40 s.mem 64 100 = some r ∧ r.2 ≠ 0 ∧
      (Usable ilp32 64 (s.returned r) r.2 100 ↔ ilp32.Fits 100) := by
  obtain ⟨s, hr, hl, hm⟩ := run_calls ilp32 64 40 (start ilp32 64 fun _ => 0)
    (p := fun s c => Permitted ilp32 64 s c ∧ Roomy ilp32 c) [.addRegion 1024 512, .malloc 40]
    (fun s => s.live = [1056] ∧ (mdxFlMalloc ilp32 40 s.mem 64 100).map (·.2) = some 1120)
    (by decide +kernel)
  obtain ⟨r, hm, hp⟩ := Option.map_eq_some_iff.1 hm
  exact ⟨s, r, hr, hl, hm, by omega,
    (allocations_usable_iff (by decide) hr).1 100 (by decide) 40 r hm (by omega)⟩

/-- The largest size wraps to 16 bytes, and a product to 2 bytes: both get a pointer. -/
theorem allocations_wrap :
    ∃ s r r', Run (Next ilp32 64) (fun s c => Permitted ilp32 64 s c ∧ Roomy ilp32 c)
        (start ilp32 64 fun _ => 0) s ∧
      mdxFlMalloc ilp32 40 s.mem 64 (2 ^ 32 - 1) = some r ∧ r.2 = 1056 ∧
      ¬ Usable ilp32 64 (s.returned r) r.2 (2 ^ 32 - 1) ∧
      mdxFlCalloc ilp32 40 s.mem 64 3 1431655766 = some r' ∧ r'.2 = 1056 ∧
      ¬ Usable ilp32 64 (s.returned r') r'.2 (3 * 1431655766) := by
  obtain ⟨s, hr, hm, hc⟩ := run_calls ilp32 64 40 (start ilp32 64 fun _ => 0)
    (p := fun s c => Permitted ilp32 64 s c ∧ Roomy ilp32 c) [.addRegion 1024 512]
    (fun s => (mdxFlMalloc ilp32 40 s.mem 64 (2 ^ 32 - 1)).map (·.2) = some 1056 ∧
      (mdxFlCalloc ilp32 40 s.mem 64 3 1431655766).map (·.2) = some 1056) (by decide +kernel)
  obtain ⟨rs, hi⟩ := run_inv (by decide) hr
  obtain ⟨r, hm, hp⟩ := Option.map_eq_some_iff.1 hm
  obtain ⟨r', hc, hp'⟩ := Option.map_eq_some_iff.1 hc
  refine ⟨s, r, r', hr, hm, hp, fun hu => ?_, hc, hp', fun hu => ?_⟩
  · exact absurd (hi.usable_lt hu rfl) (by decide)
  · exact absurd (hi.usable_lt hu rfl) (by decide)

def payload (A : Abi) (m : Bytes) (p : Nat) : Nat := A.get .size m (p - A.nodeS) - A.nodeS

theorem Zone.payload_live (h : Zone A fl m rs) (hx : (a, z) ∈ live A rs) :
    payload A m (a + A.nodeS) = z - A.nodeS := by
  rw [payload, Nat.add_sub_cancel, h.size_live hx]

/-- `mdx_fl_realloc` of a live pointer to some bytes returns. If it returns `NULL` the memory is as
it was. Otherwise there are as many bytes as asked for, they are those of the old block as far as
it and the size go, and the other blocks in use hold what they held. -/
theorem realloc_keeps_contents (hz : fl + 32 * A.nodeS ≤ A.top)
    (h : Run (Next A fl) (fun s c => Permitted A fl s c ∧ Roomy A c) (start A fl m) s)
    (hp : p ∈ s.live) (h0 : 0 < size) (hf : A.Fits size) (hf' : A.Fits (A.round size)) :
    Returns (fun k => mdxFlRealloc A k s.mem fl fl p size) fun r =>
      (r.2 = 0 → r.1 = s.mem) ∧
      (r.2 ≠ 0 → Usable A fl ((s.freed p r.1).returned r) r.2 size ∧
        (∀ i < min (payload A s.mem p) size, r.1 (r.2 + i) = s.mem (p + i)) ∧
        ∀ q ∈ s.live, q ≠ p → payload A r.1 q = payload A s.mem q ∧
          ∀ i < payload A s.mem q, r.1 (q + i) = s.mem (q + i)) := by
  obtain ⟨rs, hi⟩ := run_inv hz h
  obtain ⟨⟨a, z⟩, hx, rfl⟩ := (hi.pointers p).1 hp
  have hn := A.nodeS_def
  have hround := (Abi.round_le hf).1
  apply (hi.zone.realloc hx (by omega) hf hf').mono
  rintro r (rfl | ⟨b, z', rs', hb, hr, hk⟩)
  · exact ⟨fun _ => rfl, fun hne => absurd rfl hne⟩
  · have hb' := (hr.live _).2 (.inl rfl)
    have hsize := hr.size
    refine ⟨fun he => by omega, fun _ => ⟨?_, fun i hi' => ?_, fun q hq hne => ?_⟩⟩
    · rw [hb]
      exact (hi.resized hr hb).usable hb' (by omega)
    · rw [hi.zone.payload_live hx] at hi'
      rw [hb]
      exact hk.contents i (by omega) (by omega)
    · obtain ⟨⟨y, w⟩, hy, rfl⟩ := (hi.pointers q).1 hq
      have hya : y ≠ a := fun he => hne (by rw [he])
      rw [hi.zone.payload_live hy, hr.zone.payload_live ((hr.live _).2 (.inr ⟨hy, hya⟩))]
      refine ⟨rfl, fun i hi' => hk.others _ hy hya _ ⟨_, mem_singleton.2 rfl, ?_, ?_⟩⟩
      · simp only
        omega
      · simp only
        omega

theorem realloc_keeps_contents_moved :
    ∃ s, (Run (Next ilp32 64) (fun s c => Permitted ilp32 64 s c ∧ Roomy ilp32 c)
        (start ilp32 64 fun _ => 0) s ∧ s.live = [1120, 1056] ∧ s.mem 1056 = 7) ∧
      Returns (fun k => mdxFlRealloc ilp32 k s.mem 64 64 1056 100) fun r =>
        (r.2 = 0 → r.1 = s.mem) ∧
        (r.2 ≠ 0 → Usable ilp32 64 ((s.freed 1056 r.1).returned r) r.2 100 ∧
          (∀ i < min (payload ilp32 s.mem 1056) 100, r.1 (r.2 + i) = s.mem (1056 + i)) ∧
          ∀ q ∈ s.live, q ≠ 1056 → payload ilp32 r.1 q = payload ilp32 s.mem q ∧
            ∀ i < payload ilp32 s.mem q, r.1 (q + i) = s.mem (q + i)) := by
  obtain ⟨s, hr, hs⟩ := run_calls ilp32 64 40 (start ilp32 64 fun _ => 0)
    (p := fun s c => Permitted ilp32 64 s c ∧ Roomy ilp32 c)
    [.addRegion 1024 512, .malloc 40, .malloc 40, .write 1056 7]
    (fun s => s.live = [1120, 1056] ∧ s.mem 1056 = 7) (by decide +kernel)
  have hp : 1056 ∈ s.live := by simp [hs.1]
  exact ⟨s, ⟨hr, hs⟩,
    realloc_keeps_contents (by decide) hr hp (by decide) (by decide) (by decide)⟩

/-- A size that does not wrap when it is rounded up, but does with a second `NODE_S`: the pointer
is returned as if the block had grown. -/
theorem realloc_grants_too_much :
    ∃ s r, Run (Next ilp32 64) (fun s c => Permitted ilp32 64 s c ∧ Roomy ilp32 c)
        (start ilp32 64 fun _ => 0) s ∧ 1056 ∈ s.live ∧ ilp32.Fits (2 ^ 32 - 32) ∧
      mdxFlRealloc ilp32 40 s.mem 64 64 1056 (2 ^ 32 - 32) = some r ∧ r.2 = 1056 ∧
      ¬ Usable ilp32 64 ((s.freed 1056 r.1).returned r) r.2 (2 ^ 32 - 32) := by
  obtain ⟨s, hr, hl, hm⟩ := run_calls ilp32 64 40 (start ilp32 64 fun _ => 0)
    (p := fun s c => Permitted ilp32 64 s c ∧ Roomy ilp32 c) [.addRegion 1024 512, .malloc 40]
    (fun s => s.live = [1056] ∧
      (mdxFlRealloc ilp32 40 s.mem 64 64 1056 (2 ^ 32 - 32)).map (·.2) = some 1056)
    (by decide +kernel)
  obtain ⟨rs, hi⟩ := run_inv (by decide) hr
  obtain ⟨r, hm, hp⟩ := Option.map_eq_some_iff.1 hm
  refine ⟨s, r, hr, by simp [hl], by decide, hm, hp, fun hu => ?_⟩
  exact absurd (hi.usable_lt hu rfl) (by decide)

end
end Mdepx.Heap
