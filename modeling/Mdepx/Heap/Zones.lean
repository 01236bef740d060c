import Mdepx.Heap.Run

namespace Mdepx.Heap
open Lib Function List Option

/-! Two zones in one memory. -/

section
variable {A : Abi} {fl : Nat} {m m' : Bytes} {rs rs' : List Region} {s t : State}

theorem Shape.congr (h : Shape A fl m rs items)
    (hm : ∀ y, ¬ Outside A fl (rs.map (Region.extent A)) y → m' y = m y) :
    Shape A fl m' rs items := by
  apply h.frame_bytes
  intro y hy x hx hx'
  apply (hm x fun ho => ?_).symm
  have hclear := h.clear_outside ho y hy
  omega

theorem Inv.congr (h : Inv A fl s rs) (hregions : t.regions = s.regions) (hlive : t.live = s.live)
    (hm : ∀ y, ¬ Outside A fl s.regions y → t.mem y = s.mem y) : Inv A fl t rs := by
  rw [← h.regions] at hm
  obtain ⟨⟨items, hs⟩, hset⟩ := h.zone
  exact ⟨⟨⟨items, hs.congr hm⟩, hset⟩, h.regions.trans hregions.symm, hlive ▸ h.pointers⟩

def Call.added : Call → List (Nat × Nat)
  | .addRegion base size => [(base, size)]
  | _ => []

theorem exec_regions (h : exec A fl k s c = some t) : t.regions = s.regions ++ c.added := by
  cases c with
  | addRegion =>
    obtain ⟨m, -, rfl⟩ := map_eq_some_iff.1 h
    rfl
  | malloc | calloc =>
    obtain ⟨r, -, rfl⟩ := map_eq_some_iff.1 h
    exact (append_nil _).symm
  | free =>
    obtain ⟨m, -, rfl⟩ := map_eq_some_iff.1 h
    exact (append_nil _).symm
  | realloc =>
    obtain ⟨r, -, rfl⟩ := map_eq_some_iff.1 h
    split
    · exact (append_nil _).symm
    · exact (append_nil _).symm
  | write =>
    cases h
    exact (append_nil _).symm

section
variable (h : Inv A fl s rs)
include h

theorem Inv.malloc_outside (hf : A.Fits size) (hr : mdxFlMalloc A k s.mem fl size = some r)
    (hy : Outside A fl s.regions y) : r.1 y = s.mem y := by
  rw [← h.regions] at hy
  rcases (h.zone.malloc hf).post hr with rfl | ⟨a, z, rs', -, ht, honly⟩
  · rfl
  · rw [← ht.extents] at hy
    exact honly y (ht.zone.clear_outside hy)

theorem Inv.calloc_outside (hf : A.Fits (number * size % A.top))
    (hr : mdxFlCalloc A k s.mem fl number size = some r) (hy : Outside A fl s.regions y) :
    r.1 y = s.mem y := by
  rw [← h.regions] at hy
  rcases (h.zone.calloc hf).post hr with rfl | ⟨a, z, rs', -, ht, hbytes, -⟩
  · rfl
  · rw [← ht.extents] at hy
    have hin := ht.zone.live_inside ((ht.live (a, z)).2 (.inl rfl)) hy
    exact hbytes y (ht.zone.clear_outside hy) (by simp only at hin; omega)

theorem Inv.free_outside (hp : ptr = 0 ∨ ptr ∈ s.live) (hr : mdxFlFree A k s.mem fl ptr = some m')
    (hy : Outside A fl s.regions y) : m' y = s.mem y := by
  rcases hp with rfl | hp
  · cases hr
    rfl
  · obtain ⟨⟨a, z⟩, hx, rfl⟩ := (h.pointers ptr).1 hp
    rw [← h.regions] at hy
    exact ((h.zone.free hx).post hr).1 y (h.zone.clear_outside hy)

theorem Inv.realloc_outside (hc : Permitted A fl s (.realloc ptr size))
    (hroom : Roomy A (.realloc ptr size)) (hr : mdxFlRealloc A k s.mem fl fl ptr size = some r)
    (hy : Outside A fl s.regions y) : r.1 y = s.mem y := by
  obtain ⟨hp, hf⟩ := hc
  by_cases hp0 : ptr = 0
  · rw [mdxFlRealloc, if_pos hp0] at hr
    exact h.malloc_outside hf hr hy
  · by_cases h0 : size = 0
    · rw [mdxFlRealloc, if_neg hp0, if_pos h0] at hr
      obtain ⟨m', hm, rfl⟩ := map_eq_some_iff.1 hr
      exact h.free_outside hp hm hy
    · obtain ⟨⟨a, z⟩, hx, rfl⟩ := (h.pointers ptr).1 (hp.resolve_left hp0)
      rcases (h.zone.realloc hx h0 hf (hroom hp0 h0)).post hr with rfl | ⟨b, z', rs', -, -, hk⟩
      · rfl
      · rw [← h.regions] at hy
        exact hk.outside y hy

theorem Inv.outside (hc : Permitted A fl s c) (hr : Roomy A c) (he : exec A fl k s c = some t)
    (hy : Outside A fl t.regions y) : t.mem y = s.mem y := by
  rw [exec_regions he] at hy
  cases c with
  | addRegion base size =>
    obtain ⟨-, hsize, h31, htop, hoff, hap⟩ := hc
    obtain ⟨m', hm, rfl⟩ := map_eq_some_iff.1 he
    rw [← h.regions] at hy hap
    have hap' : ∀ r ∈ rs, r.base + r.size A ≤ base ∨ base + size ≤ r.base :=
      fun r hr => hap (r.extent A) (mem_map_of_mem hr)
    exact ((h.zone.addRegion hsize h31 htop hoff hap').post hm).2 y hy
  | malloc =>
    obtain ⟨r, hm, rfl⟩ := map_eq_some_iff.1 he
    exact h.malloc_outside hc hm ((append_nil s.regions) ▸ hy)
  | free =>
    obtain ⟨m', hm, rfl⟩ := map_eq_some_iff.1 he
    exact h.free_outside hc hm ((append_nil s.regions) ▸ hy)
  | calloc =>
    obtain ⟨r, hm, rfl⟩ := map_eq_some_iff.1 he
    exact h.calloc_outside hc hm ((append_nil s.regions) ▸ hy)
  | realloc =>
    obtain ⟨r, hm, rfl⟩ := map_eq_some_iff.1 he
    have hbyte := h.realloc_outside hc hr hm ((append_nil s.regions) ▸ hy)
    split
    · exact hbyte
    · exact hbyte
  | write =>
    cases he
    obtain ⟨p, hp, hpx, hxp⟩ := hc
    obtain ⟨⟨a, z⟩, hlive, rfl⟩ := (h.pointers p).1 hp
    have hy : Outside A fl (rs.map (Region.extent A)) y := by
      rw [h.regions]
      exact (append_nil s.regions) ▸ hy
    have hin := h.zone.live_inside hlive hy
    have hsize := h.zone.size_live hlive
    simp only [Nat.add_sub_cancel] at hin hpx hxp
    rw [hsize] at hxp
    apply update_of_ne
    omega

end

def execIn (A : Abi) (dz fl k : Nat) (s : State) : Call → Option State
  | .realloc ptr size =>
    (mdxFlRealloc A k s.mem dz fl ptr size).map fun r =>
      if size ≠ 0 ∧ r.2 = 0 then { s with mem := r.1 }
      else (s.freed ptr r.1).returned r
  | c => exec A fl k s c

structure Zones where
  mem : Bytes
  regions : Bool → List (Nat × Nat)
  live : Bool → List Nat

namespace Zones

def view (s : Zones) (i : Bool) : State := ⟨s.mem, s.regions i, s.live i⟩

def put (s : Zones) (i : Bool) (t : State) : Zones :=
  ⟨t.mem, Function.update s.regions i t.regions, Function.update s.live i t.live⟩

def exec (A : Abi) (dz : Nat) (fl : Bool → Nat) (k : Nat) (s : Zones) (c : Bool × Call) :
    Option Zones :=
  (execIn A dz (fl c.1) k (s.view c.1) c.2).map (s.put c.1)

def Next (A : Abi) (dz : Nat) (fl : Bool → Nat) (s : Zones) (c : Bool × Call) (s' : Zones) :
    Prop :=
  ∃ k, exec A dz fl k s c = some s'

def start (A : Abi) (fl : Bool → Nat) (m : Bytes) : Zones :=
  ⟨mdxFlInit A (mdxFlInit A m (fl false)) (fl true), fun _ => [], fun _ => []⟩

@[simp] theorem view_put (s : Zones) (i : Bool) (t : State) : (s.put i t).view i = t := by
  simp only [view, put, update_self]

theorem view_put_other (s : Zones) (i : Bool) (t : State) :
    (s.put i t).view (!i) = { s.view (!i) with mem := t.mem } := by
  have hne : (!i) ≠ i := by simp
  simp only [view, put, update_of_ne hne]

end Zones

def Elsewhere (A : Abi) (fl : Nat) (es : List (Nat × Nat)) : Call → Prop
  | .addRegion base size =>
    (base + size ≤ fl ∨ fl + 32 * A.nodeS ≤ base) ∧
      ∀ e ∈ es, e.1 + e.2 ≤ base ∨ base + size ≤ e.1
  | _ => True

/-- `mdx_fl_realloc` keeps the block where it is: it is large enough for a node of the size, or the
node behind it is free and the two together are. -/
def InPlace (A : Abi) (m : Bytes) (ptr size : Nat) : Prop :=
  let node := A.decoffset ptr A.nodeS
  let next := A.incoffset node (A.get .size m node)
  let sum := (A.get .size m node + A.get .size m next) % 2 ^ 32
  size ≤ A.get .size m node ∨
    A.get .flags m next &&& flagAllocated = 0 ∧ ((size + A.nodeS) % A.top < sum ∨ sum = size)

/-- Every free block is too small for `mdx_fl_malloc` of the size. -/
def NoneFits (A : Abi) (fl : Nat) (s : State) (size : Nat) : Prop :=
  ∀ rs items, Intact A fl s rs items → ∀ x z, .node x z ∈ items → z < A.round size

def Stays (A : Abi) (dz fl : Nat) (s : State) : Call → Prop
  | .realloc ptr size => fl = dz ∨ ptr = 0 ∨ size = 0 ∨ InPlace A s.mem ptr (A.round size) ∨
    NoneFits A fl s (A.round size)
  | _ => True

structure Zones.Allowed (A : Abi) (fl : Bool → Nat) (s : Zones) (c : Bool × Call) : Prop where
  permitted : Permitted A (fl c.1) (s.view c.1) c.2
  roomy : Roomy A c.2
  elsewhere : Elsewhere A (fl !c.1) (s.regions !c.1) c.2

theorem mdxFlRealloc_zone
    (h : ptr ≠ 0 → size ≠ 0 → ¬InPlace A m ptr (A.round size) →
      ∀ r, mdxFlMalloc A k m fl (A.round size) = some r → r.2 = 0) :
    mdxFlRealloc A k m dz fl ptr size = mdxFlRealloc A k m fl fl ptr size := by
  unfold mdxFlRealloc
  split
  · rfl
  rename_i hp
  split
  · rfl
  rename_i h0
  dsimp only
  split
  · rfl
  rename_i hsize
  split
  · rfl
  rename_i hroom
  split
  · rfl
  rename_i hsum
  cases hr : mdxFlMalloc A k m fl (A.round size) with
  | none => rfl
  | some r =>
    have hz : r.2 = 0 := by
      apply h hp h0 _ r hr
      rintro (hle | ⟨hfree, hlt | he⟩)
      · exact hsize hle
      · exact hroom ⟨decide_eq_true hfree, hlt⟩
      · exact hsum ⟨decide_eq_true hfree, he⟩
    simp only [bind_some, hz, ne_eq, not_true_eq_false, if_false]

theorem Inv.malloc_none (h : Inv A fl s rs) (hf : A.Fits size) (hn : NoneFits A fl s size)
    (hr : mdxFlMalloc A k s.mem fl size = some r) : r.2 = 0 := by
  by_cases h0 : size = 0
  · simp only [mdxFlMalloc, if_pos h0] at hr
    cases hr
    rfl
  obtain ⟨⟨items, hs⟩, hset⟩ := h.zone
  rcases (hs.malloc hset h0 hf).post hr with
    ⟨rfl, -⟩ | ⟨R₁, R₂, base, l, t, I₁, I₂, a, z, s', bs, I', -, hitems, hc⟩
  · rfl
  · have hlt := hn rs items (h.intact_of hs) a z (by simp [hitems])
    have hle := hc.size.trans hc.rest.le
    omega

theorem Inv.execIn (h : Inv A fl s rs) (hr : Roomy A c) (hstay : Stays A dz fl s c) :
    execIn A dz fl k s c = exec A fl k s c := by
  cases c with
  | realloc ptr size =>
    by_cases hz : fl = dz
    · rw [← hz]
      rfl
    · rw [Heap.execIn, exec, mdxFlRealloc_zone]
      intro hp h0 hplace r hm
      rcases hstay with he | he | he | he | hn
      · exact absurd he hz
      · exact absurd he hp
      · exact absurd he h0
      · exact absurd he hplace
      · exact h.malloc_none (hr hp h0) hn hm
  | addRegion | malloc | free | calloc | write => rfl

namespace Zones
variable {fl : Bool → Nat} {s s' : Zones}

structure Sound (A : Abi) (fl : Bool → Nat) (s : Zones) : Prop where
  each : ∀ i, ∃ rs, Inv A (fl i) (s.view i) rs
  apart : ∀ i y, Outside A (fl i) (s.regions i) y ∨ Outside A (fl !i) (s.regions !i) y

theorem start_sound (m : Bytes) (hz : ∀ i, fl i + 32 * A.nodeS ≤ A.top)
    (hap : fl false + 32 * A.nodeS ≤ fl true ∨ fl true + 32 * A.nodeS ≤ fl false) :
    Sound A fl (start A fl m) := by
  have hinv {i : Bool} (hzone : Zone A (fl i) (start A fl m).mem []) :
      ∃ rs, Inv A (fl i) ((start A fl m).view i) rs := by
    refine ⟨[], hzone, rfl, fun p => ⟨fun hp => ?_, fun ⟨x, hx, _⟩ => ?_⟩⟩
    · cases hp
    · cases hx
  refine ⟨fun i => hinv ?_, fun i y => ?_⟩
  · cases i with
    | true => exact mdxFlInit_zone _ (hz true)
    | false =>
      obtain ⟨⟨items, hs⟩, hset⟩ := mdxFlInit_zone m (hz false)
      refine ⟨⟨items, hs.congr fun y hy => mdxFlInit_outside ?_⟩, hset⟩
      by_contra hin
      exact hy ⟨by omega, nofun⟩
  · by_cases hy : y < fl i ∨ fl i + 32 * A.nodeS ≤ y
    · exact .inl ⟨hy, nofun⟩
    · refine .inr ⟨?_, nofun⟩
      cases i with
      | true =>
        simp only [Bool.not_true]
        omega
      | false =>
        simp only [Bool.not_false]
        omega

theorem Sound.apart_added (h : Sound A fl s) (hc : Elsewhere A (fl !i) (s.regions !i) c) (y : Nat) :
    Outside A (fl i) (s.regions i ++ c.added) y ∨ Outside A (fl !i) (s.regions !i) y := by
  rcases h.apart i y with hy | hy
  · cases c with
    | addRegion base size =>
      obtain ⟨hzone, hregions⟩ := hc
      by_cases hin : y < base ∨ base + size ≤ y
      · refine .inl ⟨hy.1, fun e he => ?_⟩
        rcases mem_append.1 he with he | he
        · exact hy.2 e he
        · rw [mem_singleton.1 he]
          exact hin
      · refine .inr ⟨by omega, fun e he => ?_⟩
        have hap := hregions e he
        omega
    | malloc size | free ptr | calloc number size | realloc ptr size | write x b =>
      exact .inl ((append_nil (s.regions i)).symm ▸ hy)
  · exact .inr hy

theorem Sound.step (h : Sound A fl s) (hc : Allowed A fl s c)
    (hstay : Stays A dz (fl c.1) (s.view c.1) c.2) (hn : Next A dz fl s c s') :
    Sound A fl s' ∧ (s'.regions !c.1) = (s.regions !c.1) ∧ (s'.live !c.1) = (s.live !c.1) ∧
      ∀ y, ¬ Outside A (fl !c.1) (s.regions !c.1) y → s'.mem y = s.mem y := by
  obtain ⟨i, c⟩ := c
  obtain ⟨k, hk⟩ := hn
  obtain ⟨t, ht, rfl⟩ := map_eq_some_iff.1 hk
  simp only at ht hstay ⊢
  obtain ⟨rs, hi⟩ := h.each i
  obtain ⟨rs', hi'⟩ := h.each !i
  have he := (hi.execIn hc.roomy hstay).symm.trans ht
  have hregions : t.regions = s.regions i ++ c.added := exec_regions he
  have hother := s.view_put_other i t
  have hkeep : ((s.put i t).regions !i) = (s.regions !i) ∧ ((s.put i t).live !i) = (s.live !i) :=
    ⟨congrArg State.regions hother, congrArg State.live hother⟩
  have hown : (s.put i t).regions i = t.regions := congrArg State.regions (s.view_put i t)
  have hmem (y : Nat) (hy : ¬ Outside A (fl !i) (s.regions !i) y) : t.mem y = s.mem y := by
    apply hi.outside hc.permitted hc.roomy he
    rw [hregions]
    exact (h.apart_added hc.elsewhere y).resolve_right hy
  have hsame (P : Bool → Prop) (hP : P i) (hP' : P !i) (j : Bool) : P j := by
    by_cases hj : j = i
    · exact hj ▸ hP
    · exact Bool.eq_not.2 hj ▸ hP'
  refine ⟨⟨hsame _ ?_ ⟨rs', ?_⟩, hsame _ (fun y => ?_) (fun y => ?_)⟩, hkeep.1, hkeep.2, hmem⟩
  · rw [s.view_put i t]
    exact (hi.call hc.permitted hc.roomy).post he
  · rw [hother]
    exact hi'.congr rfl rfl hmem
  · rw [hown, hkeep.1, hregions]
    exact h.apart_added hc.elsewhere y
  · rw [Bool.not_not, hown, hkeep.1, hregions]
    exact (h.apart_added hc.elsewhere y).symm

/-- In every run in which `mdx_fl_realloc` has to move only blocks of the default zone, calls on one
zone leave every byte of the other zone and of its regions, hence its blocks and its list, as they
were, and the free blocks of the zone they are on are those of its list. -/
theorem zones_independent (hz : ∀ i, fl i + 32 * A.nodeS ≤ A.top)
    (hap : fl false + 32 * A.nodeS ≤ fl true ∨ fl true + 32 * A.nodeS ≤ fl false)
    (h : Run (Next A dz fl)
      (fun s c => Allowed A fl s c ∧ Stays A dz (fl c.1) (s.view c.1) c.2) (start A fl m) s)
    (hcalls : Run (Next A dz fl)
      (fun s c => (Allowed A fl s c ∧ Stays A dz (fl c.1) (s.view c.1) c.2) ∧ c.1 = i) s s') :
    (∀ y, ¬ Outside A (fl !i) (s.regions !i) y → s'.mem y = s.mem y) ∧
    (∃ rs items, Intact A (fl !i) (s.view !i) rs items ∧ Intact A (fl !i) (s'.view !i) rs items) ∧
    ∃ rs items, Intact A (fl i) (s'.view i) rs items := by
  have hs : Sound A fl s := h.invariant (Sound A fl) (start_sound m hz hap)
    fun hs hc hn => (hs.step hc.1 hc.2 hn).1
  obtain ⟨hs', hregions, hlive, hmem⟩ := hcalls.invariant
    (fun t => Sound A fl t ∧ (t.regions !i) = (s.regions !i) ∧ (t.live !i) = (s.live !i) ∧
      ∀ y, ¬ Outside A (fl !i) (s.regions !i) y → t.mem y = s.mem y)
    ⟨hs, rfl, rfl, fun _ _ => rfl⟩ fun {t c u} ⟨ht, hr, hl, hm⟩ ⟨⟨hc, hstay⟩, hi⟩ hn => by
      obtain ⟨hu, hr', hl', hm'⟩ := ht.step hc hstay hn
      rw [hi, hr] at hm'
      rw [hi] at hr' hl'
      exact ⟨hu, hr'.trans hr, hl'.trans hl, fun y hy => (hm' y hy).trans (hm y hy)⟩
  obtain ⟨rs, hi⟩ := hs.each !i
  obtain ⟨rs', hi'⟩ := hs'.each i
  obtain ⟨items, hshape⟩ := hi.zone.shape
  have hsame : Inv A (fl !i) (s'.view !i) rs := hi.congr hregions hlive hmem
  have hshape' : Shape A (fl !i) s'.mem rs items := by
    apply hshape.congr
    rw [hi.regions]
    exact hmem
  exact ⟨hmem, ⟨rs, items, hi.intact_of hshape, hsame.intact_of hshape'⟩, rs', hi'.intact⟩

instance (A : Abi) (fl : Nat) (es : List (Nat × Nat)) : ∀ c, Decidable (Elsewhere A fl es c)
  | .addRegion _ _ => instDecidableAnd
  | .malloc _ | .free _ | .calloc _ _ | .realloc _ _ | .write _ _ => instDecidableTrue

/-- No block is resized that is not of the default zone. -/
def Unmoved (dz fl : Nat) : Call → Prop
  | .realloc _ _ => fl = dz
  | _ => True

instance (dz fl : Nat) : ∀ c, Decidable (Unmoved dz fl c)
  | .realloc _ _ => instDecidableEqNat fl dz
  | .addRegion _ _ | .malloc _ | .free _ | .calloc _ _ | .write _ _ => instDecidableTrue

theorem Unmoved.stays (h : Unmoved dz f c) : Stays A dz f t c := by
  cases c with
  | realloc => exact .inl h
  | addRegion base size | malloc size | free ptr | calloc number size | write x b => trivial

def calls (A : Abi) (dz : Nat) (fl : Bool → Nat) (k : Nat) (q : Bool → Bool) (s : Zones)
    (cs : List (Bool × Call)) : Option Zones :=
  cs.foldlM (checked (fun s c => (Permitted A (fl c.1) (s.view c.1) c.2 ∧ Roomy A c.2 ∧
    Elsewhere A (fl !c.1) (s.regions !c.1) c.2) ∧ Unmoved dz (fl c.1) c.2 ∧ q c.1 = true)
    (exec A dz fl k)) s

theorem run_zones (A : Abi) (dz : Nat) (fl : Bool → Nat) (k : Nat) (q : Bool → Bool) (s : Zones)
    (cs : List (Bool × Call)) (p : Zones → Prop) [DecidablePred p]
    (h : (calls A dz fl k q s cs).map (fun s => decide (p s)) = some true) :
    ∃ s', Run (Next A dz fl) (fun s c => (Allowed A fl s c ∧
      Stays A dz (fl c.1) (s.view c.1) c.2) ∧ q c.1 = true) s s' ∧ p s' := by
  have hnext (s : Zones) (c : Bool × Call) (s' : Zones) (hx : exec A dz fl k s c = some s') :
      Next A dz fl s c s' := ⟨k, hx⟩
  obtain ⟨s', hr, hp⟩ := Run.of_evaluated hnext cs p h
  exact ⟨s', hr.mono fun s c ⟨⟨hc, hr, he⟩, hu, hq⟩ => ⟨⟨⟨hc, hr, he⟩, hu.stays⟩, hq⟩, hp⟩

def twoZones : Bool → Nat
  | false => 64
  | true => 600

theorem zones_independent_moved :
    ∃ s s', (Run (Next ilp32 64 twoZones)
        (fun s c => Allowed ilp32 twoZones s c ∧ Stays ilp32 64 (twoZones c.1) (s.view c.1) c.2)
        (start ilp32 twoZones fun _ => 0) s ∧
      Run (Next ilp32 64 twoZones) (fun s c => (Allowed ilp32 twoZones s c ∧
        Stays ilp32 64 (twoZones c.1) (s.view c.1) c.2) ∧ c.1 = false) s s' ∧
      s'.live false = [2208] ∧ s'.live true = [4128]) ∧
      (∀ y, ¬ Outside ilp32 (twoZones true) (s.regions true) y → s'.mem y = s.mem y) ∧
      (∃ rs items, Intact ilp32 (twoZones true) (s.view true) rs items ∧
        Intact ilp32 (twoZones true) (s'.view true) rs items) ∧
      ∃ rs items, Intact ilp32 (twoZones false) (s'.view false) rs items := by
  obtain ⟨s, hr, hp⟩ := run_zones ilp32 64 twoZones 40 (fun _ => true)
    (start ilp32 twoZones fun _ => 0)
    [(false, .addRegion 2048 512), (true, .addRegion 4096 512), (true, .malloc 40),
      (false, .malloc 40), (false, .malloc 40)]
    (fun s => (calls ilp32 64 twoZones 40 (!·) s
      [(false, .realloc 2080 100), (false, .free 2144)]).map
        (fun s' => decide (s'.live false = [2208] ∧ s'.live true = [4128])) = some true)
    (by decide +kernel)
  obtain ⟨s', hr', hlive⟩ := run_zones _ _ _ _ _ _ _ _ hp
  have hr := hr.mono fun s c hc => hc.1
  have hr' := hr'.mono fun s c (hc : _ ∧ (!c.1) = true) =>
    (⟨hc.1, by simpa using hc.2⟩ : _ ∧ c.1 = false)
  exact ⟨s, s', ⟨hr, hr', hlive⟩,
    zones_independent (i := false) (by decide) (by decide) hr hr'⟩

/-- A block of the other zone is moved: `mdx_fl_free` puts it in the list of the default zone. -/
theorem realloc_frees_to_default_zone :
    ∃ s s', Run (Next ilp32 64 twoZones)
        (fun s c => Allowed ilp32 twoZones s c ∧ Stays ilp32 64 (twoZones c.1) (s.view c.1) c.2)
        (start ilp32 twoZones fun _ => 0) s ∧
      Allowed ilp32 twoZones s (true, .realloc 4128 100) ∧
      Next ilp32 64 twoZones s (true, .realloc 4128 100) s' ∧
      ilp32.get .next s.mem (ilp32.head 64 2) = ilp32.head 64 3 ∧
      ilp32.get .next s'.mem (ilp32.head 64 2) = 4112 := by
  obtain ⟨s, hr, ⟨hc, hroom, he⟩, hhead, hp⟩ := run_zones ilp32 64 twoZones 40
    (fun _ => true) (start ilp32 twoZones fun _ => 0)
    [(false, .addRegion 2048 512), (true, .addRegion 4096 512), (true, .malloc 40),
      (true, .malloc 40)]
    (fun s => (Permitted ilp32 600 (s.view true) (.realloc 4128 100) ∧
        Roomy ilp32 (.realloc 4128 100) ∧
        Elsewhere ilp32 64 (s.regions false) (.realloc 4128 100)) ∧
      ilp32.get .next s.mem (ilp32.head 64 2) = ilp32.head 64 3 ∧
      (exec ilp32 64 twoZones 40 s (true, .realloc 4128 100)).map
        (fun s' => ilp32.get .next s'.mem (ilp32.head 64 2)) = some 4112)
    (by decide +kernel)
  obtain ⟨s', hs', hp⟩ := map_eq_some_iff.1 hp
  exact ⟨s, s', hr.mono fun s c hc => hc.1, ⟨hc, hroom, he⟩, ⟨40, hs'⟩, hhead, hp⟩

end Zones

end
end Mdepx.Heap
