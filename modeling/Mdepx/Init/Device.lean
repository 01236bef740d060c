import Mathlib.Data.Int.Interval
import Mathlib.Data.List.Nodup
import Mdepx.Lib.Fold
import Mdepx.Lib.Run
import Mdepx.Of.Fdt

namespace Mdepx.Init
open Lib Of List

/-! The attached devices of `kernel/init/mdx_device.c`, in the order they came. -/

def mdxOk : Int := 0
def mdxError : Int := -1
def mdxEexist : Int := -2

/-- `struct mdx_driver`, without the size of its software context. What its `ops` answer is part of
each call. -/
structure MdxDriver where
  name : String
  compatData : Option (List String)
deriving DecidableEq

structure MdxDevice where
  nodeoffset : Int
  dri : MdxDriver
  unit : Int
deriving DecidableEq

/-- Whether `zalloc` finds room for a device, and what `probe` and `attach` return for it. -/
structure Answers where
  alloc : Bool
  probe : Int
  attach : Int

def mdxDeviceSetUnit (devs : List MdxDevice) (dev : MdxDevice) : MdxDevice :=
  let unit := devs.foldl (fun unit dev1 =>
    if dev.dri.name = dev1.dri.name then if unit < dev1.unit then dev1.unit else unit
    else unit) (-1)
  { dev with unit := unit + 1 }

def mdxDeviceProbeAndAttach (devs : List MdxDevice) (ans : Answers) (dev : MdxDevice) :
    Int × List MdxDevice :=
  let dev := mdxDeviceSetUnit devs dev
  if ans.probe = 0 then
    if ans.attach = 0 then (ans.attach, devs ++ [dev]) else (ans.attach, devs)
  else (-1, devs)

def mdxDeviceLookupByName (devs : List MdxDevice) (name : String) (unit : Int) :
    Option MdxDevice :=
  devs.find? fun dev => name == dev.dri.name && dev.unit == unit

def mdxDeviceLookupByOffset (devs : List MdxDevice) (offset : Int) : Option MdxDevice :=
  devs.find? fun dev => dev.nodeoffset == offset

structure Call where
  offset : Int
  dri : MdxDriver
  ans : Answers

/-- `mdx_of_probe_and_attach`: what it returns and the devices then attached, or nothing if it
panics. -/
def mdxOfProbeAndAttach (fdt : Fdt) (devs : List MdxDevice) (c : Call) :
    Option (Int × List MdxDevice) :=
  if mdxOfNodeIsEnabled fdt c.offset = false then some (-1, devs)
  else if (mdxDeviceLookupByOffset devs c.offset).isSome then some (mdxEexist, devs)
  else if ((fdt.node c.offset).bind Node.compatible).isNone then some (-2, devs)
  else if c.ans.alloc = false then none
  else
    -- the memory is cleared, so the unit is 0 until it is set
    let (error, devs) := mdxDeviceProbeAndAttach devs c.ans ⟨c.offset, c.dri, 0⟩
    if error ≠ 0 then some (mdxError, devs) else some (mdxOk, devs)

structure Registry where
  devs : List MdxDevice
  calls : Nat

def attachCompatible (fdt : Fdt) (env : Nat → Answers) (dri : MdxDriver) (compatible : String)
    (offset : Int) (r : Registry) : Option Registry :=
  let next := fdtNodeOffsetByCompatible fdt offset compatible
  if _h : next < 0 then some r
  else
    match mdxOfProbeAndAttach fdt r.devs ⟨next, dri, env r.calls⟩ with
    | none => none
    | some (_, devs) => attachCompatible fdt env dri compatible next ⟨devs, r.calls + 1⟩
termination_by (2 ^ 31 - offset).toNat
decreasing_by
  have hlt := fdtNodeOffsetByCompatible_lt (Int.not_lt.1 _h)
  omega

/-- `mdx_driver_module_handler`, without the console it registers a chosen device for. -/
def mdxDriverModuleHandler (fdt : Fdt) (env : Nat → Answers) (dri : MdxDriver) (r : Registry) :
    Option (Int × Registry) :=
  match dri.compatData with
  | none => some (-1, r)
  | some cd =>
    (cd.foldlM (fun r compatible => attachCompatible fdt env dri compatible 0 r) r).map
      fun r => (0, r)

def units (devs : List MdxDevice) (name : String) : List Int :=
  (devs.filter fun dev => dev.dri.name == name).map MdxDevice.unit

structure Registered (fdt : Fdt) (devs : List MdxDevice) : Prop where
  offsets : (devs.map MdxDevice.nodeoffset).Nodup
  numbered : ∀ name, units devs name = (range (units devs name).length).map Int.ofNat
  nodes : ∀ dev ∈ devs, (fdt.node dev.nodeoffset).isSome

theorem Registered.nil (fdt : Fdt) : Registered fdt [] where
  offsets := nodup_nil
  numbered _ := rfl
  nodes _ h := nomatch h

theorem units_append (devs : List MdxDevice) (dev : MdxDevice) (name : String) :
    units (devs ++ [dev]) name =
      units devs name ++ if dev.dri.name = name then [dev.unit] else [] := by
  by_cases h : dev.dri.name = name
  · simp [units, h]
  · simp [units, h]

theorem foldl_max_range (k : Nat) : ((range k).map Int.ofNat).foldl max (-1) = k - 1 := by
  induction k with
  | zero => rfl
  | succ k ih =>
    rw [range_succ, map_append, foldl_append, ih]
    change max ((k : Int) - 1) k = _
    omega

theorem foldl_unit (name : String) (devs : List MdxDevice) (unit : Int) :
    devs.foldl (fun unit dev1 =>
      if name = dev1.dri.name then if unit < dev1.unit then dev1.unit else unit else unit) unit =
    (units devs name).foldl max unit := by
  induction devs generalizing unit with
  | nil => rfl
  | cons dev devs ih =>
    rw [foldl_cons, ih, units, units, filter_cons]
    by_cases h : name = dev.dri.name
    · have hmax : (if unit < dev.unit then dev.unit else unit) = max unit dev.unit := by
        split <;> omega
      rw [if_pos h, if_pos (beq_iff_eq.2 h.symm), map_cons, foldl_cons, hmax]
    · have hname : ¬(dev.dri.name == name) = true := fun he => h (beq_iff_eq.1 he).symm
      rw [if_neg h, if_neg hname]

theorem Registered.setUnit (h : Registered fdt devs) (dev : MdxDevice) :
    mdxDeviceSetUnit devs dev = { dev with unit := (units devs dev.dri.name).length } := by
  have hunit : (units devs dev.dri.name).foldl max (-1) + 1 = (units devs dev.dri.name).length := by
    rw [h.numbered, foldl_max_range, length_map, length_range]
    omega
  rw [mdxDeviceSetUnit, foldl_unit, hunit]

theorem mdxDeviceLookupByOffset_isSome {devs : List MdxDevice} {offset : Int} :
    (mdxDeviceLookupByOffset devs offset).isSome ↔ offset ∈ devs.map MdxDevice.nodeoffset := by
  simp [mdxDeviceLookupByOffset, find?_isSome]

theorem Registered.probeAndAttach (h : Registered fdt devs)
    (hc : mdxOfProbeAndAttach fdt devs c = some (error, devs')) :
    error ≠ 0 ∧ devs' = devs ∨
    error = 0 ∧ devs' = devs ++ [⟨c.offset, c.dri, (units devs c.dri.name).length⟩] ∧
      c.offset ∉ devs.map MdxDevice.nodeoffset ∧ (fdt.node c.offset).isSome := by
  unfold mdxOfProbeAndAttach at hc
  split at hc
  · cases hc
    exact .inl ⟨by decide, rfl⟩
  split at hc
  · cases hc
    exact .inl ⟨by decide, rfl⟩
  rename_i hoffset
  split at hc
  · cases hc
    exact .inl ⟨by decide, rfl⟩
  rename_i hcompatible
  split at hc
  · cases hc
  have hnode : (fdt.node c.offset).isSome := by
    cases hn : fdt.node c.offset with
    | none =>
      rw [hn] at hcompatible
      exact absurd rfl hcompatible
    | some => rfl
  rw [mdxDeviceProbeAndAttach, h.setUnit] at hc
  by_cases hprobe : c.ans.probe = 0
  · by_cases hattach : c.ans.attach = 0
    · simp only [hprobe, hattach, if_true, ne_eq, not_true, if_false] at hc
      cases hc
      exact .inr ⟨rfl, rfl, fun hm => hoffset (mdxDeviceLookupByOffset_isSome.2 hm), hnode⟩
    · simp only [hprobe, hattach, if_true, ne_eq, not_false_iff, if_false] at hc
      cases hc
      exact .inl ⟨by decide, rfl⟩
  · rw [if_neg hprobe] at hc
    cases hc
    exact .inl ⟨by decide, rfl⟩

theorem Registered.append (h : Registered fdt devs)
    (hoffset : offset ∉ devs.map MdxDevice.nodeoffset) (hnode : (fdt.node offset).isSome) :
    Registered fdt (devs ++ [⟨offset, dri, (units devs dri.name).length⟩]) where
  offsets := by
    rw [map_append, map_cons, map_nil]
    exact h.offsets.append (nodup_singleton _) (disjoint_singleton.2 hoffset)
  numbered name := by
    rw [units_append]
    by_cases hname : dri.name = name
    · subst hname
      rw [if_pos rfl, length_append, length_singleton, range_succ, map_append,
        ← h.numbered]
      rfl
    · rw [if_neg hname, append_nil]
      exact h.numbered name
  nodes dev hdev := by
    rcases mem_append.1 hdev with hdev | hdev
    · exact h.nodes dev hdev
    · rw [mem_singleton.1 hdev]
      exact hnode

def Attaches (fdt : Fdt) (devs : List MdxDevice) (c : Call) (devs' : List MdxDevice) : Prop :=
  ∃ error, mdxOfProbeAndAttach fdt devs c = some (error, devs')

theorem Registered.step (h : Registered fdt devs) (hc : Attaches fdt devs c devs') :
    Registered fdt devs' := by
  obtain ⟨error, hc⟩ := hc
  rcases h.probeAndAttach hc with ⟨_, rfl⟩ | ⟨_, rfl, hoffset, hnode⟩
  · exact h
  · exact h.append hoffset hnode

abbrev Attached (fdt : Fdt) : List MdxDevice → List MdxDevice → Prop :=
  Run (Attaches fdt) fun _ _ => True

theorem Registered.run (h : Registered fdt devs) (hrun : Attached fdt devs devs') :
    Registered fdt devs' :=
  hrun.invariant (Registered fdt) h fun h _ hc => h.step hc

theorem find?_eq_some_of_unique {l : List α} {p : α → Bool}
    (hunique : ∀ a ∈ l, ∀ b ∈ l, p a = true → p b = true → a = b) :
    l.find? p = some a ↔ a ∈ l ∧ p a = true := by
  constructor
  · intro h
    exact ⟨mem_of_find?_eq_some h, find?_some h⟩
  · intro ⟨ha, hp⟩
    cases hf : l.find? p with
    | none => exact absurd hp (find?_eq_none.1 hf a ha)
    | some b =>
      rw [hunique a ha b (mem_of_find?_eq_some hf) hp (find?_some hf)]

theorem Registered.lookupByOffset (h : Registered fdt devs) :
    mdxDeviceLookupByOffset devs offset = some dev ↔ dev ∈ devs ∧ dev.nodeoffset = offset := by
  have hinj := inj_on_of_nodup_map h.offsets
  rw [mdxDeviceLookupByOffset, find?_eq_some_of_unique, beq_iff_eq]
  intro a ha b hb hpa hpb
  exact hinj ha hb ((beq_iff_eq.1 hpa).trans (beq_iff_eq.1 hpb).symm)

theorem Registered.name_unit_inj (h : Registered fdt devs) (ha : a ∈ devs) (hb : b ∈ devs)
    (hname : a.dri.name = b.dri.name) (hunit : a.unit = b.unit) : a = b := by
  have hnodup : (units devs b.dri.name).Nodup := by
    rw [h.numbered]
    exact nodup_range.map fun _ _ => Int.ofNat.inj
  have hinj := inj_on_of_nodup_map hnodup
  exact hinj (mem_filter.2 ⟨ha, beq_iff_eq.2 hname⟩)
    (mem_filter.2 ⟨hb, beq_self_eq_true _⟩) hunit

theorem Registered.lookupByName (h : Registered fdt devs) :
    mdxDeviceLookupByName devs name unit = some dev ↔
      dev ∈ devs ∧ dev.dri.name = name ∧ dev.unit = unit := by
  rw [mdxDeviceLookupByName, find?_eq_some_of_unique]
  · rw [Bool.and_eq_true, beq_iff_eq, beq_iff_eq, eq_comm (a := name)]
  · intro a ha b hb hpa hpb
    simp only [Bool.and_eq_true, beq_iff_eq] at hpa hpb
    exact h.name_unit_inj ha hb (hpa.1.symm.trans hpb.1) (hpa.2.trans hpb.2.symm)

/-- However the devices came: no two are of one node, those of a name are numbered from 0 in the
order they were attached, a call that fails leaves the list as it was, and the two lookups find the
device there is. -/
theorem devs_unique (fdt : Fdt) (devs : List MdxDevice) (h : Attached fdt [] devs) :
    (devs.map MdxDevice.nodeoffset).Nodup ∧
    (∀ name, units devs name = (range (units devs name).length).map Int.ofNat) ∧
    (∀ c error devs', mdxOfProbeAndAttach fdt devs c = some (error, devs') →
      error ≠ 0 ∧ devs' = devs ∨
      error = 0 ∧ devs' = devs ++ [⟨c.offset, c.dri, (units devs c.dri.name).length⟩]) ∧
    (∀ name unit dev, mdxDeviceLookupByName devs name unit = some dev ↔
      dev ∈ devs ∧ dev.dri.name = name ∧ dev.unit = unit) ∧
    (∀ offset dev, mdxDeviceLookupByOffset devs offset = some dev ↔
      dev ∈ devs ∧ dev.nodeoffset = offset) := by
  have hreg := (Registered.nil fdt).run h
  refine ⟨hreg.offsets, hreg.numbered, ?_, fun _ _ _ => hreg.lookupByName,
    fun _ _ => hreg.lookupByOffset⟩
  intro c error devs' hc
  exact (hreg.probeAndAttach hc).imp id fun ⟨herror, hdevs, _⟩ => ⟨herror, hdevs⟩

def twoUarts : Fdt where
  nodes := [⟨0, -1, none, none, none, none, none, none⟩,
    ⟨4, 0, none, some ["ns16550a"], none, none, none, none⟩,
    ⟨8, 0, some "okay", some ["acme,uart", "ns16550a"], none, none, none, none⟩]
  ordered := by decide
  bounded := by decide
  under := by decide

def uartDriver : MdxDriver := ⟨"uart", some ["ns16550a", "acme,uart"]⟩

theorem devs_unique_twoUarts :
    Attached twoUarts [] [⟨4, uartDriver, 0⟩, ⟨8, uartDriver, 1⟩] ∧
      mdxDeviceLookupByName [⟨4, uartDriver, 0⟩, ⟨8, uartDriver, 1⟩] "uart" 1 =
        some ⟨8, uartDriver, 1⟩ := by
  have hfirst : Attached twoUarts [] [⟨4, uartDriver, 0⟩] :=
    .head (i := ⟨4, uartDriver, true, 0, 0⟩) trivial ⟨0, by decide +kernel⟩ (.refl _)
  have hfailed : Attached twoUarts [⟨4, uartDriver, 0⟩] [⟨4, uartDriver, 0⟩] :=
    .head (i := ⟨8, uartDriver, true, 0, 5⟩) trivial ⟨-1, by decide +kernel⟩ (.refl _)
  have hsecond : Attached twoUarts [⟨4, uartDriver, 0⟩]
      [⟨4, uartDriver, 0⟩, ⟨8, uartDriver, 1⟩] :=
    .head (i := ⟨8, uartDriver, true, 0, 0⟩) trivial ⟨0, by decide +kernel⟩ (.refl _)
  have hrun := (hfirst.trans hfailed).trans hsecond
  have hlookup := (devs_unique twoUarts _ hrun).2.2.2.1 "uart" 1 ⟨8, uartDriver, 1⟩
  exact ⟨hrun, hlookup.2 ⟨by decide, rfl, rfl⟩⟩

/-- There is memory, and the drivers accept every node. -/
def Accepts (env : Nat → Answers) : Prop :=
  ∀ i, (env i).alloc = true ∧ (env i).probe = 0 ∧ (env i).attach = 0

def Has (r : Registry) (offset : Int) : Prop := offset ∈ r.devs.map MdxDevice.nodeoffset

/-- The node is enabled and lists the string. -/
def Offers (fdt : Fdt) (compatible : String) (offset : Int) : Prop :=
  mdxOfNodeIsEnabled fdt offset = true ∧
    ∃ n ∈ fdt.nodes, n.offset = offset ∧ compatible ∈ n.compatible.getD []

theorem Registered.accepted (h : Registered fdt devs) (ha : Accepts env) (dri : MdxDriver) (i : Nat)
    (hn : n ∈ fdt.nodes) (hs : s ∈ n.compatible.getD []) :
    ∃ error devs', mdxOfProbeAndAttach fdt devs ⟨n.offset, dri, env i⟩ = some (error, devs') ∧
      Registered fdt devs' ∧ ∀ x, x ∈ devs'.map MdxDevice.nodeoffset ↔
        x ∈ devs.map MdxDevice.nodeoffset ∨
          x = n.offset ∧ mdxOfNodeIsEnabled fdt n.offset = true := by
  by_cases hen : mdxOfNodeIsEnabled fdt n.offset = false
  · exact ⟨-1, devs, if_pos hen, h, fun x => by simp [hen]⟩
  by_cases hold : (mdxDeviceLookupByOffset devs n.offset).isSome
  · refine ⟨mdxEexist, devs, (if_neg hen).trans (if_pos hold), h, fun x => ⟨.inl, ?_⟩⟩
    rintro (hx | ⟨rfl, -⟩)
    · exact hx
    · exact mdxDeviceLookupByOffset_isSome.1 hold
  · have hnew : n.offset ∉ devs.map MdxDevice.nodeoffset :=
      fun hm => hold (mdxDeviceLookupByOffset_isSome.2 hm)
    have hnode := Fdt.node_of_mem hn
    have hc : ((fdt.node n.offset).bind Node.compatible).isNone = false := by
      rw [hnode]
      cases hnc : n.compatible with
      | none => simp [hnc] at hs
      | some => exact congrArg Option.isNone hnc
    obtain ⟨halloc, hprobe, hattach⟩ := ha i
    refine ⟨mdxOk, devs ++ [⟨n.offset, dri, (units devs dri.name).length⟩], ?_,
      h.append hnew (Option.isSome_of_eq_some hnode), fun x => by simp [hen]⟩
    simp [mdxOfProbeAndAttach, mdxDeviceProbeAndAttach, h.setUnit, hen, hold, hc, halloc, hprobe,
      hattach]

theorem attachCompatible_offers (ha : Accepts env) (dri : MdxDriver) (compatible : String)
    (h : Registered fdt r.devs) (offset : Int) :
    ∃ r', attachCompatible fdt env dri compatible offset r = some r' ∧ Registered fdt r'.devs ∧
      ∀ x, Has r' x ↔ Has r x ∨ offset < x ∧ Offers fdt compatible x := by
  rw [attachCompatible]
  rcases fdtNodeOffsetByCompatible_cases fdt offset compatible with
    ⟨hneg, hnone⟩ | ⟨n, hn, he, hlt, hs, hfirst⟩
  · refine ⟨r, dif_pos hneg, h, fun x => ⟨.inl, ?_⟩⟩
    rintro (hx | ⟨hlt, -, n, hn, rfl, hs⟩)
    · exact hx
    · exact absurd hs (hnone n hn hlt)
  · have hbound := fdt.bounded n hn
    obtain ⟨error, devs, hsome, hreg, hhas⟩ := h.accepted ha dri r.calls hn hs
    obtain ⟨r', hr', hreg', hhas'⟩ :=
      attachCompatible_offers (r := ⟨devs, r.calls + 1⟩) ha dri compatible hreg n.offset
    rw [he, dif_neg (Int.not_lt.2 hbound.1), hsome]
    refine ⟨r', hr', hreg', fun x => ?_⟩
    rw [hhas', Has, hhas]
    constructor
    · rintro ((hx | ⟨rfl, hen⟩) | ⟨hx, ho⟩)
      · exact .inl hx
      · exact .inr ⟨hlt, hen, n, hn, rfl, hs⟩
      · exact .inr ⟨hlt.trans hx, ho⟩
    · rintro (hx | ⟨hx, hen, m, hm, rfl, hms⟩)
      · exact .inl (.inl hx)
      · rcases Int.le_iff_eq_or_lt.1 (hfirst m hm hx hms) with heq | hbehind
        · exact .inl (.inr ⟨heq.symm, heq ▸ hen⟩)
        · exact .inr ⟨hbehind, hen, m, hm, rfl, hms⟩
termination_by (2 ^ 31 - offset).toNat

theorem mdxDriverModuleHandler_offers (ha : Accepts env) (dri : MdxDriver)
    (h : Registered fdt r.devs) :
    ∃ r', (mdxDriverModuleHandler fdt env dri r).map Prod.snd = some r' ∧
      Registered fdt r'.devs ∧
      ∀ x, Has r' x ↔ Has r x ∨ ∃ s ∈ dri.compatData.getD [], 0 < x ∧ Offers fdt s x := by
  unfold mdxDriverModuleHandler
  split
  · rename_i hcd
    exact ⟨r, rfl, h, fun x => by simp [hcd]⟩
  · rename_i cd hcd
    have hall := foldlM_collects (S := Has)
      (fun r s hr => attachCompatible_offers ha dri s hr 0) cd h
    obtain ⟨r', hr', hreg, hhas⟩ := hall
    exact ⟨r', by rw [hr']; rfl, hreg, fun x => by rw [hcd]; exact hhas x⟩

/-- When all drivers have been set up, the nodes with a device are the enabled ones that one of the
drivers lists, but not the root; and each of them has one device. -/
theorem drivers_attach_all (fdt : Fdt) (env : Nat → Answers) (ha : Accepts env)
    (dris : List MdxDriver) :
    ∃ r, dris.foldlM (fun r dri => (mdxDriverModuleHandler fdt env dri r).map Prod.snd) ⟨[], 0⟩ =
        some r ∧
      (r.devs.map MdxDevice.nodeoffset).Nodup ∧
      ∀ x, x ∈ r.devs.map MdxDevice.nodeoffset ↔
        ∃ dri ∈ dris, ∃ s ∈ dri.compatData.getD [], 0 < x ∧ Offers fdt s x := by
  obtain ⟨r, hr, hreg, hhas⟩ := foldlM_collects (S := Has)
    (fun r dri hr => mdxDriverModuleHandler_offers ha dri hr) dris
    (s := ⟨[], 0⟩) (Registered.nil fdt)
  refine ⟨r, hr, hreg.offsets, ?_⟩
  intro x
  rw [← Has, hhas]
  exact or_iff_right not_mem_nil

theorem drivers_attach_all_twoUarts :
    ∃ r, [uartDriver].foldlM (fun r dri =>
        (mdxDriverModuleHandler twoUarts (fun _ => ⟨true, 0, 0⟩) dri r).map Prod.snd) ⟨[], 0⟩ =
        some r ∧
      8 ∈ r.devs.map MdxDevice.nodeoffset ∧ 0 ∉ r.devs.map MdxDevice.nodeoffset := by
  obtain ⟨r, hr, -, hall⟩ := drivers_attach_all twoUarts (fun _ => ⟨true, 0, 0⟩)
    (fun _ => ⟨rfl, rfl, rfl⟩) [uartDriver]
  refine ⟨r, hr, (hall 8).2 ?_, ?_⟩
  · exact ⟨uartDriver, mem_singleton_self _, "acme,uart", by decide, by decide, by decide +kernel,
      _, .tail _ (.tail _ (.head _)), rfl, by decide⟩
  · intro hmem
    obtain ⟨_, _, _, _, hpos, _⟩ := (hall 0).1 hmem
    omega

end Mdepx.Init
