import Mdepx.Callout.Queue
import Mathlib.Data.List.Induction

namespace Mdepx.Callout
open Lib Function List

def registerCpu (s : St) (i : Nat) : St :=
  { s with
    links := listInit s.links (.head i)
    miTmr := { s.miTmr with
      state := Function.update s.miTmr.state i .ready
      countSaved := Function.update s.miTmr.countSaved i 0 } }

def mdxCalloutRegister (m : Nat) (s : St) : St × Int :=
  if s.miTmr.maxcnt = 0 then (s, MDX_ERROR)
  else ((range m).foldl registerCpu s, MDX_OK)

structure Fresh (s : St) : Prop where
  queue : Queue s []
  ready : s.timerState = .ready
  saved : s.miTmr.countSaved s.cpuid = 0
  maxcnt : 1 ≤ s.miTmr.maxcnt ∧ s.miTmr.maxcnt < 2 ^ 32
  expiry : s.expiry = none
  log : s.log = []

theorem registerCpus_spec (is : List Nat) (s : St) :
    let s' := is.foldl registerCpu s
    s'.cpuid = s.cpuid ∧ s'.callout = s.callout ∧ s'.miTmr.maxcnt = s.miTmr.maxcnt ∧
      s'.expiry = s.expiry ∧ s'.log = s.log ∧
      (s.cpuid ∈ is → Ring s'.links (.head s.cpuid) [] ∧ s'.timerState = .ready ∧
        s'.miTmr.countSaved s.cpuid = 0) := by
  induction is using reverseRecOn with
  | nil => simp
  | append_singleton is i ih =>
    rw [foldl_append, foldl_cons, foldl_nil]
    obtain ⟨h1, h2, h3, h4, h5, h6⟩ := ih
    refine ⟨h1, h2, h3, h4, h5, ?_⟩
    intro hm
    by_cases hi : s.cpuid = i
    · subst hi
      refine ⟨ring_listInit _ _, ?_, update_self _ _ _⟩
      show update _ s.cpuid _ _ = _
      have h1' : (registerCpu (foldl registerCpu s is) s.cpuid).cpuid = s.cpuid := h1
      rw [h1', update_self]
    · have hmem : s.cpuid ∈ is := by simpa [hi] using hm
      obtain ⟨hr, ht, hc⟩ := h6 hmem
      refine ⟨hr.congr ?_ ?_, ?_, ?_⟩
      · intro y hy
        have hne : y ≠ .head i := by
          rw [mem_singleton.1 hy]
          simpa using hi
        show (listInit _ _).next y = _
        simp only [listInit, Links.setPrev_next, Links.setNext_next, if_neg hne]
      · intro y hy
        have hne : y ≠ .head i := by
          rw [mem_singleton.1 hy]
          simpa using hi
        show (listInit _ _).prev y = _
        simp only [listInit, Links.setPrev_prev, if_neg hne, Links.setNext_prev]
      · have h1' : (registerCpu (foldl registerCpu s is) i).cpuid = s.cpuid := h1
        rw [St.timerState, h1']
        rw [St.timerState, h1] at ht
        show update _ i _ _ = _
        rw [update_of_ne hi]
        exact ht
      · show update _ i _ _ = _
        rw [update_of_ne hi]
        exact hc

theorem mdxCalloutRegister_fresh (hcpu : s.cpuid < m)
    (hinit : ∀ c, (s.callout c).active = false) (hm : s.miTmr.maxcnt < 2 ^ 32)
    (hx : s.expiry = none) (hl : s.log = [])
    (h : mdxCalloutRegister m s = (s', MDX_OK)) : Fresh s' := by
  rw [mdxCalloutRegister] at h
  split at h
  · simp [MDX_OK, MDX_ERROR] at h
  · rename_i hm0
    cases h
    obtain ⟨h1, h2, h3, h4, h5, h6⟩ := registerCpus_spec (range m) s
    obtain ⟨hr, ht, hc⟩ := h6 (mem_range.2 hcpu)
    constructor
    · constructor
      · rw [h1]
        exact hr
      · intro p hp
        cases hp
      · intro c
        rw [h2, hinit]
        simp
      · intro p hp
        cases hp
    · exact ht
    · rw [h1]
      exact hc
    · rw [h3]
      omega
    · rw [h4]
      exact hx
    · rw [h5]
      exact hl

def unset : MdxCallout where
  state := .ready
  ticks := 0
  ticksOrig := 0
  func := none
  arg := 0
  active := false
  cpuid := 0

def reset (maxcnt : Nat) : St where
  cpuid := 0
  links := { next := id, prev := id }
  callout := fun _ => unset
  miTmr := { countSaved := fun _ => 0, maxcnt := maxcnt, state := fun _ => .ready }
  now := 0
  expiry := none
  savedAt := 0
  log := []

def boot (maxcnt : Nat) : St := (mdxCalloutRegister 1 (reset maxcnt)).1

theorem boot_fresh (h0 : 1 ≤ m) (h : m < 2 ^ 32) : Fresh (boot m) := by
  have hm : ¬(reset m).miTmr.maxcnt = 0 := ne_of_gt h0
  apply mdxCalloutRegister_fresh (s := reset m) (m := 1) Nat.zero_lt_one (fun _ => rfl) h rfl rfl
  rw [boot, mdxCalloutRegister, if_neg hm]

end Mdepx.Callout
