import Mdepx.Callout.Set

namespace Mdepx.Callout
open Lib Function List

def postpone32 (d : Nat) : List (Nat × Nat) → List (Nat × Nat)
  | [] => []
  | (x, e) :: ds => (x, u32 (e + d)) :: ds

def Bounded (ds : List (Nat × Nat)) : Prop := ∀ p ∈ Delta.deadlines 0 ds, p.2 < 2 ^ 32

theorem Bounded.postpone32_eq (h : Bounded (xs ++ (c, d) :: ys)) :
    postpone32 d ys = Delta.postpone d ys := by
  cases ys with
  | nil => rfl
  | cons p =>
    obtain ⟨y, e⟩ := p
    have hd : 0 + Delta.total xs + d + e < 2 ^ 32 := by
      apply h (y, 0 + Delta.total xs + d + e)
      rw [Delta.deadlines_append]
      simp [Delta.deadlines]
    rw [postpone32, Delta.postpone, u32_of_lt (by omega)]

theorem bounded_nil : Bounded [] := by
  intro p hp
  cases hp

theorem Bounded.insert (hb : Bounded ds) (hn : n < 2 ^ 32) : Bounded (Delta.insert c n ds) := by
  intro p hp
  rw [Delta.deadlines_insert_filter, zero_add, mem_append, mem_cons] at hp
  rcases hp with hp | hp | hp
  · exact hb p (mem_filter.1 hp).1
  · rw [hp]
    exact hn
  · exact hb p (mem_filter.1 hp).1

theorem Bounded.remove (hb : Bounded ds) (hnd : (ids ds).Nodup) (c : Nat) :
    Bounded (Delta.remove c ds) := by
  intro p hp
  rw [Delta.deadlines_remove_filter c 0 ds hnd] at hp
  exact hb p (mem_filter.1 hp).1

theorem Bounded.rest (hb : Bounded ds) (e : Nat) : Bounded (Delta.rest e ds) := by
  intro p hp
  rw [Delta.deadlines_rest_filter] at hp
  obtain ⟨q, hq, he⟩ := mem_map.1 hp
  rw [← he]
  exact lt_of_le_of_lt (Nat.sub_le _ _) (hb q (mem_filter.1 hq).1)

theorem Bounded.nearer (h : Bounded (P ++ (c, d) :: R)) (hk : k ≤ d) :
    Bounded (P ++ (c, d - k) :: R) := by
  intro p hp
  rw [Delta.deadlines_append, mem_append] at hp
  rcases hp with hp | hp
  · apply h p
    rw [Delta.deadlines_append]
    exact mem_append_left _ hp
  · have hm : (p.1, p.2 + k) ∈ Delta.deadlines (0 + Delta.total P) ((c, d) :: R) :=
      Delta.mem_deadlines_nearer (by omega) hp
    have hlt := h (p.1, p.2 + k) (by
      rw [Delta.deadlines_append]
      exact mem_append_right _ hm)
    exact lt_of_le_of_lt (Nat.le_add_right _ _) hlt

theorem Bounded.drop (h : Bounded (P ++ (c, d) :: R)) : Bounded (P ++ R) := by
  have h0 := h.nearer (Nat.le_refl d)
  intro p hp
  apply h0 p
  rw [Delta.deadlines_append, mem_append] at hp ⊢
  rw [Nat.sub_self, Delta.deadlines, Nat.add_zero]
  exact hp.imp_right (mem_cons_of_mem _)

theorem remove_split (hc : c ∉ ids xs) :
    Delta.remove c (xs ++ (c, d) :: ys) = xs ++ Delta.postpone d ys := by
  induction xs with
  | nil => simp only [nil_append, Delta.remove, if_true]
  | cons p xs ih =>
    simp only [ids_cons, mem_cons, not_or] at hc
    simp only [cons_append, Delta.remove, if_neg (Ne.symm hc.1), ih hc.2]

theorem exists_split (h : c ∈ ids ds) : ∃ xs d ys, ds = xs ++ (c, d) :: ys := by
  obtain ⟨p, hp, he⟩ := mem_map.1 h
  obtain ⟨xs, ys, hd⟩ := append_of_mem hp
  exact ⟨xs, p.2, ys, by rw [hd, ← he]⟩

section
variable (hq : Queue s (xs ++ (c, d) :: ys))
include hq

theorem Queue.notMem_of_split : c ∉ ids (xs ++ ys) := by
  have hnd := hq.nodup
  rw [ids_append, ids_cons] at hnd
  rw [ids_append]
  exact (nodup_middle.1 hnd).notMem

theorem Queue.setTicks (n : Nat) : Queue (s.setTicks c n) (xs ++ (c, n) :: ys) := by
  have hc := hq.notMem_of_split
  constructor
  · simpa only [nodes_append, nodes_cons, setTicks_links, setTicks_cpuid] using hq.ring
  · intro p hp
    by_cases hpc : p = (c, n)
    · rw [hpc, setTicks_self]
    · have hm : p ∈ xs ++ ys := by
        simp only [mem_append, mem_cons, hpc, false_or] at hp ⊢
        exact hp
      have hne : p.1 ≠ c := fun he => hc (he ▸ mem_ids_of_mem hm)
      rw [setTicks_other _ _ hne]
      apply hq.ticks
      simp only [mem_append, mem_cons] at hm ⊢
      exact hm.imp_right .inr
  · intro x
    have hx := setCallout_field MdxCallout.active (y := { s.callout c with ticks := n }) s rfl x
    rw [St.setTicks, hx, hq.active]
    simp only [ids_append, ids_cons]
  · intro p hp
    have hx := setCallout_field MdxCallout.cpuid (y := { s.callout c with ticks := n }) s rfl p.1
    rw [St.setTicks, hx]
    show _ = s.cpuid
    have hm := mem_ids_of_mem hp
    obtain ⟨q, hqm, hqe⟩ := mem_map.1 (show p.1 ∈ ids (xs ++ (c, d) :: ys) by
      simpa only [ids_append, ids_cons] using hm)
    rw [← hqe]
    exact hq.cpu q hqm

theorem Queue.drop (hx : x.active = false) :
    Queue (St.setCallout { s with links := listRemove s.links (.node c) } c x) (xs ++ ys) := by
  apply hq.deactivate _ _ _ hq.notMem_of_split hx
  · have hr := hq.ring
    rw [nodes_append, nodes_cons] at hr
    rw [nodes_append]
    exact ring_listRemove hr
  · intro p hp
    simp only [mem_append, mem_cons] at hp ⊢
    exact hp.imp_right .inr
  · intro y hy
    simp [hy]

end

structure Cancelled (s s' : St) (c : Nat) : Prop where
  cpuid : s'.cpuid = s.cpuid
  miTmr : s'.miTmr = s.miTmr
  now : s'.now = s.now
  expiry : s'.expiry = s.expiry
  savedAt : s'.savedAt = s.savedAt
  log : s'.log = .cancelled c s.now :: s.log
  links : s'.links = listRemove s.links (.node c)
  func : ∀ x, (s'.callout x).func = (s.callout x).func
  self : s'.callout c = { s.callout c with active := false }
  idle : ∀ x, (s.callout x).active = false → s'.callout x = s.callout x

def cancelUnlink (s : St) (c : Nat) : St :=
  (St.setCallout { s with links := listRemove s.links (.node c) } c
    { s.callout c with active := false }).observe (.cancelled c s.now)

theorem cancelUnlink_self (s : St) (c : Nat) :
    (cancelUnlink s c).callout c = { s.callout c with active := false } :=
  update_self _ _ _

theorem cancelUnlink_other (s : St) (h : x ≠ c) :
    (cancelUnlink s c).callout x = s.callout x := update_of_ne h _ _

theorem cancelUnlink_func (s : St) (c x : Nat) :
    ((cancelUnlink s c).callout x).func = (s.callout x).func :=
  setCallout_field MdxCallout.func (y := { s.callout c with active := false })
    { s with links := listRemove s.links (.node c) } rfl x

theorem cancelUnlink_spec (hc : (s.callout c).active = true) :
    Cancelled s (cancelUnlink s c) c := by
  refine ⟨rfl, rfl, rfl, rfl, rfl, rfl, rfl, cancelUnlink_func s c, cancelUnlink_self s c, ?_⟩
  intro x hx
  apply cancelUnlink_other
  intro he
  rw [he, hc] at hx
  cases hx

theorem Cancelled.of_setTicks (h : Cancelled (s.setTicks y n) s' c) (hy : y ≠ c)
    (hact : (s.callout y).active = true) : Cancelled s s' c := by
  refine ⟨h.cpuid, h.miTmr, h.now, h.expiry, h.savedAt, h.log, h.links, ?_, ?_, ?_⟩
  · intro x
    rw [h.func]
    exact setCallout_field MdxCallout.func (y := { s.callout y with ticks := n }) s rfl x
  · rw [h.self, setTicks_other _ _ hy.symm]
  · intro x hx
    have hxy : x ≠ y := by
      intro he
      rw [he, hact] at hx
      cases hx
    rw [← setTicks_other s n hxy] at hx ⊢
    exact h.idle x hx

theorem cancel_spec (hq : Queue s (xs ++ (c, d) :: ys)) :
    ∃ s', mdxCalloutCancel s c = (s', MDX_OK) ∧ Queue s' (xs ++ postpone32 d ys) ∧
      Cancelled s s' c := by
  have hca : (s.callout c).active = true := (hq.active c).2 (by simp)
  have hact : ¬(!(s.callout c).active) = true := by simp [hca]
  have hcpu : (s.callout c).cpuid = s.cpuid := hq.cpu (c, d) (by simp)
  have hd : (s.callout c).ticks = d := hq.ticks (c, d) (by simp)
  have hnext : next s s.cpuid c = (ids ys).head? := next_of_ring hq.ring
  cases ys with
  | nil =>
    have he : mdxCalloutCancel s c = (cancelUnlink s c, MDX_OK) := by
      rw [mdxCalloutCancel, mdxCalloutCancelLocked, if_neg hact, hcpu, hnext]
      rfl
    exact ⟨_, he, (hq.drop rfl).observe _, cancelUnlink_spec hca⟩
  | cons q ys =>
    obtain ⟨y, e⟩ := q
    have hy : (s.callout y).ticks = e := hq.ticks (y, e) (by simp)
    have hyc : y ≠ c := by
      intro h
      apply hq.notMem_of_split
      simp [h]
    have he : mdxCalloutCancel s c =
        (cancelUnlink (s.setTicks y (u32 (e + d))) c, MDX_OK) := by
      rw [mdxCalloutCancel, mdxCalloutCancelLocked, if_neg hact, hcpu, hnext]
      simp only [ids_cons, List.head?_cons, hy, hd]
      rfl
    have hq' : Queue (s.setTicks y (u32 (e + d)))
        (xs ++ (c, d) :: (y, u32 (e + d)) :: ys) := by
      have hs : xs ++ (c, d) :: (y, e) :: ys = (xs ++ [(c, d)]) ++ (y, e) :: ys := by simp
      rw [hs] at hq
      simpa using hq.setTicks (u32 (e + d))
    have hca' : ((s.setTicks y (u32 (e + d))).callout c).active = true := by
      rw [setTicks_other _ _ hyc.symm]
      exact hca
    exact ⟨_, he, (hq'.drop rfl).observe _,
      (cancelUnlink_spec hca').of_setTicks hyc ((hq.active y).2 (by simp))⟩

theorem cancel_remove (hq : Queue s ds) (hb : Bounded ds) (hc : c ∈ ids ds) :
    ∃ s', mdxCalloutCancel s c = (s', MDX_OK) ∧ Queue s' (Delta.remove c ds) ∧
      Cancelled s s' c := by
  obtain ⟨xs, d, ys, hd⟩ := exists_split hc
  subst hd
  obtain ⟨s', he, hq', hs⟩ := cancel_spec hq
  refine ⟨s', he, ?_, hs⟩
  have hm := hq.notMem_of_split
  rw [ids_append, mem_append, not_or] at hm
  rw [remove_split hm.1, ← hb.postpone32_eq]
  exact hq'

theorem cancel_inactive (h : (s.callout c).active = false) : mdxCalloutCancel s c = (s, 1) := by
  rw [mdxCalloutCancel, mdxCalloutCancelLocked, if_pos (by simp [h])]

theorem cancel_cases (hq : Queue s ds) (c : Nat) :
    (c ∉ ids ds ∧ mdxCalloutCancel s c = (s, 1)) ∨
    ∃ s' xs d ys, ds = xs ++ (c, d) :: ys ∧ mdxCalloutCancel s c = (s', MDX_OK) ∧
      Queue s' (xs ++ postpone32 d ys) ∧ Cancelled s s' c := by
  by_cases hc : c ∈ ids ds
  · obtain ⟨xs, d, ys, hd⟩ := exists_split hc
    rw [hd] at hq
    obtain ⟨s', he, hq', hs⟩ := cancel_spec hq
    exact .inr ⟨s', xs, d, ys, hd, he, hq', hs⟩
  · exact .inl ⟨hc, cancel_inactive (hq.inactive hc)⟩

theorem expireOne_spec (hq : Queue s (xs ++ (c, d) :: ys)) : Queue (expireOne s c) (xs ++ ys) :=
  hq.drop rfl

end Mdepx.Callout
