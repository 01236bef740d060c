import Mdepx.Callout.Basic
import Mdepx.Lib.Delta

namespace Mdepx.Callout
open Lib Function List

def ids (ds : List (Nat × Nat)) : List Nat := ds.map Prod.fst

def nodes (ds : List (Nat × Nat)) : List Entry := ds.map fun p => .node p.1

@[simp] theorem ids_nil : ids [] = [] := rfl

@[simp] theorem ids_cons (p : Nat × Nat) (ds : List (Nat × Nat)) :
    ids (p :: ds) = p.1 :: ids ds := rfl

@[simp] theorem ids_append (xs ys : List (Nat × Nat)) : ids (xs ++ ys) = ids xs ++ ids ys :=
  map_append

@[simp] theorem nodes_cons (p : Nat × Nat) (ds : List (Nat × Nat)) :
    nodes (p :: ds) = .node p.1 :: nodes ds := rfl

@[simp] theorem nodes_append (xs ys : List (Nat × Nat)) :
    nodes (xs ++ ys) = nodes xs ++ nodes ys := map_append

theorem nodes_eq (ds : List (Nat × Nat)) : nodes ds = (ids ds).map .node := by
  simp only [nodes, ids, map_map]
  rfl

@[simp] theorem node_mem_nodes : Entry.node c ∈ nodes ds ↔ c ∈ ids ds := by
  rw [nodes_eq, mem_map]
  constructor
  · rintro ⟨x, hx, he⟩
    cases he
    exact hx
  · intro h
    exact ⟨c, h, rfl⟩

theorem nodup_ids_of_nodes (h : (nodes ds).Nodup) : (ids ds).Nodup := by
  rw [nodes_eq] at h
  exact h.of_map

theorem mem_ids_of_mem (h : p ∈ ds) : p.1 ∈ ids ds := mem_map_of_mem h

theorem mem_ids_of_deadline (h : p ∈ Delta.deadlines t ds) : p.1 ∈ ids ds := by
  have hm := mem_map_of_mem (f := Prod.fst) h
  rwa [Delta.deadlines_fst] at hm

theorem setCallout_field (g : MdxCallout → β) (s : St) (hy : g y = g (s.callout c)) (x : Nat) :
    g ((s.setCallout c y).callout x) = g (s.callout x) := by
  by_cases hx : x = c
  · rw [hx, ← hy]
    simp only [St.setCallout, update_self]
  · simp only [St.setCallout, update_of_ne hx]

/-- The current CPU's list of callouts is well linked, holds exactly the active callouts, and
its entries have the given ticks fields. -/
structure Queue (s : St) (ds : List (Nat × Nat)) : Prop where
  ring : Ring s.links (.head s.cpuid) (nodes ds)
  ticks : ∀ p ∈ ds, (s.callout p.1).ticks = p.2
  active : ∀ c, (s.callout c).active = true ↔ c ∈ ids ds
  cpu : ∀ p ∈ ds, (s.callout p.1).cpuid = s.cpuid

theorem Queue.nodup (h : Queue s ds) : (ids ds).Nodup := nodup_ids_of_nodes h.ring.nodup_nodes

theorem Queue.observe (hq : Queue s ds) (e : Event) : Queue (s.observe e) ds :=
  ⟨hq.ring, hq.ticks, hq.active, hq.cpu⟩

theorem Queue.deactivate (hq : Queue s ds) (hr : Ring L (.head s.cpuid) (nodes ds'))
    (hsub : ∀ p ∈ ds', p ∈ ds) (hids : ∀ y, y ≠ c → (y ∈ ids ds' ↔ y ∈ ids ds)) (hc : c ∉ ids ds')
    (hx : x.active = false) : Queue (St.setCallout { s with links := L } c x) ds' := by
  have hother {y : Nat} (hy : y ≠ c) :
      (St.setCallout { s with links := L } c x).callout y = s.callout y := update_of_ne hy _ _
  have hself : (St.setCallout { s with links := L } c x).callout c = x := update_self _ _ _
  have hne {p : Nat × Nat} (hp : p ∈ ds') : p.1 ≠ c := fun he => hc (he ▸ mem_ids_of_mem hp)
  constructor
  · exact hr
  · intro p hp
    rw [hother (hne hp)]
    exact hq.ticks p (hsub p hp)
  · intro y
    by_cases hy : y = c
    · rw [hy, hself, hx]
      simp only [Bool.false_eq_true, false_iff]
      exact hc
    · rw [hother hy, hids y hy]
      exact hq.active y
  · intro p hp
    rw [hother (hne hp)]
    exact hq.cpu p (hsub p hp)

theorem Queue.setIdle (hq : Queue s ds) (hc : c ∉ ids ds) (hx : x.active = false) :
    Queue (s.setCallout c x) ds :=
  hq.deactivate hq.ring (fun _ hp => hp) (fun _ _ => Iff.rfl) hc hx

theorem Queue.inactive (hq : Queue s ds) (hc : c ∉ ids ds) : (s.callout c).active = false := by
  rw [← Bool.not_eq_true, hq.active]
  exact hc

theorem first_of_ring {s : St} (hr : Ring s.links (.head s.cpuid) (nodes ds)) :
    first s s.cpuid = (ids ds).head? := by
  cases ds with
  | nil =>
    rw [first, if_pos ((listEmpty_iff hr).2 rfl)]
    rfl
  | cons =>
    have hne : ¬listEmpty s.links (.head s.cpuid) = true := by
      rw [listEmpty_iff hr]
      simp
    rw [first, if_neg hne, hr.next_head]
    rfl

theorem next_of_ring {s : St} (hr : Ring s.links (.head s.cpuid) (nodes (xs ++ p :: ys))) :
    next s s.cpuid p.1 = (ids ys).head? := by
  have hn : s.links.next (.node p.1) = (nodes ys).headD (.head s.cpuid) := by
    rw [nodes_append, nodes_cons] at hr
    exact hr.next_node
  rw [next, hn]
  cases ys with
  | nil => exact if_pos rfl
  | cons => exact if_neg Entry.noConfusion

@[simp] theorem setTicks_links (s : St) (c n : Nat) : (s.setTicks c n).links = s.links := rfl

@[simp] theorem setTicks_cpuid (s : St) (c n : Nat) : (s.setTicks c n).cpuid = s.cpuid := rfl

theorem setTicks_self (s : St) (c n : Nat) :
    (s.setTicks c n).callout c = { s.callout c with ticks := n } := by
  simp only [St.setTicks, St.setCallout, update_self]

theorem setTicks_other (s : St) (n : Nat) (h : x ≠ c) :
    (s.setTicks c n).callout x = s.callout x := by
  simp only [St.setTicks, St.setCallout, update_of_ne h]

theorem ring_insert_node (hr : Ring m h (nodes (pre ++ ds))) (hc : c ∉ ids (pre ++ ds))
    (hh : ∀ c, h ≠ .node c) :
    Ring (listInsert m ((nodes ds).headD h) (.node c)) h
      (nodes pre ++ .node c :: nodes ds) := by
  rw [nodes_append] at hr
  apply ring_listInsert hr
  rw [← nodes_append, mem_cons, not_or, node_mem_nodes]
  exact ⟨fun he => hh c he.symm, hc⟩

theorem setOneLoop_spec (hr : Ring s.links (.head s.cpuid) (nodes (pre ++ ds)))
    (hc : c0 ∉ ids (pre ++ ds)) (ht : ∀ p ∈ ds, (s.callout p.1).ticks = p.2)
    (hn : (s.callout c0).ticks = n) (hf : ds.length < fuel) :
    ∃ L C r, setOneLoop fuel s c0 (ids ds).head? =
        some ({ s with links := L, callout := C }, r) ∧
      Ring (if r = none then listAppend L (.head s.cpuid) (.node c0) else L)
        (.head s.cpuid) (nodes (pre ++ Delta.insert c0 n ds)) ∧
      (∀ p ∈ Delta.insert c0 n ds, (C p.1).ticks = p.2) ∧
      (∀ c, C c = { s.callout c with ticks := (C c).ticks }) ∧
      (∀ c, c ∉ c0 :: ids ds → C c = s.callout c) ∧
      ∃ y ∈ .head s.cpuid :: nodes ds,
        (if r = none then listAppend L (.head s.cpuid) (.node c0) else L) =
          listInsert s.links y (.node c0) := by
  induction ds generalizing s pre n fuel with
  | nil =>
    obtain ⟨fuel, rfl⟩ : ∃ k, fuel = k + 1 := ⟨fuel - 1, by simp at hf; omega⟩
    refine ⟨s.links, s.callout, none, rfl, ?_, ?_, fun _ => rfl, fun _ _ => rfl, .head s.cpuid,
      mem_cons_self, rfl⟩
    · simp only [if_true, Delta.insert, nodes_append, listAppend]
      exact ring_insert_node hr hc (by simp)
    · simp only [Delta.insert, mem_singleton, forall_eq, hn]
  | cons p ds ih =>
    obtain ⟨c, d⟩ := p
    obtain ⟨fuel, rfl⟩ : ∃ k, fuel = k + 1 := ⟨fuel - 1, by simp at hf; omega⟩
    have hd : (s.callout c).ticks = d := ht (c, d) (by simp)
    have hnd := nodup_ids_of_nodes hr.nodup_nodes
    have hcc : c0 ≠ c := by
      rintro rfl
      exact hc (by simp)
    have hcds : c ∉ ids ds := by
      simp only [ids_append, ids_cons, nodup_append, nodup_cons] at hnd
      exact hnd.2.1.1
    simp only [ids_cons, List.head?_cons, setOneLoop, hd, hn, Delta.insert]
    split
    · -- The walk stops here: `c0` goes in front of `c`.
      refine ⟨_, _, some c, rfl, ?_, ?_, ?_, ?_, .node c, by simp, rfl⟩
      · simp only [reduceCtorEq, if_false, nodes_append, nodes_cons, setTicks_links]
        have := ring_insert_node hr hc (by simp)
        simpa only [nodes_cons, headD_cons] using this
      · intro q hq
        simp only [mem_cons] at hq
        rcases hq with rfl | rfl | hq
        · rw [setTicks_other _ _ hcc, hn]
        · rw [setTicks_self]
        · have hqc : q.1 ≠ c := by
            rintro rfl
            exact hcds (mem_ids_of_mem hq)
          rw [setTicks_other _ _ hqc]
          exact ht q (mem_cons_of_mem _ hq)
      · intro x
        by_cases hx : x = c
        · rw [hx, setTicks_self]
        · rw [setTicks_other _ _ hx]
      · intro x hx
        simp only [mem_cons, not_or] at hx
        exact setTicks_other _ _ hx.2.1
    · have hnext := next_of_ring hr
      have hr' : Ring (s.setTicks c0 (n - d)).links (.head (s.setTicks c0 (n - d)).cpuid)
          (nodes ((pre ++ [(c, d)]) ++ ds)) := by
        simpa only [append_assoc, singleton_append, setTicks_links,
          setTicks_cpuid] using hr
      have ht' : ∀ p ∈ ds, ((s.setTicks c0 (n - d)).callout p.1).ticks = p.2 := by
        intro q hq
        have hqc : q.1 ≠ c0 := by
          rintro rfl
          exact hc (by simp [mem_ids_of_mem hq])
        rw [setTicks_other _ _ hqc]
        exact ht q (mem_cons_of_mem _ hq)
      obtain ⟨L, C, r, he, hring, hticks, honly, hother, y, hy, hL⟩ := ih hr'
        (by simpa only [append_assoc, singleton_append] using hc) ht'
        (by rw [setTicks_self]) (Nat.lt_of_succ_lt_succ hf)
      have hy' : y ∈ .head s.cpuid :: nodes ((c, d) :: ds) := by
        rw [nodes_cons]
        exact (mem_cons.1 hy).elim (fun h => h ▸ mem_cons_self)
          fun h => mem_cons_of_mem _ (mem_cons_of_mem _ h)
      refine ⟨L, C, r, ?_, ?_, ?_, ?_, ?_, y, hy', hL⟩
      · have : next (s.setTicks c0 (n - d)) (s.setTicks c0 (n - d)).cpuid c =
            (ids ds).head? := hnext
        rw [this, he]
        rfl
      · simpa only [append_assoc, singleton_append, setTicks_cpuid] using hring
      · intro q hq
        rcases mem_cons.1 hq with rfl | hq
        · rw [hother c (by simp [Ne.symm hcc, hcds]), setTicks_other _ _ (Ne.symm hcc), hd]
        · exact hticks q hq
      · intro x
        by_cases hx : x = c0
        · have h1 := honly x
          rw [hx, setTicks_self] at h1
          rw [hx]
          exact h1
        · have h1 := honly x
          rw [setTicks_other _ _ hx] at h1
          exact h1
      · intro x hx
        simp only [mem_cons, not_or] at hx
        rw [hother x (by simp [hx.1, hx.2.2]), setTicks_other _ _ hx.1]

end Mdepx.Callout
