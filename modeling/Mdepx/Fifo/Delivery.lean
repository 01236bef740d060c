import Mdepx.Fifo.Basic
import Mdepx.Lib.Listing

namespace Mdepx.Fifo
open Lib Function List Bool

def Stage.owes : Stage → Bool
  | .posting | .woken | .getting => true
  | .out | .waiting => false

structure Balanced [DecidableEq ε] (s : State ε τ) (done xs : List ε) (busy : List τ) : Prop where
  ring : Ring s.fifo.list none (xs.map some)
  removed : s.removed = done.map some
  appended : s.appended = done ++ xs
  nodup : s.appended.Nodup
  listed : Listing Stage.owes s.stage busy
  waiting : s.fifo.sem.tdList.Nodup ∧ ∀ t ∈ s.fifo.sem.tdList, s.stage t = .waiting
  low : -2 ^ 31 ≤ s.fifo.sem.count
  enough : busy.length + s.fifo.sem.count.toNat ≤ xs.length

section
variable [DecidableEq ε] [DecidableEq τ] {s s' : State ε τ} {done xs : List ε} {busy : List τ}

theorem Balanced.waiting_update (h : Balanced s done xs busy) (ht : s.stage td ≠ .waiting)
    (stage : Stage) :
    ∀ t ∈ s.fifo.sem.tdList, update s.stage td stage t = .waiting := by
  intro t hm
  have hw := h.waiting.2 t hm
  have hne : t ≠ td := by
    rintro rfl
    exact ht hw
  rw [update_of_ne hne]
  exact hw

theorem Balanced.put (h : Balanced s done xs busy) (ht : s.stage td = .out) (he : e ∉ s.appended) :
    ∃ busy', Balanced ({ s with
      fifo := putEntry s.fifo e
      appended := s.appended ++ [e] }.setStage td .posting) done (xs ++ [e]) busy' := by
  obtain ⟨busy', hbusy, hlen⟩ := h.listed.update td .posting
  have hxs : e ∉ xs := by
    intro hm
    rw [h.appended] at he
    exact he (mem_append_right _ hm)
  have hring : Ring (listAppend s.fifo.list none (some e)) none ((xs ++ [e]).map some) := by
    have hr : Ring s.fifo.list none (xs.map some ++ []) := by
      rw [append_nil]
      exact h.ring
    rw [map_append]
    apply ring_listInsert hr
    simpa using hxs
  refine ⟨busy', hring, h.removed, ?_, ?_, hbusy, ⟨h.waiting.1, ?_⟩, h.low, ?_⟩
  · show s.appended ++ [e] = done ++ (xs ++ [e])
    rw [h.appended, append_assoc]
  · exact nodup_append_comm.1 (nodup_cons.2 ⟨he, h.nodup⟩)
  · apply h.waiting_update
    rw [ht]
    decide
  · have henough := h.enough
    rw [ht] at hlen
    simp only [Stage.owes, toNat_true, toNat_false] at hlen
    show busy'.length + s.fifo.sem.count.toNat ≤ (xs ++ [e]).length
    rw [length_append, length_singleton]
    omega

theorem count_succ {n : Int} (h : -2 ^ 31 ≤ n) :
    -2 ^ 31 ≤ (n + 1).bmod (2 ^ 32) ∧ ((n + 1).bmod (2 ^ 32)).toNat ≤ n.toNat + 1 := by
  rw [Int.bmod_def]
  omega

section
variable (h : Balanced s done xs busy)
include h

theorem Balanced.post (ht : s.stage td = .posting) :
    ∃ busy', Balanced (s.post td) done xs busy' := by
  obtain ⟨busy', hbusy, hlen⟩ := h.listed.update td .out
  have henough := h.enough
  have hout := h.waiting_update (ne_of_eq_of_ne ht (by decide)) .out
  rw [ht] at hlen
  simp only [Stage.owes, toNat_true, toNat_false] at hlen
  cases hq : s.fifo.sem.tdList with
  | nil =>
    obtain ⟨hlow, hle⟩ := count_succ h.low
    simp only [State.post, mdxSemPost, hq]
    refine ⟨busy', h.ring, h.removed, h.appended, h.nodup, hbusy, ⟨nodup_nil, nofun⟩, hlow, ?_⟩
    show busy'.length + ((s.fifo.sem.count + 1).bmod (2 ^ 32)).toNat ≤ xs.length
    omega
  | cons u =>
    obtain ⟨busy'', hbusy', hlen'⟩ := hbusy.update u .woken
    have hu := hout u (by rw [hq]; exact mem_cons_self)
    have hnodup := h.waiting.1
    rw [hq] at hnodup
    rw [hu] at hlen'
    simp only [Stage.owes, toNat_true, toNat_false] at hlen'
    simp only [State.post, mdxSemPost, hq]
    refine ⟨busy'', h.ring, h.removed, h.appended, h.nodup, hbusy',
      ⟨(nodup_cons.1 hnodup).2, ?_⟩, h.low, ?_⟩
    · intro t hm
      have hne : t ≠ u := by
        rintro rfl
        exact (nodup_cons.1 hnodup).1 hm
      show update (update s.stage td .out) u .woken t = .waiting
      rw [update_of_ne hne]
      exact hout t (by rw [hq]; exact mem_cons_of_mem _ hm)
    · show busy''.length + s.fifo.sem.count.toNat ≤ xs.length
      omega

theorem Balanced.take (ht : s.stage td = .out) (hn : 0 < s.fifo.sem.count) :
    ∃ busy', Balanced ({ s with
      fifo := { s.fifo with sem := { s.fifo.sem with count := s.fifo.sem.count - 1 } }
      }.setStage td .getting) done xs busy' := by
  obtain ⟨busy', hbusy, hlen⟩ := h.listed.update td .getting
  have henough := h.enough
  have hout := h.waiting_update (ne_of_eq_of_ne ht (by decide)) .getting
  have hlow : -2 ^ 31 ≤ s.fifo.sem.count - 1 := by omega
  rw [ht] at hlen
  simp only [Stage.owes, toNat_true, toNat_false] at hlen
  refine ⟨busy', h.ring, h.removed, h.appended, h.nodup, hbusy, ⟨h.waiting.1, hout⟩, hlow, ?_⟩
  show busy'.length + (s.fifo.sem.count - 1).toNat ≤ xs.length
  omega

theorem Balanced.move (ht : s.stage td ≠ .waiting) (hs : stage.owes = (s.stage td).owes) :
    ∃ busy', Balanced (s.setStage td stage) done xs busy' := by
  obtain ⟨busy', hbusy, hlen⟩ := h.listed.update td stage
  have henough := h.enough
  rw [hs] at hlen
  refine ⟨busy', h.ring, h.removed, h.appended, h.nodup, hbusy,
    ⟨h.waiting.1, h.waiting_update ht stage⟩, h.low, ?_⟩
  show busy'.length + s.fifo.sem.count.toNat ≤ xs.length
  omega

theorem Balanced.block (ht : s.stage td = .out) :
    ∃ busy', Balanced ({ s with
      fifo := { s.fifo with sem := { s.fifo.sem with tdList := s.fifo.sem.tdList ++ [td] } }
      }.setStage td .waiting) done xs busy' := by
  obtain ⟨busy', hbusy, hlen⟩ := h.listed.update td .waiting
  have henough := h.enough
  have hout := h.waiting_update (ne_of_eq_of_ne ht (by decide)) .waiting
  have hnot : td ∉ s.fifo.sem.tdList := by
    intro hm
    have hw := h.waiting.2 td hm
    rw [ht] at hw
    cases hw
  rw [ht] at hlen
  simp only [Stage.owes] at hlen
  refine ⟨busy', h.ring, h.removed, h.appended, h.nodup, hbusy, ⟨?_, ?_⟩, h.low, ?_⟩
  · exact nodup_append_comm.1 (nodup_cons.2 ⟨hnot, h.waiting.1⟩)
  · intro t hm
    rcases mem_append.1 hm with hm | hm
    · exact hout t hm
    · rw [mem_singleton.1 hm]
      exact update_self ..
  · show busy'.length + s.fifo.sem.count.toNat ≤ xs.length
    omega

end

omit [DecidableEq τ] in
theorem Balanced.nonempty (h : Balanced s done xs busy) (ht : s.stage td = .getting) :
    ∃ e ys, xs = e :: ys := by
  have hpos : 0 < busy.length := h.listed.length_pos (t := td) (by rw [ht]; rfl)
  have henough := h.enough
  cases xs with
  | nil =>
    rw [length_nil] at henough
    omega
  | cons e ys => exact ⟨e, ys, rfl⟩

theorem Balanced.get (h : Balanced s done xs busy) (ht : s.stage td = .getting) :
    ∃ done' xs' busy', Balanced ({ s with
      fifo := (getEntry s.fifo).1
      removed := s.removed ++ [(getEntry s.fifo).2] }.setStage td .out) done' xs' busy' := by
  obtain ⟨e, ys, rfl⟩ := h.nonempty ht
  obtain ⟨busy', hbusy, hlen⟩ := h.listed.update td .out
  have henough := h.enough
  have hring : Ring s.fifo.list none ([] ++ some e :: ys.map some) := h.ring
  have hnext : s.fifo.list.next none = some e := h.ring.next_head
  rw [ht] at hlen
  simp only [Stage.owes, toNat_true, toNat_false] at hlen
  simp only [getEntry, hnext]
  refine ⟨done ++ [e], ys, busy', ring_listRemove hring, ?_, ?_, h.nodup, hbusy, ⟨h.waiting.1, ?_⟩,
    h.low, ?_⟩
  · show s.removed ++ [some e] = (done ++ [e]).map some
    rw [h.removed, map_append]
    rfl
  · show s.appended = done ++ [e] ++ ys
    rw [h.appended, append_assoc]
    rfl
  · apply h.waiting_update
    rw [ht]
    decide
  · show busy'.length + s.fifo.sem.count.toNat ≤ ys.length
    rw [length_cons] at henough
    omega

theorem Balanced.step (h : Balanced s done xs busy) (hx : exec s op = some s') :
    ∃ done' xs' busy', Balanced s' done' xs' busy' := by
  cases op with
  | put td e =>
    simp only [exec] at hx
    split at hx
    · rename_i hc
      cases hx
      obtain ⟨busy', hb⟩ := h.put hc.1 hc.2
      exact ⟨done, _, busy', hb⟩
    · cases hx
  | post td =>
    simp only [exec] at hx
    split at hx
    · rename_i ht
      cases hx
      obtain ⟨busy', hb⟩ := h.post ht
      exact ⟨done, xs, busy', hb⟩
    · cases hx
  | wait td =>
    simp only [exec] at hx
    split at hx
    · rename_i ht
      cases hx
      by_cases hn : 0 < s.fifo.sem.count
      · simp only [mdxSemWait, if_pos hn]
        obtain ⟨busy', hb⟩ := h.take ht hn
        exact ⟨done, xs, busy', hb⟩
      · simp only [mdxSemWait, if_neg hn]
        obtain ⟨busy', hb⟩ := h.block ht
        exact ⟨done, xs, busy', hb⟩
    · cases hx
  | resume td =>
    simp only [exec] at hx
    split at hx
    · rename_i ht
      cases hx
      obtain ⟨busy', hb⟩ := h.move (ne_of_eq_of_ne ht (by decide))
        (show Stage.getting.owes = _ by rw [ht]; rfl)
      exact ⟨done, xs, busy', hb⟩
    · cases hx
  | trywait td =>
    simp only [exec] at hx
    split at hx
    · rename_i ht
      cases hx
      by_cases hn : 0 < s.fifo.sem.count
      · simp only [mdxSemTrywait, if_pos hn]
        obtain ⟨busy', hb⟩ := h.take ht hn
        exact ⟨done, xs, busy', hb⟩
      · simp only [mdxSemTrywait, if_neg hn]
        obtain ⟨busy', hb⟩ := h.move (ne_of_eq_of_ne ht (by decide))
          (show Stage.out.owes = _ by rw [ht])
        exact ⟨done, xs, busy', hb⟩
    · cases hx
  | get td =>
    simp only [exec] at hx
    split at hx
    · rename_i ht
      cases hx
      exact h.get ht
    · cases hx

omit [DecidableEq τ] in
theorem start_balanced (list : Links (Option ε)) :
    Balanced (start list : State ε τ) [] [] [] where
  ring := ring_listInit list none
  removed := rfl
  appended := rfl
  nodup := nodup_nil
  listed := listing_nil fun _ => rfl
  waiting := ⟨nodup_nil, nofun⟩
  low := show (-2 ^ 31 : Int) ≤ 0 by decide
  enough := Nat.le_refl 0

/-- The nodes removed from the list are entries, those put first and in their order, each once;
and a thread that is about to remove one finds the list not empty. -/
theorem fifo_delivers_in_order (h : Run Next (fun _ _ => True) (start list : State ε τ) s) :
    (∃ done, s.removed = done.map some ∧ done <+: s.appended ∧ done.Nodup) ∧
      ∀ td, s.stage td = .getting → listEmpty s.fifo.list none = false := by
  obtain ⟨done, xs, busy, hb⟩ := h.invariant
    (fun s => ∃ done xs busy, Balanced s done xs busy) ⟨_, _, _, start_balanced list⟩
    fun ⟨_, _, _, hb⟩ _ hx => hb.step hx
  refine ⟨⟨done, hb.removed, ⟨xs, hb.appended.symm⟩, ?_⟩, ?_⟩
  · have hnodup := hb.nodup
    rw [hb.appended] at hnodup
    exact hnodup.of_append_left
  · intro td ht
    obtain ⟨e, ys, rfl⟩ := hb.nonempty ht
    rw [eq_false_iff, Ne, listEmpty_iff hb.ring]
    exact nofun

end

theorem fifo_delivers_in_order_woken :
    ∃ s : State Nat Nat, Run Next (fun _ _ => True) (start ⟨id, id⟩) s ∧
      s.appended = [7, 8] ∧ s.removed = [some 7] ∧
      ∃ done, s.removed = done.map some ∧ done <+: s.appended := by
  have hx : ([.wait 0, .trywait 1, .put 2 7, .put 3 8, .post 3, .resume 0, .get 0].foldlM exec
      (start ⟨id, id⟩ : State Nat Nat)).map (fun s => (s.appended, s.removed)) =
      some ([7, 8], [some 7]) := by decide +kernel
  obtain ⟨s, hs, hr⟩ := Option.map_eq_some_iff.1 hx
  have hrun : Run Next (fun _ _ => True) (start ⟨id, id⟩) s :=
    Run.of_foldlM (fun _ _ _ _ hn => ⟨trivial, hn⟩) hs
  obtain ⟨⟨done, hd, hpre, -⟩, -⟩ := fifo_delivers_in_order hrun
  exact ⟨s, hrun, congrArg Prod.fst hr, congrArg Prod.snd hr, done, hd, hpre⟩

end Mdepx.Fifo
