import Mdepx.Callout.Run

namespace Mdepx.Callout
open Lib List

/-! A pass whose funcs set and cancel what they like. -/

structure SameTimer (s s' : St) : Prop where
  cpuid : s'.cpuid = s.cpuid
  miTmr : s'.miTmr = s.miTmr
  now : s'.now = s.now
  expiry : s'.expiry = s.expiry
  savedAt : s'.savedAt = s.savedAt

theorem SameTimer.refl (s : St) : SameTimer s s := ⟨rfl, rfl, rfl, rfl, rfl⟩

theorem SameTimer.trans (h : SameTimer s t) (h' : SameTimer t u) : SameTimer s u :=
  ⟨h'.cpuid.trans h.cpuid, h'.miTmr.trans h.miTmr, h'.now.trans h.now,
    h'.expiry.trans h.expiry, h'.savedAt.trans h.savedAt⟩

theorem SameTimer.timerState (h : SameTimer s s') : s'.timerState = s.timerState := by
  rw [St.timerState, St.timerState, h.miTmr, h.cpuid]

theorem Armed.sameTimer (h : Armed s s' ds c n f a) (he : s.timerState = .exception) :
    SameTimer s s' := by
  obtain ⟨hmi, hsa, hx⟩ := h.exception he
  exact ⟨h.cpuid, hmi, h.now, hx, hsa⟩

theorem Cancelled.sameTimer (h : Cancelled s s' c) : SameTimer s s' :=
  ⟨h.cpuid, h.miTmr, h.now, h.expiry, h.savedAt⟩

theorem Armed.isolated (h : Armed s s' ds c n f a) (hq : Queue s ds) (hc : c ∉ ids ds)
    (hr : Ring s.links (.node x) []) (hx : x ∉ ids ds) (hxc : x ≠ c) :
    Ring s'.links (.node x) [] := by
  obtain ⟨y, hy, hl⟩ := h.links
  have hring := hq.ring
  rw [hl]
  apply ring_listInsert_other hring hr hy
  · intro z hz
    rw [mem_singleton.1 hz]
    simp [hx, hxc]
  · simp [hc]

theorem Cancelled.isolated (h : Cancelled s s' c) (hq : Queue s ds) (hc : c ∈ ids ds)
    (hr : Ring s.links (.node x) []) (hx : x ∉ ids ds) : Ring s'.links (.node x) [] := by
  rw [h.links]
  apply ring_listRemove_other hq.ring hr
  · simp [hc]
  · intro z hz
    rw [mem_singleton.1 hz]
    simp [hx]

theorem Cancelled.isolated_self (h : Cancelled s s' c) : Ring s'.links (.node c) [] := by
  rw [h.links]
  exact ring_listRemove_self _ _

theorem next_isolated (hr : Ring s.links (.node x) []) : next s s.cpuid x = some x := by
  have hn : s.links.next (.node x) = .node x := hr.next_head
  rw [next, hn, if_neg Entry.noConfusion]
  rfl

theorem expireOne_isolated (hr : Ring s.links (.node x) []) :
    (expireOne s x).links = s.links := listRemove_isolated hr

structure Walk (s : St) (c : Option Nat) (ds : List (Nat × Nat)) : Prop where
  queue : Queue s ds
  bounded : Bounded ds
  cursor : ∀ x, c = some x → x ∉ ids ds → Ring s.links (.node x) []
  maxcnt : s.miTmr.maxcnt < 2 ^ 32
  exception : s.timerState = .exception

def FuncOp.fits : FuncOp → Prop
  | .set _ n _ _ => n < 2 ^ 32
  | .cancel _ => True

theorem Walk.mark (h : Walk s c ds) (hx : x ∉ ids ds) : Walk (marked s x) c ds :=
  ⟨marked_queue h.queue hx, h.bounded, h.cursor, h.maxcnt, h.exception⟩

theorem Walk.arm (h : Walk s c ds) (hx : x ∉ ids ds) (ha : Armed s s' ds x n f a) :
    Walk s' c (Delta.insert x (u32 (n + elapsedNow s)) ds) := by
  have ht := ha.sameTimer h.exception
  refine ⟨ha.queue, h.bounded.insert (u32_lt _), ?_, ha.maxcnt ▸ h.maxcnt,
    ht.timerState.trans h.exception⟩
  intro y hy hmem
  obtain ⟨hyx, hyd⟩ := not_or.1 (mt mem_ids_insert.2 hmem)
  exact ha.isolated h.queue hx (h.cursor y hy hyd) hyd hyx

theorem mem_ids_remove (h : x ∈ ids (Delta.remove c ds)) : x ∈ ids ds := by
  unfold ids at h ⊢
  rw [Delta.remove_fst] at h
  exact mem_of_mem_erase h

theorem notMem_ids_remove (hnd : (ids ds).Nodup) : c ∉ ids (Delta.remove c ds) := by
  unfold ids at hnd ⊢
  rw [Delta.remove_fst]
  exact fun h => ((List.Nodup.mem_erase_iff hnd).1 h).1 rfl

theorem mem_ids_remove_of_ne (hx : x ≠ c) (h : x ∈ ids ds) : x ∈ ids (Delta.remove c ds) := by
  unfold ids at h ⊢
  rw [Delta.remove_fst]
  exact (mem_erase_of_ne hx).2 h

section
variable (h : Walk s c ds)
include h

theorem Walk.drop (hx : x ∈ ids ds) (hq : Queue s' (Delta.remove x ds)) (hs : Cancelled s s' x) :
    Walk s' c (Delta.remove x ds) := by
  have ht := hs.sameTimer
  refine ⟨hq, h.bounded.remove h.queue.nodup x, ?_, ht.miTmr ▸ h.maxcnt,
    ht.timerState.trans h.exception⟩
  intro y hy hyd
  by_cases hyx : y = x
  · rw [hyx]
    exact hs.isolated_self
  · have hyd' := mt (mem_ids_remove_of_ne hyx) hyd
    exact hs.isolated h.queue hx (h.cursor y hy hyd') hyd'

theorem Walk.set (hn : n < 2 ^ 32) (hs : mdxCalloutSetTicksLocked fuel s x n f a = some (s', r)) :
    ∃ ds', Walk s' c ds' ∧ SameTimer s s' := by
  rcases setTicksLocked_cases h.queue hn h.maxcnt hs with
    ⟨-, he, -⟩ | ⟨hx, -, he, -⟩ | ⟨hx, -, ha, -⟩
  · subst he
    exact ⟨ds, h, .refl _⟩
  · subst he
    exact ⟨ds, h.mark hx, rfl, rfl, rfl, rfl, rfl⟩
  · exact ⟨_, h.arm hx ha, ha.sameTimer h.exception⟩

theorem Walk.cancel (x : Nat) :
    ∃ ds', Walk (mdxCalloutCancel s x).1 c ds' ∧ SameTimer s (mdxCalloutCancel s x).1 := by
  by_cases hx : x ∈ ids ds
  · obtain ⟨s', he, hq, hs⟩ := cancel_remove h.queue h.bounded hx
    rw [he]
    exact ⟨_, h.drop hx hq hs, hs.sameTimer⟩
  · rw [cancel_inactive (h.queue.inactive hx)]
    exact ⟨ds, h, .refl _⟩

theorem Walk.funcOps (hfit : ∀ op ∈ ops, op.fits) (hf : funcOps fuel s ops = some s') :
    ∃ ds', Walk s' c ds' ∧ SameTimer s s' := by
  refine (funcOps_invariant (fun t ops => (∃ ds', Walk t c ds' ∧ SameTimer s t) ∧
    ∀ op ∈ ops, op.fits) ?_ ?_ ⟨⟨ds, h, .refl _⟩, hfit⟩ hf).1
  · intro t x n f a ops u r ⟨⟨ds₁, hw, ht⟩, hfit⟩ hx
    obtain ⟨hop, hops⟩ := forall_mem_cons.1 hfit
    obtain ⟨ds₂, hw', ht'⟩ := hw.set hop hx
    exact ⟨⟨ds₂, hw', ht.trans ht'⟩, hops⟩
  · intro t x ops ⟨⟨ds₁, hw, ht⟩, hfit⟩
    obtain ⟨ds₂, hw', ht'⟩ := hw.cancel x
    exact ⟨⟨ds₂, hw', ht.trans ht'⟩, (forall_mem_cons.1 hfit).2⟩

end

theorem Walk.expire (h : Walk s (some x) ds) :
    ∃ ds', Walk (expireOne s x) (next s s.cpuid x) ds' := by
  by_cases hx : x ∈ ids ds
  · obtain ⟨P, d, R, hd⟩ := exists_split hx
    subst hd
    refine ⟨P ++ R, expireOne_spec h.queue, h.bounded.drop, ?_, h.maxcnt, h.exception⟩
    intro y hy hmem
    rw [next_of_ring (p := (x, d)) h.queue.ring] at hy
    have hyR : y ∈ ids R := mem_of_head? hy
    rw [ids_append] at hmem
    exact absurd (mem_append_right _ hyR) hmem
  · have hr := h.cursor x rfl hx
    have hl := expireOne_isolated hr
    have hq : Queue (expireOne s x) ds := by
      rw [expireOne, listRemove_isolated hr]
      exact h.queue.setIdle hx rfl
    refine ⟨ds, hq, h.bounded, ?_, h.maxcnt, h.exception⟩
    intro y hy _
    rw [next_isolated hr] at hy
    cases hy
    rw [hl]
    exact hr

theorem Walk.stop (h : Walk s (some x) ds) (hd : e < (s.callout x).ticks) :
    ∃ ds', Walk (s.setTicks x ((s.callout x).ticks - e)) none ds' := by
  by_cases hx : x ∈ ids ds
  · obtain ⟨P, d, R, hds⟩ := exists_split hx
    subst hds
    have ht : (s.callout x).ticks = d := h.queue.ticks (x, d) (by simp)
    rw [ht] at hd ⊢
    refine ⟨_, h.queue.setTicks (d - e), h.bounded.nearer (le_of_lt hd), ?_, h.maxcnt,
      h.exception⟩
    intro y hy
    cases hy
  · refine ⟨ds, h.queue.setIdle hx (h.queue.inactive hx), h.bounded, ?_, h.maxcnt, h.exception⟩
    intro y hy
    cases hy

theorem Walk.round (h : Walk l.s l.c ds) (hfit : ∀ i, ∀ op ∈ script i, op.fits)
    (hb : loopBody fuel script l = some l') :
    ∃ ds', Walk l'.s l'.c ds' ∧ SameTimer l.s l'.s := by
  rcases loopBody_inv hb with ⟨-, he⟩ | ⟨x, hx, hcase⟩
  · subst he
    exact ⟨ds, h, .refl _⟩
  · rw [hx] at h
    rcases hcase with ⟨hd, he⟩ | ⟨-, -, he⟩ | ⟨-, f, s', -, hf, he⟩
    · subst he
      obtain ⟨ds', hw⟩ := h.stop hd
      exact ⟨ds', hw, rfl, rfl, rfl, rfl, rfl⟩
    · subst he
      obtain ⟨ds', hw⟩ := h.expire
      exact ⟨ds', hw, rfl, rfl, rfl, rfl, rfl⟩
    · subst he
      obtain ⟨ds', hw⟩ := h.expire
      have hw' : Walk (firing l.s x) (next l.s l.s.cpuid x) ds' :=
        ⟨hw.queue.observe _, hw.bounded, hw.cursor, hw.maxcnt, hw.exception⟩
      obtain ⟨ds'', hw'', ht⟩ := hw'.funcOps (hfit _) hf
      refine ⟨ds'', hw'', SameTimer.trans ?_ ht⟩
      exact ⟨rfl, rfl, rfl, rfl, rfl⟩

section
variable (hq : Queue s ds) (hb : Bounded ds)
include hq hb

theorem Walk.enter (hm : s.miTmr.maxcnt < 2 ^ 32) :
    Walk (callbackEnter s).s (callbackEnter s).c ds := by
  refine ⟨callbackEnter_queue hq, hb, ?_, hm, Function.update_self _ _ _⟩
  intro x hx hmem
  rw [callbackEnter_cursor hq] at hx
  exact absurd (mem_of_head? hx) hmem

theorem Walk.rounds (hm : s.miTmr.maxcnt < 2 ^ 32) (hfit : ∀ i, ∀ op ∈ script i, op.fits)
    (hl : loopRounds fuel script n (callbackEnter s) = some l) :
    ∃ ds', Walk l.s l.c ds' ∧ SameTimer (callbackEnter s).s l.s := by
  refine loopRounds_invariant
    (fun l => ∃ ds', Walk l.s l.c ds' ∧ SameTimer (callbackEnter s).s l.s) ?_
    ⟨ds, .enter hq hb hm, .refl _⟩ hl
  intro l₁ l₂ hl₁ hb
  obtain ⟨ds₁, hw, ht⟩ := hl₁
  obtain ⟨ds₂, hw', ht'⟩ := hw.round hfit hb
  exact ⟨ds₂, hw', ht.trans ht'⟩

theorem callback_walk (hd : ds ≠ []) (hm : s.miTmr.maxcnt < 2 ^ 32)
    (hfit : ∀ i, ∀ op ∈ script i, op.fits) (h : mdxCalloutCallback fuel n script s = some s') :
    ∃ t ds', Queue t ds' ∧ Bounded ds' ∧ t.timerState = .exception ∧
      SameTimer (callbackEnter s).s t ∧ s' = callbackExit t := by
  obtain ⟨l, hl, -, he⟩ := callback_inv hq hd h
  obtain ⟨ds', hw, ht⟩ := Walk.rounds hq hb hm hfit hl
  exact ⟨l.s, ds', hw.queue, hw.bounded, hw.exception, ht, he⟩

end

end Mdepx.Callout
