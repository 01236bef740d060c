import Mdepx.Callout.Walk

namespace Mdepx.Callout
open Lib List

/-! When a cancelled callout is not invoked. -/

def pendingIn (c : Nat) : List Event → Bool
  | [] => false
  | .armed x _ _ :: log => if x = c then true else pendingIn c log
  | .cancelled x _ :: log => if x = c then false else pendingIn c log
  | .invoked x _ :: log => if x = c then false else pendingIn c log

def clean : List Event → Bool
  | [] => true
  | .armed _ _ _ :: log => clean log
  | .cancelled _ _ :: log => clean log
  | .invoked c _ :: log => pendingIn c log && clean log

structure Alive (s : St) (c : Option Nat) (e : Nat) (ds : List (Nat × Nat)) : Prop where
  walk : Walk s c ds
  ahead : ∀ x, c = some x → x ∉ ids ds → e < (s.callout x).ticks
  pending : ∀ x ∈ ids ds, pendingIn x s.log = true
  clean : clean s.log = true

def CancelsSafe (fuel : Nat) (c : Option Nat) (e : Nat) : St → List FuncOp → Prop
  | _, [] => True
  | s, op :: ops =>
    (∀ x, op = .cancel x → c = some x → (s.callout x).active = true →
      e < (s.callout x).ticks) ∧
    ∀ s', funcOp fuel s op = some s' → CancelsSafe fuel c e s' ops

def RoundCancelSafe (fuel : Nat) (script : Nat → List FuncOp) (l : Loop) : Prop :=
  ∀ c, l.c = some c → (l.s.callout c).ticks ≤ l.ticksElapsed → (l.s.callout c).func ≠ none →
    CancelsSafe fuel (next l.s l.s.cpuid c) (l.ticksElapsed - (l.s.callout c).ticks)
      (firing l.s c) (script l.fired.length)

/-- No func of the pass cancels the due callout directly behind its own. -/
def PassCancelSafe (fuel : Nat) (script : Nat → List FuncOp) (s : St) : Prop :=
  ∀ n l, loopRounds fuel script n (callbackEnter s) = some l → RoundCancelSafe fuel script l

theorem pendingIn_armed_other (h : x ≠ c) :
    pendingIn c (.armed x t n :: log) = pendingIn c log := if_neg h

theorem pendingIn_cancelled_other (h : x ≠ c) :
    pendingIn c (.cancelled x t :: log) = pendingIn c log := if_neg h

theorem pendingIn_invoked_other (h : x ≠ c) :
    pendingIn c (.invoked x t :: log) = pendingIn c log := if_neg h

theorem Armed.pending (h : Armed s s' ds c n f a) (hp : ∀ x ∈ ids ds, pendingIn x s.log = true)
    (hx : x ∈ ids (Delta.insert c m ds)) : pendingIn x s'.log = true := by
  rw [h.log]
  by_cases hxc : x = c
  · rw [hxc]
    exact if_pos rfl
  · rw [pendingIn_armed_other (Ne.symm hxc)]
    exact hp x ((mem_ids_insert.1 hx).resolve_left hxc)

theorem Cancelled.pending (h : Cancelled s s' c) (hnd : (ids ds).Nodup)
    (hp : ∀ x ∈ ids ds, pendingIn x s.log = true) (hx : x ∈ ids (Delta.remove c ds)) :
    pendingIn x s'.log = true := by
  have hxc : x ≠ c := fun he => notMem_ids_remove hnd (he ▸ hx)
  rw [h.log, pendingIn_cancelled_other (Ne.symm hxc)]
  exact hp x (mem_ids_remove hx)

theorem Alive.set (h : Alive s c e ds) (hn : n < 2 ^ 32)
    (hs : mdxCalloutSetTicksLocked fuel s x n f a = some (s', r)) : ∃ ds', Alive s' c e ds' := by
  have hw := h.walk
  rcases setTicksLocked_cases hw.queue hn hw.maxcnt hs with
    ⟨-, he, -⟩ | ⟨hx, -, he, -⟩ | ⟨hx, -, ha, -⟩
  · subst he
    exact ⟨ds, h⟩
  · subst he
    refine ⟨ds, hw.mark hx, ?_, h.pending, h.clean⟩
    intro y hy hyd
    have ht := setCallout_field MdxCallout.ticks (y := { s.callout x with state := .fired }) s
      rfl y
    rw [marked, ht]
    exact h.ahead y hy hyd
  · refine ⟨_, hw.arm hx ha, ?_, fun y hy => ha.pending h.pending hy, ?_⟩
    · intro y hy hmem
      obtain ⟨hyx, hyd⟩ := not_or.1 (mt mem_ids_insert.2 hmem)
      rw [ha.idle y hyx hyd]
      exact h.ahead y hy hyd
    · rw [ha.log]
      exact h.clean

theorem Alive.cancel (h : Alive s c e ds) (x : Nat)
    (hsafe : c = some x → (s.callout x).active = true → e < (s.callout x).ticks) :
    ∃ ds', Alive (mdxCalloutCancel s x).1 c e ds' := by
  have hw := h.walk
  by_cases hx : x ∈ ids ds
  · obtain ⟨s', he, hq, hs⟩ := cancel_remove hw.queue hw.bounded hx
    rw [he]
    refine ⟨_, hw.drop hx hq hs, ?_, fun y hy => hs.pending hw.queue.nodup h.pending hy, ?_⟩
    · intro y hy hyd
      by_cases hyx : y = x
      · subst hyx
        rw [hs.self]
        exact hsafe hy ((hw.queue.active y).2 hx)
      · have hyd' := mt (mem_ids_remove_of_ne hyx) hyd
        rw [hs.idle y (hw.queue.inactive hyd')]
        exact h.ahead y hy hyd'
    · rw [hs.log]
      exact h.clean
  · rw [cancel_inactive (hw.queue.inactive hx)]
    exact ⟨ds, h⟩

theorem Alive.funcOps (h : Alive s c e ds) (hfit : ∀ op ∈ ops, op.fits)
    (hsafe : CancelsSafe fuel c e s ops) (hf : funcOps fuel s ops = some s') :
    ∃ ds', Alive s' c e ds' := by
  refine (funcOps_invariant (fun t ops => (∃ ds', Alive t c e ds') ∧ (∀ op ∈ ops, op.fits) ∧
    CancelsSafe fuel c e t ops) ?_ ?_ ⟨⟨ds, h⟩, hfit, hsafe⟩ hf).1
  · intro t x n f a ops u r ⟨⟨ds₁, ha⟩, hfit, hsafe⟩ hx
    obtain ⟨hop, hops⟩ := forall_mem_cons.1 hfit
    exact ⟨ha.set hop hx, hops, hsafe.2 u (Option.map_eq_some_iff.2 ⟨_, hx, rfl⟩)⟩
  · intro t x ops ⟨⟨ds₁, ha⟩, hfit, hsafe⟩
    exact ⟨ha.cancel x (hsafe.1 x rfl), (forall_mem_cons.1 hfit).2, hsafe.2 _ rfl⟩

theorem Alive.expire (h : Alive s (some x) e ds) (hd : (s.callout x).ticks ≤ e) :
    ∃ ds', Walk (expireOne s x) (next s s.cpuid x) ds' ∧ x ∈ ids ds ∧ x ∉ ids ds' ∧
      (∀ y ∈ ids ds', y ∈ ids ds) ∧ ∀ y, next s s.cpuid x = some y → y ∈ ids ds' := by
  have hx : x ∈ ids ds := by
    by_contra hx
    have hlt := h.ahead x rfl hx
    omega
  obtain ⟨P, d, R, hds⟩ := exists_split hx
  subst hds
  have hw := h.walk
  have hn := next_of_ring (p := (x, d)) hw.queue.ring
  have hmem : ∀ y, next s s.cpuid x = some y → y ∈ ids (P ++ R) := by
    intro y hy
    rw [hn] at hy
    rw [ids_append]
    exact mem_append_right _ (mem_of_head? hy)
  refine ⟨P ++ R, ⟨expireOne_spec hw.queue, hw.bounded.drop, ?_, hw.maxcnt, hw.exception⟩, hx,
    hw.queue.notMem_of_split, ?_, hmem⟩
  · intro y hy hyd
    exact absurd (hmem y hy) hyd
  · intro y hy
    rw [ids_append] at hy ⊢
    rcases mem_append.1 hy with hy | hy
    · exact mem_append_left _ hy
    · exact mem_append_right _ (mem_cons_of_mem _ hy)

theorem Alive.round (h : Alive l.s l.c l.ticksElapsed ds)
    (hfit : ∀ i, ∀ op ∈ script i, op.fits) (hsafe : RoundCancelSafe fuel script l)
    (hb : loopBody fuel script l = some l') :
    ∃ ds', Alive l'.s l'.c l'.ticksElapsed ds' := by
  rcases loopBody_inv hb with ⟨-, he⟩ | ⟨x, hx, hcase⟩
  · subst he
    exact ⟨ds, h⟩
  · rw [hx] at h
    rcases hcase with ⟨hd, he⟩ | ⟨hd, -, he⟩ | ⟨hd, f, s', hfn, hf, he⟩
    · subst he
      by_cases hxd : x ∈ ids ds
      · obtain ⟨P, d, R, hds⟩ := exists_split hxd
        subst hds
        have ht : (l.s.callout x).ticks = d := h.walk.queue.ticks (x, d) (by simp)
        rw [ht] at hd ⊢
        have hw := h.walk
        refine ⟨P ++ (x, d - l.ticksElapsed) :: R, ⟨hw.queue.setTicks _,
          hw.bounded.nearer (le_of_lt hd), ?_, hw.maxcnt, hw.exception⟩, ?_, ?_, h.clean⟩
        · intro y hy
          cases hy
        · intro y hy
          cases hy
        · intro y hy
          apply h.pending
          simpa only [ids_append, ids_cons] using hy
      · have hw := h.walk
        refine ⟨ds, ⟨hw.queue.setIdle hxd (hw.queue.inactive hxd), hw.bounded, ?_, hw.maxcnt,
          hw.exception⟩, ?_, h.pending, h.clean⟩
        · intro y hy
          cases hy
        · intro y hy
          cases hy
    · subst he
      obtain ⟨ds', hw, -, -, hsub, hmem⟩ := h.expire hd
      refine ⟨ds', hw, ?_, fun y hy => h.pending y (hsub y hy), h.clean⟩
      intro y hy hyd
      exact absurd (hmem y hy) hyd
    · subst he
      obtain ⟨ds', hw, hxd, hxd', hsub, hmem⟩ := h.expire hd
      have hfire : Alive (firing l.s x) (next l.s l.s.cpuid x)
          (l.ticksElapsed - (l.s.callout x).ticks) ds' := by
        refine ⟨⟨hw.queue.observe _, hw.bounded, hw.cursor, hw.maxcnt, hw.exception⟩, ?_, ?_, ?_⟩
        · intro y hy hyd
          exact absurd (hmem y hy) hyd
        · intro y hy
          have hyx : y ≠ x := fun he => hxd' (he ▸ hy)
          show pendingIn y (.invoked x l.s.now :: l.s.log) = true
          rw [pendingIn_invoked_other (Ne.symm hyx)]
          exact h.pending y (hsub y hy)
        · show Callout.clean (.invoked x l.s.now :: l.s.log) = true
          rw [Callout.clean, h.pending x hxd, h.clean]
          rfl
      exact hfire.funcOps (hfit _) (hsafe x hx hd (hfn ▸ Option.some_ne_none f)) hf

structure Tidy (s : St) (ds : List (Nat × Nat)) : Prop where
  queue : Queue s ds
  bounded : Bounded ds
  maxcnt : s.miTmr.maxcnt < 2 ^ 32
  pending : ∀ x ∈ ids ds, pendingIn x s.log = true
  clean : clean s.log = true

theorem Fresh.tidy (h : Fresh s) : Tidy s [] := by
  refine ⟨h.queue, bounded_nil, h.maxcnt.2, ?_, ?_⟩
  · intro x hx
    cases hx
  · rw [h.log]
    rfl

theorem Tidy.enter (h : Tidy s ds) :
    Alive (callbackEnter s).s (callbackEnter s).c (callbackEnter s).ticksElapsed ds := by
  refine ⟨.enter h.queue h.bounded h.maxcnt, ?_, h.pending, h.clean⟩
  intro x hx hmem
  rw [callbackEnter_cursor h.queue] at hx
  exact absurd (mem_of_head? hx) hmem

theorem Tidy.rounds (h : Tidy s ds) (hfit : ∀ i, ∀ op ∈ script i, op.fits)
    (hsafe : PassCancelSafe fuel script s)
    (hl : loopRounds fuel script n (callbackEnter s) = some l) :
    ∃ ds', Alive l.s l.c l.ticksElapsed ds' := by
  refine loopRounds_reached (fun l => ∃ ds', Alive l.s l.c l.ticksElapsed ds') ?_ ⟨ds, h.enter⟩ hl
  intro k l₁ l₂ hk hl₁ hb
  obtain ⟨ds₁, ha⟩ := hl₁
  exact ha.round hfit (hsafe k l₁ hk) hb

theorem Tidy.set (h : Tidy s ds) (hn : n < 2 ^ 32)
    (hs : mdxCalloutSetTicks fuel s c n f a = some (s', r)) : ∃ ds', Tidy s' ds' := by
  rcases setTicksLocked_cases h.queue hn h.maxcnt hs with
    ⟨-, he, -⟩ | ⟨hc, -, he, -⟩ | ⟨hc, -, ha, -⟩
  · subst he
    exact ⟨ds, h⟩
  · subst he
    exact ⟨ds, marked_queue h.queue hc, h.bounded, h.maxcnt, h.pending, h.clean⟩
  · refine ⟨_, ha.queue, h.bounded.insert (u32_lt _), ha.maxcnt ▸ h.maxcnt,
      fun x hx => ha.pending h.pending hx, ?_⟩
    rw [ha.log]
    exact h.clean

theorem Tidy.cancel (h : Tidy s ds) (c : Nat) : ∃ ds', Tidy (mdxCalloutCancel s c).1 ds' := by
  by_cases hc : c ∈ ids ds
  · obtain ⟨s', he, hq, hs⟩ := cancel_remove h.queue h.bounded hc
    rw [he]
    refine ⟨_, hq, h.bounded.remove h.queue.nodup c, hs.miTmr ▸ h.maxcnt,
      fun x hx => hs.pending h.queue.nodup h.pending hx, ?_⟩
    rw [hs.log]
    exact h.clean
  · rw [cancel_inactive (h.queue.inactive hc)]
    exact ⟨ds, h⟩

def CancelCareful (s : St) : Op → Prop
  | .wait _ => True
  | .set _ n _ _ => n < 2 ^ 32
  | .cancel _ => True
  | .callback script => (∀ i, ∀ op ∈ script i, op.fits) ∧ ∀ fuel, PassCancelSafe fuel script s

theorem Tidy.step (h : Tidy s ds) (hc : CancelCareful s op) (hs : Step s op s') :
    ∃ ds', Tidy s' ds' := by
  cases hs with
  | wait =>
    exact ⟨ds, ⟨h.queue.ring, h.queue.ticks, h.queue.active, h.queue.cpu⟩, h.bounded, h.maxcnt,
      h.pending, h.clean⟩
  | set hset => exact h.set hc hset
  | cancel => exact h.cancel _
  | callback hcb =>
    by_cases hd : ds = []
    · subst hd
      rw [callback_empty h.queue] at hcb
      cases hcb
      exact ⟨[], h⟩
    · obtain ⟨l, hl, -, he⟩ := callback_inv h.queue hd hcb
      obtain ⟨ds', ha⟩ := h.rounds hc.1 (hc.2 _) hl
      have hw := ha.walk
      obtain ⟨hxq, hxlog, -, -, -, -, -, hxm, -⟩ := callbackExit_spec hw.queue hw.exception
      subst he
      refine ⟨ds', hxq, hw.bounded, hxm ▸ hw.maxcnt, ?_, ?_⟩
      · rw [hxlog]
        exact ha.pending
      · rw [hxlog]
        exact ha.clean

end Mdepx.Callout
