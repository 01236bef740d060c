import Mdepx.Sched.Current

namespace Mdepx.Sched
open Lib Function List

/-! What the steps do to the run queues. -/

def OnRunq (k : Kernel n) (t : Nat) : Prop := ∃ q, Queues k.links q ∧ ∃ p, t ∈ q (.runq p)

def added (k : Kernel n) : Act n → Option (Fin n × Nat)
  | .fire c t =>
    match (k.td t).tdC.func with
    | .semCb _ => if (k.td t).state = .ack then some (c, t) else none
    | .schedCb => none
  | .fireSleep c t => some (c, t)
  | .park c =>
    match (k.cpu c).ctx with
    | .handler t false _ =>
      if (k.td t).state = .yielding ∨ (k.td t).state = .ready then some (c, t) else none
    | _ => none
  | .postNext c =>
    match (k.cpu c).post with
    | some ⟨t, _, .wake⟩ => some (c, t)
    | _ => none
  | .create c t _ _ => some (c, t)
  | _ => none

section
variable {k k' : Kernel n} {q : Head → List Nat} {loc : Nat → Loc n} {c d : Fin n}

theorem onRunq_iff (hq : Queues k.links q) : OnRunq k t ↔ ∃ p, t ∈ q (.runq p) := by
  constructor
  · rintro ⟨q', hq', p, ht⟩
    rw [hq'.unique hq] at ht
    exact ⟨p, ht⟩
  · exact fun h => ⟨q, hq, h⟩

theorem Settled.notMem (h : Settled k q loc) (hl : (loc t).head = none) (i : Head) : t ∉ q i :=
  h.lined.filed.notMem hl i

inductive Runqs (k k' : Kernel n) (a : Act n) : Prop where
  | added {c : Fin n} {u : Nat} (h : added k a = some (c, u)) (hu : ¬OnRunq k u)
      (hp : (k'.td u).prio < k'.nprio) (hq : ∀ t, OnRunq k' t ↔ OnRunq k t ∨ t = u)
  | picked {c : Fin n} {u : Nat} (h : a = .pick c)
      (hk : mdxSchedPick k.links k.nprio = some u) (hu : OnRunq k u)
      (hq : ∀ t, OnRunq k' t ↔ OnRunq k t ∧ t ≠ u)
  | same (h : Sched.added k a = none) (ha : ∀ c, a ≠ .pick c) (hq : ∀ t, OnRunq k' t ↔ OnRunq k t)

inductive Moves (k k' : Kernel n) (a : Act n) (q q' : Head → List Nat) : Prop where
  | added {c : Fin n} {u : Nat} (h : added k a = some (c, u)) (hu : ∀ p, u ∉ q (.runq p))
      (hp : (k'.td u).prio < k'.nprio)
      (hq : ∀ p, q' (.runq p) =
        if p = (k'.td u).prio then q (.runq p) ++ [u] else q (.runq p))
  | picked {c : Fin n} {u : Nat} (h : a = .pick c)
      (hk : mdxSchedPick k.links k.nprio = some u) (hu : ∃ p, u ∈ q (.runq p))
      (hq : ∀ p, q' (.runq p) = (q (.runq p)).erase u)
  | same (h : Sched.added k a = none) (ha : ∀ c, a ≠ .pick c)
      (hq : ∀ p, q' (.runq p) = q (.runq p))

theorem update_sem (q : Head → List Nat) (s : Nat) (ts : List Nat) (p : Nat) :
    update q (.sem s) ts (.runq p) = q (.runq p) := by
  apply update_of_ne
  rintro ⟨⟩

theorem update_runq (q : Head → List Nat) (p u p' : Nat) :
    update q (.runq p) (q (.runq p) ++ [u]) (.runq p') =
      if p' = p then q (.runq p') ++ [u] else q (.runq p') := by
  by_cases hp : p' = p
  · rw [hp, update_self, if_pos rfl]
  · rw [update_of_ne fun he => hp (Head.runq.inj he), if_neg hp]

section
variable (h : Settled k q loc)
include h

theorem Settled.adds (ha : added k a = some (c, u)) (hl : (loc u).head = none)
    (hprio : (k'.td u).prio = p) (hp : p < k'.nprio)
    (hlinks : k'.links = listAppend k.links (.inl (.runq p)) (.inr u)) :
    ∃ q', Queues k'.links q' ∧ Moves k k' a q q' := by
  subst hprio
  refine ⟨_, hlinks ▸ h.lined.queues.append (h.notMem hl), ?_⟩
  exact .added ha (fun p => h.notMem hl _) hp (update_runq q _ u)

theorem Settled.adds_waiter (ha : added k a = some (c, u)) (hl : loc u = .waiting s)
    (hprio : (k'.td u).prio = p) (hp : p < k'.nprio)
    (hlinks : k'.links = listAppend (listRemove k.links (.inr u)) (.inl (.runq p)) (.inr u)) :
    ∃ q', Queues k'.links q' ∧ Moves k k' a q q' := by
  subst hprio
  have hmem : u ∈ q (.sem s) := (h.lined.filed u (.sem s)).1 (by rw [comp_apply, hl]; rfl)
  have hout (i : Head) : u ∉ update q (.sem s) ((q (.sem s)).erase u) i := by
    intro hu
    by_cases hi : i = .sem s
    · rw [hi, update_self] at hu
      exact (h.lined.queues.nodup _).not_mem_erase hu
    · rw [update_of_ne hi] at hu
      exact hi (h.lined.queues.disjoint u _ _ hu hmem)
  refine ⟨_, hlinks ▸ (h.lined.queues.remove hmem).append hout, .added ha ?_ hp ?_⟩
  · intro p hu
    have hx := h.in_runq hu
    rw [hl] at hx
    cases hx
  · intro p
    rw [update_runq, update_sem]

theorem Step.moves (hs : Step k a k') : ∃ q', Queues k'.links q' ∧ Moves k k' a q q' := by
  have hkeep {k' : Kernel n} {a : Act n} (ha : added k a = none) (hn : ∀ c, a ≠ .pick c)
      (hl : k'.links = k.links) : ∃ q', Queues k'.links q' ∧ Moves k k' a q q' :=
    ⟨q, hl ▸ h.lined.queues, .same ha hn fun _ => rfl⟩
  cases hs with
  | release | reap | interrupt | switch | switchTimed | take | tryTake | tryFail | post | sleep
  | yield | terminate | enter | retSem | ret => exact hkeep rfl (by rintro _ ⟨⟩) rfl
  | quantum hc hl hf =>
    exact hkeep (by simp only [added, hf]) (by rintro _ ⟨⟩) rfl
  | late hc hl hf hk hst =>
    exact hkeep (by simp only [added, hf, hst, reduceCtorEq, if_false]) (by rintro _ ⟨⟩) rfl
  | timeout hc hl hf hk hst hp =>
    rename_i c t s u r
    have ha : added k (.fire c t) = some (c, t) := by simp only [added, hf, hst, if_true]
    refine h.adds_waiter ha (h.waiting hc hl hf hk hst) ?_ hp rfl
    simp only [Kernel.enqueue, Kernel.note, Kernel.setTd, Kernel.dequeue, update_self]
  | wakeup hc hl hst hp =>
    have hw := h.fires_sleep hc hl
    refine h.adds rfl (by rw [hw]; rfl) ?_ hp rfl
    simp only [Kernel.enqueue, Kernel.setTd, update_self]
  | resume hc hst =>
    exact hkeep (by simp only [added, hc, hst, reduceCtorEq, or_self, if_false])
      (by rintro _ ⟨⟩) rfl
  | requeue hc hst hp =>
    have hw := h.interrupted hc
    rename_i c t intr
    have ha : added k (.park c) = some (c, t) := by simp only [added, hc, hst, if_true]
    exact h.adds ha (by rw [hw]; rfl) rfl hp rfl
  | pick hc hp =>
    rename_i t c u intr
    obtain ⟨p, ts, hq⟩ := mdxSchedPick_eq h.lined.queues hp
    have hmem : t ∈ q (.runq p) := by
      rw [hq]
      exact mem_cons_self
    refine ⟨_, h.lined.queues.remove hmem, .picked rfl hp ⟨p, hmem⟩ fun p' => ?_⟩
    by_cases hp' : p' = p
    · rw [hp', update_self]
    · have hout : t ∉ q (.runq p') := fun ht =>
        hp' (Head.runq.inj (h.lined.queues.disjoint t _ _ ht hmem))
      rw [update_of_ne fun he => hp' (Head.runq.inj he), erase_of_not_mem hout]
  | block hc hp =>
    have hw := h.caller hc (by intro call; rw [show (k.calm.td _).pc = _ from hp]; rintro ⟨⟩)
    have hout := h.notMem (t := _) (by rw [hw]; rfl)
    exact ⟨_, h.lined.queues.append hout, .same rfl (by rintro _ ⟨⟩) (update_sem q _ _)⟩
  | postTo hc hk hf =>
    rename_i s t c
    obtain ⟨ts, hq⟩ := firstOf_eq h.lined.queues hf
    have hmem : t ∈ q (.sem s) := by
      rw [hq]
      exact mem_cons_self
    exact ⟨_, h.lined.queues.remove hmem, .same rfl (by rintro _ ⟨⟩) (update_sem q _ _)⟩
  | postAck hc | postCancel hc => exact hkeep (by simp only [added, hc]) (by rintro _ ⟨⟩) rfl
  | postWake hc hst hp =>
    have hw := h.waking hc
    rename_i c t s
    have ha : added k (.postNext c) = some (c, t) := by simp only [added, hc]
    refine h.adds ha (by rw [hw]; rfl) ?_ hp rfl
    simp only [Kernel.enqueue, Kernel.setCpu, Kernel.setTd, update_self]
  | create hl hp =>
    have hw := h.unborn hl
    refine h.adds rfl (by rw [hw]; rfl) ?_ hp rfl
    simp only [Kernel.enqueue, Kernel.setTd, update_self]
    rfl

theorem Step.runqs (hs : Step k a k') : Runqs k k' a := by
  obtain ⟨q', hq', hm⟩ := hs.moves h
  have hold (t : Nat) : OnRunq k t ↔ ∃ p, t ∈ q (.runq p) := onRunq_iff h.lined.queues
  have hnew (t : Nat) : OnRunq k' t ↔ ∃ p, t ∈ q' (.runq p) := onRunq_iff hq'
  cases hm with
  | added ha hu hp hq =>
    refine .added ha (fun hk => ?_) hp fun t => ?_
    · obtain ⟨p, hmem⟩ := (hold _).1 hk
      exact hu p hmem
    · rw [hnew, hold]
      simp only [hq]
      constructor
      · rintro ⟨p, ht⟩
        split at ht
        · rcases mem_append.1 ht with ht | ht
          · exact .inl ⟨p, ht⟩
          · exact .inr (mem_singleton.1 ht)
        · exact .inl ⟨p, ht⟩
      · rintro (⟨p, ht⟩ | rfl)
        · refine ⟨p, ?_⟩
          split
          · exact mem_append_left _ ht
          · exact ht
        · refine ⟨(k'.td t).prio, ?_⟩
          rw [if_pos rfl]
          exact mem_append_right _ mem_cons_self
  | picked ha hk hu hq =>
    refine .picked ha hk ((hold _).2 hu) fun t => ?_
    rw [hnew, hold]
    simp only [hq, (h.lined.queues.nodup _).mem_erase_iff]
    constructor
    · rintro ⟨p, hne, ht⟩
      exact ⟨⟨p, ht⟩, hne⟩
    · rintro ⟨⟨p, ht⟩, hne⟩
      exact ⟨p, hne, ht⟩
  | same ha hn hq =>
    refine .same ha hn fun t => ?_
    rw [hnew, hold]
    simp only [hq]

theorem Settled.onRunq (ht : OnRunq k t) : ∃ p, loc t = .queued p ∧ (k.td t).prio = p := by
  obtain ⟨p, hp⟩ := (onRunq_iff h.lined.queues).1 ht
  have hl := h.in_runq hp
  have hg := h.good_at hl
  exact ⟨p, hl, hg.2.1⟩

end

theorem mdxSchedPick_top (hq : Queues m q) (hp : mdxSchedPick m i = some t) :
    ∃ p ts, q (.runq p) = t :: ts ∧ ∀ p', p < p' → p' < i → q (.runq p') = [] := by
  induction i with
  | zero => cases hp
  | succ i ih =>
    simp only [mdxSchedPick] at hp
    split at hp
    · rename_i u hf
      cases hp
      obtain ⟨ts, hts⟩ := firstOf_eq hq hf
      refine ⟨i, ts, hts, ?_⟩
      intro p' h1 h2
      omega
    · rename_i hf
      obtain ⟨p, ts, hts, hall⟩ := ih hp
      refine ⟨p, ts, hts, ?_⟩
      intro p' h1 h2
      rcases Nat.lt_succ_iff_lt_or_eq.1 h2 with hlt | rfl
      · exact hall p' h1 hlt
      · exact firstOf_none hq hf

theorem Settled.picked_top (h : Settled k q loc)
    (hp : mdxSchedPick k.links k.nprio = some t) (hu : OnRunq k u)
    (hlt : (k.td u).prio < k.nprio) : (k.td u).prio ≤ (k.td t).prio := by
  obtain ⟨p, ts, hts, hall⟩ := mdxSchedPick_top h.lined.queues hp
  have hmem : t ∈ q (.runq p) := by
    rw [hts]
    exact mem_cons_self
  obtain ⟨p', hl, hprio⟩ := h.onRunq ((onRunq_iff h.lined.queues).2 ⟨p, hmem⟩)
  rw [h.in_runq hmem] at hl
  cases hl
  obtain ⟨pu, hmemu⟩ := (onRunq_iff h.lined.queues).1 hu
  obtain ⟨p', hlu, hpriou⟩ := h.onRunq hu
  rw [h.in_runq hmemu] at hlu
  cases hlu
  by_contra hgt
  rw [hpriou] at hgt hlt
  rw [hprio] at hgt
  rw [hall pu (Nat.lt_of_not_le hgt) hlt] at hmemu
  cases hmemu

structure Alike (th th' : Thread n) : Prop where
  idle : th'.idle = th.idle
  prio : th'.prio = th.prio
  life : th'.life = th.life ∨ th'.life = .dead
  state : th'.state = .running → th.state = .running ∨ th.idle = false

theorem Alike.refl (th : Thread n) : Alike th th := ⟨rfl, rfl, .inl rfl, .inl⟩

theorem alike_update {th : Thread n} (h : Alike (k.td u) th) (t : Nat) :
    Alike (k.td t) (update k.td u th t) := by
  by_cases ht : t = u
  · subst ht
    rw [update_self]
    exact h
  · rw [update_of_ne ht]
    exact .refl _

theorem Alike.picked (th : Thread n) : Alike th th.picked := by
  refine ⟨rfl, rfl, .inl rfl, ?_⟩
  intro hs
  cases hi : th.idle with
  | false => exact .inr rfl
  | true =>
    simp only [Thread.picked, hi, if_true] at hs
    exact .inl hs

theorem Alike.waiter (c : Fin n) (s usec ticks : Nat) (th : Thread n) :
    Alike th (waiter c s usec ticks th) := by
  unfold Sched.waiter
  simp only
  split
  · exact ⟨rfl, rfl, .inl rfl, by rintro ⟨⟩⟩
  · exact ⟨rfl, rfl, .inl rfl, by rintro ⟨⟩⟩

theorem Step.alike (hs : Step k a k') (t : Nat) :
    Alike (k.td t) (k'.td t) ∨ ∃ c prio quantumUsec, a = .create c t prio quantumUsec ∧
      (k.td t).life = .unborn ∧ k'.td t = mdxThreadSetup k prio quantumUsec := by
  cases hs with
  | release | quantum | late | timeout | postAck | postWake | sleep | yield | terminate =>
    refine .inl (alike_update ?_ t)
    exact ⟨rfl, rfl, .inl rfl, by rintro ⟨⟩⟩
  | reap =>
    refine .inl (alike_update ?_ t)
    exact ⟨rfl, rfl, .inr rfl, .inl⟩
  | interrupt | wakeup | postCancel | enter | retSem | ret =>
    refine .inl (alike_update ?_ t)
    exact ⟨rfl, rfl, .inl rfl, .inl⟩
  | switch => exact .inl (alike_update (.picked _) t)
  | switchTimed hc hq hi =>
    refine .inl (alike_update ?_ t)
    exact ⟨rfl, rfl, .inl rfl, fun _ => .inr hi⟩
  | block => exact .inl (alike_update (.waiter _ _ _ _ _) t)
  | create hl hp =>
    rename_i prio c u quantumUsec
    by_cases ht : t = u
    · subst ht
      exact .inr ⟨c, prio, quantumUsec, rfl, hl, update_self t _ _⟩
    · left
      show Alike (k.td t) (update k.td u _ t)
      rw [update_of_ne ht]
      exact .refl _
  | _ => exact .inl (.refl _)

theorem Step.nprio (hs : Step k a k') : k'.nprio = k.nprio := by
  cases hs <;> rfl

end
end Mdepx.Sched
