import Mdepx.Lib.Arrivals
import Mdepx.Sched.Runq

namespace Mdepx.Sched
open Lib Function

/-! The run queues are one queue with priorities that keeps the order of arrival. -/

/-- `mdx_thread_terminate` is what the entry of a thread returns to that `mdx_thread_setup` has set
up. An idle thread has no such entry and does not get there. -/
def IdleStays (k : Kernel n) : Act n → Prop
  | .terminate c =>
    match k.caller c with
    | some t => (k.td t).idle = false
    | none => True
  | _ => True

instance (k : Kernel n) (a : Act n) : Decidable (IdleStays k a) := by
  unfold IdleStays
  split
  · split
    · infer_instance
    · infer_instance
  · infer_instance

def picked (k : Kernel n) : Act n → Option Nat
  | .pick _ => mdxSchedPick k.links k.nprio
  | _ => none

/-- The scheduler, and the threads on the run queues in the order in which they have been handed
to `mdx_sched_add`. -/
structure Watched (n : Nat) where
  kernel : Kernel n
  waiting : List Nat

def arrive (k : Kernel n) (a : Act n) (ws : List Nat) : List Nat :=
  match added k a, picked k a with
  | some (_, t), _ => ws ++ [t]
  | none, some t => ws.erase t
  | none, none => ws

def watch (s : Watched n) (a : Act n) : Except Stop (Watched n) :=
  (exec s.kernel a).map fun k => ⟨k, arrive s.kernel a s.waiting⟩

abbrev Watches (s : Watched n) (a : Act n) (s' : Watched n) : Prop := watch s a = .ok s'

def Kernel.prio (k : Kernel n) (t : Nat) : Nat := (k.td t).prio

section
variable {k k' : Kernel n} {q : Head → List Nat} {loc : Nat → Loc n} {c : Fin n} {ws : List Nat}

theorem watch_ok (h : watch s a = .ok s') :
    exec s.kernel a = .ok s'.kernel ∧ s'.waiting = arrive s.kernel a s.waiting := by
  unfold watch at h
  cases hx : exec s.kernel a with
  | error =>
    rw [hx] at h
    cases h
  | ok =>
    rw [hx] at h
    cases h
    exact ⟨rfl, rfl⟩

structure InOrder (k : Kernel n) (q : Head → List Nat) (ws : List Nat) : Prop where
  nodup : ws.Nodup
  runq : ∀ p, q (.runq p) = level k.prio ws p
  bound : ∀ t ∈ ws, k.prio t < k.nprio

theorem mem_level (prio : Nat → Nat) : t ∈ level prio ws p ↔ t ∈ ws ∧ prio t = p := by
  rw [level, List.mem_filter, decide_eq_true_iff]

theorem InOrder.mem_iff (h : InOrder k q ws) : t ∈ ws ↔ ∃ p, t ∈ q (.runq p) := by
  simp only [h.runq, mem_level]
  exact ⟨fun ht => ⟨_, ht, rfl⟩, fun ⟨_, ht, _⟩ => ht⟩

theorem Step.prio_eq (hs : Step k a k') (h : (k.td t).life ≠ .unborn) :
    k'.prio t = k.prio t ∧ (k'.td t).life ≠ .unborn := by
  rcases hs.alike t with hk | ⟨c, prio, quantumUsec, -, hu, -⟩
  · refine ⟨hk.prio, fun hu => ?_⟩
    rcases hk.life with hl | hl
    · exact h (hl.symm.trans hu)
    · rw [hl] at hu
      cases hu
  · exact absurd hu h

theorem InOrder.born (h : InOrder k q ws) (hp : Settled k q loc) (ht : t ∈ ws) :
    (k.td t).life ≠ .unborn := by
  obtain ⟨p, hmem⟩ := h.mem_iff.1 ht
  intro hu
  have hl := hp.in_runq hmem
  rw [hp.unborn (t := t) hu] at hl
  cases hl

theorem InOrder.step (h : InOrder k q ws) (hp : Settled k q loc) (hs : Step k a k') :
    ∃ q', Queues k'.links q' ∧ InOrder k' q' (arrive k a ws) := by
  obtain ⟨q', hq', hm⟩ := hs.moves hp
  have hprio (t : Nat) (ht : t ∈ ws) : k'.prio t = k.prio t :=
    (hs.prio_eq (h.born hp ht)).1
  have hbound (t : Nat) (ht : t ∈ ws) : k'.prio t < k'.nprio := by
    rw [hprio t ht, hs.nprio]
    exact h.bound t ht
  have hlevel (p : Nat) : level k'.prio ws p = q (.runq p) :=
    (level_congr hprio p).trans (h.runq p).symm
  refine ⟨q', hq', ?_⟩
  cases hm with
  | @added c u ha hu hlt hq =>
    have harrive : arrive k a ws = ws ++ [u] := by simp only [arrive, ha]
    have hout : u ∉ ws := fun hmem => by
      obtain ⟨p, hmem⟩ := h.mem_iff.1 hmem
      exact hu p hmem
    rw [harrive]
    refine ⟨h.nodup.append (List.nodup_singleton u) ?_, fun p => ?_, ?_⟩
    · exact List.disjoint_singleton.2 hout
    · rw [hq, level_append, hlevel]
      rfl
    · exact List.forall_mem_append.2 ⟨hbound, List.forall_mem_singleton.2 hlt⟩
  | @picked c u ha hk hu hq =>
    subst ha
    have harrive : arrive k (.pick c) ws = ws.erase u := by
      simp only [arrive, added, Sched.picked, hk]
    rw [harrive]
    refine ⟨h.nodup.erase u, fun p => ?_, fun t ht => hbound t (List.mem_of_mem_erase ht)⟩
    rw [hq, level_erase h.nodup, hlevel]
  | same ha hn hq =>
    have hpicked : Sched.picked k a = none := by
      cases a with
      | pick c => exact absurd rfl (hn c)
      | _ => rfl
    have harrive : arrive k a ws = ws := by simp only [arrive, ha, hpicked]
    rw [harrive]
    exact ⟨h.nodup, fun p => (hq p).trans (hlevel p).symm, hbound⟩

theorem InOrder.foremost (h : InOrder k q ws) (hq : Queues k.links q)
    (hp : mdxSchedPick k.links k.nprio = some t) : Foremost k.prio ws t := by
  obtain ⟨p, ts, hts, hall⟩ := mdxSchedPick_top hq hp
  rw [h.runq] at hts
  apply foremost_of_level hts
  intro u hu
  by_contra hgt
  have hmem : u ∈ q (.runq (k.prio u)) := by
    rw [h.runq]
    exact (mem_level k.prio).2 ⟨hu, rfl⟩
  rw [hall (k.prio u) (Nat.lt_of_not_le hgt) (h.bound u hu)] at hmem
  cases hmem

def Watched.Orderly (s : Watched n) : Prop :=
  ∃ q loc, Settled s.kernel q loc ∧ InOrder s.kernel q s.waiting

theorem Watched.Orderly.step {s s' : Watched n} (h : s.Orderly) (hw : Watches s a s') :
    s'.Orderly := by
  obtain ⟨q, loc, hp, ho⟩ := h
  obtain ⟨hx, hws⟩ := watch_ok hw
  obtain ⟨q', hq', ho'⟩ := ho.step hp (exec_step hx)
  obtain ⟨q'', loc', hp'⟩ := hp.calm_step (exec_step hx)
  have hqq : q'' = q' := hp'.lined.queues.unique hq'
  subst hqq
  rw [← hws] at ho'
  exact ⟨q'', loc', hp', ho'⟩

theorem boot_orderly (n nprio : Nat) (usecToTicks : Nat → Nat) (count : Nat → Int) :
    Watched.Orderly ⟨boot n nprio usecToTicks count, []⟩ := by
  have hp := boot_settled n nprio usecToTicks count
  exact ⟨_, _, hp, List.nodup_nil, fun _ => rfl, fun _ ht => nomatch ht⟩

structure Behind (s : Watched n) (u t : Nat) : Prop where
  ahead : Ahead s.waiting u t
  prio : s.kernel.prio u = s.kernel.prio t
  born : (s.kernel.td u).life ≠ .unborn ∧ (s.kernel.td t).life ≠ .unborn

theorem Behind.step {s s' : Watched n} (h : Behind s u t) (hs : s.Orderly)
    (hu : picked s.kernel a ≠ some u) (hw : Watches s a s') : Behind s' u t := by
  obtain ⟨hx, hws⟩ := watch_ok hw
  obtain ⟨hpu, hbu⟩ := (exec_step hx).prio_eq h.born.1
  obtain ⟨hpt, hbt⟩ := (exec_step hx).prio_eq h.born.2
  refine ⟨?_, hpu.trans (h.prio.trans hpt.symm), hbu, hbt⟩
  obtain ⟨q, loc, -, ho⟩ := hs
  rw [hws]
  unfold arrive
  split
  · exact h.ahead.append _
  · rename_i x _ hpick
    refine h.ahead.erase ho.nodup ?_
    rintro rfl
    exact hu hpick
  · exact h.ahead

theorem Behind.run {s s' : Watched n} (h : Behind s u t) (hs : s.Orderly)
    (hrun : Run Watches (fun s a => picked s.kernel a ≠ some u) s s') :
    s'.Orderly ∧ Behind s' u t := by
  apply hrun.invariant (fun s => s.Orderly ∧ Behind s u t) ⟨hs, h⟩
  intro s a s' hs hu hw
  exact ⟨hs.1.step hw, hs.2.step hs.1 hu hw⟩

theorem Behind.not_picked {s : Watched n} (h : Behind s u t) (hs : s.Orderly) (d : Fin n) :
    picked s.kernel (.pick d) ≠ some t := by
  obtain ⟨q, loc, hp, ho⟩ := hs
  intro hpick
  exact (ho.foremost hp.lined.queues hpick).not_ahead ho.nodup h.prio h.ahead

/-- There is an idle thread for every CPU, and none of them is at its end. -/
def Staffed (k : Kernel n) : Prop :=
  ∀ t < n, (k.td t).idle = true ∧ (k.td t).life = .live ∧ (k.td t).state ≠ .terminating

def Thread.Lasts (th : Thread n) : Prop := th.life = .live ∧ th.state ≠ .terminating

theorem lasts_update {th : Thread n} (h : (k.td t).Lasts) (hu : (k.td u).Lasts → th.Lasts) :
    (update k.td u th t).Lasts := by
  by_cases ht : t = u
  · subst ht
    rw [update_self]
    exact hu h
  · rw [update_of_ne ht]
    exact h

theorem Step.lasts (hs : Step k a k') (h : (k.td t).Lasts)
    (ht : ∀ c, a = .terminate c → k.caller c ≠ some t) : (k'.td t).Lasts := by
  cases hs with
  | release | quantum | late | timeout | postAck | postWake | sleep | yield =>
    exact lasts_update h fun hu => ⟨hu.1, by rintro ⟨⟩⟩
  | reap hc hp hst => exact lasts_update h fun hu => absurd hst hu.2
  | interrupt | wakeup | postCancel | enter | retSem | ret => exact lasts_update h id
  | switch =>
    refine lasts_update h fun hu => ⟨hu.1, ?_⟩
    simp only [Thread.picked]
    split
    · exact hu.2
    · rintro ⟨⟩
  | switchTimed hc hq hi =>
    refine lasts_update h fun hu => ⟨hu.1, ?_⟩
    simp only [Thread.picked, hi, Bool.false_eq_true, if_false]
    rintro ⟨⟩
  | block =>
    refine lasts_update h fun hu => ?_
    unfold waiter
    dsimp only
    split
    · exact ⟨hu.1, by rintro ⟨⟩⟩
    · exact ⟨hu.1, by rintro ⟨⟩⟩
  | terminate hc hp =>
    rename_i c u
    have hne : t ≠ u := by
      rintro rfl
      exact ht c rfl (caller_of hc hp)
    have hsame : (mdxThreadTerminate k u).td t = k.td t := update_of_ne hne _ _
    rw [hsame]
    exact h
  | create => exact lasts_update h fun _ => ⟨rfl, by rintro ⟨⟩⟩
  | _ => exact h

theorem Staffed.step (h : Staffed k) (hok : IdleStays k a) (hs : Step k a k') : Staffed k' := by
  intro t htn
  obtain ⟨hidle, hlive, hst⟩ := h t htn
  have hlasts : (k'.td t).Lasts := by
    refine hs.lasts ⟨hlive, hst⟩ fun c ha hc => ?_
    subst ha
    simp only [IdleStays, hc] at hok
    rw [hidle] at hok
    cases hok
  refine ⟨?_, hlasts⟩
  rcases hs.alike t with hk | ⟨c, prio, quantumUsec, -, hu, -⟩
  · exact hk.idle.trans hidle
  · rw [hlive] at hu
    cases hu

theorem boot_staffed (n nprio : Nat) (usecToTicks : Nat → Nat) (count : Nat → Int) :
    Staffed (boot n nprio usecToTicks count) := by
  intro t ht
  simp only [boot, if_pos ht]
  exact ⟨rfl, rfl, by rintro ⟨⟩⟩

theorem Settled.idle_queued (h : Settled k q loc) (hidle : (k.td t).idle = true)
    (hlasts : (k.td t).Lasts) (hcpu : (loc t).cpu = none) : ∃ p, t ∈ q (.runq p) := by
  have hg := h.good t
  have hfiled (p : Nat) := (h.lined.filed t (.runq p)).1
  have hbusy (hi : (k.td t).idle = false) : False := by
    rw [hidle] at hi
    cases hi
  simp only [comp_apply] at hfiled
  generalize loc t = l at hg hcpu hfiled
  cases l with
  | queued p => exact ⟨p, hfiled p rfl⟩
  | unborn | dead => exact absurd (hlasts.1.symm.trans hg.1) (by decide)
  | waiting s | spun s p | handed s p | freed s p => exact (hbusy hg.2.2.1.1).elim
  | asleep => exact (hbusy hg.2.2.2.2.1).elim
  | _ => cases hcpu

theorem Settled.idle_waits (h : Settled k q loc) (hst : Staffed k) (hc : (k.cpu c).td = none) :
    ∃ t p, t ∈ q (.runq p) := by
  obtain ⟨i, hi⟩ := h.seated.held.exists_unplaced (fun i : Fin n => i.val)
    (fun _ _ hij => Fin.ext hij) hc
  obtain ⟨hidle, hlasts⟩ := hst i i.isLt
  exact ⟨i, h.idle_queued hidle hlasts hi⟩

theorem mdxSchedPick_none (hq : Queues m q) (h : mdxSchedPick m i = none) (hp : p < i) :
    q (.runq p) = [] := by
  induction i with
  | zero => cases hp
  | succ i ih =>
    simp only [mdxSchedPick] at h
    split at h
    · cases h
    · rename_i hf
      rcases Nat.lt_succ_iff_lt_or_eq.1 hp with hlt | rfl
      · exact ih h hlt
      · exact firstOf_none hq hf

theorem InOrder.pick_finds (h : InOrder k q ws) (hp : Settled k q loc) (hst : Staffed k) :
    exec k (.pick c) ≠ .error (.panic .threadNotFound) := by
  intro hx
  simp only [exec, pick] at hx
  split at hx
  · rename_i u intr hc
    split at hx
    · cases hx
    · rename_i hnone
      have hcpu : (k.cpu c).td = none := by
        rw [hc]
        rfl
      obtain ⟨t, p, ht⟩ := hp.idle_waits hst hcpu
      have hmem := ht
      rw [h.runq, mem_level] at hmem
      have hlt := h.bound t hmem.1
      rw [hmem.2] at hlt
      rw [mdxSchedPick_none hp.lined.queues hnone hlt] at ht
      cases ht
  · cases hx

theorem run_orderly (h : Run Watches (fun s a => IdleStays s.kernel a)
      ⟨boot n nprio usecToTicks count, []⟩ s) : s.Orderly ∧ Staffed s.kernel := by
  apply h.invariant (fun s => s.Orderly ∧ Staffed s.kernel)
    ⟨boot_orderly n nprio usecToTicks count, boot_staffed n nprio usecToTicks count⟩
  intro s a s' hs hok hw
  exact ⟨hs.1.step hw, hs.2.step hok (exec_step (watch_ok hw).1)⟩

theorem pick_chosen (hx : exec k (.pick c) = .ok k') :
    ∃ t, mdxSchedPick k.links k.nprio = some t ∧ (k'.cpu c).ctx = .chosen t := by
  simp only [exec, pick] at hx
  split at hx
  · split at hx
    · rename_i t hk
      cases hx
      refine ⟨t, hk, ?_⟩
      simp only [Kernel.setCpu, update_self]
    · cases hx
  · cases hx

/-- In every run of the scheduler, on any number of CPUs that boot on their idle threads: the run
queues hold the waiting threads; the thread that `mdx_sched_next` takes has waited longest among
those of the highest priority, and it is not taken again before a thread of its priority that
waited then; and there is a thread whenever one is to be picked. -/
theorem runq_stable (h : Run Watches (fun s a => IdleStays s.kernel a)
      ⟨boot n nprio usecToTicks count, []⟩ s) :
    (∀ t, t ∈ s.waiting ↔ OnRunq s.kernel t) ∧
    (∀ c s', watch s (.pick c) = .ok s' → ∃ t, (s'.kernel.cpu c).ctx = .chosen t ∧
      Foremost s.kernel.prio s.waiting t ∧
      ∀ u ∈ s.waiting, u ≠ t → s.kernel.prio u = s.kernel.prio t →
        ∀ s'', Run Watches (fun s a => picked s.kernel a ≠ some u) s' s'' →
          ∀ d, picked s''.kernel (.pick d) ≠ some t) ∧
    ∀ c, exec s.kernel (.pick c) ≠ .error (.panic .threadNotFound) := by
  obtain ⟨horderly, hst⟩ := run_orderly h
  have hs := horderly
  obtain ⟨q, loc, hp, ho⟩ := hs
  refine ⟨fun t => ?_, fun c s' hw => ?_, fun c => ho.pick_finds hp hst⟩
  · exact ho.mem_iff.trans (onRunq_iff hp.lined.queues).symm
  · obtain ⟨hx, hws⟩ := watch_ok hw
    obtain ⟨t, hk, hchosen⟩ := pick_chosen hx
    have hfore := ho.foremost hp.lined.queues hk
    refine ⟨t, hchosen, hfore, fun u hu hne hprio s'' hrun d => ?_⟩
    have harrive : s'.waiting = s.waiting.erase t := by
      simp only [hws, arrive, added, picked, hk]
    obtain ⟨hpu, hbu⟩ := (exec_step hx).prio_eq (ho.born hp hu)
    obtain ⟨hpt, hbt⟩ := (exec_step hx).prio_eq (ho.born hp hfore.mem)
    have hbehind : Behind s' u t := by
      refine ⟨?_, hpu.trans (hprio.trans hpt.symm), hbu, hbt⟩
      rw [harrive]
      exact ahead_of_taken ho.nodup hu hne
    obtain ⟨horderly', hbehind'⟩ := hbehind.run (horderly.step hw) hrun
    exact hbehind'.not_picked horderly' d

theorem runq_stable_two :
    ∃ s, Run Watches (fun s a => IdleStays s.kernel a) ⟨boot 1 2 id fun _ => 0, []⟩ s ∧
      s.waiting = [1, 2, 0] ∧ (s.kernel.cpu 0).ctx = .handler 0 true false ∧
      (∀ t, t ∈ [1, 2, 0] ↔ OnRunq s.kernel t) ∧
      exec s.kernel (.pick 0) ≠ .error (.panic .threadNotFound) := by
  obtain ⟨s, hrun, hws, hc⟩ := Run.of_guarded watch (fun s a => IdleStays s.kernel a)
    ⟨boot 1 2 id fun _ => 0, []⟩
    [.create 0 1 1 0, .create 0 2 1 0, .enter 0, .trap 0 false, .park 0]
    (fun s => s.waiting = [1, 2, 0] ∧ (s.kernel.cpu 0).ctx = .handler 0 true false)
    (by decide +kernel)
  obtain ⟨hmem, -, hpick⟩ := runq_stable hrun
  rw [hws] at hmem
  exact ⟨s, hrun, hws, hc, hmem, hpick 0⟩

end
end Mdepx.Sched
