import Mdepx.Sched.Keep

namespace Mdepx.Sched
open Lib Function List

/-! The scheduler refines the semaphores of `Lib.Semaphore`. -/

def phaseOf (q : Head → List Nat) (t : Nat) (th : Thread n) : Semaphore.Phase Nat :=
  match th.pc.call with
  | some (.semTimedwait s usec) =>
    if t ∈ q (.sem s) then .pending s else if semResult th usec then .won s else .lost s
  | _ => .idle

def Kernel.spec (k : Kernel n) (q : Head → List Nat) : Semaphore.State Nat Nat :=
  ⟨fun s => (k.sem s).count, fun s => q (.sem s), fun t => phaseOf q t (k.td t)⟩

def Event.sem? : Event → Option (Semaphore.Event Nat Nat)
  | .inserted _ _ => none
  | .sem e => some e

def semLog (log : List Event) : List (Semaphore.Event Nat Nat) := log.filterMap Event.sem?

def YieldsFree (k : Kernel n) : Act n → Prop
  | .yield c => ∀ t, k.caller c = some t → (k.td t).quantum = 0
  | _ => True

/-- No post finds `td_list` empty and the largest `int` in `sem_count`. -/
def NoWrap (k : Kernel n) : Act n → Prop
  | .post _ s => firstOf k.links (.sem s) = none → (k.sem s).count < 2 ^ 31 - 1
  | _ => True

instance (k : Kernel n) : (a : Act n) → Decidable (YieldsFree k a)
  | .yield c => inferInstanceAs (Decidable (∀ t ∈ k.caller c, (k.td t).quantum = 0))
  | .trap .. | .fire .. | .fireSleep .. | .park .. | .pick .. | .switch .. | .wait ..
  | .trywait .. | .post .. | .postNext .. | .tsleep .. | .terminate .. | .enter .. | .create ..
  | .ret .. => isTrue trivial

instance (k : Kernel n) : (a : Act n) → Decidable (NoWrap k a)
  | .post _ s =>
    inferInstanceAs (Decidable (firstOf k.links (.sem s) = none → (k.sem s).count < 2 ^ 31 - 1))
  | .trap .. | .fire .. | .fireSleep .. | .park .. | .pick .. | .switch .. | .wait ..
  | .trywait .. | .yield .. | .postNext .. | .tsleep .. | .terminate .. | .enter .. | .create ..
  | .ret .. => isTrue trivial

structure Tracked (k : Kernel n) (q : Head → List Nat) (a : Act n) (k' : Kernel n)
    (q' : Head → List Nat) (loc' : Nat → Loc n) : Prop where
  placed : Placed k' q' loc'
  fresh : ∀ t, .inserted t true ∈ k'.log → .inserted t true ∈ k.log
  spec : ∃ evs, semLog k'.log = evs ++ semLog k.log ∧
    ((∀ s, 0 ≤ (k.sem s).count) → NoWrap k a → Semaphore.Step (k.spec q) evs (k'.spec q'))

section
variable {k k' : Kernel n} {q q' : Head → List Nat} {loc loc' : Nat → Loc n} {a : Act n}

theorem phaseOf_idle {th : Thread n} (h : ∀ s usec, th.pc.call ≠ some (.semTimedwait s usec)) :
    phaseOf q t th = .idle := by
  unfold phaseOf
  split
  · rename_i s usec hc
    exact absurd hc (h s usec)
  · rfl

theorem phaseOf_congr {th th' : Thread n} (hp : th'.pc.call = th.pc.call)
    (ht : th'.timeout = th.timeout) (hq : ∀ s, t ∈ q' (.sem s) ↔ t ∈ q (.sem s)) :
    phaseOf q' t th' = phaseOf q t th := by
  unfold phaseOf
  rw [hp]
  split
  · rename_i s usec _
    have hr : semResult th' usec = semResult th usec := by simp only [semResult, ht]
    rw [hr]
    exact if_congr (hq s) rfl rfl
  · rfl

theorem phaseOf_update {th : Thread n} (ht : phaseOf q' t th = phaseOf q t (k.td t))
    (hq : ∀ s u, u ≠ t → (u ∈ q' (.sem s) ↔ u ∈ q (.sem s))) (u : Nat) :
    phaseOf q' u (update k.td t th u) = phaseOf q u (k.td u) := by
  by_cases hu : u = t
  · subst hu
    rw [update_self]
    exact ht
  · rw [update_of_ne hu]
    exact phaseOf_congr rfl rfl fun s => hq s u hu

theorem Placed.quiet (hp : Placed k' q' loc')
    (hlog : k'.log = k.log ∨ ∃ t, k'.log = .inserted t false :: k.log)
    (hc : ∀ s, (k'.sem s).count = (k.sem s).count) (hq : ∀ s, q' (.sem s) = q (.sem s))
    (hph : ∀ u, phaseOf q' u (k'.td u) = phaseOf q u (k.td u)) : Tracked k q a k' q' loc' := by
  refine ⟨hp, ?_, [], ?_, ?_⟩
  · intro t ht
    rcases hlog with hlog | ⟨u, hlog⟩
    · rw [hlog] at ht
      exact ht
    · rw [hlog] at ht
      rcases mem_cons.1 ht with ht | ht
      · cases ht
      · exact ht
  · rcases hlog with hlog | ⟨u, hlog⟩
    · rw [hlog]
      rfl
    · rw [hlog]
      rfl
  · intro _ _
    have he : k'.spec q' = k.spec q := by
      simp only [Kernel.spec, hc, hq, hph]
    rw [he]
    exact .quiet

theorem Placed.quietTd (hp : Placed k' q loc') (hlog : k'.log = k.log)
    (hc : ∀ s, (k'.sem s).count = (k.sem s).count) (htd : k'.td = update k.td t th)
    (hph : phaseOf q t th = phaseOf q t (k.td t)) : Tracked k q a k' q loc' := by
  apply hp.quiet (.inl hlog) hc fun _ => rfl
  rw [htd]
  exact phaseOf_update hph fun _ _ _ => Iff.rfl

theorem Placed.quietRunq (h : Placed k q loc)
    (hp : Placed k' (update q (.runq p) ts) loc')
    (ht : (loc t).head = none) (hlog : k'.log = .inserted t (!listEmpty k.links (.inr t)) :: k.log)
    (hc : ∀ s, (k'.sem s).count = (k.sem s).count) (htd : k'.td = update k.td t th)
    (hph : phaseOf q t th = phaseOf q t (k.td t)) :
    Tracked k q a k' (update q (.runq p) ts) loc' := by
  have hq (s : Nat) : update q (.runq p) ts (.sem s) = q (.sem s) :=
    update_of_ne (by simp) _ _
  rw [h.lined.unlinked ht] at hlog
  apply hp.quiet (.inr ⟨t, hlog⟩) hc hq
  rw [htd]
  apply phaseOf_update
  · rw [← hph]
    apply phaseOf_congr rfl rfl
    intro s
    rw [hq]
  · intro s u _
    rw [hq]

theorem phase_user {th : Thread n} (hp : th.pc = .user) : phaseOf q t th = .idle := by
  apply phaseOf_idle
  intro s usec hc
  rw [hp] at hc
  cases hc

theorem caller_of (hc : k.cpu c = ⟨.thread t, none⟩) (hp : (k.td t).pc = .user) :
    k.caller c = some t := by
  unfold Kernel.caller
  rw [hc]
  exact if_pos hp

theorem count_setSem (s : Nat) (sem : Sem n) (hs : sem.count = (k.sem s).count) (s' : Nat) :
    (update k.sem s sem s').count = (k.sem s').count := by
  by_cases h : s' = s
  · subst h
    rw [update_self]
    exact hs
  · rw [update_of_ne h]

section
variable (k : Kernel n)

theorem spec_note (e : Event) : (k.note e).spec q = k.spec q := rfl

theorem spec_enqueue (i : Head) (t : Nat) : (k.enqueue i t).spec q = k.spec q := rfl

theorem note_setSem (e : Event) (s : Nat) (sem : Sem n) :
    (k.note e).setSem s sem = (k.setSem s sem).note e := rfl

theorem spec_setCount (s : Nat) (count : Int) :
    (k.setSem s { k.sem s with count := count }).spec q =
      { k.spec q with count := update (k.spec q).count s count } := by
  apply Semaphore.State.ext
  · exact comp_update Sem.count k.sem s _
  · rfl
  · rfl

theorem spec_setTd (t : Nat) (th : Thread n) :
    (k.setTd t th).spec q =
      { k.spec q with phase := update (k.spec q).phase t (phaseOf q t th) } := by
  apply Semaphore.State.ext
  · rfl
  · rfl
  · funext u
    by_cases hu : u = t
    · subst hu
      simp only [Kernel.spec, Kernel.setTd, update_self]
    · simp only [Kernel.spec, Kernel.setTd, update_of_ne hu]

end

theorem Placed.take (h : Placed k q loc) (hn : 0 < (k.sem s).count) :
    Tracked k q a ((k.setSem s { k.sem s with count := (k.sem s).count - 1 }).note
      (.sem (.took s))) q loc := by
  refine ⟨(h.setCount s _).note, ?_, [.took s], rfl, ?_⟩
  · intro t ht
    rcases mem_cons.1 ht with ht | ht
    · cases ht
    · exact ht
  · intro _ _
    rw [spec_note, spec_setCount]
    exact .take hn

theorem Placed.post (h : Placed k q loc) (hf : firstOf k.links (.sem s) = none) :
    Tracked k q (.post c s) ((k.note (.sem (.posted s))).setSem s
      { k.sem s with count := ((k.sem s).count + 1).bmod (2 ^ 32) }) q loc := by
  refine ⟨h.note.setCount s _, ?_, [.posted s], rfl, ?_⟩
  · intro t ht
    rcases mem_cons.1 ht with ht | ht
    · cases ht
    · exact ht
  · intro hpos hwrap
    have hb : ((k.sem s).count + 1).bmod (2 ^ 32) = (k.sem s).count + 1 := by
      have h1 := hpos s
      have h2 := hwrap hf
      apply Int.bmod_eq_of_le
      · omega
      · omega
    rw [hb, note_setSem, spec_note, spec_setCount]
    exact .post (firstOf_none h.lined.queues hf)

theorem Placed.returned (h : Placed k q loc) (hc : k.cpu c = ⟨.thread t, none⟩)
    (hp : (k.td t).pc = .after (.semTimedwait s usec)) :
    Tracked k q a ((k.setTd t { k.td t with pc := .user }).note
      (.sem (.returned t s (semResult (k.td t) usec)))) q loc := by
  have hb : ∀ call, (k.td t).pc ≠ .before call := by
    intro call
    rw [hp]
    simp
  refine ⟨(h.goOn hc hb .user).note, ?_, [.returned t s (semResult (k.td t) usec)], rfl, ?_⟩
  · intro u hu
    rcases mem_cons.1 hu with hu | hu
    · cases hu
    · exact hu
  · intro _ _
    have hout : t ∉ q (.sem s) := by
      intro hm
      have hl := (h.lined.filed t (.sem s)).2 hm
      rw [comp_apply, h.caller hc hb] at hl
      cases hl
    have hph : phaseOf q t (k.td t) = if semResult (k.td t) usec then .won s else .lost s := by
      simp only [phaseOf, hp, Pc.call, if_neg hout]
    rw [spec_note, spec_setTd, phase_user rfl]
    exact .finish hph

theorem spec_runq (k : Kernel n) (q : Head → List Nat) (p : Nat) (ts : List Nat) :
    k.spec (update q (.runq p) ts) = k.spec q := by
  have hq (s : Nat) : update q (.runq p) ts (.sem s) = q (.sem s) :=
    update_of_ne (by simp) _ _
  apply Semaphore.State.ext
  · rfl
  · funext s
    exact hq s
  · funext t
    apply phaseOf_congr rfl rfl
    intro s
    rw [hq]

theorem spec_queue (k : Kernel n) (th : Thread n)
    (hts : ∀ u, u ≠ t → (u ∈ ts ↔ u ∈ q (.sem s))) :
    (k.setTd t th).spec (update q (.sem s) ts) =
      { k.spec q with
        waiters := update (k.spec q).waiters s ts
        phase := update (k.spec q).phase t
          (phaseOf (update q (.sem s) ts) t th) } := by
  rw [spec_setTd]
  apply Semaphore.State.ext
  · rfl
  · funext s'
    by_cases hs : s' = s
    · subst hs
      simp only [Kernel.spec, update_self]
    · have hne : Head.sem s' ≠ Head.sem s := by simpa using hs
      simp only [Kernel.spec, update_of_ne hs, update_of_ne hne]
  · funext u
    by_cases hu : u = t
    · subst hu
      simp only [update_self]
    · simp only [Kernel.spec, update_of_ne hu]
      apply phaseOf_congr rfl rfl
      intro s'
      by_cases hs : s' = s
      · subst hs
        rw [update_self]
        exact hts u hu
      · have hne : Head.sem s' ≠ Head.sem s := by simpa using hs
        rw [update_of_ne hne]

theorem spec_setLock (k : Kernel n) (s : Nat) (lock : Option (Fin n)) :
    (k.setSem s { k.sem s with lock := lock }).spec q = k.spec q := by
  apply Semaphore.State.ext
  · funext s'
    exact count_setSem (k := k) s { k.sem s with lock := lock } rfl s'
  · rfl
  · rfl

theorem Placed.blocked (h : Placed k q loc) (hc : k.cpu c = ⟨.thread t, none⟩)
    (hp : (k.td t).pc = .user) (hi : (k.td t).idle = false) (hn : ¬0 < (k.sem s).count) :
    Tracked k q a (((k.setTd t (waiter c s usec (k.usecToTicks usec) (k.td t))).enqueue
      (.sem s) t).note (.sem (.blocked t s))) (update q (.sem s) (q (.sem s) ++ [t]))
      (update loc t (.entering s c)) := by
  have hl := h.caller hc (by rw [hp]; simp)
  have hfresh : (!listEmpty k.links (.inr t)) = false := h.lined.unlinked (by rw [hl]; rfl)
  refine ⟨(h.block hc hp hi s usec _).note, ?_, [.blocked t s], rfl, ?_⟩
  · intro u hu
    rcases mem_cons.1 hu with hu | hu
    · cases hu
    · rcases mem_cons.1 hu with hu | hu
      · rw [Event.inserted.injEq] at hu
        have hf : true = false := hu.2.trans hfresh
        cases hf
      · exact hu
  · intro _ _
    have hcall :
        (waiter c s usec (k.usecToTicks usec) (k.td t)).pc = .before (.semTimedwait s usec) :=
      rfl
    have hph : phaseOf (update q (.sem s) (q (.sem s) ++ [t])) t
        (waiter c s usec (k.usecToTicks usec) (k.td t)) = .pending s := by
      simp [phaseOf, hcall, Pc.call]
    have hmem (u : Nat) (hu : u ≠ t) : u ∈ q (.sem s) ++ [t] ↔ u ∈ q (.sem s) := by simp [hu]
    have hspec := spec_queue k (waiter c s usec (k.usecToTicks usec) (k.td t)) hmem
    rw [hph] at hspec
    rw [spec_note, spec_enqueue, hspec]
    exact .block hn (phase_user hp)

theorem Waits.won {th : Thread n} (h : th.Waits s) (hq : t ∉ q (.sem s)) :
    phaseOf q t th = .won s := by
  obtain ⟨-, usec, hc, -, htime⟩ := h
  have hr : semResult th usec = true := by
    by_cases hu : usec = 0
    · simp [semResult, hu]
    · simp [semResult, htime hu]
  simp only [phaseOf, hc, if_neg hq, hr, if_true]

section
variable (h : Placed k q loc)
include h

theorem Placed.sem_waits (ht : t ∈ q (.sem s)) : (k.td t).Waits s := by
  have hg := h.good t
  rcases h.in_sem ht with ⟨d, hl⟩ | hl
  · rw [hl] at hg
    exact hg.2.2.1
  · rw [hl] at hg
    exact hg.2.2.1

theorem Placed.handedTo (hc : (k.cpu c).post = none) (hk : (k.sem s).lock = none)
    (hf : firstOf k.links (.sem s) = some t) :
    ∃ q' loc', Tracked k q a (((((k.note (.sem (.posted s))).dequeue t).setSem s
      { k.sem s with lock := some c }).setCpu c
        { k.cpu c with post := some ⟨t, s, .spin⟩ }).note (.sem (.handed t s))) q' loc' := by
  obtain ⟨ts, hts⟩ := firstOf_eq h.lined.queues hf
  have hnodup := h.lined.queues.nodup (.sem s)
  have ht : t ∈ q (.sem s) := by
    rw [hts]
    exact mem_cons_self
  have herase : (q (.sem s)).erase t = ts := by
    rw [hts, erase_cons_head]
  obtain ⟨loc', hp⟩ := h.postTo hc hk ht
  rw [herase] at hp
  refine ⟨_, loc', ⟨hp.lined, hp.seated, hp.posting, hp.good, hp.lock⟩, ?_,
    [.handed t s, .posted s], rfl, ?_⟩
  · intro u hu
    rcases mem_cons.1 hu with hu | hu
    · cases hu
    · rcases mem_cons.1 hu with hu | hu
      · cases hu
      · exact hu
  · intro _ _
    rw [hts] at hnodup
    have hout : t ∉ ts := (nodup_cons.1 hnodup).1
    have hw : phaseOf (update q (.sem s) ts) t (k.td t) = .won s := by
      apply Waits.won (h.sem_waits ht)
      rw [update_self]
      exact hout
    have hmem (u : Nat) (hu : u ≠ t) : u ∈ ts ↔ u ∈ q (.sem s) := by
      rw [hts, mem_cons]
      exact ⟨.inr, fun hm => hm.resolve_left hu⟩
    have hspec := spec_queue k (k.td t) hmem
    rw [hw, Kernel.setTd, update_eq_self] at hspec
    have hlock := spec_setLock (q := update q (.sem s) ts) k s (some c)
    rw [hspec] at hlock
    show Semaphore.Step _ _ ((k.setSem s { k.sem s with lock := some c }).spec _)
    rw [hlock]
    exact .hand hts

theorem Placed.timedOut (hl : loc t = .waiting s) (hco : c ∈ (k.td t).tdC.linked) :
    Tracked k q a (((((k.dequeue t).setTd t
        { k.td t with tdC := (k.td t).tdC.fired, timeout := true, state := .wakeup }).note
          (.sem (.timedOut t s)))).enqueue (.runq (k.td t).prio) t)
      (update (update q (.sem s) ((q (.sem s)).erase t))
        (.runq (k.td t).prio) (q (.runq (k.td t).prio) ++ [t]))
      (update loc t (.queued (k.td t).prio)) := by
  have hg := h.good_at hl
  have ht : t ∈ q (.sem s) := by
    apply (h.lined.filed t (.sem s)).1
    rw [comp_apply, hl]
    rfl
  have hnodup := h.lined.queues.nodup (.sem s)
  have hfresh : (!listEmpty (listRemove k.links (.inr t)) (.inr t)) = false := by
    have hout := h.lined.remove (t := t) (i := .sem s) (l := .dead) (by rw [hl]; rfl) rfl
    exact hout.unlinked (by rw [update_self]; rfl)
  refine ⟨h.timeout hl, ?_, [.timedOut t s], rfl, ?_⟩
  · intro u hu
    rcases mem_cons.1 hu with hu | hu
    · rw [Event.inserted.injEq] at hu
      have hf : true = false := hu.2.trans hfresh
      cases hf
    · rcases mem_cons.1 hu with hu | hu
      · cases hu
      · exact hu
  · intro _ _
    obtain ⟨-, usec, hcall, hzero, -⟩ := hg.2.2.1
    have husec : usec ≠ 0 := fun hz => (hzero hz).not_linked hco
    have hlost : phaseOf (update q (.sem s) ((q (.sem s)).erase t)) t
        { k.td t with tdC := (k.td t).tdC.fired, timeout := true, state := .wakeup } = .lost s := by
      simp [phaseOf, hcall, hnodup.mem_erase_iff, semResult, husec]
    have hmem (u : Nat) (hu : u ≠ t) : u ∈ (q (.sem s)).erase t ↔ u ∈ q (.sem s) :=
      mem_erase_of_ne hu
    have hspec := spec_queue k
      { k.td t with tdC := (k.td t).tdC.fired, timeout := true, state := .wakeup } hmem
    rw [hlost] at hspec
    rw [spec_enqueue, spec_note, spec_runq]
    show Semaphore.Step _ _ ((k.setTd t _).spec _)
    rw [hspec]
    exact .expire ht

theorem Placed.waiting_ack (hl : loc t = .waiting s) : (k.td t).state = .ack := by
  have hg := h.good_at hl
  exact hg.2.2.2.1

theorem Placed.unborn_user (hl : loc t = .unborn) : (k.td t).pc = .user := by
  have hg := h.good_at hl
  exact hg.2.2

end

theorem phase_other {th th' : Thread n} (hp : th.pc = .user)
    (hc : ∀ s usec, th'.pc.call ≠ some (.semTimedwait s usec)) :
    phaseOf q t th' = phaseOf q t th := by
  rw [phase_user hp, phaseOf_idle hc]

theorem Placed.step (h : Placed k q loc) (hy : YieldsFree k a) (hs : Step k a k') :
    ∃ q' loc', Tracked k q a k' q' loc' := by
  cases hs with
  | release hc hp hst =>
    obtain ⟨loc', hk⟩ := h.release hc hp hst
    exact ⟨q, loc', hk.quietTd rfl (fun _ => rfl) rfl
      (phaseOf_congr (trapPc_call hp) rfl fun _ => Iff.rfl)⟩
  | reap hc hp hst =>
    obtain ⟨loc', hk⟩ := h.reap hc hst
    exact ⟨q, loc', hk.quietTd rfl (fun _ => rfl) rfl
      (phaseOf_congr (trapPc_call hp) rfl fun _ => Iff.rfl)⟩
  | interrupt hc hp hst =>
    obtain ⟨loc', hk⟩ := h.interrupt hc hst
    exact ⟨q, loc', hk.quietTd rfl (fun _ => rfl) rfl
      (phaseOf_congr (trapPc_call hp) rfl fun _ => Iff.rfl)⟩
  | quantum hc hl hf =>
    obtain ⟨hlt, -⟩ := h.fires_sched hc hl hf
    exact ⟨q, loc, (h.quantum hlt).quietTd rfl (fun _ => rfl) rfl rfl⟩
  | late hc hl hf hk hst =>
    rcases h.fires_sem hc hl hf hk with hlt | ⟨p, hlt, -⟩
    · exact absurd (hst.symm.trans (h.waiting_ack hlt)) (by decide)
    · exact ⟨q, loc, (h.late hlt).quietTd rfl (fun _ => rfl) rfl rfl⟩
  | timeout hc hl hf hk hst =>
    rcases h.fires_sem hc hl hf hk with hlt | ⟨p, -, hsu⟩
    · exact ⟨_, _, h.timedOut hlt hl⟩
    · exact absurd (hst.symm.trans hsu) (by decide)
  | wakeup hc hl =>
    have hlt := h.fires_sleep hc hl
    exact ⟨_, _, h.quietRunq (h.wakeup hlt) (by rw [hlt]; rfl) rfl (fun _ => rfl) rfl rfl⟩
  | resume hc =>
    obtain ⟨loc', hk⟩ := h.resume hc
    exact ⟨q, loc', hk.quiet (.inl rfl) (fun _ => rfl) (fun _ => rfl) fun _ => rfl⟩
  | requeue hc hst =>
    exact ⟨_, _, h.quietRunq (h.requeue hc hst) (by rw [h.interrupted hc]; rfl) rfl (fun _ => rfl)
      (update_eq_self _ _).symm rfl⟩
  | pick hc hp =>
    obtain ⟨p, ts, hts⟩ := mdxSchedPick_eq h.lined.queues hp
    have hq (q₁ : List Nat) (s : Nat) : update q (.runq p) q₁ (.sem s) = q (.sem s) :=
      update_of_ne (by simp) _ _
    refine ⟨_, _, (h.pick hc (by rw [hts]; exact mem_cons_self)).quiet (.inl rfl)
      (fun _ => rfl) (hq _) ?_⟩
    intro u
    apply phaseOf_congr rfl rfl
    intro s
    rw [hq]
  | switch hc =>
    obtain ⟨loc', hk⟩ := h.switch hc
    exact ⟨q, loc', hk.quietTd rfl (fun _ => rfl) rfl rfl⟩
  | switchTimed hc hq hi =>
    obtain ⟨loc', hk⟩ := h.switchTimed hc hq hi
    exact ⟨q, loc', hk.quietTd rfl (fun _ => rfl) rfl rfl⟩
  | take _ _ _ hn | tryTake _ hn => exact ⟨q, loc, h.take hn⟩
  | block hc hp hi hk hn => exact ⟨_, _, h.blocked hc hp hi hn⟩
  | tryFail => exact ⟨q, loc, h.quiet (.inl rfl) (fun _ => rfl) (fun _ => rfl) fun _ => rfl⟩
  | post hc hk hf => exact ⟨q, loc, h.post hf⟩
  | postTo hc hk hf => exact h.handedTo hc hk hf
  | postAck hc hst =>
    obtain ⟨loc', hk⟩ := h.postAck hc hst
    exact ⟨q, loc', hk.quietTd rfl (count_setSem _ _ rfl) rfl rfl⟩
  | postCancel hc =>
    obtain ⟨loc', hk⟩ := h.postCancel hc
    exact ⟨q, loc', hk.quietTd rfl (fun _ => rfl) rfl rfl⟩
  | postWake hc =>
    exact ⟨_, _, h.quietRunq (h.postWake hc) (by rw [h.waking hc]; rfl) rfl (fun _ => rfl) rfl rfl⟩
  | sleep hc hp hn hi =>
    obtain ⟨loc', hk⟩ := h.sleep hc hp hn hi
    exact ⟨q, loc', hk.quietTd rfl (fun _ => rfl) rfl (phase_other hp (by simp [Pc.call]))⟩
  | yield hc hp =>
    have hk := h.yield hc hp (hy _ (caller_of hc hp))
    exact ⟨q, loc, hk.quietTd rfl (fun _ => rfl) rfl (phase_other hp (by simp [Pc.call]))⟩
  | terminate hc hp =>
    obtain ⟨loc', hk⟩ := h.terminate hc hp
    exact ⟨q, loc', hk.quietTd rfl (fun _ => rfl) rfl (phase_other hp (by simp [Pc.call]))⟩
  | enter hc hp =>
    have hk := h.goOn hc (by rw [hp]; simp) (.before .schedEnter)
    exact ⟨q, loc, hk.quietTd rfl (fun _ => rfl) rfl (phase_other hp (by simp [Pc.call]))⟩
  | create hlife =>
    have hlt := h.unborn hlife
    exact ⟨_, _, h.quietRunq (h.create hlife) (by rw [hlt]; rfl) rfl (fun _ => rfl) rfl
      (phase_other (h.unborn_user hlt) (by simp [Pc.call, mdxThreadSetup]))⟩
  | retSem hc hp => exact ⟨q, loc, h.returned hc hp⟩
  | ret hc hp hcall =>
    have hk := h.goOn hc (by rw [hp]; simp) .user
    refine ⟨q, loc, hk.quietTd rfl (fun _ => rfl) rfl ?_⟩
    rw [phase_user rfl, phaseOf_idle]
    intro s usec hs
    rw [hp] at hs
    exact hcall s usec (Option.some.inj hs)

def bootLoc (n t : Nat) : Loc n := if h : t < n then .running ⟨t, h⟩ else .unborn

theorem bootLoc_idle (c : Fin n) : bootLoc n c = .running c := dif_pos c.isLt

theorem bootLoc_cases (n t : Nat) : (∃ c : Fin n, c.val = t ∧ bootLoc n t = .running c) ∨
    n ≤ t ∧ bootLoc n t = .unborn := by
  by_cases h : t < n
  · exact .inl ⟨⟨t, h⟩, rfl, dif_pos h⟩
  · exact .inr ⟨Nat.le_of_not_lt h, dif_neg h⟩

theorem boot_placed (n nprio : Nat) (usecToTicks : Nat → Nat) (count : Nat → Int) :
    Placed (boot n nprio usecToTicks count) (fun _ => []) (bootLoc n) := by
  have hring (x : Head ⊕ Nat) : Ring (⟨id, id⟩ : Links (Head ⊕ Nat)) x [] :=
    ⟨nodup_singleton x, rfl, rfl⟩
  refine ⟨⟨⟨fun i => hring _, ?_, fun t _ => hring _⟩, ?_⟩, ⟨?_, ?_⟩, ⟨?_, ?_⟩, ?_, ?_⟩
  · intro t i j hi
    cases hi
  · intro t i
    rw [comp_apply]
    rcases bootLoc_cases n t with ⟨c, -, hl⟩ | ⟨-, hl⟩
    · rw [hl]
      exact iff_of_false (by simp [Loc.head]) not_mem_nil
    · rw [hl]
      exact iff_of_false (by simp [Loc.head]) not_mem_nil
  · intro t c
    rw [comp_apply, comp_apply]
    show _ ↔ some c.val = some t
    rcases bootLoc_cases n t with ⟨d, hd, hl⟩ | ⟨hn, hl⟩
    · rw [hl, ← hd, Loc.cpu, Option.some.injEq, Option.some.injEq, Fin.val_inj]
      exact eq_comm
    · rw [hl, Option.some.injEq]
      have hlt := c.isLt
      exact iff_of_false (by simp [Loc.cpu]) (by omega)
  · intro c t ht
    cases ht
    rw [bootLoc_idle]
    trivial
  · intro t c
    rw [comp_apply, comp_apply]
    rcases bootLoc_cases n t with ⟨d, -, hl⟩ | ⟨-, hl⟩
    · rw [hl]
      exact iff_of_false (by simp [Loc.post]) (by simp [Cpu.posting, boot])
    · rw [hl]
      exact iff_of_false (by simp [Loc.post]) (by simp [Cpu.posting, boot])
  · intro c t ht
    cases ht
  · intro t
    have hoff : (mdxThreadInit : Thread n).Still := ⟨Callout.off_zero _, Callout.off_zero _⟩
    rcases bootLoc_cases n t with ⟨c, hc, hl⟩ | ⟨hn, hl⟩
    · have htd : (boot n nprio usecToTicks count).td t = mdxThreadInit := if_pos (hc ▸ c.isLt)
      rw [hl, htd]
      exact ⟨rfl, hoff.2, .inr (.inl rfl), .inl hoff.1⟩
    · have htd : (boot n nprio usecToTicks count).td t =
          { mdxThreadInit with idle := false, life := .unborn } := if_neg (Nat.not_lt.2 hn)
      rw [hl, htd]
      exact ⟨rfl, hoff, rfl⟩
  · intro s c
    exact iff_of_false (by simp [boot, mdxSemInit]) (by simp [boot, Cpu.spinning])

end
end Mdepx.Sched
