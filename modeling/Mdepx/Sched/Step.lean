import Mdepx.Sched.Basic
import Mdepx.Lib.Fold

namespace Mdepx.Sched
open Lib Function Option

/-- One step of a CPU: a part of the exception handler, a callout that fires in it, or a call of
the code that runs on the CPU, cut where another CPU can see the difference. -/
inductive Act (n : Nat) where
  | trap (c : Fin n) (intr : Bool)
  | fire (c : Fin n) (td : Nat)
  | fireSleep (c : Fin n) (td : Nat)
  | park (c : Fin n)
  | pick (c : Fin n)
  | switch (c : Fin n)
  | wait (c : Fin n) (sem usec : Nat)
  | trywait (c : Fin n) (sem : Nat)
  | post (c : Fin n) (sem : Nat)
  | postNext (c : Fin n)
  | tsleep (c : Fin n) (ticks : Nat)
  | yield (c : Fin n)
  | terminate (c : Fin n)
  | enter (c : Fin n)
  | create (c : Fin n) (td prio quantumUsec : Nat)
  | ret (c : Fin n)
deriving DecidableEq

/-- The thread that runs code of its own on CPU `c`. -/
def Kernel.caller (k : Kernel n) (c : Fin n) : Option Nat :=
  match k.cpu c with
  | ⟨.thread t, none⟩ => if (k.td t).pc = .user then some t else none
  | _ => none

def Kernel.callable (k : Kernel n) (c : Fin n) : Bool :=
  match k.cpu c with
  | ⟨.handler _ _ true, none⟩ => true
  | _ => (k.caller c).isSome

/-- An interrupt comes anywhere; the exception of `md_thread_yield` moves the thread past it. -/
def trapPc (pc : Pc) (intr : Bool) : Option Pc :=
  if intr then some pc
  else match pc with
    | .before call => some (.after call)
    | _ => none

def trap (k : Kernel n) (c : Fin n) (intr : Bool) : Exec n :=
  match k.cpu c with
  | ⟨.thread t, none⟩ =>
    match trapPc (k.td t).pc intr with
    | some pc =>
      let r := mdxSchedAck { k.td t with pc := pc }
      .ok ((k.setTd t r.1).setCpu c ⟨.handler t r.2 intr, none⟩)
    | none => .error .busy
  | _ => .error .busy

def runFunc (k : Kernel n) (t : Nat) : Func → Exec n
  | .schedCb => mdxSchedCb k t
  | .semCb s => mdxSemCb k t s

def fire (k : Kernel n) (c : Fin n) (t : Nat) : Exec n :=
  match k.cpu c with
  | ⟨.handler _ _ true, none⟩ =>
    if c ∈ (k.td t).tdC.linked then
      runFunc (k.setTd t { k.td t with tdC := (k.td t).tdC.fired }) t (k.td t).tdC.func
    else .error .busy
  | _ => .error .busy

def fireSleep (k : Kernel n) (c : Fin n) (t : Nat) : Exec n :=
  match k.cpu c with
  | ⟨.handler _ _ true, none⟩ =>
    if c ∈ (k.td t).sleepC.linked then
      mdxTsleepCb (k.setTd t { k.td t with sleepC := (k.td t).sleepC.fired }) t
    else .error .busy
  | _ => .error .busy

def park (k : Kernel n) (c : Fin n) : Exec n :=
  match k.cpu c with
  | ⟨.handler t false _, none⟩ =>
    match mdxSchedPark k t with
    | .ok (k, true) => .ok (k.setCpu c ⟨.handler t true false, none⟩)
    | .ok (k, false) => .ok (k.setCpu c ⟨.thread t, none⟩)
    | .error e => .error e
  | _ => .error .busy

def pick (k : Kernel n) (c : Fin n) : Exec n :=
  match k.cpu c with
  | ⟨.handler _ true _, none⟩ =>
    match mdxSchedPick k.links k.nprio with
    | some t => .ok ((k.dequeue t).setCpu c ⟨.chosen t, none⟩)
    | none => .error (.panic .threadNotFound)
  | _ => .error .busy

def switch (k : Kernel n) (c : Fin n) : Exec n :=
  match k.cpu c with
  | ⟨.chosen t, none⟩ => (mdxSchedNextSwitch k c t).map (·.setCpu c ⟨.thread t, none⟩)
  | _ => .error .busy

def ret (k : Kernel n) (c : Fin n) : Exec n :=
  match k.cpu c with
  | ⟨.thread t, none⟩ =>
    let k' := k.setTd t { k.td t with pc := .user }
    match (k.td t).pc with
    | .after (.semTimedwait s usec) =>
      .ok (k'.note (.sem (.returned t s (semResult (k.td t) usec))))
    | .after .threadTerminate => .error (.panic .terminateReturned)
    | .after _ => .ok k'
    | _ => .error .busy
  | _ => .error .busy

def exec (k : Kernel n) : Act n → Exec n
  | .trap c intr => trap k c intr
  | .fire c t => fire k c t
  | .fireSleep c t => fireSleep k c t
  | .park c => park k c
  | .pick c => pick k c
  | .switch c => switch k c
  | .wait c s usec =>
    match k.caller c with
    | some t => (mdxSemTimedwait k c t s usec).map (·.1)
    | none => .error .busy
  | .trywait c s => if k.callable c then (mdxSemTrywait k s).map (·.1) else .error .busy
  | .post c s => if k.callable c then mdxSemPost k c s else .error .busy
  | .postNext c =>
    match (k.cpu c).post with
    | some p => mdxSemPostNext k c p
    | none => .error .busy
  | .tsleep c ticks =>
    match k.caller c with
    | some t => mdxTsleep k c t ticks
    | none => .error .busy
  | .yield c =>
    match k.caller c with
    | some t => .ok (mdxThreadYield k t)
    | none => .error .busy
  | .terminate c =>
    match k.caller c with
    | some t => .ok (mdxThreadTerminate k t)
    | none => .error .busy
  | .enter c =>
    match k.caller c with
    | some t =>
      if (k.td t).idle then .ok (k.setTd t { k.td t with pc := .before .schedEnter })
      else .error (.panic .notIdle)
    | none => .error .busy
  | .create c t prio quantumUsec =>
    if k.callable c = true ∧ (k.td t).life = .unborn then
      mdxSchedAdd (k.setTd t (mdxThreadSetup k prio quantumUsec)) t
    else .error .busy
  | .ret c => ret k c

def mdxThreadInit : Thread n :=
  ⟨.ready, 0, 0, true, .zero .schedCb, .zero (), false, .user, .live⟩

def boot (n nprio : Nat) (usecToTicks : Nat → Nat) (count : Nat → Int) : Kernel n where
  nprio := nprio
  usecToTicks := usecToTicks
  td t := if t < n then mdxThreadInit else { mdxThreadInit with idle := false, life := .unborn }
  sem s := mdxSemInit (count s)
  cpu c := ⟨.thread c, none⟩
  links := ⟨id, id⟩
  log := []

theorem caller_eq (h : Kernel.caller k c = some t) :
    k.cpu c = ⟨.thread t, none⟩ ∧ (k.td t).pc = .user := by
  unfold Kernel.caller at h
  split at h
  · rename_i u hc
    split at h
    · rename_i hp
      cases h
      exact ⟨hc, hp⟩
    · cases h
  · cases h

theorem callable_post (h : Kernel.callable k c = true) : (k.cpu c).post = none := by
  unfold Kernel.callable at h
  split at h
  · rename_i hc
    rw [hc]
  · obtain ⟨t, ht⟩ := Option.isSome_iff_exists.1 h
    rw [(caller_eq ht).1]

inductive Step : Kernel n → Act n → Kernel n → Prop where
  | release (hc : k.cpu c = ⟨.thread t, none⟩) (hp : trapPc (k.td t).pc intr = some pc)
      (hs : (k.td t).state = .semWait ∨ (k.td t).state = .sleeping) :
      Step k (.trap c intr) ((k.setTd t { k.td t with pc := pc, state := .ack }).setCpu c
        ⟨.handler t true intr, none⟩)
  | reap (hc : k.cpu c = ⟨.thread t, none⟩) (hp : trapPc (k.td t).pc intr = some pc)
      (hs : (k.td t).state = .terminating) :
      Step k (.trap c intr) ((k.setTd t { k.td t with pc := pc, life := .dead }).setCpu c
        ⟨.handler t true intr, none⟩)
  | interrupt (hc : k.cpu c = ⟨.thread t, none⟩) (hp : trapPc (k.td t).pc intr = some pc)
      (hs : (k.td t).state ∉ [.semWait, .sleeping, .terminating]) :
      Step k (.trap c intr) ((k.setTd t { k.td t with pc := pc }).setCpu c
        ⟨.handler t false intr, none⟩)
  | quantum (hc : k.cpu c = ⟨.handler u r true, none⟩) (hl : c ∈ (k.td t).tdC.linked)
      (hf : (k.td t).tdC.func = .schedCb) (hs : (k.td t).state = .running) :
      Step k (.fire c t) (k.setTd t { k.td t with tdC := (k.td t).tdC.fired, state := .ready })
  | late (hc : k.cpu c = ⟨.handler u r true, none⟩) (hl : c ∈ (k.td t).tdC.linked)
      (hf : (k.td t).tdC.func = .semCb s) (hk : (k.sem s).lock = none)
      (hs : (k.td t).state = .semUnlock) :
      Step k (.fire c t)
        (k.setTd t { k.td t with tdC := (k.td t).tdC.fired, state := .semUnlockAck })
  | timeout (hc : k.cpu c = ⟨.handler u r true, none⟩) (hl : c ∈ (k.td t).tdC.linked)
      (hf : (k.td t).tdC.func = .semCb s) (hk : (k.sem s).lock = none)
      (hs : (k.td t).state = .ack) (hp : (k.td t).prio < k.nprio) :
      Step k (.fire c t) (((((k.dequeue t).setTd t
        { k.td t with tdC := (k.td t).tdC.fired, timeout := true, state := .wakeup }).note
          (.sem (.timedOut t s)))).enqueue (.runq (k.td t).prio) t)
  | wakeup (hc : k.cpu c = ⟨.handler u r true, none⟩) (hl : c ∈ (k.td t).sleepC.linked)
      (hs : (k.td t).state = .ack) (hp : (k.td t).prio < k.nprio) :
      Step k (.fireSleep c t)
        ((k.setTd t { k.td t with sleepC := (k.td t).sleepC.fired }).enqueue
          (.runq (k.td t).prio) t)
  | resume (hc : k.cpu c = ⟨.handler t false intr, none⟩) (hs : (k.td t).state = .running) :
      Step k (.park c) (k.setCpu c ⟨.thread t, none⟩)
  | requeue (hc : k.cpu c = ⟨.handler t false intr, none⟩)
      (hs : (k.td t).state = .yielding ∨ (k.td t).state = .ready)
      (hp : (k.td t).prio < k.nprio) :
      Step k (.park c) ((k.enqueue (.runq (k.td t).prio) t).setCpu c
        ⟨.handler t true false, none⟩)
  | pick (hc : k.cpu c = ⟨.handler u true intr, none⟩)
      (hp : mdxSchedPick k.links k.nprio = some t) :
      Step k (.pick c) ((k.dequeue t).setCpu c ⟨.chosen t, none⟩)
  | switch (hc : k.cpu c = ⟨.chosen t, none⟩) (hq : (k.td t).quantum = 0) :
      Step k (.switch c) ((k.setTd t (k.td t).picked).setCpu c ⟨.thread t, none⟩)
  | switchTimed (hc : k.cpu c = ⟨.chosen t, none⟩) (hq : (k.td t).quantum ≠ 0)
      (hi : (k.td t).idle = false) :
      Step k (.switch c) ((k.setTd t { (k.td t).picked with
        tdC := mdxCalloutSetTicks (mdxCalloutInit (k.td t).tdC) c (k.td t).quantum .schedCb
        }).setCpu c ⟨.thread t, none⟩)
  | take (hc : k.cpu c = ⟨.thread t, none⟩) (hp : (k.td t).pc = .user)
      (hk : (k.sem s).lock = none) (hn : 0 < (k.sem s).count) :
      Step k (.wait c s usec)
        ((k.setSem s { k.sem s with count := (k.sem s).count - 1 }).note (.sem (.took s)))
  | block (hc : k.cpu c = ⟨.thread t, none⟩) (hp : (k.td t).pc = .user)
      (hi : (k.td t).idle = false) (hk : (k.sem s).lock = none) (hn : ¬0 < (k.sem s).count) :
      Step k (.wait c s usec) (((k.setTd t (waiter c s usec (k.usecToTicks usec)
        (k.td t))).enqueue (.sem s) t).note (.sem (.blocked t s)))
  | tryTake (hk : (k.sem s).lock = none) (hn : 0 < (k.sem s).count) :
      Step k (.trywait c s)
        ((k.setSem s { k.sem s with count := (k.sem s).count - 1 }).note (.sem (.took s)))
  | tryFail : Step k (.trywait c s) k
  | post (hc : (k.cpu c).post = none) (hk : (k.sem s).lock = none)
      (hf : firstOf k.links (.sem s) = none) :
      Step k (.post c s) ((k.note (.sem (.posted s))).setSem s
        { k.sem s with count := ((k.sem s).count + 1).bmod (2 ^ 32) })
  | postTo (hc : (k.cpu c).post = none) (hk : (k.sem s).lock = none)
      (hf : firstOf k.links (.sem s) = some t) :
      Step k (.post c s) (((((k.note (.sem (.posted s))).dequeue t).setSem s
        { k.sem s with lock := some c }).setCpu c
          { k.cpu c with post := some ⟨t, s, .spin⟩ }).note (.sem (.handed t s)))
  | postAck (hc : (k.cpu c).post = some ⟨t, s, .spin⟩) (hs : (k.td t).state = .ack) :
      Step k (.postNext c) (((k.setTd t { k.td t with state := .semUnlock }).setSem s
        { k.sem s with lock := none }).setCpu c { k.cpu c with post := some ⟨t, s, .cancel⟩ })
  | postCancel (hc : (k.cpu c).post = some ⟨t, s, .cancel⟩) :
      Step k (.postNext c)
        ((k.setTd t { k.td t with tdC := mdxCalloutCancel (k.td t).tdC }).setCpu c
          { k.cpu c with post := some ⟨t, s, .wake⟩ })
  | postWake (hc : (k.cpu c).post = some ⟨t, s, .wake⟩)
      (hs : (k.td t).state = .semUnlock ∨ (k.td t).state = .semUnlockAck)
      (hp : (k.td t).prio < k.nprio) :
      Step k (.postNext c) (((k.setTd t { k.td t with state := .wakeup }).setCpu c
        { k.cpu c with post := none }).enqueue (.runq (k.td t).prio) t)
  | sleep (hc : k.cpu c = ⟨.thread t, none⟩) (hp : (k.td t).pc = .user) (hn : ticks ≠ 0)
      (hi : (k.td t).idle = false) :
      Step k (.tsleep c ticks) (k.setTd t { k.td t with
        sleepC := mdxCalloutSetTicks (mdxCalloutInit (k.td t).sleepC) c ticks ()
        state := .sleeping
        tdC := mdxCalloutCancel (k.td t).tdC
        pc := .before .tsleep })
  | yield (hc : k.cpu c = ⟨.thread t, none⟩) (hp : (k.td t).pc = .user) :
      Step k (.yield c) (mdxThreadYield k t)
  | terminate (hc : k.cpu c = ⟨.thread t, none⟩) (hp : (k.td t).pc = .user) :
      Step k (.terminate c) (mdxThreadTerminate k t)
  | enter (hc : k.cpu c = ⟨.thread t, none⟩) (hp : (k.td t).pc = .user) :
      Step k (.enter c) (k.setTd t { k.td t with pc := .before .schedEnter })
  | create (hl : (k.td t).life = .unborn) (hp : prio < k.nprio) :
      Step k (.create c t prio quantumUsec)
        ((k.setTd t (mdxThreadSetup k prio quantumUsec)).enqueue (.runq prio) t)
  | retSem (hc : k.cpu c = ⟨.thread t, none⟩) (hp : (k.td t).pc = .after (.semTimedwait s usec)) :
      Step k (.ret c) ((k.setTd t { k.td t with pc := .user }).note
        (.sem (.returned t s (semResult (k.td t) usec))))
  | ret (hc : k.cpu c = ⟨.thread t, none⟩) (hp : (k.td t).pc = .after call)
      (hs : ∀ s usec, call ≠ .semTimedwait s usec) (ht : call ≠ .threadTerminate) :
      Step k (.ret c) (k.setTd t { k.td t with pc := .user })

theorem setTd_setTd (k : Kernel n) (t : Nat) (a b : Thread n) :
    (k.setTd t a).setTd t b = k.setTd t b := by
  simp only [Kernel.setTd, update_idem]

@[simp] theorem setTd_td_self (k : Kernel n) (t : Nat) (th : Thread n) : (k.setTd t th).td t = th :=
  update_self ..

theorem mdxSchedAdd_ok (h : mdxSchedAdd k t = .ok k') :
    (k.td t).prio < k.nprio ∧ k' = k.enqueue (.runq (k.td t).prio) t := by
  unfold mdxSchedAdd at h
  split at h
  · rename_i hp
    cases h
    exact ⟨hp, rfl⟩
  · cases h

theorem trap_step (h : trap k c intr = .ok k') : Step k (.trap c intr) k' := by
  unfold trap at h
  split at h
  · rename_i t hc
    split at h
    · rename_i pc hp
      cases h
      simp only [mdxSchedAck]
      split
      · rename_i hs
        exact .reap hc hp hs
      · rename_i hs
        exact .release hc hp (.inl hs)
      · rename_i hs
        exact .release hc hp (.inr hs)
      · rename_i h1 h2 h3
        apply Step.interrupt hc hp
        simp only [List.mem_cons, List.not_mem_nil, or_false, not_or]
        exact ⟨h2, h3, h1⟩
    · cases h
  · cases h

theorem fire_step (h : fire k c t = .ok k') : Step k (.fire c t) k' := by
  unfold fire at h
  split at h
  · rename_i u r hc
    split at h
    · rename_i hl
      cases hf : (k.td t).tdC.func with
      | schedCb =>
        rw [hf] at h
        simp only [runFunc, mdxSchedCb, setTd_td_self, setTd_setTd] at h
        split at h
        · rename_i hs
          cases h
          exact .quantum hc hl hf hs
        · cases h
      | semCb s =>
        rw [hf] at h
        simp only [runFunc, mdxSemCb, setTd_td_self, setTd_setTd] at h
        split at h
        · cases h
        · rename_i hk
          have hk : (k.sem s).lock = none := not_isSome_iff_eq_none.1 hk
          split at h
          · rename_i hs
            cases h
            exact .late hc hl hf hk hs
          · split at h
            · rename_i hs
              obtain ⟨hp, he⟩ := mdxSchedAdd_ok h
              simp only [Kernel.note, Kernel.dequeue, Kernel.setTd, update_self,
                update_idem] at he hp
              rw [he]
              exact .timeout hc hl hf hk hs hp
            · cases h
    · cases h
  · cases h

theorem fireSleep_step (h : fireSleep k c t = .ok k') : Step k (.fireSleep c t) k' := by
  unfold fireSleep at h
  split at h
  · rename_i u r hc
    split at h
    · rename_i hl
      simp only [mdxTsleepCb, setTd_td_self] at h
      split at h
      · rename_i hs
        obtain ⟨hp, he⟩ := mdxSchedAdd_ok h
        simp only [setTd_td_self] at he hp
        rw [he]
        exact .wakeup hc hl hs hp
      · cases h
    · cases h
  · cases h

theorem mdxSchedPark_ok (h : mdxSchedPark k t = .ok (k', r)) :
    (k.td t).state = .running ∧ k' = k ∧ r = false ∨
    ((k.td t).state = .yielding ∨ (k.td t).state = .ready) ∧ (k.td t).prio < k.nprio ∧
      k' = k.enqueue (.runq (k.td t).prio) t ∧ r = true := by
  have hadd (ha : (mdxSchedAdd k t).map (·, true) = .ok (k', r)) :
      (k.td t).prio < k.nprio ∧ k' = k.enqueue (.runq (k.td t).prio) t ∧ r = true := by
    cases hm : mdxSchedAdd k t with
    | error =>
      rw [hm] at ha
      cases ha
    | ok =>
      rw [hm] at ha
      cases ha
      obtain ⟨hp, he⟩ := mdxSchedAdd_ok hm
      exact ⟨hp, he, rfl⟩
  unfold mdxSchedPark at h
  split at h
  · rename_i hs
    cases h
    exact .inl ⟨hs, rfl, rfl⟩
  · rename_i hs
    exact .inr ⟨.inl hs, hadd h⟩
  · rename_i hs
    exact .inr ⟨.inr hs, hadd h⟩
  · cases h
  · cases h

theorem park_step (h : park k c = .ok k') : Step k (.park c) k' := by
  unfold park at h
  split at h
  · rename_i t intr hc
    split at h
    · rename_i k₁ hp
      cases h
      rcases mdxSchedPark_ok hp with ⟨-, -, hr⟩ | ⟨hs, hp, he, -⟩
      · cases hr
      · rw [he]
        exact .requeue hc hs hp
    · rename_i k₁ hp
      cases h
      rcases mdxSchedPark_ok hp with ⟨hs, he, -⟩ | ⟨-, -, -, hr⟩
      · rw [he]
        exact .resume hc hs
      · cases hr
    · cases h
  · cases h

theorem pick_step (h : pick k c = .ok k') : Step k (.pick c) k' := by
  unfold pick at h
  split at h
  · rename_i u intr hc
    split at h
    · rename_i t hp
      cases h
      exact .pick hc hp
    · cases h
  · cases h

theorem switch_step (h : switch k c = .ok k') : Step k (.switch c) k' := by
  unfold switch at h
  split at h
  · rename_i t hc
    simp only [mdxSchedNextSwitch] at h
    split at h
    · rename_i hq
      cases h
      exact .switch hc hq
    · rename_i hq
      split at h
      · cases h
      · rename_i hi
        cases h
        exact .switchTimed hc hq (Bool.eq_false_iff.2 hi)
  · cases h

theorem ret_step (h : ret k c = .ok k') : Step k (.ret c) k' := by
  unfold ret at h
  split at h
  · rename_i t hc
    simp only at h
    split at h
    · rename_i s usec hp
      cases h
      exact .retSem hc hp
    · cases h
    · rename_i call hs ht hp
      cases h
      exact .ret hc hp hs ht
    · cases h
  · cases h

theorem mdxSemTimedwait_ok (h : mdxSemTimedwait k c t s usec = .ok (k', r)) :
    (k.td t).idle = false ∧ (k.sem s).lock = none ∧
    (0 < (k.sem s).count ∧ r = some true ∧
      k' = (k.setSem s { k.sem s with count := (k.sem s).count - 1 }).note (.sem (.took s)) ∨
    ¬0 < (k.sem s).count ∧ r = none ∧
      k' = ((k.setTd t (waiter c s usec (k.usecToTicks usec) (k.td t))).enqueue
        (.sem s) t).note (.sem (.blocked t s))) := by
  unfold mdxSemTimedwait at h
  split at h
  · cases h
  · rename_i hi
    split at h
    · cases h
    · rename_i hk
      refine ⟨Bool.eq_false_iff.2 hi, not_isSome_iff_eq_none.1 hk, ?_⟩
      split at h
      · rename_i hn
        cases h
        exact .inl ⟨hn, rfl, rfl⟩
      · rename_i hn
        cases h
        exact .inr ⟨hn, rfl, rfl⟩

theorem mdxSemTrywait_ok (h : mdxSemTrywait k s = .ok (k', r)) :
    (k.sem s).lock = none ∧
    (0 < (k.sem s).count ∧ r = true ∧
      k' = (k.setSem s { k.sem s with count := (k.sem s).count - 1 }).note (.sem (.took s)) ∨
    r = false ∧ k' = k) := by
  unfold mdxSemTrywait at h
  split at h
  · cases h
  · rename_i hk
    refine ⟨not_isSome_iff_eq_none.1 hk, ?_⟩
    split at h
    · rename_i hn
      cases h
      exact .inl ⟨hn, rfl, rfl⟩
    · cases h
      exact .inr ⟨rfl, rfl⟩

theorem post_step (hc : (k.cpu c).post = none) (h : mdxSemPost k c s = .ok k') :
    Step k (.post c s) k' := by
  unfold mdxSemPost at h
  split at h
  · cases h
  · rename_i hk
    have hk : (k.sem s).lock = none := not_isSome_iff_eq_none.1 hk
    simp only at h
    split at h
    · rename_i hf
      cases h
      exact .post hc hk hf
    · rename_i t hf
      cases h
      exact .postTo hc hk hf

theorem postNext_step (hc : (k.cpu c).post = some p) (h : mdxSemPostNext k c p = .ok k') :
    Step k (.postNext c) k' := by
  obtain ⟨t, s, ph⟩ := p
  cases ph with
  | spin =>
    simp only [mdxSemPostNext] at h
    split at h
    · rename_i hs
      cases h
      exact .postAck hc hs
    · cases h
  | cancel =>
    cases h
    exact .postCancel hc
  | wake =>
    simp only [mdxSemPostNext] at h
    split at h
    · rename_i hs
      obtain ⟨hp, he⟩ := mdxSchedAdd_ok h
      simp only [Kernel.setCpu, setTd_td_self] at he hp
      rw [he]
      exact .postWake hc hs hp
    · cases h

theorem exec_step (h : exec k a = .ok k') : Step k a k' := by
  cases a with
  | trap => exact trap_step h
  | fire => exact fire_step h
  | fireSleep => exact fireSleep_step h
  | park => exact park_step h
  | pick => exact pick_step h
  | switch => exact switch_step h
  | ret => exact ret_step h
  | wait c s usec =>
    simp only [exec] at h
    split at h
    · rename_i t ht
      obtain ⟨hc, hp⟩ := caller_eq ht
      obtain ⟨⟨k₁, r⟩, hr, rfl⟩ := map_ok h
      obtain ⟨hi, hk, ⟨hn, -, he⟩ | ⟨hn, -, he⟩⟩ := mdxSemTimedwait_ok hr
      · rw [he]
        exact .take hc hp hk hn
      · rw [he]
        exact .block hc hp hi hk hn
    · cases h
  | trywait =>
    simp only [exec] at h
    split at h
    · obtain ⟨⟨k₁, r⟩, hr, rfl⟩ := map_ok h
      obtain ⟨hk, ⟨hn, -, he⟩ | ⟨-, he⟩⟩ := mdxSemTrywait_ok hr
      · rw [he]
        exact .tryTake hk hn
      · rw [he]
        exact .tryFail
    · cases h
  | post c s =>
    simp only [exec] at h
    split at h
    · rename_i hc
      exact post_step (callable_post hc) h
    · cases h
  | postNext c =>
    simp only [exec] at h
    split at h
    · rename_i p hc
      exact postNext_step hc h
    · cases h
  | tsleep c ticks =>
    simp only [exec] at h
    split at h
    · rename_i t ht
      obtain ⟨hc, hp⟩ := caller_eq ht
      simp only [mdxTsleep] at h
      split at h
      · cases h
      · rename_i hn
        split at h
        · cases h
        · rename_i hi
          cases h
          exact .sleep hc hp hn (Bool.eq_false_iff.2 hi)
    · cases h
  | yield c =>
    simp only [exec] at h
    split at h
    · rename_i t ht
      obtain ⟨hc, hp⟩ := caller_eq ht
      cases h
      exact .yield hc hp
    · cases h
  | terminate c =>
    simp only [exec] at h
    split at h
    · rename_i t ht
      obtain ⟨hc, hp⟩ := caller_eq ht
      cases h
      exact .terminate hc hp
    · cases h
  | enter c =>
    simp only [exec] at h
    split at h
    · rename_i t ht
      obtain ⟨hc, hp⟩ := caller_eq ht
      split at h
      · cases h
        exact .enter hc hp
      · cases h
    · cases h
  | create c t prio quantumUsec =>
    simp only [exec] at h
    split at h
    · rename_i hc
      obtain ⟨hp, he⟩ := mdxSchedAdd_ok h
      simp only [setTd_td_self] at he hp
      rw [he]
      exact .create hc.2 hp
    · cases h

end Mdepx.Sched
