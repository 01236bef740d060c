import Mdepx.Callout.Queue

namespace Mdepx.Callout
open Lib Function List Option

def elapsedNow (s : St) : Nat := if s.timerState = .running then getElapsed s else 0

theorem count_le (s : St) : count s ≤ s.miTmr.maxcnt :=
  Nat.le_of_lt_succ (Nat.mod_lt _ (Nat.succ_pos _))

theorem getElapsed_lt (h : s.miTmr.maxcnt < 2 ^ 32) : getElapsed s < 2 ^ 32 := by
  have hc := count_le s
  unfold getElapsed
  dsimp only
  split
  · omega
  · split
    · omega
    · exact u32_lt _

theorem elapsedNow_lt (h : s.miTmr.maxcnt < 2 ^ 32) : elapsedNow s < 2 ^ 32 := by
  unfold elapsedNow
  split
  · exact getElapsed_lt h
  · omega

theorem getElapsed_saved (h : s.miTmr.countSaved s.cpuid = count s) : getElapsed s = 0 := by
  rw [getElapsed]
  exact if_pos h.symm

theorem getElapsed_eq (hm : s.miTmr.maxcnt < 2 ^ 32)
    (hs : s.miTmr.countSaved s.cpuid ≤ s.miTmr.maxcnt) :
    getElapsed s = if count s < s.miTmr.countSaved s.cpuid then
      s.miTmr.maxcnt - s.miTmr.countSaved s.cpuid + count s
      else count s - s.miTmr.countSaved s.cpuid := by
  unfold getElapsed
  dsimp only
  by_cases hlt : count s < s.miTmr.countSaved s.cpuid
  · rw [if_neg (ne_of_lt hlt), if_neg (Nat.not_lt.2 (le_of_lt hlt)), if_pos hlt,
      sub32_of_le hs hm, u32_of_lt (by omega)]
  · rw [if_neg hlt]
    split
    · omega
    · rw [if_pos (by omega)]

theorem count_succ (s : St) :
    count { s with now := s.now + 1 } = count s + 1 ∨
      count s = s.miTmr.maxcnt ∧ count { s with now := s.now + 1 } = 0 := by
  have hmod : (count s + 1) % (s.miTmr.maxcnt + 1) = count { s with now := s.now + 1 } :=
    Nat.mod_add_mod _ _ _
  rcases lt_or_eq_of_le (count_le s) with h | h
  · left
    rw [← hmod, Nat.mod_eq_of_lt (Nat.succ_lt_succ h)]
  · right
    rw [← hmod, h, Nat.mod_self]
    exact ⟨rfl, rfl⟩

theorem getElapsed_tick (hm : s.miTmr.maxcnt < 2 ^ 32)
    (hs : s.miTmr.countSaved s.cpuid ≤ s.miTmr.maxcnt) :
    getElapsed { s with now := s.now + 1 } ≤ getElapsed s + 1 := by
  have hc := count_le s
  rw [getElapsed_eq hm hs, getElapsed_eq (s := { s with now := s.now + 1 }) hm hs]
  dsimp only
  rcases count_succ s with h | ⟨hmax, h⟩
  · rw [h]
    split <;> split <;> omega
  · rw [h]
    split <;> split <;> omega

theorem getElapsed_wait (hm : s.miTmr.maxcnt < 2 ^ 32)
    (hs : s.miTmr.countSaved s.cpuid ≤ s.miTmr.maxcnt) (d : Nat) :
    getElapsed { s with now := s.now + d } ≤ getElapsed s + d := by
  induction d with
  | zero => exact le_rfl
  | succ d ih =>
    have ht := getElapsed_tick (s := { s with now := s.now + d }) hm hs
    exact le_trans ht (Nat.succ_le_succ ih)

theorem miTmrStart_eq (s : St) (n : Nat) :
    miTmrStart s n = { s with expiry := some (s.now + min n s.miTmr.maxcnt) } := by
  unfold miTmrStart start
  split
  · rw [Nat.min_eq_right (by omega)]
  · rw [Nat.min_eq_left (by omega)]

structure Armed (s s' : St) (ds : List (Nat × Nat)) (c n : Nat) (f : Option Nat) (a : Nat) :
    Prop where
  queue : Queue s' (Delta.insert c (u32 (n + elapsedNow s)) ds)
  cpuid : s'.cpuid = s.cpuid
  now : s'.now = s.now
  maxcnt : s'.miTmr.maxcnt = s.miTmr.maxcnt
  log : s'.log = .armed c s.now n :: s.log
  links : ∃ y ∈ .head s.cpuid :: nodes ds, s'.links = listInsert s.links y (.node c)
  other : ∀ x, x ≠ c → s'.callout x = { s.callout x with ticks := (s'.callout x).ticks }
  idle : ∀ x, x ≠ c → x ∉ ids ds → s'.callout x = s.callout x
  new : s'.callout c = { s.callout c with
    ticksOrig := n, ticks := (s'.callout c).ticks, func := f, arg := a,
    cpuid := s.cpuid, active := true }
  running : s.timerState = .running → s'.miTmr = s.miTmr ∧ s'.savedAt = s.savedAt ∧
    s'.expiry = if first s' s'.cpuid = some c then some (s.now + min n s.miTmr.maxcnt)
      else s.expiry
  exception : s.timerState = .exception →
    s'.miTmr = s.miTmr ∧ s'.savedAt = s.savedAt ∧ s'.expiry = s.expiry
  ready : s.timerState = .ready → s'.timerState = .running ∧
    s'.miTmr.countSaved s.cpuid = count s ∧ s'.savedAt = s.now ∧
    ∃ p, (Delta.insert c (u32 (n + elapsedNow s)) ds).head? = some p ∧
      s'.expiry = some (s.now + min p.2 s.miTmr.maxcnt)

theorem insert_ne_nil (c n : Nat) (ds : List (Nat × Nat)) : Delta.insert c n ds ≠ [] := by
  cases ds with
  | nil => simp [Delta.insert]
  | cons =>
    simp only [Delta.insert]
    split <;> simp

theorem mem_ids_insert : x ∈ ids (Delta.insert c n ds) ↔ x = c ∨ x ∈ ids ds := by
  unfold ids
  rw [(Delta.insert_fst_perm c n ds).mem_iff, mem_cons]

theorem insert_head_self (h : (ids (Delta.insert c m ds)).head? = some c) (hc : c ∉ ids ds) :
    ∃ ds', Delta.insert c m ds = (c, m) :: ds' := by
  cases ds with
  | nil => exact ⟨[], rfl⟩
  | cons p ds =>
    simp only [Delta.insert] at h ⊢
    split at h
    · rename_i hlt
      exact ⟨_, by rw [if_pos hlt]⟩
    · simp only [ids_cons, head?_cons, Option.some.injEq] at h
      exact absurd (by simp [h]) hc

theorem sub32_add (hn : n < 2 ^ 32) (he : e < 2 ^ 32) : sub32 (u32 (n + e)) e = n := by
  unfold sub32 u32
  omega

theorem setOneTimer_frame (s : St) (c e : Nat) :
    (setOneTimer s c e).cpuid = s.cpuid ∧ (setOneTimer s c e).links = s.links ∧
      (setOneTimer s c e).callout = s.callout ∧ (setOneTimer s c e).now = s.now ∧
      (setOneTimer s c e).log = s.log ∧
      (setOneTimer s c e).miTmr.maxcnt = s.miTmr.maxcnt := by
  unfold setOneTimer
  split
  · split
    · rw [miTmrStart_eq]
      exact ⟨rfl, rfl, rfl, rfl, rfl, rfl⟩
    · exact ⟨rfl, rfl, rfl, rfl, rfl, rfl⟩
  · exact ⟨rfl, rfl, rfl, rfl, rfl, rfl⟩
  · dsimp only
    split
    · rw [miTmrStart_eq]
      exact ⟨rfl, rfl, rfl, rfl, rfl, rfl⟩
    · exact ⟨rfl, rfl, rfl, rfl, rfl, rfl⟩

theorem setOneTimer_running (h : s.timerState = .running) :
    (setOneTimer s c e).miTmr = s.miTmr ∧ (setOneTimer s c e).savedAt = s.savedAt ∧
      (setOneTimer s c e).expiry = if first s s.cpuid = some c then
        some (s.now + min (sub32 (s.callout c).ticks e) s.miTmr.maxcnt) else s.expiry := by
  simp only [setOneTimer, h, miTmrStart_eq]
  split
  · exact ⟨rfl, rfl, rfl⟩
  · exact ⟨rfl, rfl, rfl⟩

theorem setOneTimer_exception (h : s.timerState = .exception) : setOneTimer s c e = s := by
  simp only [setOneTimer, h]

theorem setOneTimer_ready (h : s.timerState = .ready) (hf : first s s.cpuid = some x) :
    (setOneTimer s c e).timerState = .running ∧
      (setOneTimer s c e).miTmr.countSaved s.cpuid = count s ∧
      (setOneTimer s c e).savedAt = s.now ∧
      (setOneTimer s c e).expiry = some (s.now + min (s.callout x).ticks s.miTmr.maxcnt) := by
  have hf' : first ((s.setTimerState .running).saveCount (count s))
      ((s.setTimerState .running).saveCount (count s)).cpuid = some x := hf
  have hc : count (s.setTimerState .running) = count s := rfl
  simp only [setOneTimer, h, hc, hf', miTmrStart_eq]
  exact ⟨update_self _ _ _, update_self _ _ _, rfl, rfl⟩

def prepared (s : St) (c n m : Nat) (f : Option Nat) (a : Nat) : St :=
  s.setCallout c { s.callout c with
    ticksOrig := n, ticks := m, func := f, arg := a, cpuid := s.cpuid }

theorem prepared_self (s : St) (c n m : Nat) (f : Option Nat) (a : Nat) :
    (prepared s c n m f a).callout c = { s.callout c with
      ticksOrig := n, ticks := m, func := f, arg := a, cpuid := s.cpuid } := by
  simp only [prepared, St.setCallout, update_self]

theorem prepared_other (s : St) (n m : Nat) (f : Option Nat) (a : Nat) (h : x ≠ c) :
    (prepared s c n m f a).callout x = s.callout x := by
  simp only [prepared, St.setCallout, update_of_ne h]

theorem prepared_setTicks (s : St) (c n m k : Nat) (f : Option Nat) (a : Nat) :
    (prepared s c n m f a).setTicks c k = prepared s c n k f a := by
  simp only [prepared, St.setTicks, St.setCallout, update_self, update_idem]

theorem setOne_unfold (hn : n < 2 ^ 32) :
    mdxCalloutSetOne fuel (prepared s c n n f a) c =
      (setOneLoop fuel (prepared s c n (u32 (n + elapsedNow s)) f a) c (first s s.cpuid)).bind
        fun r => some (setOneTimer (if r.2 = none then
          { r.1 with links := listAppend r.1.links (.head r.1.cpuid) (.node c) } else r.1)
          c (elapsedNow s)) := by
  have ht : (prepared s c n n f a).timerState = s.timerState := rfl
  have he : getElapsed (prepared s c n n f a) = getElapsed s := rfl
  have hfst : ∀ m, first (prepared s c n m f a) (prepared s c n m f a).cpuid =
      first s s.cpuid := fun _ => rfl
  unfold mdxCalloutSetOne elapsedNow
  rw [ht, he]
  by_cases hr : s.timerState = .running
  · simp only [hr, if_true, prepared_setTicks, prepared_self, hfst, bind_eq_bind]
    rfl
  · simp only [hr, if_false, add_zero, u32_of_lt hn, hfst, bind_eq_bind]
    rfl

structure Placed (s : St) (ds : List (Nat × Nat)) (c n : Nat) (f : Option Nat) (a : Nat)
    (L : Links Entry) (C : Nat → MdxCallout) : Prop where
  ring : Ring L (.head s.cpuid) (nodes (Delta.insert c (u32 (n + elapsedNow s)) ds))
  ticks : ∀ p ∈ Delta.insert c (u32 (n + elapsedNow s)) ds, (C p.1).ticks = p.2
  links : ∃ y ∈ .head s.cpuid :: nodes ds, L = listInsert s.links y (.node c)
  other : ∀ x, x ≠ c → C x = { s.callout x with ticks := (C x).ticks }
  idle : ∀ x, x ≠ c → x ∉ ids ds → C x = s.callout x
  new : C c = { s.callout c with
    ticksOrig := n, ticks := (C c).ticks, func := f, arg := a, cpuid := s.cpuid }

theorem setOne_place (hq : Queue s ds) (hc : c ∉ ids ds) (hn : n < 2 ^ 32)
    (hf : ds.length < fuel) :
    ∃ L C, mdxCalloutSetOne fuel (prepared s c n n f a) c =
        some (setOneTimer { s with links := L, callout := C } c (elapsedNow s)) ∧
      Placed s ds c n f a L C := by
  have hr : Ring (prepared s c n (u32 (n + elapsedNow s)) f a).links (.head s.cpuid)
      (nodes ([] ++ ds)) := hq.ring
  have ht : ∀ p ∈ ds, ((prepared s c n (u32 (n + elapsedNow s)) f a).callout p.1).ticks =
      p.2 := by
    intro p hp
    have hpc : p.1 ≠ c := fun he => hc (he ▸ mem_ids_of_mem hp)
    rw [prepared_other _ _ _ _ _ hpc]
    exact hq.ticks p hp
  obtain ⟨L, C, r, he, hring, hticks, honly, hother, hlinks⟩ :=
    setOneLoop_spec hr hc ht (by rw [prepared_self]) hf
  refine ⟨if r = none then listAppend L (.head s.cpuid) (.node c) else L, C, ?_, hring,
    hticks, hlinks, ?_, ?_, ?_⟩
  · rw [setOne_unfold hn, first_of_ring hq.ring, he, bind_some]
    cases r <;> rfl
  · intro x hx
    have h1 := honly x
    rw [prepared_other _ _ _ _ _ hx] at h1
    exact h1
  · intro x hx hxd
    rw [hother x (by simp [hx, hxd]), prepared_other _ _ _ _ _ hx]
  · have h1 := honly c
    rw [prepared_self] at h1
    exact h1

theorem Placed.queue {t : St} (h : Placed s ds c n f a L C) (hq : Queue s ds)
    (hcpu : t.cpuid = s.cpuid) (hlinks : t.links = L) (hcall : t.callout = C) :
    Queue (t.setCallout c { C c with active := true })
      (Delta.insert c (u32 (n + elapsedNow s)) ds) := by
  have hother {y : Nat} (hy : y ≠ c) :
      (t.setCallout c { C c with active := true }).callout y = C y := by
    rw [← hcall]
    exact update_of_ne hy _ _
  have hself : (t.setCallout c { C c with active := true }).callout c =
      { C c with active := true } := update_self _ _ _
  constructor
  · show Ring t.links (.head t.cpuid) _
    rw [hlinks, hcpu]
    exact h.ring
  · intro p hp
    rw [← h.ticks p hp]
    by_cases hpc : p.1 = c
    · rw [hpc, hself]
    · rw [hother hpc]
  · intro y
    rw [mem_ids_insert]
    by_cases hy : y = c
    · rw [hy, hself]
      simp
    · rw [hother hy, h.other y hy, hq.active]
      simp [hy]
  · intro p hp
    show _ = t.cpuid
    rw [hcpu]
    by_cases hpc : p.1 = c
    · rw [hpc, hself, h.new]
    · rw [hother hpc, h.other _ hpc]
      have hpd : p.1 ∈ ids ds := (mem_ids_insert.1 (mem_ids_of_mem hp)).resolve_left hpc
      obtain ⟨q, hqd, hqe⟩ := mem_map.1 hpd
      rw [← hqe]
      exact hq.cpu q hqd

theorem Placed.running (h : Placed s ds c n f a L C) (hc : c ∉ ids ds) (hn : n < 2 ^ 32)
    (hm : s.miTmr.maxcnt < 2 ^ 32) (hr : s.timerState = .running) :
    (setOneTimer { s with links := L, callout := C } c (elapsedNow s)).expiry =
      if (ids (Delta.insert c (u32 (n + elapsedNow s)) ds)).head? = some c then
        some (s.now + min n s.miTmr.maxcnt) else s.expiry := by
  have hfst : first { s with links := L, callout := C } s.cpuid =
      (ids (Delta.insert c (u32 (n + elapsedNow s)) ds)).head? := first_of_ring h.ring
  obtain ⟨-, -, hx⟩ := setOneTimer_running (s := { s with links := L, callout := C }) (c := c)
    (e := elapsedNow s) hr
  rw [hx]
  dsimp only
  rw [hfst]
  split
  · rename_i hif
    obtain ⟨ds', hd⟩ := insert_head_self hif hc
    have hct : (C c).ticks = u32 (n + elapsedNow s) := by
      rw [h.ticks (c, u32 (n + elapsedNow s)) (by rw [hd]; exact mem_cons_self)]
    rw [hct, sub32_add hn (elapsedNow_lt hm)]
  · rfl

theorem Placed.ready (h : Placed s ds c n f a L C) (hr : s.timerState = .ready) :
    let t := setOneTimer { s with links := L, callout := C } c (elapsedNow s)
    t.timerState = .running ∧ t.miTmr.countSaved s.cpuid = count s ∧ t.savedAt = s.now ∧
    ∃ p, (Delta.insert c (u32 (n + elapsedNow s)) ds).head? = some p ∧
      t.expiry = some (s.now + min p.2 s.miTmr.maxcnt) := by
  obtain ⟨p, hp⟩ : ∃ p, (Delta.insert c (u32 (n + elapsedNow s)) ds).head? = some p := by
    cases hd : Delta.insert c (u32 (n + elapsedNow s)) ds with
    | nil => exact absurd hd (insert_ne_nil _ _ _)
    | cons p => exact ⟨p, rfl⟩
  have hfp : first { s with links := L, callout := C } s.cpuid = some p.1 := by
    rw [first_of_ring (s := { s with links := L, callout := C }) h.ring, ids, head?_map, hp]
    rfl
  obtain ⟨h1, h2, h3, h4⟩ := setOneTimer_ready (s := { s with links := L, callout := C }) (c := c)
    (e := elapsedNow s) hr hfp
  refine ⟨h1, h2, h3, p, hp, ?_⟩
  rw [h4, h.ticks p (mem_of_head? hp)]

theorem setTicksLocked_unfold (hact : (s.callout c).active = false) (hn0 : n ≠ 0) :
    mdxCalloutSetTicksLocked fuel s c n f a =
      (mdxCalloutSetOne fuel (prepared s c n n f a) c).map fun t =>
        ((t.setCallout c { t.callout c with active := true }).observe (.armed c t.now n),
          MDX_OK) := by
  rw [mdxCalloutSetTicksLocked, if_neg (by simp [hact]), if_neg hn0, map_eq_bind]
  rfl

theorem setTicksLocked_spec (hq : Queue s ds) (hc : c ∉ ids ds) (hn0 : n ≠ 0)
    (hn : n < 2 ^ 32) (hm : s.miTmr.maxcnt < 2 ^ 32) (hf : ds.length < fuel) :
    ∃ s', mdxCalloutSetTicksLocked fuel s c n f a = some (s', MDX_OK) ∧
      Armed s s' ds c n f a := by
  obtain ⟨L, C, he, hp⟩ := setOne_place (f := f) (a := a) hq hc hn hf
  obtain ⟨hcpu, hlinks, hcall, hnow, hlog, hmax⟩ :=
    setOneTimer_frame { s with links := L, callout := C } c (elapsedNow s)
  have hact := hq.inactive hc
  have hqs := hp.queue hq hcpu hlinks hcall
  have hfst := first_of_ring hqs.ring
  rw [setTicksLocked_unfold hact hn0, he, map_some, hcall, hnow]
  refine ⟨_, rfl, hqs.observe _, hcpu, hnow, hmax, congrArg _ hlog, ?_, ?_, ?_, ?_, ?_, ?_, ?_⟩
  · obtain ⟨y, hy, hL⟩ := hp.links
    exact ⟨y, hy, hlinks.trans hL⟩
  · intro y hy
    have hy' := congrFun hcall y
    dsimp only [St.observe, St.setCallout]
    rw [update_of_ne hy, hy']
    exact hp.other y hy
  · intro y hy hyd
    have hy' := congrFun hcall y
    dsimp only [St.observe, St.setCallout]
    rw [update_of_ne hy, hy']
    exact hp.idle y hy hyd
  · dsimp only [St.observe, St.setCallout]
    rw [update_self, hp.new]
  · intro hr
    obtain ⟨h1, h2, -⟩ := setOneTimer_running (s := { s with links := L, callout := C }) (c := c)
      (e := elapsedNow s) hr
    refine ⟨h1, h2, (hp.running hc hn hm hr).trans ?_⟩
    rw [← hfst]
    rfl
  · intro hr
    rw [setOneTimer_exception (s := { s with links := L, callout := C }) hr]
    exact ⟨rfl, rfl, rfl⟩
  · intro hr
    exact hp.ready hr

theorem setOneLoop_mono (h : setOneLoop fuel s c0 c = some r) :
    setOneLoop (fuel + k) s c0 c = some r := by
  induction fuel generalizing s c with
  | zero => cases h
  | succ fuel ih =>
    rw [Nat.succ_add]
    cases c with
    | none => exact h
    | some c =>
      simp only [setOneLoop] at h ⊢
      split at h
      · rename_i hlt
        rw [if_pos hlt]
        exact h
      · rename_i hlt
        rw [if_neg hlt]
        exact ih h

theorem setOne_mono (h : mdxCalloutSetOne fuel s c = some s') :
    mdxCalloutSetOne (fuel + k) s c = some s' := by
  unfold mdxCalloutSetOne at h ⊢
  simp only [bind_eq_bind, bind_eq_some_iff] at h ⊢
  obtain ⟨r, hr, h⟩ := h
  exact ⟨r, setOneLoop_mono hr, h⟩

theorem setTicksLocked_mono (h : mdxCalloutSetTicksLocked fuel s c n f a = some r) :
    mdxCalloutSetTicksLocked (fuel + k) s c n f a = some r := by
  unfold mdxCalloutSetTicksLocked at h ⊢
  split at h
  · rename_i hact
    rw [if_pos hact]
    exact h
  · rename_i hact
    rw [if_neg hact]
    split at h
    · rename_i hn
      rw [if_pos hn]
      exact h
    · rename_i hn
      rw [if_neg hn]
      simp only [bind_eq_bind, bind_eq_some_iff] at h ⊢
      obtain ⟨s₁, hs, h⟩ := h
      exact ⟨s₁, setOne_mono hs, h⟩

def marked (s : St) (c : Nat) : St := s.setCallout c { s.callout c with state := .fired }

theorem setTicksLocked_cases (hq : Queue s ds) (hn : n < 2 ^ 32) (hm : s.miTmr.maxcnt < 2 ^ 32)
    (h : mdxCalloutSetTicksLocked fuel s c n f a = some (s', r)) :
    (c ∈ ids ds ∧ s' = s ∧ r = MDX_ERROR) ∨
    (c ∉ ids ds ∧ n = 0 ∧ s' = marked s c ∧ r = MDX_OK) ∨
    (c ∉ ids ds ∧ n ≠ 0 ∧ Armed s s' ds c n f a ∧ r = MDX_OK) := by
  by_cases hact : (s.callout c).active = true
  · rw [mdxCalloutSetTicksLocked, if_pos hact] at h
    cases h
    exact .inl ⟨(hq.active c).1 hact, rfl, rfl⟩
  · have hc : c ∉ ids ds := by
      rw [← hq.active]
      exact hact
    by_cases hn0 : n = 0
    · rw [mdxCalloutSetTicksLocked, if_neg hact, if_pos hn0] at h
      cases h
      exact .inr (.inl ⟨hc, hn0, rfl, rfl⟩)
    · obtain ⟨t, he, ha⟩ := setTicksLocked_spec (f := f) (a := a) hq hc hn0 hn hm
        (show ds.length < ds.length + 1 + fuel by omega)
      have h' := setTicksLocked_mono (k := ds.length + 1) h
      rw [add_comm] at h'
      rw [he] at h'
      cases h'
      exact .inr (.inr ⟨hc, hn0, ha, rfl⟩)

theorem marked_queue (hq : Queue s ds) (hc : c ∉ ids ds) : Queue (marked s c) ds :=
  hq.setIdle hc (hq.inactive hc)

end Mdepx.Callout
