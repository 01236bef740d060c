import Mdepx.Callout.Cancel

namespace Mdepx.Callout
open Lib Option

def firing (s : St) (c : Nat) : St := (expireOne s c).observe (.invoked c s.now)

theorem expireOne_func (s : St) (c x : Nat) :
    ((expireOne s c).callout x).func = (s.callout x).func :=
  setCallout_field MdxCallout.func
    (y := { s.callout c with ticks := 0, state := .fired, active := false })
    { s with links := listRemove s.links (.node c) } rfl x

section
variable {fuel : Nat} {script : Nat → List FuncOp} {l : Loop}

theorem loopBody_done (hc : l.c = none) : loopBody fuel script l = some l := by
  rw [loopBody, hc]

section
variable (hq : Queue l.s (P ++ (c, d) :: R)) (hc : l.c = some c)
include hq hc

theorem loopBody_stop (hd : l.ticksElapsed < d) :
    loopBody fuel script l =
      some { l with s := l.s.setTicks c (d - l.ticksElapsed), c := none } := by
  have ht : (l.s.callout c).ticks = d := hq.ticks (c, d) (by simp)
  rw [loopBody, hc]
  simp only [ht, if_neg (Nat.not_le.2 hd)]

theorem loopBody_null (hd : d ≤ l.ticksElapsed) (hf : (l.s.callout c).func = none) :
    loopBody fuel script l = some { l with
      s := expireOne l.s c, c := (ids R).head?, ticksElapsed := l.ticksElapsed - d } := by
  have ht : (l.s.callout c).ticks = d := hq.ticks (c, d) (by simp)
  have hn : next l.s l.s.cpuid c = (ids R).head? := next_of_ring hq.ring
  rw [loopBody, hc]
  simp only [ht, if_pos hd, hn, expireOne_func, hf]

theorem loopBody_fire (hd : d ≤ l.ticksElapsed) (hf : (l.s.callout c).func = some f) :
    loopBody fuel script l =
      (funcOps fuel (firing l.s c) (script l.fired.length)).map fun s =>
        { s := s, c := (ids R).head?, ticksElapsed := l.ticksElapsed - d,
          fired := l.fired ++ [c] } := by
  have ht : (l.s.callout c).ticks = d := hq.ticks (c, d) (by simp)
  have hn : next l.s l.s.cpuid c = (ids R).head? := next_of_ring hq.ring
  have hnow : (expireOne l.s c).now = l.s.now := rfl
  rw [loopBody, hc]
  simp only [ht, if_pos hd, hn, expireOne_func, hf, hnow, map_eq_bind]
  rfl

end

theorem loopBody_inv (h : loopBody fuel script l = some l') :
    (l.c = none ∧ l' = l) ∨ ∃ c, l.c = some c ∧
      (l.ticksElapsed < (l.s.callout c).ticks ∧
        l' = { l with s := l.s.setTicks c ((l.s.callout c).ticks - l.ticksElapsed), c := none } ∨
      (l.s.callout c).ticks ≤ l.ticksElapsed ∧ (l.s.callout c).func = none ∧
        l' = { l with
          s := expireOne l.s c, c := next l.s l.s.cpuid c,
          ticksElapsed := l.ticksElapsed - (l.s.callout c).ticks } ∨
      (l.s.callout c).ticks ≤ l.ticksElapsed ∧ ∃ f s', (l.s.callout c).func = some f ∧
        funcOps fuel (firing l.s c) (script l.fired.length) = some s' ∧
        l' = { s := s', c := next l.s l.s.cpuid c,
               ticksElapsed := l.ticksElapsed - (l.s.callout c).ticks,
               fired := l.fired ++ [c] }) := by
  cases hc : l.c with
  | none =>
    rw [loopBody_done hc] at h
    cases h
    exact .inl ⟨rfl, rfl⟩
  | some c =>
    refine .inr ⟨c, rfl, ?_⟩
    simp only [loopBody, hc, expireOne_func] at h
    split at h
    · rename_i hd
      cases hf : (l.s.callout c).func with
      | none =>
        simp only [hf] at h
        cases h
        exact .inr (.inl ⟨hd, rfl, rfl⟩)
      | some f =>
        simp only [hf, bind_eq_bind, bind_eq_some_iff] at h
        obtain ⟨s', hs, he⟩ := h
        cases he
        exact .inr (.inr ⟨hd, f, s', rfl, hs, rfl⟩)
    · rename_i hd
      cases h
      exact .inl ⟨Nat.lt_of_not_le hd, rfl⟩

theorem loopBody_cases (hq : Queue l.s (P ++ R)) (hc : l.c = (ids R).head?)
    (h : loopBody fuel script l = some l') :
    (R = [] ∧ l' = l) ∨
    ∃ c d R', R = (c, d) :: R' ∧
      (l.ticksElapsed < d ∧
        l' = { l with s := l.s.setTicks c (d - l.ticksElapsed), c := none } ∨
      d ≤ l.ticksElapsed ∧ (l.s.callout c).func = none ∧
        l' = { l with
          s := expireOne l.s c, c := (ids R').head?, ticksElapsed := l.ticksElapsed - d } ∨
      d ≤ l.ticksElapsed ∧ ∃ f s', (l.s.callout c).func = some f ∧
        funcOps fuel (firing l.s c) (script l.fired.length) = some s' ∧
        l' = { s := s', c := (ids R').head?, ticksElapsed := l.ticksElapsed - d,
               fired := l.fired ++ [c] }) := by
  cases R with
  | nil =>
    rw [loopBody_done hc] at h
    cases h
    exact .inl ⟨rfl, rfl⟩
  | cons p R =>
    obtain ⟨c, d⟩ := p
    have ht : (l.s.callout c).ticks = d := hq.ticks (c, d) (by simp)
    have hn : next l.s l.s.cpuid c = (ids R).head? := next_of_ring hq.ring
    rcases loopBody_inv h with ⟨hc', -⟩ | ⟨c', hc', hcase⟩
    · rw [hc] at hc'
      cases hc'
    · have he : c = c' := Option.some.inj (hc.symm.trans hc')
      subst he
      rw [ht, hn] at hcase
      exact .inr ⟨c, d, R, rfl, hcase⟩

theorem funcOps_invariant (Inv : St → List FuncOp → Prop)
    (hset : ∀ s x n f a ops t r, Inv s (.set x n f a :: ops) →
      mdxCalloutSetTicksLocked fuel s x n f a = some (t, r) → Inv t ops)
    (hcancel : ∀ s x ops, Inv s (.cancel x :: ops) → Inv (mdxCalloutCancel s x).1 ops)
    (hs : Inv s ops) (hf : funcOps fuel s ops = some s') : Inv s' [] := by
  induction ops generalizing s with
  | nil =>
    cases hf
    exact hs
  | cons op ops ih =>
    obtain ⟨s₁, hs₁, hf₁⟩ := bind_eq_some_iff.1 hf
    cases op with
    | set =>
      obtain ⟨⟨t, r⟩, ht, he⟩ := map_eq_some_iff.1 hs₁
      cases he
      exact ih (hset _ _ _ _ _ _ _ _ hs ht) hf₁
    | cancel =>
      cases hs₁
      exact ih (hcancel _ _ _ hs) hf₁

theorem loopRounds_done (hc : l.c = none) (n : Nat) : loopRounds fuel script n l = some l := by
  induction n with
  | zero => rfl
  | succ n ih => rw [loopRounds, loopBody_done hc, bind_some, ih]

theorem loopRounds_add (m n : Nat) (l : Loop) :
    loopRounds fuel script (m + n) l =
      (loopRounds fuel script m l).bind (loopRounds fuel script n) := by
  induction m generalizing l with
  | zero => rw [zero_add, loopRounds, bind_some]
  | succ m ih =>
    rw [Nat.succ_add, loopRounds, loopRounds]
    cases loopBody fuel script l with
    | none => rfl
    | some l' => exact ih l'

theorem loopRounds_invariant (Inv : Loop → Prop)
    (hstep : ∀ l l', Inv l → loopBody fuel script l = some l' → Inv l')
    (hl : Inv l) (h : loopRounds fuel script n l = some l') : Inv l' := by
  induction n generalizing l with
  | zero =>
    cases h
    exact hl
  | succ n ih =>
    rw [loopRounds] at h
    cases hb : loopBody fuel script l with
    | none =>
      rw [hb] at h
      cases h
    | some =>
      rw [hb, bind_some] at h
      exact ih (hstep _ _ hl hb) h

theorem loopRounds_reached (Inv : Loop → Prop)
    (hstep : ∀ k l₁ l₂, loopRounds fuel script k l = some l₁ → Inv l₁ →
      loopBody fuel script l₁ = some l₂ → Inv l₂)
    (hl : Inv l) (h : loopRounds fuel script n l = some l') : Inv l' := by
  have hinv : (∃ k, loopRounds fuel script k l = some l') ∧ Inv l' := by
    refine loopRounds_invariant (fun l₁ => (∃ k, loopRounds fuel script k l = some l₁) ∧ Inv l₁) ?_
      ⟨⟨0, rfl⟩, hl⟩ h
    intro l₁ l₂ hl₁ hb
    obtain ⟨⟨k, hk⟩, hi⟩ := hl₁
    refine ⟨⟨k + 1, ?_⟩, hstep k l₁ l₂ hk hi hb⟩
    rw [loopRounds_add, hk, bind_some, loopRounds, hb, bind_some, loopRounds]
  exact hinv.2

end

theorem callbackEnter_queue (hq : Queue s ds) : Queue (callbackEnter s).s ds :=
  ⟨hq.ring, hq.ticks, hq.active, hq.cpu⟩

theorem callbackEnter_cursor (hq : Queue s ds) : (callbackEnter s).c = (ids ds).head? :=
  first_of_ring hq.ring

theorem callback_empty (hq : Queue s []) : mdxCalloutCallback fuel n script s = some s := by
  rw [mdxCalloutCallback, if_pos ((listEmpty_iff hq.ring).2 rfl)]

theorem callback_nonempty (hq : Queue s ds) (hd : ds ≠ []) :
    mdxCalloutCallback fuel n script s =
      (loopRounds fuel script n (callbackEnter s)).bind fun l =>
        if l.c = none then some (callbackExit l.s) else none := by
  have hne : ¬listEmpty s.links (.head s.cpuid) = true := by
    rw [listEmpty_iff hq.ring]
    intro he
    apply hd
    cases ds with
    | nil => rfl
    | cons => cases he
  rw [mdxCalloutCallback, if_neg hne]
  rfl

theorem callback_inv (hq : Queue s ds) (hd : ds ≠ [])
    (h : mdxCalloutCallback fuel n script s = some s') :
    ∃ l, loopRounds fuel script n (callbackEnter s) = some l ∧ l.c = none ∧
      s' = callbackExit l.s := by
  rw [callback_nonempty hq hd] at h
  cases hl : loopRounds fuel script n (callbackEnter s) with
  | none =>
    rw [hl] at h
    cases h
  | some l =>
    rw [hl, bind_some] at h
    split at h
    · rename_i hc
      cases h
      exact ⟨l, rfl, hc, rfl⟩
    · cases h

def TimerFor (s : St) (now maxcnt : Nat) : List (Nat × Nat) → Prop
  | [] => s.timerState = .ready ∧ s.expiry = none
  | p :: _ => s.timerState = .running ∧ s.expiry = some (now + min p.2 maxcnt)

theorem callbackExit_spec (hq : Queue s ds) (he : s.timerState = .exception) :
    Queue (callbackExit s) ds ∧ (callbackExit s).log = s.log ∧
      (callbackExit s).callout = s.callout ∧ (callbackExit s).now = s.now ∧
      (callbackExit s).cpuid = s.cpuid ∧ (callbackExit s).savedAt = s.savedAt ∧
      (callbackExit s).miTmr.countSaved = s.miTmr.countSaved ∧
      (callbackExit s).miTmr.maxcnt = s.miTmr.maxcnt ∧
      TimerFor (callbackExit s) s.now s.miTmr.maxcnt ds := by
  have hf := first_of_ring hq.ring
  cases ds with
  | nil =>
    have hx : callbackExit s = stop (s.setTimerState .ready) := by
      rw [callbackExit, hf]
      rfl
    rw [hx]
    refine ⟨⟨hq.ring, hq.ticks, hq.active, hq.cpu⟩, rfl, rfl, rfl, rfl, rfl, rfl, rfl, ?_, rfl⟩
    exact Function.update_self _ _ _
  | cons p =>
    have ht : (s.callout p.1).ticks = p.2 := hq.ticks p (by simp)
    have hx : callbackExit s = { s.setTimerState .running with
        expiry := some (s.now + min p.2 s.miTmr.maxcnt) } := by
      rw [callbackExit, hf]
      simp only [ids_cons, List.head?_cons, he, if_true, miTmrStart_eq, ht]
      rfl
    rw [hx]
    refine ⟨⟨hq.ring, hq.ticks, hq.active, hq.cpu⟩, rfl, rfl, rfl, rfl, rfl, rfl, rfl, ?_, rfl⟩
    exact Function.update_self _ _ _

end Mdepx.Callout
