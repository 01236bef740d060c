import Mdepx.Callout.Tally

namespace Mdepx.Callout
open Lib List Option

/-! A pass whose funcs only cancel: when it ends, and what it has invoked then. -/

def cull : List FuncOp → List (Nat × Nat) → List (Nat × Nat)
  | [], R => R
  | .set _ _ _ _ :: ops, R => cull ops R
  | .cancel x :: ops, R => cull ops (Delta.remove x R)

theorem cancelsSafe_cons : CancelsSafe fuel c e s (.cancel x :: ops) ↔
    (c = some x → (s.callout x).active = true → e < (s.callout x).ticks) ∧
      CancelsSafe fuel c e (mdxCalloutCancel s x).1 ops := by
  constructor
  · intro h
    exact ⟨h.1 x rfl, h.2 _ rfl⟩
  · intro h
    refine ⟨?_, ?_⟩
    · intro y hy
      cases hy
      exact h.1
    · intro s' hs
      cases hs
      exact h.2

structure Culled (fuel : Nat) (s s' : St) (R : List (Nat × Nat)) (ops : List FuncOp) : Prop where
  run : funcOps fuel s ops = some s'
  queue : Queue s' (cull ops R)
  bounded : Bounded (cull ops R)
  length : (cull ops R).length ≤ R.length
  tally : Tally s₀ ds₀ s e R new → ∃ new', Tally s₀ ds₀ s' e (cull ops R) new'
  stuck : Stuck s R e c → Stuck s' (cull ops R) e c
  safe : Ahead s R e c → CancelsSafe fuel c e s ops → Ahead s' (cull ops R) e c
  caught : Ahead s R e c → ¬CancelsSafe fuel c e s ops → Stuck s' (cull ops R) e c

theorem culled (fuel : Nat) (hops : ∀ op ∈ ops, op.cancels = true) (hq : Queue s R)
    (hb : Bounded R) : ∃ s', Culled fuel s s' R ops := by
  induction ops generalizing s R with
  | nil =>
    exact ⟨s, rfl, hq, hb, le_rfl, fun h => ⟨_, h⟩, fun h => h, fun h _ => h,
      fun _ h => absurd trivial h⟩
  | cons op ops ih =>
    cases op with
    | set => cases hops _ mem_cons_self
    | cancel x =>
      have hq₁ : Queue (mdxCalloutCancel s x).1 (Delta.remove x R) := by
        by_cases hx : x ∈ ids R
        · obtain ⟨s', he, hq', -⟩ := cancel_remove hq hb hx
          rw [he]
          exact hq'
        · rw [cancel_inactive (hq.inactive hx), Delta.remove_of_notMem hx]
          exact hq
      have hb₁ := hb.remove hq.nodup x
      obtain ⟨s', h'⟩ := ih (fun o ho => hops o (mem_cons_of_mem _ ho)) hq₁ hb₁
      refine ⟨s', ?_, h'.queue, h'.bounded, ?_, ?_, ?_, ?_, ?_⟩
      · exact h'.run
      · exact le_trans h'.length (Delta.length_remove_le x R)
      · intro s₀ ds₀ e new h
        obtain ⟨new₁, h₁⟩ := h.cancel x
        exact h'.tally h₁
      · intro e c h
        exact h'.stuck (h.cancel hq hb x)
      · intro e c h hsafe
        obtain ⟨h1, h2⟩ := cancelsSafe_cons.1 hsafe
        exact h'.safe ((h.cancel hq hb x).1 h1) h2
      · intro e c h hsafe
        by_cases h1 : c = some x → (s.callout x).active = true → e < (s.callout x).ticks
        · apply h'.caught ((h.cancel hq hb x).1 h1)
          exact fun h2 => hsafe (cancelsSafe_cons.2 ⟨h1, h2⟩)
        · exact h'.stuck ((h.cancel hq hb x).2 h1)

section
variable {script : Nat → List FuncOp}

structure OnCourse (s₀ : St) (ds₀ : List (Nat × Nat)) (l : Loop) (R : List (Nat × Nat)) : Prop where
  tally : ∃ new, Tally s₀ ds₀ l.s l.ticksElapsed R new
  ahead : Ahead l.s R l.ticksElapsed l.c

def Finished (s₀ : St) (ds₀ : List (Nat × Nat)) (l : Loop) : Prop :=
  l.c = none ∧ Exact s₀ ds₀ l.s

def StuckLoop (l : Loop) : Prop :=
  ∃ R, Queue l.s R ∧ Bounded R ∧ Stuck l.s R l.ticksElapsed l.c

def RoundEnds (fuel : Nat) (script : Nat → List FuncOp) (s₀ : St) (ds₀ : List (Nat × Nat))
    (l : Loop) (R : List (Nat × Nat)) : Prop :=
  ∃ l', loopBody fuel script l = some l' ∧
    (RoundCancelSafe fuel script l →
      Finished s₀ ds₀ l' ∨ ∃ R', R'.length < R.length ∧ OnCourse s₀ ds₀ l' R') ∧
    (¬RoundCancelSafe fuel script l → StuckLoop l')

theorem roundCancelSafe_of (h : ∀ x, l.c = some x → (l.s.callout x).ticks ≤ l.ticksElapsed →
    (l.s.callout x).func = none) : RoundCancelSafe fuel script l := by
  intro x hx hd hf
  exact absurd (h x hx hd) hf

section
variable {l : Loop} (h : Tally s₀ ds₀ l.s l.ticksElapsed ((x, d) :: R) new)
include h

theorem Tally.round_fire (hops : ∀ i, ∀ op ∈ script i, op.cancels = true) (hc : l.c = some x)
    (hd : d ≤ l.ticksElapsed) (hf : (l.s.callout x).func = some f) :
    RoundEnds fuel script s₀ ds₀ l ((x, d) :: R) := by
  have hq : Queue l.s ([] ++ (x, d) :: R) := h.queue
  have htx : (l.s.callout x).ticks = d := h.queue.ticks (x, d) mem_cons_self
  have hn := next_of_ring hq.ring
  have h' : Tally s₀ ds₀ (firing l.s x) (l.ticksElapsed - d) R (.invoked x s₀.now :: new) := by
    refine h.take hd ((expireOne_spec hq).observe _) rfl (expireOne_func _ _) ?_
      (drops_invoked _ _ _) ?_
    · rw [firing, h.now]
      exact congrArg _ h.log
    · intro y
      rw [fires_invoked, hasFunc, ← h.func, hf]
      simp
  obtain ⟨s', hs'⟩ := culled fuel (hops l.fired.length) h'.queue h'.bounded
  refine ⟨⟨s', (ids R).head?, l.ticksElapsed - d, l.fired ++ [x]⟩, ?_, ?_, ?_⟩
  · rw [loopBody_fire hq hc hd hf, hs'.run]
    rfl
  · intro hsafe
    have hcs := hsafe x hc (htx.symm ▸ hd) (hf ▸ some_ne_none f)
    rw [hn, htx] at hcs
    exact .inr ⟨_, Nat.lt_succ_of_le hs'.length, hs'.tally h', hs'.safe (.inl rfl) hcs⟩
  · intro hsafe
    refine ⟨_, hs'.queue, hs'.bounded, hs'.caught (.inl rfl) fun hcs => hsafe ?_⟩
    intro c hcur _ _
    rw [hc] at hcur
    cases hcur
    rw [hn, htx]
    exact hcs

theorem Tally.round_null (hc : l.c = some x) (hd : d ≤ l.ticksElapsed)
    (hf : (l.s.callout x).func = none) : RoundEnds fuel script s₀ ds₀ l ((x, d) :: R) := by
  have hq : Queue l.s ([] ++ (x, d) :: R) := h.queue
  have h' : Tally s₀ ds₀ (expireOne l.s x) (l.ticksElapsed - d) R new := by
    refine h.take hd (expireOne_spec hq) rfl (expireOne_func _ _) h.log (fun _ => rfl) ?_
    intro y
    rw [hasFunc, ← h.func, hf]
    simp
  refine ⟨_, loopBody_null hq hc hd hf, fun _ => .inr ⟨R, Nat.lt_succ_self _, ⟨new, h'⟩, .inl rfl⟩,
    fun hn => absurd (roundCancelSafe_of ?_) hn⟩
  intro y hy _
  rw [hc] at hy
  cases hy
  exact hf

theorem Tally.round_stop (hc : l.c = some x) (hd : l.ticksElapsed < d) :
    RoundEnds fuel script s₀ ds₀ l ((x, d) :: R) := by
  have hq : Queue l.s ([] ++ (x, d) :: R) := h.queue
  have htx : (l.s.callout x).ticks = d := h.queue.ticks (x, d) mem_cons_self
  refine ⟨_, loopBody_stop hq hc hd, fun _ => .inl ⟨rfl, ?_⟩,
    fun hn => absurd (roundCancelSafe_of ?_) hn⟩
  · exact h.exact fun p hp => late_of_head hd hp
  · intro y hy hle
    rw [hc] at hy
    cases hy
    exact absurd (htx ▸ hle) (Nat.not_le.2 hd)

end

theorem OnCourse.round (fuel : Nat) (hops : ∀ i, ∀ op ∈ script i, op.cancels = true)
    (h : OnCourse s₀ ds₀ l R) : RoundEnds fuel script s₀ ds₀ l R := by
  obtain ⟨⟨new, ht⟩, ha⟩ := h
  rcases ha with hc | ⟨x, hc, hx, hr, hlt, hlate⟩
  · cases R with
    | nil =>
      refine ⟨l, loopBody_done hc, fun _ => .inl ⟨hc, ht.exact ?_⟩,
        fun hn => absurd (roundCancelSafe_of ?_) hn⟩
      · intro p hp
        cases hp
      · intro x hx
        rw [hc] at hx
        cases hx
    | cons p =>
      obtain ⟨x, d⟩ := p
      by_cases hd : d ≤ l.ticksElapsed
      · cases hf : (l.s.callout x).func with
        | none => exact ht.round_null hc hd hf
        | some => exact ht.round_fire hops hc hd hf
      · exact ht.round_stop hc (Nat.lt_of_not_le hd)
  · have hb : loopBody fuel script l = some { l with
        s := l.s.setTicks x ((l.s.callout x).ticks - l.ticksElapsed), c := none } := by
      rw [loopBody, hc]
      simp only [if_neg (Nat.not_le.2 hlt)]
    refine ⟨_, hb, fun _ => .inl ⟨rfl, ht.exact hlate⟩,
      fun hn => absurd (roundCancelSafe_of ?_) hn⟩
    intro y hy hle
    rw [hc] at hy
    cases hy
    exact absurd hle (Nat.not_le.2 hlt)

theorem StuckLoop.round (fuel : Nat) (hops : ∀ i, ∀ op ∈ script i, op.cancels = true)
    (h : StuckLoop l) (hb : loopBody fuel script l = some l') : StuckLoop l' := by
  obtain ⟨R, hq, hbd, x, hc, hx, hr, hle⟩ := h
  have hqe : Queue (expireOne l.s x) R := by
    rw [expireOne, listRemove_isolated hr]
    exact hq.setIdle hx rfl
  have hre : Ring (expireOne l.s x).links (.node x) [] := by
    rw [expireOne_isolated hr]
    exact hr
  have h0 : ((expireOne l.s x).callout x).ticks = 0 := by rw [expireOne_self]
  have hn := next_isolated hr
  rcases loopBody_inv hb with ⟨hc', -⟩ | ⟨y, hy, hcase⟩
  · rw [hc] at hc'
    cases hc'
  · rw [hc] at hy
    cases hy
    rcases hcase with ⟨hlt, -⟩ | ⟨-, -, he⟩ | ⟨-, f, s', -, hf, he⟩
    · exact absurd hle (Nat.not_le.2 hlt)
    · subst he
      exact ⟨R, hqe, hbd, x, hn, hx, hre, h0.symm ▸ Nat.zero_le _⟩
    · subst he
      have hstuck : Stuck (firing l.s x) R (l.ticksElapsed - (l.s.callout x).ticks)
          (next l.s l.s.cpuid x) := ⟨x, hn, hx, hre, h0.symm ▸ Nat.zero_le _⟩
      obtain ⟨t, ht⟩ := culled fuel (hops l.fired.length) (hqe.observe (.invoked x l.s.now)) hbd
      have hst : s' = t := Option.some.inj (hf.symm.trans ht.run)
      subst hst
      exact ⟨_, ht.queue, ht.bounded, ht.stuck hstuck⟩

theorem StuckLoop.rounds (hops : ∀ i, ∀ op ∈ script i, op.cancels = true) (h : StuckLoop l)
    (hl : loopRounds fuel script n l = some l') : l'.c ≠ none := by
  have hs := loopRounds_invariant StuckLoop (fun _ _ hi hb => hi.round fuel hops hb) h hl
  obtain ⟨R, -, -, x, hc, -⟩ := hs
  rw [hc]
  exact some_ne_none x

theorem OnCourse.ends (hops : ∀ i, ∀ op ∈ script i, op.cancels = true)
    (hsafe : ∀ k l', loopRounds fuel script k l = some l' → RoundCancelSafe fuel script l')
    (h : OnCourse s₀ ds₀ l R) (hm : R.length ≤ m) :
    ∃ l', loopRounds fuel script (m + 1) l = some l' ∧ Finished s₀ ds₀ l' := by
  induction m generalizing l R with
  | zero =>
    obtain ⟨l₁, hb, hs, -⟩ := h.round fuel hops
    rcases hs (hsafe 0 l rfl) with hfin | ⟨R', hlt, -⟩
    · refine ⟨l₁, ?_, hfin⟩
      rw [loopRounds, hb]
      rfl
    · omega
  | succ m ih =>
    obtain ⟨l₁, hb, hs, -⟩ := h.round fuel hops
    have hstep {k : Nat} : loopRounds fuel script (k + 1) l = loopRounds fuel script k l₁ := by
      rw [loopRounds, hb, bind_some]
    rw [hstep]
    rcases hs (hsafe 0 l rfl) with hfin | ⟨R', hlt, h₁⟩
    · exact ⟨l₁, loopRounds_done hfin.1 _, hfin⟩
    · apply ih (fun k l' hk => hsafe (k + 1) l' (hstep.trans hk)) h₁
      omega

theorem OnCourse.enter (hq : Queue s ds) (hb : Bounded ds) :
    OnCourse s ds (callbackEnter s) ds :=
  ⟨⟨[], .start hq hb⟩, .inl (callbackEnter_cursor hq)⟩

theorem pass_states (hops : ∀ i, ∀ op ∈ script i, op.cancels = true) (hq : Queue s ds)
    (hb : Bounded ds) (hl : loopRounds fuel script n (callbackEnter s) = some l) :
    (∃ R, OnCourse s ds l R) ∨ l.c = none ∨ StuckLoop l := by
  refine loopRounds_invariant
    (fun l => (∃ R, OnCourse s ds l R) ∨ l.c = none ∨ StuckLoop l) ?_ (.inl ⟨ds, .enter hq hb⟩) hl
  intro l₁ l₂ hi hbody
  rcases hi with ⟨R, h⟩ | hc | h
  · obtain ⟨l', hb', hs, hu⟩ := h.round fuel hops
    cases hbody.symm.trans hb'
    by_cases hsafe : RoundCancelSafe fuel script l₁
    · rcases hs hsafe with hfin | ⟨R', -, h'⟩
      · exact .inr (.inl hfin.1)
      · exact .inl ⟨R', h'⟩
    · exact .inr (.inr (hu hsafe))
  · rw [loopBody_done hc] at hbody
    cases hbody
    exact .inr (.inl hc)
  · exact .inr (.inr (h.round fuel hops hbody))

theorem caught_never_ends (hops : ∀ i, ∀ op ∈ script i, op.cancels = true) (hq : Queue s ds)
    (hb : Bounded ds) (hk : loopRounds fuel script k (callbackEnter s) = some l)
    (hsafe : ¬RoundCancelSafe fuel script l)
    (hn : loopRounds fuel script n (callbackEnter s) = some l') : l'.c ≠ none := by
  have hc : l.c ≠ none := by
    intro hc
    apply hsafe
    intro x hx
    rw [hc] at hx
    cases hx
  rcases lt_or_ge k n with hlt | hge
  · obtain ⟨j, hj⟩ := Nat.exists_eq_add_of_lt hlt
    rw [hj, add_assoc, add_comm j 1, ← add_assoc, loopRounds_add] at hn
    obtain ⟨l₁, hl₁, hn⟩ := bind_eq_some_iff.1 hn
    rw [loopRounds_add, hk, bind_some, loopRounds] at hl₁
    obtain ⟨l₂, hb₂, hl₂⟩ := bind_eq_some_iff.1 hl₁
    cases hl₂
    have hstuck : StuckLoop l₁ := by
      rcases pass_states hops hq hb hk with ⟨R, h⟩ | hnone | h
      · obtain ⟨l', hb', -, hu⟩ := h.round fuel hops
        cases hb₂.symm.trans hb'
        exact hu hsafe
      · exact absurd hnone hc
      · exact h.round fuel hops hb₂
    exact hstuck.rounds hops hn
  · intro hnone
    obtain ⟨j, hj⟩ := Nat.exists_eq_add_of_le hge
    rw [hj, loopRounds_add, hn, bind_some, loopRounds_done hnone] at hk
    cases hk
    exact hc hnone

theorem callbackExit_log (s : St) : (callbackExit s).log = s.log := by
  unfold callbackExit
  split
  · split
    · rw [miTmrStart_eq]
      rfl
    · rfl
  · rfl

theorem pass_exact (hops : ∀ i, ∀ op ∈ script i, op.cancels = true) (hq : Queue s ds)
    (hb : Bounded ds) (hsafe : PassCancelSafe fuel script s) :
    ∃ s', mdxCalloutCallback fuel (ds.length + 1) script s = some s' ∧ Exact s ds s' := by
  by_cases hd : ds = []
  · subst hd
    refine ⟨s, callback_empty hq, [], rfl, ?_, fun _ _ => rfl⟩
    intro p hp
    cases hp
  · obtain ⟨l, hl, hc, hx⟩ := (OnCourse.enter hq hb).ends hops hsafe le_rfl
    refine ⟨callbackExit l.s, ?_, ?_⟩
    · rw [callback_nonempty hq hd, hl, bind_some, if_pos hc]
    · obtain ⟨new, hlog, hx⟩ := hx
      exact ⟨new, (callbackExit_log l.s).trans hlog, hx⟩

theorem pass_ends_iff (hops : ∀ i, ∀ op ∈ script i, op.cancels = true) (hq : Queue s ds)
    (hb : Bounded ds) :
    (∃ n s', mdxCalloutCallback fuel n script s = some s') ↔ PassCancelSafe fuel script s := by
  constructor
  · intro hret k l hk
    obtain ⟨n, s', hret⟩ := hret
    by_contra hsafe
    by_cases hd : ds = []
    · subst hd
      rw [loopRounds_done (callbackEnter_cursor hq)] at hk
      cases hk
      apply hsafe
      intro x hx
      rw [callbackEnter_cursor hq] at hx
      cases hx
    · obtain ⟨l', hl', hc, -⟩ := callback_inv hq hd hret
      exact caught_never_ends hops hq hb hk hsafe hl' hc
  · intro hsafe
    obtain ⟨s', hs', -⟩ := pass_exact hops hq hb hsafe
    exact ⟨_, s', hs'⟩

end

/-- A cancelled callout does not fire before it is set again, and every pass ends with each due
callout invoked once, as long as no func cancels the due callout directly behind its own; a
pass of funcs that only cancel ends in no other case. -/
theorem cancelled_never_fires (h₀ : Fresh s₀) (h : Run Step CancelCareful s₀ s) :
    clean s.log = true ∧
    (∀ script, CancelCareful s (.callback script) → ∀ fuel n l,
      loopRounds fuel script n (callbackEnter s) = some l → clean l.s.log = true) ∧
    ∃ ds, Queue s ds ∧ ∀ fuel script, (∀ i, ∀ op ∈ script i, op.cancels = true) →
      ((∃ n s', mdxCalloutCallback fuel n script s = some s') ↔ PassCancelSafe fuel script s) ∧
      (PassCancelSafe fuel script s →
        ∃ s', mdxCalloutCallback fuel (ds.length + 1) script s = some s' ∧ Exact s ds s') := by
  have hinv : ∃ ds, Tidy s ds :=
    h.invariant (fun s => ∃ ds, Tidy s ds) ⟨[], h₀.tidy⟩ fun ⟨_, hs⟩ hc hst => hs.step hc hst
  obtain ⟨ds, hs⟩ := hinv
  refine ⟨hs.clean, ?_, ds, hs.queue, ?_⟩
  · intro script hc fuel n l hl
    obtain ⟨ds', ha⟩ := hs.rounds hc.1 (hc.2 fuel) hl
    exact ha.clean
  · intro fuel script hops
    exact ⟨pass_ends_iff hops hs.queue hs.bounded, pass_exact hops hs.queue hs.bounded⟩

def quietExec (s : St) : Op → Option St
  | .callback _ => none
  | .set c n f a => if n < 2 ^ 32 then exec 9 9 s (.set c n f a) else none
  | op => exec 9 9 s op

theorem quietExec_step (h : quietExec s op = some t) : CancelCareful s op ∧ Step s op t := by
  cases op with
  | wait d =>
    have hex : exec 9 9 s (.wait d) = some t := h
    exact ⟨trivial, exec_step hex⟩
  | cancel c =>
    have hex : exec 9 9 s (.cancel c) = some t := h
    exact ⟨trivial, exec_step hex⟩
  | set c n f a =>
    rw [quietExec] at h
    split at h
    · rename_i hn
      exact ⟨hn, exec_step h⟩
    · cases h
  | callback => cases h

def cancelOne (x : Nat) : Nat → List FuncOp
  | 0 => [.cancel x]
  | _ + 1 => []

theorem cancelOne_cancels (x i : Nat) : ∀ op ∈ cancelOne x i, op.cancels = true := by
  intro op hop
  cases i with
  | zero =>
    rw [mem_singleton.1 hop]
    rfl
  | succ => cases hop

theorem cancelled_never_fires_third :
    ∃ s ds s', Run Step CancelCareful (boot 65535) s ∧ clean s.log = true ∧ Queue s ds ∧
      mdxCalloutCallback 9 (ds.length + 1) (cancelOne 2) s = some s' ∧ Exact s ds s' := by
  let ops : List Op :=
    [.set 0 5 (some 0) 0, .set 1 5 (some 0) 0, .set 2 5 (some 0) 0, .wait 5]
  have h₀ := boot_fresh (m := 65535) (by decide) (by decide)
  have hex : (ops.foldlM quietExec (boot 65535)).map
      (fun s => (mdxCalloutCallback 9 9 (cancelOne 2) s).isSome) = some true := by decide +kernel
  obtain ⟨s, hs, hret⟩ := map_eq_some_iff.1 hex
  have hrun : Run Step CancelCareful (boot 65535) s :=
    Run.of_foldlM (fun _ _ _ _ h => quietExec_step h) hs
  obtain ⟨hclean, -, ds, hq, hpass⟩ := cancelled_never_fires h₀ hrun
  obtain ⟨hiff, hexact⟩ := hpass 9 (cancelOne 2) (cancelOne_cancels 2)
  obtain ⟨t, ht⟩ := Option.isSome_iff_exists.1 hret
  obtain ⟨s', hs', hx⟩ := hexact (hiff.1 ⟨9, t, ht⟩)
  exact ⟨s, ds, s', hrun, hclean, hq, hs', hx⟩

/-- Two callouts due at once, the first of which cancels the second: the second is invoked all
the same, and the pass does not end. -/
theorem cancelled_successor_fires :
    ∃ s l, Run Step CancelCareful (boot 65535) s ∧
      loopRounds 9 (cancelOne 1) 2 (callbackEnter s) = some l ∧
      l.s.log.take 3 = [.invoked 1 5, .cancelled 1 5, .invoked 0 5] ∧ clean l.s.log = false ∧
      ∀ n, mdxCalloutCallback 9 n (cancelOne 1) s = none := by
  let ops : List Op := [.set 0 5 (some 0) 0, .set 1 5 (some 0) 0, .wait 5]
  have h₀ := boot_fresh (m := 65535) (by decide) (by decide)
  have hex : (ops.foldlM quietExec (boot 65535)).map (fun s =>
      ((loopRounds 9 (cancelOne 1) 2 (callbackEnter s)).map fun l => decide
        (l.s.log.take 3 = [.invoked 1 5, .cancelled 1 5, .invoked 0 5] ∧
          clean l.s.log = false), decide
      ((callbackEnter s).c = some 0 ∧ (callbackEnter s).ticksElapsed = 5 ∧
        ((callbackEnter s).s.callout 0).ticks = 5 ∧
        ((callbackEnter s).s.callout 0).func = some 0 ∧
        next (callbackEnter s).s (callbackEnter s).s.cpuid 0 = some 1 ∧
        ((firing (callbackEnter s).s 0).callout 1).active = true ∧
        ((firing (callbackEnter s).s 0).callout 1).ticks = 0))) = some (some true, true) := by
    decide +kernel
  obtain ⟨s, hs, hb⟩ := map_eq_some_iff.1 hex
  obtain ⟨hl, hb⟩ := Prod.mk.inj hb
  obtain ⟨l, hl, hlog⟩ := map_eq_some_iff.1 hl
  obtain ⟨hlog, hclean⟩ := of_decide_eq_true hlog
  obtain ⟨hc, he, ht, hf, hn, hact, h1⟩ := of_decide_eq_true hb
  have hrun : Run Step CancelCareful (boot 65535) s :=
    Run.of_foldlM (fun _ _ _ _ h => quietExec_step h) hs
  obtain ⟨ds, htidy⟩ := hrun.invariant (fun s => ∃ ds, Tidy s ds) ⟨[], h₀.tidy⟩
    fun ⟨_, hs⟩ hc hst => hs.step hc hst
  refine ⟨s, l, hrun, hl, hlog, hclean, ?_⟩
  intro n
  by_contra hret
  obtain ⟨s', hret⟩ := ne_none_iff_exists'.1 hret
  have hsafe := (pass_ends_iff (cancelOne_cancels 1) htidy.queue htidy.bounded).1 ⟨n, s', hret⟩
  have hround := hsafe 0 _ rfl 0 hc (by rw [he, ht]) (by rw [hf]; exact some_ne_none 0)
  have hlt := hround.1 1 rfl hn hact
  rw [h1] at hlt
  exact Nat.not_lt_zero _ (Nat.lt_of_le_of_lt (Nat.zero_le _) hlt)

end Mdepx.Callout
