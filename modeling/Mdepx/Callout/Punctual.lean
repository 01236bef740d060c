import Mdepx.Callout.Run

namespace Mdepx.Callout
open Lib List
open Lib.Delta (deadlines total deadlines_append mem_deadlines_shift)

/-! Why a callback that is late can fire callouts early, and when it does not. -/

def lastArmed (c : Nat) : List Event → Option (Nat × Nat)
  | [] => none
  | .armed x t n :: log => if x = c then some (t, n) else lastArmed c log
  | .cancelled _ _ :: log => lastArmed c log
  | .invoked _ _ :: log => lastArmed c log

/-- No func was invoked before the ticks its callout was last set with had passed. -/
def timely : List Event → Bool
  | [] => true
  | .invoked c t :: log => (lastArmed c log).any (fun a => a.1 + a.2 ≤ t) && timely log
  | .armed _ _ _ :: log => timely log
  | .cancelled _ _ :: log => timely log

def DueBy (log : List Event) (c e t : Nat) : Prop :=
  ∃ a, lastArmed c log = some a ∧ a.1 + a.2 + e ≤ t

theorem DueBy.armed (h : DueBy log c e t) (hx : x ≠ c) :
    DueBy (.armed x t₁ n :: log) c e t := by
  obtain ⟨a, ha, hle⟩ := h
  refine ⟨a, ?_, hle⟩
  rw [lastArmed, if_neg hx, ha]

theorem dueBy_armed_self (h : t₁ + n + e ≤ t) : DueBy (.armed c t₁ n :: log) c e t :=
  ⟨(t₁, n), if_pos rfl, h⟩

theorem DueBy.shift (h : DueBy log c e t) (hle : e' + t ≤ e + t') : DueBy log c e' t' := by
  obtain ⟨a, ha, h⟩ := h
  exact ⟨a, ha, by omega⟩

theorem timely_invoked (h : timely log = true) (hd : DueBy log c 0 t) :
    timely (.invoked c t :: log) = true := by
  obtain ⟨a, ha, hle⟩ := hd
  simp only [timely, ha, h, Option.any_some, Bool.and_true, decide_eq_true_eq]
  exact hle

structure Passing (s : St) (c : Option Nat) (e : Nat) (P R : List (Nat × Nat)) : Prop where
  queue : Queue s (P ++ R)
  cursor : c = (ids R).head?
  bounded : Bounded (P ++ R)
  maxcnt : s.miTmr.maxcnt < 2 ^ 32
  exception : s.timerState = .exception
  saved : s.miTmr.countSaved s.cpuid = count s
  early : ∀ p ∈ deadlines 0 P, DueBy s.log p.1 0 (s.now + p.2)
  late : ∀ p ∈ deadlines (total P) R, DueBy s.log p.1 e (s.now + p.2) ∧
    (p.2 ≤ e ∨ total P + e < p.2)
  timely : timely s.log = true

/-- Setting a callout with `n` ticks is harmless when the pass has consumed all ticks, or when
the callout goes in front of all that is left and pushes none of it across the `e` ticks. -/
def ArmSafe (s : St) (c : Option Nat) (e n : Nat) : Prop :=
  e = 0 ∨ ∀ P R, Queue s (P ++ R) → c = (ids R).head? →
    ∀ r ∈ deadlines (total P) R, n < r.2 ∧ (r.2 ≤ e ∨ n + e < r.2)

inductive Inserted (x n : Nat) (P R : List (Nat × Nat)) :
    List (Nat × Nat) → List (Nat × Nat) → Prop where
  | front : n < total P → Inserted x n P R (Delta.insert x n P) R
  | last : R = [] → total P ≤ n → Inserted x n P R (P ++ [(x, n - total P)]) []
  | before : R = (y, d) :: R₁ → total P ≤ n → n - total P < d →
      Inserted x n P R (P ++ [(x, n - total P)]) ((y, d - (n - total P)) :: R₁)
  | behind : R = (y, d) :: R₁ → total P ≤ n → d ≤ n - total P →
      Inserted x n P R P ((y, d) :: Delta.insert x (n - total P - d) R₁)

theorem inserted_exists (x n : Nat) (P R : List (Nat × Nat)) :
    ∃ P' R', Inserted x n P R P' R' ∧ Delta.insert x n (P ++ R) = P' ++ R' ∧
      (ids R').head? = (ids R).head? := by
  by_cases hP : n < total P
  · exact ⟨_, _, .front hP, Delta.insert_append_lt x P R hP, rfl⟩
  · have hle := Nat.le_of_not_lt hP
    have hins := Delta.insert_append_ge x P R hle
    cases R with
    | nil =>
      refine ⟨_, _, .last rfl hle, ?_, rfl⟩
      rw [hins, Delta.insert, append_nil]
    | cons q =>
      obtain ⟨y, d⟩ := q
      by_cases hd : n - total P < d
      · refine ⟨_, _, .before rfl hle hd, ?_, rfl⟩
        rw [hins, Delta.insert, if_pos hd, append_assoc, singleton_append]
      · refine ⟨_, _, .behind rfl hle (Nat.le_of_not_lt hd), ?_, rfl⟩
        rw [hins, Delta.insert, if_neg hd]

theorem mem_deadlines_insert (h : p ∈ deadlines t (Delta.insert x n ds)) :
    p ∈ deadlines t ds ∨ p = (x, t + n) := by
  rw [Delta.deadlines_insert_filter, mem_append, mem_cons] at h
  rcases h with h | h | h
  · exact .inl (mem_filter.1 h).1
  · exact .inr h
  · exact .inl (mem_filter.1 h).1

theorem mem_deadlines_concat (h : p ∈ deadlines 0 (P ++ [(x, n - total P)]))
    (hle : total P ≤ n) : p ∈ deadlines 0 P ∨ p = (x, n) := by
  rw [deadlines_append, mem_append] at h
  rcases h with h | h
  · exact .inl h
  · simp only [deadlines, mem_singleton] at h
    rw [h, zero_add, Nat.add_sub_cancel' hle]
    exact .inr rfl

theorem Inserted.early (h : Inserted x n P R P' R') (hp : p ∈ deadlines 0 P') :
    p ∈ deadlines 0 P ∨ p = (x, n) := by
  cases h with
  | front =>
    have hm := mem_deadlines_insert hp
    rwa [zero_add] at hm
  | last _ hle | before _ hle => exact mem_deadlines_concat hp hle
  | behind => exact .inl hp

theorem Inserted.late (h : Inserted x n P R P' R') :
    (total P' = total P ∧
      deadlines (total P') R' = deadlines (total P) R) ∨
    R' = [] ∨
    (total P' = n ∧ (∀ p ∈ deadlines (total P) R, n < p.2) ∧
      deadlines (total P') R' = deadlines (total P) R) ∨
    (P' = P ∧ (∃ p ∈ deadlines (total P) R, p.2 ≤ n) ∧
      ∀ p ∈ deadlines (total P) R',
        p ∈ deadlines (total P) R ∨ p = (x, n)) := by
  cases h with
  | front =>
    have ht : total (Delta.insert x n P) = total P := by
      rw [Delta.total_insert]
      omega
    rw [ht]
    exact .inl ⟨rfl, rfl⟩
  | last => exact .inr (.inl rfl)
  | @before y d R₁ hR hle hlt =>
    subst hR
    have ht : total (P ++ [(x, n - total P)]) = n := by
      simp only [Delta.total_append, total]
      omega
    have hd : n + (d - (n - total P)) = total P + d := by omega
    refine .inr (.inr (.inl ⟨ht, ?_, ?_⟩))
    · intro p hp
      have hle' : total P + d ≤ p.2 := by
        rcases mem_cons.1 hp with hp | hp
        · rw [hp]
        · exact Delta.le_of_mem_deadlines hp
      omega
    · rw [ht, deadlines, deadlines, hd]
  | @behind y d R₁ hR hle hge =>
    subst hR
    refine .inr (.inr (.inr ⟨rfl, ⟨(y, total P + d), by simp [deadlines], ?_⟩, ?_⟩))
    · dsimp only
      omega
    · intro p hp
      rw [deadlines] at hp
      rcases mem_cons.1 hp with hp | hp
      · rw [hp]
        exact .inl mem_cons_self
      · rcases mem_deadlines_insert hp with hp | hp
        · exact .inl (mem_cons_of_mem _ hp)
        · have he : total P + d + (n - total P - d) = n := by omega
          rw [he] at hp
          exact .inr hp

theorem elapsedNow_exception (h : s.timerState = .exception) : elapsedNow s = 0 := by
  rw [elapsedNow, if_neg]
  rw [h]
  decide

theorem Passing.arm (h : Passing s c e P R) (hx : x ∉ ids (P ++ R)) (hn0 : n ≠ 0)
    (hn : n < 2 ^ 32) (hs : ArmSafe s c e n) (ha : Armed s s' (P ++ R) x n f a) :
    ∃ P' R', Passing s' c e P' R' := by
  obtain ⟨hmi, -, -⟩ := ha.exception h.exception
  have hq := ha.queue
  rw [elapsedNow_exception h.exception, add_zero, u32_of_lt hn] at hq
  obtain ⟨P', R', hins, he, hhead⟩ := inserted_exists x n P R
  have hold {p : Nat × Nat} {k t : Nat} (hp : p.1 ∈ ids (P ++ R)) (hd : DueBy s.log p.1 k t) :
      DueBy s'.log p.1 k t := by
    rw [ha.log]
    exact hd.armed fun hxp => hx (hxp ▸ hp)
  have hnew : DueBy s'.log x 0 (s'.now + n) := by
    rw [ha.log, ha.now]
    exact dueBy_armed_self le_rfl
  have hlate {p : Nat × Nat} (hp : p ∈ deadlines (total P) R) :
      DueBy s'.log p.1 e (s'.now + p.2) := by
    rw [ha.now]
    refine hold ?_ (h.late p hp).1
    rw [ids_append]
    exact mem_append_right _ (mem_ids_of_deadline hp)
  refine ⟨P', R', ?_, h.cursor.trans hhead.symm, ?_, ?_, ?_, ?_, ?_, ?_, ?_⟩
  · rw [← he]
    exact hq
  · rw [← he]
    exact h.bounded.insert hn
  · rw [ha.maxcnt]
    exact h.maxcnt
  · rw [St.timerState, hmi, ha.cpuid]
    exact h.exception
  · rw [hmi, ha.cpuid, h.saved, count, count, hmi, ha.now]
  · intro p hp
    rcases hins.early hp with hp | hp
    · rw [ha.now]
      refine hold ?_ (h.early p hp)
      rw [ids_append]
      exact mem_append_left _ (mem_ids_of_deadline hp)
    · rw [hp]
      exact hnew
  · intro p hp
    rcases hins.late with ⟨ht, hd⟩ | hR | ⟨ht, hlt, hd⟩ | ⟨hP, ⟨q, hq, hqn⟩, hd⟩
    · rw [hd] at hp
      rw [ht]
      exact ⟨hlate hp, (h.late p hp).2⟩
    · rw [hR] at hp
      cases hp
    · rw [hd] at hp
      refine ⟨hlate hp, ?_⟩
      rw [ht]
      rcases hs with hs | hs
      · right
        rw [hs]
        exact hlt p hp
      · exact (hs P R h.queue h.cursor p hp).2
    · rw [hP] at hp ⊢
      rcases hs with hs | hs
      · rcases hd p hp with hp | hp
        · exact ⟨hlate hp, (h.late p hp).2⟩
        · rw [hp, hs]
          refine ⟨hnew, ?_⟩
          have hq2 := (h.late q hq).2
          have hq1 := Delta.le_of_mem_deadlines hq
          have hpos := Nat.pos_of_ne_zero hn0
          dsimp only
          omega
      · have hlt := (hs P R h.queue h.cursor q hq).1
        omega
  · rw [ha.log]
    exact h.timely

theorem Passing.mark (h : Passing s c e P R) (hx : x ∉ ids (P ++ R)) :
    Passing (marked s x) c e P R :=
  ⟨marked_queue h.queue hx, h.cursor, h.bounded, h.maxcnt, h.exception, h.saved, h.early, h.late,
    h.timely⟩

def FuncOp.arms : FuncOp → Bool
  | .set _ n _ _ => n < 2 ^ 32
  | .cancel _ => false

def OpsSafe (fuel : Nat) (c : Option Nat) (e : Nat) : St → List FuncOp → Prop
  | _, [] => True
  | s, op :: ops =>
    (∀ x n f a, op = .set x n f a → (s.callout x).active = false → 1 ≤ n → ArmSafe s c e n) ∧
      ∀ s', funcOp fuel s op = some s' → OpsSafe fuel c e s' ops

theorem Passing.funcOps (h : Passing s c e P R) (harms : ∀ op ∈ ops, op.arms = true)
    (hsafe : OpsSafe fuel c e s ops) (hf : funcOps fuel s ops = some s') :
    ∃ P' R', Passing s' c e P' R' := by
  refine (funcOps_invariant (fun t ops => (∃ P' R', Passing t c e P' R') ∧
    (∀ op ∈ ops, op.arms = true) ∧ OpsSafe fuel c e t ops) ?_ ?_ ⟨⟨P, R, h⟩, harms, hsafe⟩ hf).1
  · intro t x n f a ops u r ⟨⟨P₁, R₁, hp⟩, harms, hop, hops⟩ hx
    obtain ⟨harm, hrest⟩ := forall_mem_cons.1 harms
    refine ⟨?_, hrest, hops u (Option.map_eq_some_iff.2 ⟨_, hx, rfl⟩)⟩
    have hn : n < 2 ^ 32 := of_decide_eq_true harm
    rcases setTicksLocked_cases hp.queue hn hp.maxcnt hx with
      ⟨hx, he, -⟩ | ⟨hx, -, he, -⟩ | ⟨hx, hn0, ha, -⟩
    · exact ⟨P₁, R₁, he ▸ hp⟩
    · exact ⟨P₁, R₁, he ▸ hp.mark hx⟩
    · exact hp.arm hx hn0 hn (hop x n f a rfl (hp.queue.inactive hx) (Nat.pos_of_ne_zero hn0)) ha
  · intro t x ops ⟨_, harms, _⟩
    cases (forall_mem_cons.1 harms).1

theorem Passing.expire (h : Passing s c e P ((x, d) :: R)) (hd : d ≤ e) :
    Passing (expireOne s x) (ids R).head? (e - d) P R ∧ DueBy s.log x 0 s.now := by
  constructor
  · refine ⟨expireOne_spec h.queue, rfl, h.bounded.drop, h.maxcnt, h.exception, h.saved, h.early,
      ?_, h.timely⟩
    intro p hp
    have hp' : (p.1, p.2 + d) ∈ deadlines (total P) ((x, d) :: R) := by
      rw [deadlines]
      apply mem_cons_of_mem
      apply mem_deadlines_shift (Nat.le_add_left d _)
      rw [Nat.add_sub_cancel]
      exact hp
    obtain ⟨hdue, hle⟩ := h.late _ hp'
    dsimp only at hdue hle
    refine ⟨hdue.shift ?_, ?_⟩
    · show e - d + (s.now + (p.2 + d)) ≤ e + (s.now + p.2)
      omega
    · omega
  · obtain ⟨hdue, hle⟩ := h.late (x, total P + d) mem_cons_self
    apply hdue.shift
    dsimp only at hle ⊢
    omega

theorem Passing.observe (h : Passing s c e P R) (hd : DueBy s.log x 0 s.now) :
    Passing (s.observe (.invoked x s.now)) c e P R :=
  ⟨h.queue.observe _, h.cursor, h.bounded, h.maxcnt, h.exception, h.saved, h.early, h.late,
    timely_invoked h.timely hd⟩

theorem Passing.stop (h : Passing s c e P ((x, d) :: R)) (hd : e < d) :
    Passing (s.setTicks x (d - e)) none e (P ++ (x, d - e) :: R) [] := by
  have hq := h.queue.setTicks (d - e)
  have hb := h.bounded.nearer (le_of_lt hd)
  refine ⟨?_, rfl, ?_, h.maxcnt, h.exception, h.saved, ?_, ?_, h.timely⟩
  · rw [append_nil]
    exact hq
  · rw [append_nil]
    exact hb
  · intro p hp
    rw [deadlines_append, mem_append] at hp
    rcases hp with hp | hp
    · exact h.early p hp
    · have hp' : (p.1, p.2 + e) ∈ deadlines (total P) ((x, d) :: R) := by
        rw [zero_add] at hp
        exact Delta.mem_deadlines_nearer (by omega) hp
      obtain ⟨hdue, -⟩ := h.late _ hp'
      apply hdue.shift
      show 0 + (s.now + (p.2 + e)) ≤ e + (s.now + p.2)
      omega
  · intro p hp
    cases hp

def RoundSafe (fuel : Nat) (script : Nat → List FuncOp) (l : Loop) : Prop :=
  ∀ c, l.c = some c → (l.s.callout c).ticks ≤ l.ticksElapsed → (l.s.callout c).func ≠ none →
    OpsSafe fuel (next l.s l.s.cpuid c) (l.ticksElapsed - (l.s.callout c).ticks)
      (firing l.s c) (script l.fired.length)

theorem Passing.round (h : Passing l.s l.c l.ticksElapsed P R)
    (harms : ∀ i, ∀ op ∈ script i, op.arms = true) (hsafe : RoundSafe fuel script l)
    (hl : loopBody fuel script l = some l') :
    ∃ P' R', Passing l'.s l'.c l'.ticksElapsed P' R' := by
  rcases loopBody_cases h.queue h.cursor hl with ⟨-, he⟩ | ⟨c, d, R', hR, hcase⟩
  · subst he
    exact ⟨P, R, h⟩
  · subst hR
    rcases hcase with ⟨hd, he⟩ | ⟨hd, -, he⟩ | ⟨hd, f, s', hfn, hf, he⟩
    · subst he
      exact ⟨_, _, h.stop hd⟩
    · subst he
      exact ⟨P, R', (h.expire hd).1⟩
    · subst he
      obtain ⟨hexp, hdue⟩ := h.expire hd
      have ht : (l.s.callout c).ticks = d := h.queue.ticks (c, d) (by simp)
      have hops := hsafe c h.cursor (by rw [ht]; exact hd)
        (by rw [hfn]; exact Option.some_ne_none f)
      rw [ht, next_of_ring (p := (c, d)) h.queue.ring] at hops
      exact (hexp.observe hdue).funcOps (harms _) hops hf

end Mdepx.Callout
