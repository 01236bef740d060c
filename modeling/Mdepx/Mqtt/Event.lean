import Mathlib.Data.Fintype.Basic
import Mdepx.Lib.Run
import Mdepx.Lib.Threads
import Mdepx.Mqtt.Basic

namespace Mdepx.Mqtt.Event
open Lib Function List

/-! The calls of `mqtt_event` by the threads of one client, and the order of its callbacks. -/

/-- Where a thread is in `mqtt_event`: outside, before the lock, with the mutex before and behind
the tests (having changed the flag or not), and behind the unlock, before the callback. A call
made from a callback counts as one of another thread. -/
inductive Stage where
  | out
  | locking (ev : ConnectionEvent)
  | testing (ev : ConnectionEvent)
  | same
  | changed (ev : ConnectionEvent)
  | notifying (ev : ConnectionEvent)
  deriving DecidableEq

/-- The client's flag, its mutex and the callbacks made so far; `pending` are the threads that
have changed the flag and not made their callback, in the order of the changes. -/
structure State (τ : Type) where
  connected : Bool
  mtx : Option τ
  stage : τ → Stage
  events : List ConnectionEvent
  pending : List τ

inductive Op (τ : Type) where
  | call (td : τ) (ev : ConnectionEvent)
  | lock (td : τ)
  | test (td : τ)
  | unlock (td : τ)
  | callback (td : τ)

section
variable [DecidableEq τ]

def State.change (s : State τ) (td : τ) (ev : ConnectionEvent) : State τ :=
  { s with
    connected := decide (ev = ConnectionEvent.connected)
    pending := s.pending ++ [td]
    stage := update s.stage td (.changed ev) }

def State.report (s : State τ) (td : τ) (ev : ConnectionEvent) : State τ :=
  { s with
    events := s.events ++ [ev]
    pending := s.pending.erase td
    stage := update s.stage td .out }

def exec (s : State τ) : Op τ → Option (State τ)
  | .call td ev => if s.stage td = .out then some { s with
      stage := update s.stage td (.locking ev) } else none
  | .lock td =>
    match s.stage td with
    | .locking ev =>
      if s.mtx = none then some { s with
          mtx := some td
          stage := update s.stage td (.testing ev) } else none
    | _ => none
  | .test td =>
    match s.stage td with
    | .testing ev =>
      if s.connected = decide (ev = ConnectionEvent.connected) then some { s with
          stage := update s.stage td .same }
      else some (s.change td ev)
    | _ => none
  | .unlock td =>
    match s.stage td with
    | .same => some { s with mtx := none, stage := update s.stage td .out }
    | .changed ev => some { s with mtx := none, stage := update s.stage td (.notifying ev) }
    | _ => none
  | .callback td =>
    match s.stage td with
    | .notifying ev => some (s.report td ev)
    | _ => none

def start : State τ := ⟨false, none, fun _ => .out, [], []⟩

def Alternating (evs : List ConnectionEvent) : Prop :=
  ∀ i ev, evs[i]? = some ev → ev = if i % 2 = 0 then .connected else .disconnected

/-- The callbacks alternate, and as long as no thread is inside `mqtt_event` the last one is that
of the flag. -/
def InOrder (s : State τ) : Prop :=
  Alternating s.events ∧
    ((∀ td, s.stage td = .out) → (s.connected = true ↔ s.events.getLast? = some .connected))

/-- The callback is that of the oldest change without one. -/
def OldestFirst (s : State τ) : Op τ → Prop
  | .callback td => s.pending.head? = some td
  | _ => True

instance (s : State τ) (op : Op τ) : Decidable (OldestFirst s op) := by
  unfold OldestFirst
  split <;> infer_instance

def Stage.owed : Stage → Option ConnectionEvent
  | .changed ev | .notifying ev => some ev
  | _ => none

def State.changes (s : State τ) : List ConnectionEvent :=
  s.events ++ s.pending.filterMap fun td => (s.stage td).owed

variable {s s' : State τ} {td : τ} {tds : List τ}

theorem Alternating.append_left (h : Alternating (evs ++ evs')) : Alternating evs := by
  intro i ev hi
  apply h i ev
  rw [List.getElem?_append_left (List.getElem?_eq_some_iff.1 hi).1]
  exact hi

theorem Alternating.concat (h : Alternating evs)
    (hev : ev = if evs.length % 2 = 0 then .connected else .disconnected) :
    Alternating (evs ++ [ev]) := by
  intro i ev' hi
  rcases Nat.lt_trichotomy i evs.length with hlt | heq | hgt
  · rw [getElem?_append_left hlt] at hi
    exact h i ev' hi
  · subst heq
    rw [getElem?_concat_length] at hi
    cases hi
    exact hev
  · rw [getElem?_eq_none (by simpa using Nat.succ_le_of_lt hgt)] at hi
    cases hi

theorem Alternating.getLast (h : Alternating evs) :
    evs.getLast? = some .connected ↔ evs.length % 2 = 1 := by
  rw [getLast?_eq_getElem?]
  cases hev : evs[evs.length - 1]? with
  | none =>
    have hlen := getElem?_eq_none_iff.1 hev
    simp only [reduceCtorEq, false_iff]
    omega
  | some ev =>
    have hlen := (List.getElem?_eq_some_iff.1 hev).1
    rw [h _ ev hev]
    split
    · simp only [true_iff]
      omega
    · simp only [Option.some.injEq, reduceCtorEq, false_iff]
      omega

structure Ordered (s : State τ) : Prop where
  changes : Alternating s.changes
  flag : s.connected = decide (s.changes.length % 2 = 1)
  owes : ∀ td, td ∈ s.pending ↔ (s.stage td).owed ≠ none
  nodup : s.pending.Nodup

theorem Ordered.move (h : Ordered s) (hst : st.owed = (s.stage td).owed) (mtx : Option τ) :
    Ordered { s with mtx := mtx, stage := update s.stage td st } := by
  have hchanges : { s with mtx := mtx, stage := update s.stage td st }.changes = s.changes := by
    simp only [State.changes, view_update Stage.owed hst]
  constructor
  · rw [hchanges]
    exact h.changes
  · rw [hchanges]
    exact h.flag
  · intro u
    simp only [view_update Stage.owed hst]
    exact h.owes u
  · exact h.nodup

theorem Ordered.change (h : Ordered s) (ht : s.stage td = .testing ev)
    (hne : s.connected ≠ decide (ev = ConnectionEvent.connected)) :
    Ordered (s.change td ev) := by
  have hnot : td ∉ s.pending := by
    rw [h.owes, ht]
    exact not_not.2 rfl
  have hchanges : (s.change td ev).changes = s.changes ++ [ev] := by
    simp only [State.changes, State.change, filterMap_append,
      views_update Stage.owed hnot, append_assoc]
    simp [Stage.owed]
  have hturn : ev = .connected ↔ s.changes.length % 2 = 0 := by
    rw [h.flag, Ne, decide_eq_decide] at hne
    constructor
    · intro hev
      simp only [hev, iff_true] at hne
      omega
    · intro heven
      by_contra hev
      exact hne (iff_of_false (by omega) hev)
  constructor
  · rw [hchanges]
    apply h.changes.concat
    split
    · rename_i heven
      exact hturn.2 heven
    · rename_i hodd
      cases ev with
      | connected => exact absurd (hturn.1 rfl) hodd
      | disconnected => rfl
  · rw [hchanges, length_append, length_singleton]
    simp only [State.change, decide_eq_decide, hturn]
    omega
  · intro u
    by_cases hu : u = td
    · subst hu
      simp [State.change, Stage.owed]
    · simp only [State.change, update_of_ne hu, mem_append,
        mem_singleton, hu, or_false]
      exact h.owes u
  · exact nodup_append.2 ⟨h.nodup, nodup_singleton td, by
      intro a ha b hb hab
      rw [mem_singleton.1 hb] at hab
      exact hnot (hab ▸ ha)⟩

theorem Ordered.callback (h : Ordered s) (ht : s.stage td = .notifying ev)
    (hfirst : s.pending.head? = some td) :
    Ordered (s.report td ev) := by
  obtain ⟨tds, hp⟩ := head?_eq_some_iff.1 hfirst
  have hnodup := h.nodup
  rw [hp] at hnodup
  have hnot := (nodup_cons.1 hnodup).1
  have hrest : s.pending.erase td = tds := by rw [hp, erase_cons_head]
  have hchanges : (s.report td ev).changes = s.changes := by
    simp only [State.changes, State.report, hrest, views_update Stage.owed hnot]
    rw [hp, filterMap_cons, ht]
    simp only [Stage.owed, append_assoc, singleton_append]
  constructor
  · rw [hchanges]
    exact h.changes
  · rw [hchanges]
    exact h.flag
  · intro u
    have hu := h.owes u
    simp only [State.report, hrest]
    rw [hp, mem_cons] at hu
    by_cases hut : u = td
    · subst hut
      simp [Stage.owed, hnot]
    · rw [update_of_ne hut, ← hu]
      simp [hut]
  · simp only [State.report, hrest]
    exact (nodup_cons.1 hnodup).2

theorem Ordered.step (h : Ordered s) (hok : OldestFirst s op) (hx : exec s op = some s') :
    Ordered s' := by
  cases op with
  | call td ev =>
    simp only [exec] at hx
    split at hx
    · rename_i ht
      cases hx
      apply h.move
      rw [ht]
      rfl
    · cases hx
  | lock td =>
    simp only [exec] at hx
    split at hx
    · rename_i ev ht
      split at hx
      · cases hx
        apply h.move
        rw [ht]
        rfl
      · cases hx
    · cases hx
  | test td =>
    simp only [exec] at hx
    split at hx
    · rename_i ev ht
      split at hx
      · cases hx
        apply h.move
        rw [ht]
        rfl
      · rename_i hne
        cases hx
        exact h.change ht hne
    · cases hx
  | unlock td =>
    simp only [exec] at hx
    split at hx
    · rename_i ht
      cases hx
      apply h.move
      rw [ht]
      rfl
    · rename_i ev ht
      cases hx
      apply h.move
      rw [ht]
      rfl
    · cases hx
  | callback td =>
    simp only [exec] at hx
    split at hx
    · rename_i ev ht
      cases hx
      exact h.callback ht hok
    · cases hx

omit [DecidableEq τ] in
theorem start_ordered : Ordered (start : State τ) where
  changes := by
    intro i ev hi
    cases hi
  flag := rfl
  owes := by
    intro td
    simp [start, Stage.owed]
  nodup := nodup_nil

omit [DecidableEq τ] in
theorem Ordered.inOrder (h : Ordered s) : InOrder s := by
  refine ⟨h.changes.append_left, ?_⟩
  intro hout
  have hpending : s.pending = [] := by
    apply eq_nil_iff_forall_not_mem.2
    intro td htd
    apply (h.owes td).1 htd
    rw [hout td]
    rfl
  have hchanges : s.changes = s.events := by
    rw [State.changes, hpending, filterMap_nil, append_nil]
  have halt := h.changes
  rw [hchanges] at halt
  rw [halt.getLast, h.flag, hchanges, decide_eq_true_iff]

/-- As long as the callbacks are made in the order of the changes they report, they alternate, and
the last one is that of the flag whenever no thread is inside `mqtt_event`. -/
theorem events_alternate (h : Run (Steps exec) OldestFirst (start : State τ) s) : InOrder s := by
  apply Ordered.inOrder
  apply h.invariant Ordered start_ordered
  intro t op u ht hok hx
  exact ht.step hok hx

end

theorem events_alternate_overlapping :
    ∃ s : State Bool, Run (Steps exec) OldestFirst start s ∧
      s.events = [.connected, .disconnected] ∧ InOrder s := by
  obtain ⟨s, hs, hev⟩ := Run.of_checked exec OldestFirst (start : State Bool)
    [.call true .connected, .lock true, .test true, .unlock true, .call false .disconnected,
      .lock false, .test false, .unlock false, .callback true, .callback false]
    (fun s => s.events = [.connected, .disconnected]) (by decide +kernel)
  exact ⟨s, hs, hev, events_alternate hs⟩

/-- A thread that reports the disconnection overtakes the one that reported the connection. -/
theorem events_overtake :
    ∃ s : State Bool, Run (Steps exec) (fun _ _ => True) start s ∧
      s.events = [.disconnected, .connected] ∧ s.connected = false ∧ (∀ td, s.stage td = .out) ∧
      ¬InOrder s := by
  obtain ⟨s, hs, hev, hflag, hout⟩ := Run.of_checked exec (fun _ _ => True)
    (start : State Bool)
    [.call true .connected, .lock true, .test true, .unlock true, .call false .disconnected,
      .lock false, .test false, .unlock false, .callback false, .callback true]
    (fun s => s.events = [.disconnected, .connected] ∧ s.connected = false ∧
      ∀ td, s.stage td = .out) (by decide +kernel)
  refine ⟨s, hs, hev, hflag, hout, ?_⟩
  rintro ⟨halt, -⟩
  have h0 := halt 0 .disconnected (by rw [hev]; rfl)
  cases h0

end Mdepx.Mqtt.Event
