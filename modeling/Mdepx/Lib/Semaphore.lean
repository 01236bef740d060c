import Mathlib.Data.List.Nodup
import Mathlib.Logic.Function.Basic

namespace Mdepx.Lib.Semaphore
open Function List

/-! Counting semaphores that hand a permit directly to the first waiter, with timeouts. -/

inductive Phase (S : Type) where
  | idle | pending (s : S) | won (s : S) | lost (s : S)
deriving DecidableEq

inductive Event (S T : Type) where
  | posted (s : S)
  | took (s : S)
  | blocked (t : T) (s : S)
  | handed (t : T) (s : S)
  | timedOut (t : T) (s : S)
  | returned (t : T) (s : S) (ret : Bool)
deriving DecidableEq

@[ext] structure State (S T : Type) where
  count : S → Int
  waiters : S → List T
  phase : T → Phase S

section
variable [DecidableEq S]

def Event.isPost (s : S) : Event S T → Bool
  | .posted s' => s' = s
  | _ => false

def Event.isGrant (s : S) : Event S T → Bool
  | .took s' | .handed _ s' => s' = s
  | _ => false

def posts (s : S) (log : List (Event S T)) : Nat := log.countP (Event.isPost s)

def grants (s : S) (log : List (Event S T)) : Nat := log.countP (Event.isGrant s)

theorem grants_append (s : S) (evs log : List (Event S T)) :
    grants s (evs ++ log) = grants s evs + grants s log := countP_append

theorem posts_append (s : S) (evs log : List (Event S T)) :
    posts s (evs ++ log) = posts s evs + posts s log := countP_append

theorem posts_cons (s : S) (e : Event S T) (log : List (Event S T)) :
    posts s (e :: log) = posts s log + if Event.isPost s e then 1 else 0 := countP_cons

theorem grants_cons (s : S) (e : Event S T) (log : List (Event S T)) :
    grants s (e :: log) = grants s log + if Event.isGrant s e then 1 else 0 := countP_cons

theorem balance_update {n₀ count : S → Int} {log : List (Event S T)}
    (h : ∀ s, count s + grants s log = n₀ s + posts s log) (evs : List (Event S T))
    (hself : n + grants s evs = count s + posts s evs)
    (hother : ∀ s', s' ≠ s → grants s' evs = posts s' evs) (s' : S) :
    update count s n s' + grants s' (evs ++ log) = n₀ s' + posts s' (evs ++ log) := by
  have hb := h s'
  rw [grants_append, posts_append]
  by_cases hs : s' = s
  · subst hs
    rw [update_self]
    omega
  · have he := hother s' hs
    rw [update_of_ne hs]
    omega

variable [DecidableEq T]

/-- The steps of the semaphores, with the events of each, the newest first. -/
inductive Step : State S T → List (Event S T) → State S T → Prop where
  | quiet : Step a [] a
  | take (hn : 0 < a.count s) :
      Step a [.took s] { a with count := update a.count s (a.count s - 1) }
  | block (hn : ¬0 < a.count s) (ht : a.phase t = .idle) :
      Step a [.blocked t s] { a with
        waiters := update a.waiters s (a.waiters s ++ [t])
        phase := update a.phase t (.pending s) }
  | post (hw : a.waiters s = []) :
      Step a [.posted s] { a with count := update a.count s (a.count s + 1) }
  | hand (hw : a.waiters s = t :: ts) :
      Step a [.handed t s, .posted s] { a with
        waiters := update a.waiters s ts
        phase := update a.phase t (.won s) }
  | expire (ht : t ∈ a.waiters s) :
      Step a [.timedOut t s] { a with
        waiters := update a.waiters s ((a.waiters s).erase t)
        phase := update a.phase t (.lost s) }
  | finish (ht : a.phase t = if ret then .won s else .lost s) :
      Step a [.returned t s ret] { a with phase := update a.phase t .idle }

/-- The life of a wait as thread `t` sees it: it blocks, it is handed a permit and returns true,
or it times out and returns false. -/
def Phase.next (t : T) (p : Phase S) : Event S T → Option (Phase S)
  | .blocked u s => if u = t then if p = .idle then some (.pending s) else none else some p
  | .handed u s => if u = t then if p = .pending s then some (.won s) else none else some p
  | .timedOut u s => if u = t then if p = .pending s then some (.lost s) else none else some p
  | .returned u s ret =>
    if u = t then if p = (if ret then .won s else .lost s) then some .idle else none else some p
  | _ => some p

/-- The phase of `t` behind a log, if the log follows the protocol. -/
def follow (t : T) : List (Event S T) → Option (Phase S)
  | [] => some .idle
  | e :: log => (follow t log).bind (Phase.next t · e)

theorem follow_cons_of_some {e : Event S T} (h : follow t log = some p) :
    follow t (e :: log) = Phase.next t p e := by
  rw [follow, h, Option.bind_some]

theorem follow_update {e : Event S T} {f : T → Phase S} (h : ∀ u, follow u log = some (f u))
    (hself : Phase.next t (f t) e = some p)
    (hother : ∀ u, u ≠ t → Phase.next u (f u) e = some (f u)) (u : T) :
    follow u (e :: log) = some (update f t p u) := by
  rw [follow_cons_of_some (h u)]
  revert u
  exact (forall_update_iff f fun u p => Phase.next u (f u) e = some p).2 ⟨hself, hother⟩

/-- What holds of semaphores that started with `n₀` permits and have the log `log`. -/
structure Sound (n₀ : S → Int) (a : State S T) (log : List (Event S T)) : Prop where
  nonneg : ∀ s, 0 ≤ a.count s
  empty : ∀ s, 0 < a.count s → a.waiters s = []
  nodup : ∀ s, (a.waiters s).Nodup
  pending : ∀ t s, t ∈ a.waiters s → a.phase t = .pending s
  balance : ∀ s, a.count s + grants s log = n₀ s + posts s log
  follows : ∀ t, follow t log = some (a.phase t)

variable {n₀ : S → Int} {a b : State S T}

theorem Sound.balance_same (h : Sound n₀ a log) (evs : List (Event S T))
    (he : grants s evs = posts s evs) :
    a.count s + grants s (evs ++ log) = n₀ s + posts s (evs ++ log) := by
  have hb := h.balance s
  rw [grants_append, posts_append]
  omega

theorem Sound.recount {e : Event S T} (h : Sound n₀ a log) (hn : 0 ≤ n)
    (hw : 0 < n → a.waiters s = []) (hself : n + grants s [e] = a.count s + posts s [e])
    (hother : ∀ s', s' ≠ s → grants s' [e] = posts s' [e])
    (hnext : ∀ t p, Phase.next t p e = some p) :
    Sound n₀ { a with count := update a.count s n } (e :: log) := by
  refine ⟨?_, ?_, h.nodup, h.pending, ?_, ?_⟩
  · exact (forall_update_iff a.count fun _ n => 0 ≤ n).2 ⟨hn, fun s' _ => h.nonneg s'⟩
  · exact (forall_update_iff a.count fun s n => 0 < n → a.waiters s = []).2
      ⟨hw, fun s' _ => h.empty s'⟩
  · exact balance_update h.balance [e] hself hother
  · intro t
    rw [follow_cons_of_some (h.follows t)]
    exact hnext t _

section
variable (h : Sound n₀ a log)
include h

theorem Sound.take (hn : 0 < a.count s) :
    Sound n₀ { a with count := update a.count s (a.count s - 1) } (.took s :: log) := by
  apply h.recount (by omega) (fun _ => h.empty s hn) _ _ fun _ _ => rfl
  · simp [grants, posts, Event.isGrant, Event.isPost]
  · intro s' hs
    simp [grants, posts, Event.isGrant, Event.isPost, Ne.symm hs]

theorem Sound.post (hw : a.waiters s = []) :
    Sound n₀ { a with count := update a.count s (a.count s + 1) }
      (.posted s :: log) := by
  have hn := h.nonneg s
  apply h.recount (by omega) (fun _ => hw) _ _ fun _ _ => rfl
  · simp [grants, posts, Event.isGrant, Event.isPost]
  · intro s' hs
    simp [grants, posts, Event.isGrant, Event.isPost, Ne.symm hs]

theorem Sound.block (hn : ¬0 < a.count s) (ht : a.phase t = .idle) :
    Sound n₀ { a with
      waiters := update a.waiters s (a.waiters s ++ [t])
      phase := update a.phase t (.pending s) } (.blocked t s :: log) := by
  have hout (s' : S) : t ∉ a.waiters s' := by
    intro hm
    rw [h.pending t s' hm] at ht
    cases ht
  refine ⟨h.nonneg, ?_, ?_, ?_, ?_, ?_⟩
  · intro s' hc
    have hs : s' ≠ s := by
      rintro rfl
      exact hn hc
    simp only [update_of_ne hs]
    exact h.empty s' hc
  · exact (forall_update_iff a.waiters fun _ ts => ts.Nodup).2
      ⟨(h.nodup s).append (nodup_singleton t) (disjoint_singleton.2 (hout s)),
        fun s' _ => h.nodup s'⟩
  · intro u s' hu
    by_cases hut : u = t
    · subst hut
      simp only [update_self, Phase.pending.injEq]
      by_cases hs : s' = s
      · exact hs.symm
      · simp only [update_of_ne hs] at hu
        exact absurd hu (hout s')
    · simp only [update_of_ne hut]
      apply h.pending u s'
      by_cases hs : s' = s
      · subst hs
        simp only [update_self, mem_append, mem_singleton, hut,
          or_false] at hu
        exact hu
      · simp only [update_of_ne hs] at hu
        exact hu
  · intro s'
    exact h.balance_same [.blocked t s] rfl
  · apply follow_update h.follows
    · simp only [Phase.next, if_true, ht]
    · exact fun u hut => if_neg hut.symm

theorem Sound.leave (ht : t ∈ a.waiters s) (p : Phase S) :
    (∀ s', 0 < a.count s' → update a.waiters s ((a.waiters s).erase t) s' = []) ∧
    (∀ s', (update a.waiters s ((a.waiters s).erase t) s').Nodup) ∧
    ∀ u s', u ∈ update a.waiters s ((a.waiters s).erase t) s' →
      update a.phase t p u = .pending s' := by
  refine ⟨?_, ?_, ?_⟩
  · intro s' hc
    have he := h.empty s' hc
    have hs : s' ≠ s := by
      rintro rfl
      rw [he] at ht
      cases ht
    rw [update_of_ne hs, he]
  · exact (forall_update_iff a.waiters fun _ ts => ts.Nodup).2
      ⟨(h.nodup s).erase t, fun s' _ => h.nodup s'⟩
  · intro u s' hu
    by_cases hs : s' = s
    · subst hs
      rw [update_self, (h.nodup s').mem_erase_iff] at hu
      rw [update_of_ne hu.1]
      exact h.pending u s' hu.2
    · rw [update_of_ne hs] at hu
      have hut : u ≠ t := by
        rintro rfl
        have h1 := h.pending u s ht
        rw [h.pending u s' hu, Phase.pending.injEq] at h1
        exact hs h1
      rw [update_of_ne hut]
      exact h.pending u s' hu

theorem Sound.hand (hw : a.waiters s = t :: ts) :
    Sound n₀ { a with
      waiters := update a.waiters s ts
      phase := update a.phase t (.won s) } (.handed t s :: .posted s :: log) := by
  have ht : t ∈ a.waiters s := by
    rw [hw]
    exact mem_cons_self
  have hts : ts = (a.waiters s).erase t := by rw [hw, erase_cons_head]
  rw [hts]
  obtain ⟨hempty, hnodup, hpending⟩ := h.leave ht (.won s)
  refine ⟨h.nonneg, hempty, hnodup, hpending, ?_, ?_⟩
  · intro s'
    apply h.balance_same [.handed t s, .posted s]
    rw [grants_cons, grants_cons, posts_cons, posts_cons]
    simp only [Event.isGrant, Event.isPost, Bool.false_eq_true, if_false, decide_eq_true_eq]
    rfl
  · apply follow_update fun u => follow_cons_of_some (h.follows u)
    · simp only [Phase.next, if_true, h.pending t s ht]
    · exact fun u hut => if_neg hut.symm

theorem Sound.expire (ht : t ∈ a.waiters s) :
    Sound n₀ { a with
      waiters := update a.waiters s ((a.waiters s).erase t)
      phase := update a.phase t (.lost s) } (.timedOut t s :: log) := by
  obtain ⟨hempty, hnodup, hpending⟩ := h.leave ht (.lost s)
  refine ⟨h.nonneg, hempty, hnodup, hpending, ?_, ?_⟩
  · intro s'
    exact h.balance_same [.timedOut t s] rfl
  · apply follow_update h.follows
    · simp only [Phase.next, if_true, h.pending t s ht]
    · exact fun u hut => if_neg hut.symm

theorem Sound.finish (ht : a.phase t = if ret then .won s else .lost s) :
    Sound n₀ { a with phase := update a.phase t .idle }
      (.returned t s ret :: log) := by
  have hout (s' : S) : t ∉ a.waiters s' := by
    intro hm
    rw [h.pending t s' hm] at ht
    cases ret
    · cases ht
    · cases ht
  refine ⟨h.nonneg, h.empty, h.nodup, ?_, ?_, ?_⟩
  · intro u s' hu
    have hut : u ≠ t := by
      rintro rfl
      exact hout s' hu
    simp only [update_of_ne hut]
    exact h.pending u s' hu
  · intro s'
    exact h.balance_same [.returned t s ret] rfl
  · apply follow_update h.follows
    · simp only [Phase.next, if_true, ht]
    · exact fun u hut => if_neg hut.symm

theorem Sound.step (hs : Step a evs b) : Sound n₀ b (evs ++ log) := by
  cases hs with
  | quiet => exact h
  | take hn => exact h.take hn
  | block hn ht => exact h.block hn ht
  | post hw => exact h.post hw
  | hand hw => exact h.hand hw
  | expire ht => exact h.expire ht
  | finish ht => exact h.finish ht

end

theorem Sound.start (n₀ : S → Int) (hn : ∀ s, 0 ≤ n₀ s) :
    Sound n₀ ⟨n₀, fun _ => [], fun _ => .idle⟩ ([] : List (Event S T)) :=
  ⟨hn, fun _ _ => rfl, fun _ => nodup_nil, fun _ _ h => absurd h not_mem_nil,
    fun _ => rfl, fun _ => rfl⟩

/-- What an event makes of the queue of `s`. Only the first one of it is handed a permit. -/
def turn (s : S) (ts : List T) : Event S T → Option (List T)
  | .blocked t s' => some (if s' = s then ts ++ [t] else ts)
  | .handed t s' => if s' = s then if ts.head? = some t then some ts.tail else none else some ts
  | .timedOut t s' => if s' = s then if t ∈ ts then some (ts.erase t) else none else some ts
  | _ => some ts

/-- The queue of `s` behind a log, if its threads are served in the order in which they blocked. -/
def line (s : S) : List (Event S T) → Option (List T)
  | [] => some []
  | e :: log => (line s log).bind (turn s · e)

theorem line_cons {e : Event S T} (h : line s log = some ts) : line s (e :: log) = turn s ts e := by
  rw [line, h, Option.bind_some]

theorem line_update {e : Event S T} {f : S → List T} (h : ∀ s, line s log = some (f s))
    (hself : turn s (f s) e = some ts) (hother : ∀ s', s' ≠ s → turn s' (f s') e = some (f s'))
    (s' : S) : line s' (e :: log) = some (update f s ts s') := by
  rw [line_cons (h s')]
  revert s'
  exact (forall_update_iff f fun s ts => turn s (f s) e = some ts).2 ⟨hself, hother⟩

theorem line_step (h : ∀ s, line s log = some (a.waiters s)) (hs : Step a evs b) (s : S) :
    line s (evs ++ log) = some (b.waiters s) := by
  cases hs with
  | quiet => exact h s
  | take | post | finish => exact line_cons (h s)
  | block =>
    apply line_update h
    · exact congrArg some (if_pos rfl)
    · exact fun s' hs => congrArg some (if_neg hs.symm)
  | hand hw =>
    apply line_update fun s => line_cons (h s)
    · simp only [hw, turn, head?_cons, if_true, tail_cons]
    · exact fun s' hs => if_neg hs.symm
  | expire ht =>
    apply line_update h
    · simp only [turn, if_true, if_pos ht]
    · exact fun s' hs => if_neg hs.symm

end
end Mdepx.Lib.Semaphore
