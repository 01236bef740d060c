import Mdepx.Eth.Receive

namespace Mdepx.Eth.Rx
open Lib Function List

section
variable {s : State} {status : BitVec 32} {alloc : Bool}

structure Ordered (s : State) : Prop where
  rxIdx : s.rxIdx = s.rounds.length % rxDescCount
  cur : s.cur = s.filled.length % rxDescCount
  le : s.rounds.length ≤ s.filled.length
  room : s.filled.length ≤ s.rounds.length + rxDescCount
  own : ∀ i < rxDescCount, (s.ring i).Owned ↔
    ¬Window rxDescCount s.rounds.length s.filled.length i
  frames : Holds rxDescCount s.frame s.filled s.rounds.length
  rounds : s.rounds.map Round.frame = s.filled.take s.rounds.length

theorem Ordered.fill (h : Ordered s) (hb : Base s) (hown : (s.ring s.cur).Owned) :
    Ordered (fill s status) := by
  have hlen : (Rx.fill s status).filled.length = s.filled.length + 1 := length_append
  have hlt : s.filled.length < s.rounds.length + rxDescCount := by
    apply lt_of_le_of_ne h.room
    intro he
    rw [h.cur, h.own _ (Nat.mod_lt _ rxDescCount_pos),
      window_end rxDescCount_pos h.le h.room] at hown
    exact hown he
  have hframe : (Rx.fill s status).frame = update s.frame (s.filled.length % rxDescCount)
      ⟨((s.ring s.cur).complete status).addr,
        frameLen ((s.ring s.cur).complete status).tdes0⟩ := by
    funext i
    rw [← h.cur]
    dsimp only [Rx.fill, State.frame]
    by_cases hic : i = s.cur
    · rw [hic, update_self, update_self]
      congr 1
      exact (hb.addr _ hb.cur hown).symm
    · rw [update_of_ne hic, update_of_ne hic]
      rfl
  refine ⟨h.rxIdx, ?_, ?_, ?_, ?_, ?_, ?_⟩
  · rw [hlen, ← nextRxidx_mod, ← h.cur]
    exact hb.next _ hb.cur
  · rw [hlen]
    exact Nat.le_succ_of_le h.le
  · rw [hlen]
    exact hlt
  · intro i hi
    rw [hlen]
    dsimp only [Rx.fill]
    rw [window_push h.le, ← h.cur]
    by_cases hic : i = s.cur
    · rw [hic, update_self]
      exact iff_of_false (Desc.not_owned_complete _ _) fun hc => hc (.inl rfl)
    · rw [update_of_ne hic, h.own i hi, or_iff_right hic]
  · rw [hframe]
    exact h.frames.push hlt _
  · dsimp only [Rx.fill]
    rw [take_append_of_le_length h.le]
    exact h.rounds

theorem Ordered.round (h : Ordered s) (hno : ¬(s.ring s.rxIdx).Owned) :
    Ordered (rxRound s true) := by
  have hlen : (rxRound s true).rounds.length = s.rounds.length + 1 := by
    rw [rxRound_rounds]
    exact length_append
  have hlt : s.rounds.length < s.filled.length := by
    rw [h.rxIdx, h.own _ (Nat.mod_lt _ rxDescCount_pos), window_start] at hno
    exact not_not.1 hno
  have hframe : (rxRound s true).frame = update s.frame (s.rounds.length % rxDescCount)
      ⟨s.allocated, frameLen (freshDesc s.allocated).tdes0⟩ := by
    funext i
    rw [rxRound_true, ← h.rxIdx]
    dsimp only [State.frame]
    by_cases hix : i = s.rxIdx
    · rw [hix, update_self, update_self, update_self]
    · rw [update_of_ne hix, update_of_ne hix, update_of_ne hix]
      rfl
  have hfilled : (rxRound s true).filled = s.filled := by rw [rxRound_true]
  refine ⟨?_, ?_, ?_, ?_, ?_, ?_, ?_⟩
  · rw [hlen, ← nextRxidx_mod, ← h.rxIdx, rxRound_true]
  · rw [rxRound_true]
    exact h.cur
  · rw [hlen, hfilled]
    exact hlt
  · rw [hlen, hfilled, Nat.add_right_comm]
    exact Nat.le_succ_of_le h.room
  · intro i hi
    rw [hlen, hfilled, window_pop h.room, rxRound_true, ← h.rxIdx]
    dsimp only
    by_cases hix : i = s.rxIdx
    · rw [hix, update_self]
      exact iff_of_true (freshDesc_owned _) fun hc => hc.1 rfl
    · rw [update_of_ne hix, h.own i hi, and_iff_right hix]
  · rw [hframe, hlen, hfilled]
    exact h.frames.discard h.room _
  · rw [hlen, hfilled, rxRound_rounds, map_append, h.rounds, take_add_one,
      h.frames.first hlt, h.rxIdx]
    rfl

theorem Ordered.all_found (h : Ordered s) (hown : (s.ring s.rxIdx).Owned) :
    s.rounds.length = s.filled.length := by
  rw [h.rxIdx, h.own _ (Nat.mod_lt _ rxDescCount_pos), window_start] at hown
  exact le_antisymm h.le (Nat.le_of_not_lt hown)

def State.Replaced (s : State) : Prop := ∀ r ∈ s.rounds, r.replaced = true

theorem replaced_round : (rxRound s alloc).Replaced ↔ s.Replaced ∧ alloc = true := by
  unfold State.Replaced
  rw [rxRound_rounds, forall_mem_append, forall_mem_singleton]

end

theorem next_invariant {s s' : State} (h : Inv s ∧ (s.Replaced → Ordered s))
    (hs : Next s op s') : Inv s' ∧ (s'.Replaced → Ordered s') := by
  obtain ⟨hinv, hord⟩ := h
  unfold Next at hs
  cases op with
  | round alloc =>
    rw [exec] at hs
    split at hs
    · cases hs
    · rename_i hno
      cases hs
      refine ⟨hinv.round hno alloc, ?_⟩
      rw [replaced_round]
      intro hc
      rw [hc.2]
      exact (hord hc.1).round hno
  | dma status =>
    rw [exec] at hs
    split at hs
    · rename_i hown
      cases hs
      exact ⟨hinv.fill hown status, fun hc => (hord hc).fill hinv.base hown⟩
    · cases hs

structure Prepared (k : Nat) (s : State) : Prop where
  allocated : s.allocated = k
  rxbuf : ∀ i < k, s.rxbuf i = i
  ring : ∀ i < k, s.ring i = freshDesc i
  next : ∀ i < k, s.addrNext i = nextRxidx i
  rxIdx : s.rxIdx = 0
  cur : s.cur = 0
  past : s.filled = [] ∧ s.input = [] ∧ s.rounds = []

theorem Prepared.round (h : Prepared k s) (hs : setupRound alloc s k = some s') :
    Prepared (k + 1) s' := by
  unfold setupRound setupRxdesc0 at hs
  cases ha : alloc k with
  | false =>
    rw [ha] at hs
    cases hs
  | true =>
    rw [ha, h.allocated] at hs
    cases hs
    refine ⟨rfl, ?_, ?_, ?_, h.rxIdx, h.cur, h.past⟩
    · exact forall_lt_update (P := fun i m => m = i) h.rxbuf rfl
    · exact forall_lt_update (P := fun i d => d = freshDesc i) h.ring rfl
    · exact forall_lt_update (P := fun i j => j = nextRxidx i) h.next rfl

theorem Prepared.rounds (h : Prepared 0 s) (k : Nat)
    (hs : (range k).foldlM (setupRound alloc) s = some s') : Prepared k s' := by
  induction k generalizing s' with
  | zero =>
    cases hs
    exact h
  | succ k ih =>
    rw [range_succ, foldlM_append] at hs
    obtain ⟨t, ht, hst⟩ := Option.bind_eq_some_iff.1 hs
    rw [foldlM_cons] at hst
    obtain ⟨u, hu, hnil⟩ := Option.bind_eq_some_iff.1 hst
    cases hnil
    exact (ih ht).round hu

theorem Prepared.invariant (h : Prepared rxDescCount s) : Inv s ∧ (s.Replaced → Ordered s) := by
  obtain ⟨hfilled, hinput, hrounds⟩ := h.past
  refine ⟨⟨⟨?_, ?_, h.next, ?_, ?_, ?_, ?_⟩, .inl ⟨?_, ?_, ?_, ?_, ?_, ?_⟩⟩, ?_⟩
  · rw [h.rxIdx]
    exact rxDescCount_pos
  · rw [h.cur]
    exact rxDescCount_pos
  · intro i hi
    rw [h.rxbuf i hi, h.allocated]
    exact hi
  · intro i hi _
    rw [h.ring i hi, h.rxbuf i hi]
    rfl
  · rw [hinput]
    exact nofun
  · rw [hinput, hrounds]
    rfl
  · unfold State.Fair
    rw [hrounds]
    exact nofun
  · intro i hi j hj he
    rw [h.rxbuf i hi, h.rxbuf j hj] at he
    exact he
  · rw [hfilled]
    exact nofun
  · rw [hinput]
    exact nodup_nil
  · rw [hinput]
    exact nofun
  · intro m hm
    rw [h.allocated] at hm
    exact .inr ⟨m, hm, h.rxbuf m hm⟩
  · intro _
    refine ⟨?_, ?_, ?_, ?_, ?_, ?_, ?_⟩
    · rw [h.rxIdx, hrounds]
      rfl
    · rw [h.cur, hfilled]
      rfl
    · rw [hrounds]
      exact Nat.zero_le _
    · rw [hfilled]
      exact Nat.zero_le _
    · intro i hi
      rw [h.ring i hi, hfilled]
      refine iff_of_true (freshDesc_owned i) ?_
      intro hwin
      obtain ⟨j, -, hj, -⟩ := hwin
      exact absurd hj (Nat.not_lt_zero j)
    · rw [hfilled]
      exact Holds.nil
    · rw [hrounds, hfilled]
      rfl

theorem run_of_evaluated (ring : Nat → Desc) (addrNext rxbuf : Nat → Nat) (alloc : Nat → Bool)
    (ops : List Op) (p : State → Prop) [DecidablePred p]
    (h : ((setup ring addrNext rxbuf alloc).bind fun s => ops.foldlM exec s).map
      (fun s => decide (p s)) = some true) :
    ∃ s₀ s, setup ring addrNext rxbuf alloc = some s₀ ∧ Run Next (fun _ _ => True) s₀ s ∧ p s := by
  obtain ⟨s, hs, hp⟩ := Option.map_eq_some_iff.1 h
  obtain ⟨s₀, h₀, hrun⟩ := Option.bind_eq_some_iff.1 hs
  refine ⟨s₀, s, h₀, Run.of_foldlM ?_ hrun, of_decide_eq_true hp⟩
  intro op _ t u hx
  exact ⟨trivial, hx⟩

/-- Whatever frames arrive and whether or not `m_alloc` succeeds, the ring keeps its promises
exactly if each round gets an mbuf if and only if it finds a frame. If every round gets one, the
frames are passed on in the order of their arrival, and all of them when the loop ends. -/
theorem receive_ring (hsetup : setup ring addrNext rxbuf alloc = some s₀)
    (hrun : Run Next (fun _ _ => True) s₀ s) :
    (Promise s ↔ ∀ r ∈ s.rounds, r.replaced = true ↔ r.frame.len ≠ 0) ∧
      ((∀ r ∈ s.rounds, r.replaced = true) →
        s.input = (s.filled.take s.rounds.length).filter (fun f => f.len ≠ 0) ∧
        ((s.ring s.rxIdx).Owned → s.input = s.filled.filter fun f => f.len ≠ 0)) := by
  have hstart : Prepared 0 (⟨ring, addrNext, rxbuf, 0, 0, 0, [], [], []⟩ : State) :=
    ⟨rfl, nofun, nofun, nofun, rfl, rfl, rfl, rfl, rfl⟩
  have hinv := (hstart.rounds rxDescCount hsetup).invariant
  have h := hrun.invariant (fun s => Inv s ∧ (s.Replaced → Ordered s)) hinv
    fun h _ hst => next_invariant h hst
  refine ⟨h.1.promise_iff, ?_⟩
  intro hrep
  have hord := h.2 hrep
  have hinput := h.1.base.input
  rw [hord.rounds] at hinput
  refine ⟨hinput, ?_⟩
  intro hown
  rw [hord.all_found hown, take_length] at hinput
  exact hinput

theorem receive_ring_one :
    ∃ s₀ s, setup (fun _ => ⟨0, 0, 0⟩) (fun _ => 0) (fun _ => 0) (fun _ => true) = some s₀ ∧
      Run Next (fun _ _ => True) s₀ s ∧ s.input = [⟨0, 60⟩] ∧ Promise s := by
  obtain ⟨s₀, s, hsetup, hrun, hinput, hfair⟩ :=
    run_of_evaluated (fun _ => ⟨0, 0, 0⟩) (fun _ => 0) (fun _ => 0) (fun _ => true)
      [.dma (60 <<< 16), .round true]
      (fun s => s.input = [⟨0, 60⟩] ∧ ∀ r ∈ s.rounds, r.replaced = true ↔ r.frame.len ≠ 0)
      (by decide +kernel)
  exact ⟨s₀, s, hsetup, hrun, hinput, (receive_ring hsetup hrun).1.2 hfair⟩

/-- An mbuf that cannot be replaced is passed to `if_input` again when the ring has come around,
and one with a frame of no length is in no place any more once it is replaced. -/
theorem receive_twice_or_never :
    (∃ s₀ s, setup (fun _ => ⟨0, 0, 0⟩) (fun _ => 0) (fun _ => 0) (fun _ => true) = some s₀ ∧
      Run Next (fun _ _ => True) s₀ s ∧
      s.filled.count ⟨0, 60⟩ = 1 ∧ s.input.count ⟨0, 60⟩ = 2) ∧
    ∃ s₀ s, setup (fun _ => ⟨0, 0, 0⟩) (fun _ => 0) (fun _ => 0) (fun _ => true) = some s₀ ∧
      Run Next (fun _ _ => True) s₀ s ∧
      0 < s.allocated ∧ s.input = [] ∧ ∀ i < rxDescCount, s.rxbuf i ≠ 0 :=
  ⟨run_of_evaluated (fun _ => ⟨0, 0, 0⟩) (fun _ => 0) (fun _ => 0) (fun _ => true)
      (replicate 32 (.dma (60 <<< 16)) ++ .round false :: replicate 32 (.round true))
      (fun s => s.filled.count ⟨0, 60⟩ = 1 ∧ s.input.count ⟨0, 60⟩ = 2) (by decide +kernel),
    run_of_evaluated (fun _ => ⟨0, 0, 0⟩) (fun _ => 0) (fun _ => 0) (fun _ => true)
      [.dma 0, .round true]
      (fun s => 0 < s.allocated ∧ s.input = [] ∧ ∀ i < rxDescCount, s.rxbuf i ≠ 0)
      (by decide +kernel)⟩

end Mdepx.Eth.Rx
