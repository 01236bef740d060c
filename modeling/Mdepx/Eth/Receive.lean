import Mdepx.Eth.Basic
import Mathlib.Data.List.Nodup

namespace Mdepx.Eth.Rx
open Lib Function List

section
variable {s : State} {status : BitVec 32} {alloc : Bool}

def State.passed (s : State) : List Frame :=
  if (s.frame s.rxIdx).len ≠ 0 then s.input ++ [s.frame s.rxIdx] else s.input

def freshDesc (m : Nat) : Desc := ⟨ddescOwn, rdes1Chained ||| 2048, m⟩

theorem freshDesc_owned (m : Nat) : (freshDesc m).Owned := by
  have h : ddescOwn &&& ddescOwn ≠ 0 := by decide
  exact h

theorem rxRound_true (s : State) : rxRound s true = { s with
    input := s.passed
    allocated := s.allocated + 1
    rxbuf := update s.rxbuf s.rxIdx s.allocated
    ring := update s.ring s.rxIdx (freshDesc s.allocated)
    addrNext := update s.addrNext s.rxIdx (nextRxidx s.rxIdx)
    rxIdx := nextRxidx s.rxIdx
    rounds := s.rounds ++ [⟨s.frame s.rxIdx, true⟩] } := by
  unfold rxRound State.passed
  dsimp only
  split <;> rfl

theorem rxRound_false (s : State) : rxRound s false = { s with
    input := s.passed
    rxIdx := nextRxidx s.rxIdx
    rounds := s.rounds ++ [⟨s.frame s.rxIdx, false⟩] } := by
  unfold rxRound State.passed
  dsimp only
  split <;> rfl

theorem rxRound_input (s : State) (alloc : Bool) : (rxRound s alloc).input = s.passed := by
  cases alloc with
  | false => rw [rxRound_false]
  | true => rw [rxRound_true]

theorem rxRound_rounds (s : State) (alloc : Bool) :
    (rxRound s alloc).rounds = s.rounds ++ [⟨s.frame s.rxIdx, alloc⟩] := by
  cases alloc with
  | false => rw [rxRound_false]
  | true => rw [rxRound_true]

theorem rxRound_slot (alloc : Bool) (hi : i ≠ s.rxIdx) :
    (rxRound s alloc).rxbuf i = s.rxbuf i ∧ (rxRound s alloc).ring i = s.ring i := by
  cases alloc with
  | false =>
    rw [rxRound_false]
    exact ⟨rfl, rfl⟩
  | true =>
    rw [rxRound_true]
    exact ⟨update_of_ne hi _ _, update_of_ne hi _ _⟩

theorem rxRound_frame (alloc : Bool) (hi : i ≠ s.rxIdx) :
    (rxRound s alloc).frame i = s.frame i := by
  obtain ⟨hbuf, hring⟩ := rxRound_slot alloc hi
  rw [State.frame, hbuf, hring]
  rfl

theorem fill_ring (status : BitVec 32) (hi : i ≠ s.cur) :
    (fill s status).ring i = s.ring i :=
  update_of_ne hi _ _

theorem fill_frame (status : BitVec 32) (hi : i ≠ s.cur) :
    (fill s status).frame i = s.frame i := by
  rw [State.frame, fill_ring status hi]
  rfl

theorem State.mem_passed (hf : f ∈ s.input) : f ∈ s.passed := by
  unfold passed
  split
  · exact mem_append_left _ hf
  · exact hf

theorem State.passed_cases (hf : f ∈ s.passed) : f ∈ s.input ∨ f = s.frame s.rxIdx := by
  unfold passed at hf
  split at hf
  · exact (mem_append.1 hf).imp_right mem_singleton.1
  · exact .inl hf

theorem rxDescCount_pos : 0 < rxDescCount := by decide

theorem nextRxidx_lt (i : Nat) : nextRxidx i < rxDescCount := Nat.mod_lt _ rxDescCount_pos

theorem nextRxidx_mod (k : Nat) : nextRxidx (k % rxDescCount) = (k + 1) % rxDescCount :=
  Nat.mod_add_mod k rxDescCount 1

structure Base (s : State) : Prop where
  rxIdx : s.rxIdx < rxDescCount
  cur : s.cur < rxDescCount
  next : ∀ i < rxDescCount, s.addrNext i = nextRxidx i
  below : ∀ i < rxDescCount, s.rxbuf i < s.allocated
  addr : ∀ i < rxDescCount, (s.ring i).Owned → (s.ring i).addr = s.rxbuf i
  passed : ∀ f ∈ s.input, f.buf < s.allocated
  input : s.input = (s.rounds.map Round.frame).filter fun f => f.len ≠ 0

theorem Base.fill (h : Base s) : Base (fill s status) := by
  refine { h with cur := ?_, addr := ?_ }
  · dsimp only [Rx.fill]
    rw [h.next _ h.cur]
    exact nextRxidx_lt _
  · intro i hi hown
    by_cases hic : i = s.cur
    · dsimp only [Rx.fill] at hown
      rw [hic, update_self] at hown
      exact absurd hown (Desc.not_owned_complete _ _)
    · rw [fill_ring status hic] at hown ⊢
      exact h.addr i hi hown

theorem State.passed_eq (h : s.input = (s.rounds.map Round.frame).filter fun f => f.len ≠ 0)
    (alloc : Bool) : s.passed =
      ((s.rounds ++ [(⟨s.frame s.rxIdx, alloc⟩ : Round)]).map Round.frame).filter
        fun f => f.len ≠ 0 := by
  rw [map_append, filter_append, ← h, passed]
  by_cases hlen : (s.frame s.rxIdx).len = 0
  · simp [hlen]
  · simp [hlen]

theorem Base.round (h : Base s) (alloc : Bool) : Base (rxRound s alloc) := by
  have hbelow : ∀ f ∈ s.passed, f.buf < s.allocated := by
    intro f hf
    rcases State.passed_cases hf with hin | rfl
    · exact h.passed f hin
    · exact h.below _ h.rxIdx
  cases alloc with
  | false =>
    rw [rxRound_false]
    exact { h with rxIdx := nextRxidx_lt _, passed := hbelow, input := State.passed_eq h.input _ }
  | true =>
    rw [rxRound_true]
    refine ⟨nextRxidx_lt _, h.cur, ?_, ?_, ?_, ?_, State.passed_eq h.input _⟩
    · intro i hi
      by_cases hix : i = s.rxIdx
      · rw [hix]
        exact update_self _ _ _
      · exact (update_of_ne hix _ _).trans (h.next i hi)
    · intro i hi
      by_cases hix : i = s.rxIdx
      · rw [hix]
        dsimp only
        rw [update_self]
        exact Nat.lt_succ_self _
      · dsimp only
        rw [update_of_ne hix]
        exact Nat.lt_succ_of_lt (h.below i hi)
    · intro i hi hown
      dsimp only at hown ⊢
      by_cases hix : i = s.rxIdx
      · rw [hix, update_self, update_self]
        rfl
      · rw [update_of_ne hix] at hown
        rw [update_of_ne hix, update_of_ne hix]
        exact h.addr i hi hown
    · intro f hf
      exact Nat.lt_succ_of_lt (hbelow f hf)

def State.Waiting (s : State) (f : Frame) : Prop :=
  ∃ i < rxDescCount, ¬(s.ring i).Owned ∧ s.frame i = f

/-- What the ring promises: no frame received is lost on the way to `if_input` or passed to it
twice, an mbuf passed to it is not in the ring any more, and the others still are. -/
structure Promise (s : State) : Prop where
  once : ∀ f ∈ s.filled, f.len ≠ 0 → s.input.count f = 1 ∨ f ∉ s.input ∧ s.Waiting f
  nodup : (s.input.map Frame.buf).Nodup
  gone : ∀ f ∈ s.input, ∀ i < rxDescCount, s.rxbuf i ≠ f.buf
  kept : ∀ m < s.allocated, (∃ f ∈ s.input, f.buf = m) ∨ ∃ i < rxDescCount, s.rxbuf i = m

/-- The mbuf found has been replaced exactly if it was passed to `if_input`. -/
def Round.Fair (r : Round) : Prop := r.replaced = true ↔ r.frame.len ≠ 0

structure Good (s : State) : Prop where
  inj : ∀ i < rxDescCount, ∀ j < rxDescCount, s.rxbuf i = s.rxbuf j → i = j
  once : ∀ f ∈ s.filled, f.len ≠ 0 → f ∈ s.input ∨ s.Waiting f
  nodup : (s.input.map Frame.buf).Nodup
  gone : ∀ f ∈ s.input, ∀ i < rxDescCount, s.rxbuf i ≠ f.buf
  kept : ∀ m < s.allocated, (∃ f ∈ s.input, f.buf = m) ∨ ∃ i < rxDescCount, s.rxbuf i = m

theorem Good.promise (h : Good s) : Promise s := by
  refine ⟨?_, h.nodup, h.gone, h.kept⟩
  intro f hf hlen
  rcases h.once f hf hlen with hin | hwait
  · exact .inl (count_eq_one_of_mem h.nodup.of_map hin)
  · refine .inr ⟨?_, hwait⟩
    intro hin
    obtain ⟨i, hi, -, rfl⟩ := hwait
    exact h.gone _ hin i hi rfl

/-- Where a promise has been broken for good: a frame has been passed twice, is about to be, or an
mbuf has been lost. -/
inductive Broken (s : State) : Prop where
  | twice (h : ¬(s.input.map Frame.buf).Nodup)
  | stale (f : Frame) (hf : f ∈ s.input) (i : Nat) (hi : i < rxDescCount)
      (hown : ¬(s.ring i).Owned) (hbuf : s.rxbuf i = f.buf) (hlen : (s.frame i).len ≠ 0)
  | lost (m : Nat) (hm : m < s.allocated) (hin : ∀ f ∈ s.input, f.buf ≠ m)
      (hring : ∀ i < rxDescCount, s.rxbuf i ≠ m)

theorem Broken.not_promise (h : Broken s) : ¬Promise s := by
  intro hp
  cases h with
  | twice h => exact h hp.nodup
  | stale f hf i hi _ hbuf => exact hp.gone f hf i hi hbuf
  | lost m hm hin hring =>
    rcases hp.kept m hm with ⟨f, hf, he⟩ | ⟨i, hi, he⟩
    · exact hin f hf he
    · exact hring i hi he

theorem Good.fill (h : Good s) (hb : Base s) (hown : (s.ring s.cur).Owned) :
    Good (fill s status) := by
  refine { h with once := ?_ }
  intro f hf hlen
  rcases mem_append.1 hf with hold | hnew
  · rcases h.once f hold hlen with hin | ⟨i, hi, hno, hfr⟩
    · exact .inl hin
    · have hic : i ≠ s.cur := by
        rintro rfl
        exact hno hown
      rw [← fill_ring status hic] at hno
      rw [← fill_frame status hic] at hfr
      exact .inr ⟨i, hi, hno, hfr⟩
  · rw [mem_singleton.1 hnew]
    refine .inr ⟨s.cur, hb.cur, ?_, ?_⟩
    · dsimp only [Rx.fill]
      rw [update_self]
      exact Desc.not_owned_complete _ _
    · dsimp only [Rx.fill, State.frame]
      rw [update_self]
      congr 1
      exact (hb.addr _ hb.cur hown).symm

theorem Broken.fill (h : Broken s) (hown : (s.ring s.cur).Owned) : Broken (fill s status) := by
  cases h with
  | twice h => exact .twice h
  | lost m hm hin hring => exact .lost m hm hin hring
  | stale f hf i hi hno hbuf hlen =>
    have hic : i ≠ s.cur := by
      rintro rfl
      exact hno hown
    rw [← fill_ring status hic] at hno
    rw [← fill_frame status hic] at hlen
    exact .stale f hf i hi hno hbuf hlen

theorem Good.replace (h : Good s) (hb : Base s) (hlen : (s.frame s.rxIdx).len ≠ 0) :
    Good (rxRound s true) := by
  have hpassed : s.passed = s.input ++ [s.frame s.rxIdx] := if_pos hlen
  have hlast : s.frame s.rxIdx ∈ s.passed := by
    rw [hpassed]
    exact mem_append_right _ mem_cons_self
  have hown : (rxRound s true).rxbuf s.rxIdx = s.allocated := by
    rw [rxRound_true]
    exact update_self _ _ _
  have hother {i : Nat} (hix : i ≠ s.rxIdx) : (rxRound s true).rxbuf i = s.rxbuf i :=
    (rxRound_slot true hix).1
  have hslot (i : Nat) (hi : i < rxDescCount) : s.rxbuf i ≠ s.allocated :=
    ne_of_lt (hb.below i hi)
  refine ⟨?_, ?_, ?_, ?_, ?_⟩
  · intro i hi j hj he
    by_cases hix : i = s.rxIdx
    · by_cases hjx : j = s.rxIdx
      · rw [hix, hjx]
      · rw [hix, hown, hother hjx] at he
        exact absurd he.symm (hslot j hj)
    · by_cases hjx : j = s.rxIdx
      · rw [hjx, hown, hother hix] at he
        exact absurd he (hslot i hi)
      · rw [hother hix, hother hjx] at he
        exact h.inj i hi j hj he
  · intro f hf hl
    rw [rxRound_true] at hf
    rw [rxRound_input]
    rcases h.once f hf hl with hin | ⟨i, hi, hno, hfr⟩
    · exact .inl (State.mem_passed hin)
    · by_cases hix : i = s.rxIdx
      · rw [hix] at hfr
        rw [← hfr]
        exact .inl hlast
      · rw [← (rxRound_slot true hix).2] at hno
        rw [← rxRound_frame true hix] at hfr
        exact .inr ⟨i, hi, hno, hfr⟩
  · rw [rxRound_input, hpassed, map_append]
    apply h.nodup.append (nodup_singleton _)
    intro m hm hm'
    obtain ⟨f, hf, rfl⟩ := mem_map.1 hm
    exact h.gone f hf s.rxIdx hb.rxIdx (mem_singleton.1 hm').symm
  · intro f hf i hi
    rw [rxRound_input] at hf
    by_cases hix : i = s.rxIdx
    · rw [hix, hown]
      rcases State.passed_cases hf with hin | rfl
      · exact ne_of_gt (hb.passed f hin)
      · exact (hslot _ hb.rxIdx).symm
    · rw [hother hix]
      rcases State.passed_cases hf with hin | rfl
      · exact h.gone f hin i hi
      · intro he
        exact hix (h.inj i hi _ hb.rxIdx he)
  · intro m hm
    rw [rxRound_input]
    have hle : m ≤ s.allocated := by
      rw [rxRound_true] at hm
      exact Nat.le_of_lt_succ hm
    rcases lt_or_eq_of_le hle with hlt | rfl
    · rcases h.kept m hlt with ⟨f, hf, he⟩ | ⟨i, hi, he⟩
      · exact .inl ⟨f, State.mem_passed hf, he⟩
      · by_cases hix : i = s.rxIdx
        · rw [hix] at he
          exact .inl ⟨s.frame s.rxIdx, hlast, he⟩
        · rw [← hother hix] at he
          exact .inr ⟨i, hi, he⟩
    · exact .inr ⟨s.rxIdx, hb.rxIdx, hown⟩

theorem Good.skip (h : Good s) (hlen : (s.frame s.rxIdx).len = 0) : Good (rxRound s false) := by
  have hpassed : s.passed = s.input := if_neg (not_not.2 hlen)
  rw [rxRound_false, hpassed]
  exact ⟨h.inj, h.once, h.nodup, h.gone, h.kept⟩

theorem broken_stale (hb : Base s) (hno : ¬(s.ring s.rxIdx).Owned)
    (hlen : (s.frame s.rxIdx).len ≠ 0) : Broken (rxRound s false) := by
  have hpassed : s.passed = s.input ++ [s.frame s.rxIdx] := if_pos hlen
  rw [rxRound_false, hpassed]
  refine .stale (s.frame s.rxIdx) ?_ s.rxIdx hb.rxIdx hno rfl hlen
  exact mem_append_right _ mem_cons_self

theorem Good.lost (h : Good s) (hb : Base s) (hlen : (s.frame s.rxIdx).len = 0) :
    Broken (rxRound s true) := by
  have hpassed : s.passed = s.input := if_neg (not_not.2 hlen)
  have hbelow := hb.below _ hb.rxIdx
  rw [rxRound_true, hpassed]
  refine .lost (s.rxbuf s.rxIdx) (Nat.lt_succ_of_lt hbelow) ?_ ?_
  · intro f hf he
    exact h.gone f hf _ hb.rxIdx he.symm
  · intro i hi
    dsimp only
    by_cases hix : i = s.rxIdx
    · rw [hix, update_self]
      exact ne_of_gt hbelow
    · rw [update_of_ne hix]
      intro he
      exact hix (h.inj i hi _ hb.rxIdx he)

theorem Broken.round (h : Broken s) (hb : Base s) (alloc : Bool) : Broken (rxRound s alloc) := by
  cases h with
  | twice h =>
    apply Broken.twice
    rw [rxRound_input]
    intro hnd
    apply h
    unfold State.passed at hnd
    split at hnd
    · rw [map_append] at hnd
      exact hnd.of_append_left
    · exact hnd
  | stale f hf i hi hno hbuf hlen =>
    by_cases hix : i = s.rxIdx
    · apply Broken.twice
      rw [hix] at hbuf hlen
      have hpassed : s.passed = s.input ++ [s.frame s.rxIdx] := if_pos hlen
      rw [rxRound_input, hpassed, map_append]
      intro hnd
      apply disjoint_of_nodup_append hnd (mem_map_of_mem hf)
      exact mem_singleton.2 hbuf.symm
    · obtain ⟨hbuf', hring'⟩ := rxRound_slot alloc hix
      rw [← hring'] at hno
      rw [← hbuf'] at hbuf
      rw [← rxRound_frame alloc hix] at hlen
      have hpassed := State.mem_passed hf
      rw [← rxRound_input s alloc] at hpassed
      exact .stale f hpassed i hi hno hbuf hlen
  | lost m hm hin hring =>
    have hpassed : ∀ f ∈ s.passed, f.buf ≠ m := by
      intro f hf
      rcases State.passed_cases hf with hold | rfl
      · exact hin f hold
      · exact hring _ hb.rxIdx
    cases alloc with
    | false =>
      rw [rxRound_false]
      exact .lost m hm hpassed hring
    | true =>
      rw [rxRound_true]
      refine .lost m (Nat.lt_succ_of_lt hm) hpassed ?_
      intro i hi
      dsimp only
      by_cases hix : i = s.rxIdx
      · rw [hix, update_self]
        exact ne_of_gt hm
      · rw [update_of_ne hix]
        exact hring i hi

def State.Fair (s : State) : Prop := ∀ r ∈ s.rounds, r.Fair

theorem fair_round : (rxRound s alloc).Fair ↔
    s.Fair ∧ (alloc = true ↔ (s.frame s.rxIdx).len ≠ 0) := by
  unfold State.Fair
  rw [rxRound_rounds, forall_mem_append, forall_mem_singleton]
  rfl

structure Inv (s : State) : Prop where
  base : Base s
  cases : s.Fair ∧ Good s ∨ ¬s.Fair ∧ Broken s

theorem Inv.round (h : Inv s) (hno : ¬(s.ring s.rxIdx).Owned) (alloc : Bool) :
    Inv (rxRound s alloc) := by
  refine ⟨h.base.round alloc, ?_⟩
  rw [fair_round]
  rcases h.cases with ⟨hfair, hgood⟩ | ⟨hunfair, hbroken⟩
  · by_cases hlen : (s.frame s.rxIdx).len = 0
    · cases alloc with
      | false => exact .inl ⟨⟨hfair, by simp [hlen]⟩, hgood.skip hlen⟩
      | true => exact .inr ⟨fun hc => hc.2.1 rfl hlen, hgood.lost h.base hlen⟩
    · cases alloc with
      | false =>
        exact .inr ⟨fun hc => absurd (hc.2.2 hlen) Bool.false_ne_true,
          broken_stale h.base hno hlen⟩
      | true => exact .inl ⟨⟨hfair, by simp [hlen]⟩, hgood.replace h.base hlen⟩
  · exact .inr ⟨fun hc => hunfair hc.1, hbroken.round h.base alloc⟩

theorem Inv.fill (h : Inv s) (hown : (s.ring s.cur).Owned) (status : BitVec 32) :
    Inv (fill s status) := by
  refine ⟨h.base.fill, ?_⟩
  rcases h.cases with ⟨hfair, hgood⟩ | ⟨hunfair, hbroken⟩
  · exact .inl ⟨hfair, hgood.fill h.base hown⟩
  · exact .inr ⟨hunfair, hbroken.fill hown⟩

theorem Inv.promise_iff (h : Inv s) : Promise s ↔ s.Fair := by
  rcases h.cases with ⟨hfair, hgood⟩ | ⟨hunfair, hbroken⟩
  · exact iff_of_true hgood.promise hfair
  · exact iff_of_false hbroken.not_promise hunfair

end

end Mdepx.Eth.Rx
