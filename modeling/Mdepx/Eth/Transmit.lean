import Mdepx.Eth.Basic

namespace Mdepx.Eth.Tx
open Lib Function List

def slots (chain : List Mbuf) : List (Mbuf × Desc) :=
  chain.mapIdx fun k m => (m, txDesc chain.length k m)

theorem slots_length (chain : List Mbuf) : (slots chain).length = chain.length :=
  length_mapIdx

theorem slots_take_succ (h : chain[k]? = some m) :
    (slots chain).take (k + 1) = (slots chain).take k ++ [(m, txDesc chain.length k m)] := by
  rw [take_add_one, slots, getElem?_mapIdx, h]
  rfl

def State.accepted (s : State) : List (List Mbuf) :=
  (s.calls.filter fun c => c.2 = 0).map Prod.fst

def State.refused (s : State) : Nat := (s.calls.filter fun c => c.2 = enobufs).length

def Pc.written : Pc → List (Mbuf × Desc)
  | .sending chain k => (slots chain).take k
  | .published chain k => (slots chain).take (k + 1)
  | _ => []

def Pc.todo : Pc → Nat
  | .sending chain k => chain.length - k
  | .published chain k => chain.length - (k + 1)
  | _ => 0

def Pc.behind : Pc → Nat
  | .published _ _ => 1
  | _ => 0

def Pc.inside : Pc → Nat
  | .idle => 0
  | _ => 1

def State.bufs (s : State) : List Mbuf := s.queued.map Prod.fst

def State.descs (s : State) : List Desc := s.queued.map Prod.snd

structure Ring (s : State) : Prop where
  tail : s.tail = s.freed.length % txDescCount
  head : ∃ k, s.head = k % txDescCount ∧ s.queued.length = k + s.pc.behind
  cur : s.cur = s.sent.length % txDescCount
  freed_le : s.freed.length ≤ s.sent.length
  sent_le : s.sent.length ≤ s.queued.length
  room : s.queued.length + s.pc.todo ≤ s.freed.length + 30
  count : s.txcount = s.queued.length - s.freed.length
  next : ∀ i < txDescCount, s.addrNext i = nextTxidx i
  own : ∀ i < txDescCount, (s.ring i).Owned ↔ Window txDescCount s.sent.length s.queued.length i
  bufs : Holds txDescCount s.txbuf s.bufs s.freed.length
  descs : Holds txDescCount s.ring s.descs s.sent.length
  freed : s.freed = s.bufs.take s.freed.length
  sent : s.sent = s.descs.take s.sent.length

structure Calls (n : Nat) (s : State) : Prop where
  queued : s.queued = s.accepted.flatMap slots ++ s.pc.written
  critnest : s.critnest = n + s.refused + s.pc.inside

section
variable {s : State} {n : Nat}

theorem txDescCount_pos : 0 < txDescCount := by decide

theorem nextTxidx_mod (k : Nat) : nextTxidx (k % txDescCount) = (k + 1) % txDescCount :=
  Nat.mod_add_mod k txDescCount 1

section
variable (h : Ring s)
include h

theorem Ring.head_eq (hpc : s.pc.behind = 0) : s.head = s.queued.length % txDescCount := by
  obtain ⟨k, hk, hlen⟩ := h.head
  rw [hlen, hpc]
  exact hk

theorem Ring.move (pc : Pc) (hb : pc.behind = s.pc.behind)
    (ht : s.queued.length + pc.todo ≤ s.freed.length + 30) (critnest : Nat)
    (calls : List (List Mbuf × Nat)) :
    Ring { s with pc := pc, critnest := critnest, calls := calls } := by
  obtain ⟨k, hk, hlen⟩ := h.head
  exact { h with room := ht, head := ⟨k, hk, by rw [hlen, ← hb]⟩ }

theorem Ring.leave (hb : s.pc.behind = 0) (critnest : Nat) (calls : List (List Mbuf × Nat)) :
    Ring { s with pc := .idle, critnest := critnest, calls := calls } :=
  h.move .idle hb.symm (le_trans (Nat.le_add_right _ _) h.room) critnest calls

theorem Ring.beginTransmit (hpc : s.pc = .idle) (chain : List Mbuf) :
    Ring (beginTransmit s chain) := by
  have hroom := h.room
  have hcount := h.count
  rw [hpc] at hroom
  unfold Tx.beginTransmit
  dsimp only [criticalEnter]
  split
  · exact h.move s.pc rfl h.room _ _
  · rename_i hlt
    apply h.move (.sending chain 0) (by rw [hpc]; rfl)
    have hcap : (txDescCount : Int) = 32 := rfl
    dsimp only [Pc.todo] at hroom ⊢
    omega

theorem Ring.enqueue (hpc : s.pc = .sending chain k) (hm : chain[k]? = some m) :
    Ring (enqueue s chain k m) := by
  have hk : k < chain.length := (List.getElem?_eq_some_iff.1 hm).1
  have hroom := h.room
  have hcap : txDescCount = 32 := rfl
  have hhead := h.head_eq (by rw [hpc]; rfl)
  have hfreed := h.freed_le
  have hsent := h.sent_le
  rw [hpc] at hroom
  dsimp only [Pc.todo] at hroom
  have hlen : (s.queued ++ [(m, txDesc chain.length k m)]).length = s.queued.length + 1 :=
    length_append
  have hbufs : (Tx.enqueue s chain k m).bufs = s.bufs ++ [m] := map_append
  have hdescs : (Tx.enqueue s chain k m).descs = s.descs ++ [txDesc chain.length k m] :=
    map_append
  have hlb : s.bufs.length = s.queued.length := length_map _
  have hld : s.descs.length = s.queued.length := length_map _
  refine { h with head := ?_, sent_le := ?_, room := ?_, count := ?_, own := ?_, bufs := ?_
                  descs := ?_, freed := ?_, sent := ?_ }
  · exact ⟨s.queued.length, hhead, hlen⟩
  · exact le_trans hsent (by rw [Tx.enqueue, hlen]; exact Nat.le_succ _)
  · dsimp only [Tx.enqueue, Pc.todo]
    omega
  · have hcount := h.count
    dsimp only [Tx.enqueue]
    omega
  · intro i hi
    have hwin := window_push (n := txDescCount) (i := i) hsent
    dsimp only [Tx.enqueue]
    rw [hlen, hwin, hhead]
    by_cases hih : i = s.queued.length % txDescCount
    · rw [hih, update_self]
      exact iff_of_true (or_own_and_own _) (.inl rfl)
    · rw [update_of_ne hih, h.own i hi]
      exact (or_iff_right hih).symm
  · have hpush := h.bufs.push (by omega) m
    rw [hlb, ← hhead, ← hbufs] at hpush
    exact hpush
  · have hpush := h.descs.push (by omega) (txDesc chain.length k m)
    rw [hld, ← hhead, ← hdescs] at hpush
    exact hpush
  · rw [hbufs, take_append_of_le_length (by rw [hlb]; exact le_trans hfreed hsent)]
    exact h.freed
  · rw [hdescs, take_append_of_le_length (by rw [hld]; exact hsent)]
    exact h.sent

theorem Ring.advance (hpc : s.pc = .published chain k) : Ring (advance s chain k) := by
  obtain ⟨j, hj, hlen⟩ := h.head
  rw [hpc] at hlen
  have hroom := h.room
  rw [hpc] at hroom
  refine { h with head := ⟨j + 1, ?_, hlen⟩, room := hroom }
  dsimp only [Tx.advance]
  rw [hj, nextTxidx_mod]

theorem Ring.free (hpc : s.pc = .finishing) (hne : s.tail ≠ s.head)
    (hown : ¬(s.ring s.tail).Owned) :
    Ring { s with
      freed := s.freed ++ [s.txbuf s.tail]
      txcount := s.txcount - 1
      tail := nextTxidx s.tail } := by
  have hcap : txDescCount = 32 := rfl
  have hfreed := h.freed_le
  have hsent := h.sent_le
  have hroom := h.room
  have hcount := h.count
  have hhead := h.head_eq (by rw [hpc]; rfl)
  have hlb : s.bufs.length = s.queued.length := length_map _
  have hlt : s.freed.length < s.queued.length := by
    apply lt_of_le_of_ne (le_trans hfreed hsent)
    intro he
    rw [h.tail, hhead, he] at hne
    exact hne rfl
  have hlts : s.freed.length < s.sent.length := by
    apply lt_of_le_of_ne hfreed
    intro he
    rw [h.tail] at hown
    apply hown
    rw [h.own _ (Nat.mod_lt _ txDescCount_pos)]
    exact ⟨s.freed.length, le_of_eq he.symm, hlt, rfl⟩
  have hlen : (s.freed ++ [s.txbuf s.tail]).length = s.freed.length + 1 := length_append
  refine { h with tail := ?_, freed_le := ?_, room := ?_, count := ?_, bufs := ?_, freed := ?_ }
  · dsimp only
    rw [hlen, h.tail, nextTxidx_mod]
  · dsimp only
    omega
  · dsimp only
    omega
  · dsimp only
    omega
  · dsimp only
    rw [hlen]
    exact h.bufs.pop
  · have hfirst := h.bufs.first (by rw [hlb]; exact hlt)
    dsimp only
    rw [hlen]
    show _ = s.bufs.take (s.freed.length + 1)
    rw [take_add_one, hfirst, ← h.freed, h.tail]
    rfl

theorem Ring.all_freed (hpc : s.pc = .finishing)
    (hend : ¬(s.tail ≠ s.head ∧ ¬(s.ring s.tail).Owned)) : s.freed.length = s.sent.length := by
  have hcap : txDescCount = 32 := rfl
  have hfreed := h.freed_le
  have hsent := h.sent_le
  have hroom := h.room
  have hhead := h.head_eq (by rw [hpc]; rfl)
  by_cases heq : s.tail = s.head
  · rw [h.tail, hhead] at heq
    have hall := slot_inj (le_trans hfreed hsent) (by omega) heq
    omega
  · have hown : (s.ring s.tail).Owned := by
      by_contra hno
      exact hend ⟨heq, hno⟩
    rw [h.tail, h.own _ (Nat.mod_lt _ txDescCount_pos)] at hown
    obtain ⟨j, hj, hjq, hjm⟩ := hown
    have hsame := slot_inj (le_trans hfreed hj) (by omega) hjm.symm
    omega

theorem Ring.finishRound (hpc : s.pc = .finishing) : Ring (finishRound s) := by
  unfold Tx.finishRound
  split
  · rename_i hc
    exact h.free hpc hc.1 hc.2
  · exact h.leave (by rw [hpc]; rfl) _ _

theorem Ring.complete (hown : (s.ring s.cur).Owned) (status : BitVec 32) :
    Ring (complete s status) := by
  have hcap : txDescCount = 32 := rfl
  have hfreed := h.freed_le
  have hsent := h.sent_le
  have hroom := h.room
  have hld : s.descs.length = s.queued.length := length_map _
  have hlen : (s.sent ++ [s.ring s.cur]).length = s.sent.length + 1 := length_append
  have hlt : s.sent.length < s.queued.length := by
    rw [h.cur, h.own _ (Nat.mod_lt _ txDescCount_pos), window_start] at hown
    exact hown
  refine { h with cur := ?_, freed_le := ?_, sent_le := ?_, own := ?_, descs := ?_, sent := ?_ }
  · dsimp only [Tx.complete]
    rw [hlen, h.cur, h.next _ (Nat.mod_lt _ txDescCount_pos), nextTxidx_mod]
  · dsimp only [Tx.complete]
    omega
  · dsimp only [Tx.complete]
    omega
  · intro i hi
    dsimp only [Tx.complete]
    rw [hlen, window_pop (by omega), h.cur]
    by_cases hic : i = s.sent.length % txDescCount
    · rw [hic, update_self]
      exact iff_of_false (Desc.not_owned_complete _ _) fun hc => hc.1 rfl
    · rw [update_of_ne hic, h.own i hi]
      exact (and_iff_right hic).symm
  · dsimp only [Tx.complete]
    rw [hlen, h.cur]
    exact h.descs.discard (by omega) _
  · have hfirst := h.descs.first (by rw [hld]; exact hlt)
    dsimp only [Tx.complete]
    rw [hlen]
    show _ = s.descs.take (s.sent.length + 1)
    rw [take_add_one, hfirst, ← h.sent, h.cur]
    rfl

end

section
variable (h : Calls n s)
include h

theorem Calls.beginTransmit (hpc : s.pc = .idle) (chain : List Mbuf) :
    Calls n (beginTransmit s chain) := by
  have hq := h.queued
  have hn := h.critnest
  rw [hpc] at hq hn
  unfold Tx.beginTransmit
  dsimp only [criticalEnter]
  split
  · constructor
    · dsimp only [State.accepted]
      rw [filter_append, hpc]
      simpa [State.accepted, enobufs] using hq
    · dsimp only [State.refused]
      rw [filter_append, hpc, hn]
      simp [State.refused, Pc.inside]
      omega
  · constructor
    · exact hq
    · dsimp only [Pc.inside] at hn ⊢
      rw [hn]
      rfl

theorem Calls.enqueue (hpc : s.pc = .sending chain k) (hm : chain[k]? = some m) :
    Calls n (enqueue s chain k m) := by
  have hq := h.queued
  have hn := h.critnest
  rw [hpc] at hq hn
  constructor
  · dsimp only [Tx.enqueue, Pc.written]
    rw [hq, slots_take_succ hm, append_assoc]
    rfl
  · exact hn

theorem Calls.advance (hpc : s.pc = .published chain k) : Calls n (advance s chain k) := by
  have hq := h.queued
  have hn := h.critnest
  rw [hpc] at hq hn
  exact ⟨hq, hn⟩

theorem Calls.endTransmit (hpc : s.pc = .sending chain k) (hend : chain[k]? = none) :
    Calls n (endTransmit s chain) := by
  have hq := h.queued
  have hn := h.critnest
  rw [hpc] at hq hn
  have hk : (slots chain).length ≤ k := by
    rw [slots_length]
    exact getElem?_eq_none_iff.1 hend
  constructor
  · dsimp only [Tx.endTransmit, criticalExit, State.accepted, Pc.written] at hq ⊢
    rw [take_of_length_le hk] at hq
    rw [filter_append, map_append, flatMap_append, hq, append_nil]
    simp
  · dsimp only [Tx.endTransmit, criticalExit, State.refused, Pc.inside] at hn ⊢
    rw [filter_append, hn]
    simp [enobufs]

theorem Calls.finish (hpc : s.pc = .idle) : Calls n { criticalEnter s with pc := .finishing } := by
  have hq := h.queued
  have hn := h.critnest
  rw [hpc] at hq hn
  constructor
  · exact hq
  · dsimp only [criticalEnter]
    rw [hn]
    rfl

theorem Calls.finishRound (hpc : s.pc = .finishing) : Calls n (finishRound s) := by
  unfold Tx.finishRound
  split
  · exact ⟨h.queued, h.critnest⟩
  · have hq := h.queued
    have hn := h.critnest
    rw [hpc] at hq hn
    constructor
    · exact hq
    · dsimp only [criticalExit]
      rw [hn]
      rfl

end

end

structure Inv (n : Nat) (s : State) : Prop where
  ring : Ring s
  calls : Calls n s

theorem Inv.stepCall (h : Inv n s) (hs : stepCall s = some s') : Inv n s' := by
  unfold Tx.stepCall at hs
  split at hs
  · cases hs
  · rename_i chain k hpc
    cases hm : chain[k]? with
    | some =>
      rw [hm] at hs
      cases hs
      exact ⟨h.ring.enqueue hpc hm, h.calls.enqueue hpc hm⟩
    | none =>
      rw [hm] at hs
      cases hs
      exact ⟨h.ring.leave (by rw [hpc]; rfl) _ _, h.calls.endTransmit hpc hm⟩
  · rename_i chain k hpc
    cases hs
    exact ⟨h.ring.advance hpc, h.calls.advance hpc⟩
  · rename_i hpc
    cases hs
    exact ⟨h.ring.finishRound hpc, h.calls.finishRound hpc⟩

theorem Inv.next (h : Inv n s) (hs : Next s op s') : Inv n s' := by
  unfold Next at hs
  cases op with
  | transmit chain =>
    rw [exec] at hs
    split at hs
    · rename_i hpc
      cases hs
      exact ⟨h.ring.beginTransmit hpc chain, h.calls.beginTransmit hpc chain⟩
    · cases hs
  | finish =>
    rw [exec] at hs
    split at hs
    · rename_i hpc
      cases hs
      have hroom := h.ring.room
      rw [hpc] at hroom
      exact ⟨h.ring.move .finishing (by rw [hpc]; rfl) hroom _ _, h.calls.finish hpc⟩
    · cases hs
  | cpu => exact h.stepCall hs
  | dma status =>
    rw [exec] at hs
    split at hs
    · rename_i hown
      cases hs
      exact ⟨h.ring.complete hown status, h.calls.queued, h.calls.critnest⟩
    · cases hs

theorem setupDesc_foldl (r : (Nat → Desc) × (Nat → Nat)) (k : Nat) :
    (∀ i < k, (((range k).foldl setupDesc r).1 i).tdes0 = tdes0Txchain) ∧
      ∀ i < k, ((range k).foldl setupDesc r).2 i = nextTxidx i := by
  induction k with
  | zero => exact ⟨nofun, nofun⟩
  | succ k ih =>
    rw [range_succ, foldl_append]
    constructor
    · exact forall_lt_update (P := fun _ (d : Desc) => d.tdes0 = tdes0Txchain) ih.1 rfl
    · exact forall_lt_update (P := fun i j => j = nextTxidx i) ih.2 rfl

theorem Inv.setup (ring : Nat → Desc) (addrNext : Nat → Nat) (txbuf : Nat → Mbuf) (n : Nat) :
    Inv n (setup ring addrNext txbuf n) := by
  obtain ⟨htx, hnext⟩ := setupDesc_foldl (ring, addrNext) txDescCount
  refine ⟨⟨rfl, ⟨0, rfl, rfl⟩, rfl, Nat.le_refl 0, Nat.le_refl 0, Nat.zero_le _, rfl, hnext, ?_,
    Holds.nil, Holds.nil, rfl, rfl⟩, rfl, rfl⟩
  · intro i hi
    apply iff_of_false
    · intro hown
      apply hown
      dsimp only [Tx.setup, setupTxdesc]
      rw [htx i hi]
      rfl
    · intro hwin
      obtain ⟨j, -, hj, -⟩ := hwin
      exact absurd hj (Nat.not_lt_zero j)

structure Consistent (s : State) : Prop where
  /-- The count is the distance of the two indices, except behind a write that the head has yet
  to pass. -/
  count : s.pc.behind = 0 →
    s.txcount = ((s.head + txDescCount - s.tail) % txDescCount : Nat)
  /-- The mbufs written are those freed, in that order, and those from the tail on. -/
  slots : s.bufs = s.freed ++
    (range s.txcount.toNat).map fun i => s.txbuf ((s.tail + i) % txDescCount)
  /-- The DMA sends the descriptors as written, and an mbuf is freed only once it has been sent. -/
  sent : s.sent <+: s.descs ∧ s.freed.length ≤ s.sent.length
  /-- A call of `dwc_txfinish_locked` does not end before all mbufs sent have been freed. -/
  finished : s.pc = .finishing → (finishRound s).pc = .idle → s.freed.length = s.sent.length
  /-- All of each chain accepted has been written and nothing of the others. -/
  whole : s.queued = s.accepted.flatMap Tx.slots ++ s.pc.written

theorem Ring.count_eq (h : Ring s) (hpc : s.pc.behind = 0) :
    s.txcount = ((s.head + txDescCount - s.tail) % txDescCount : Nat) := by
  have hcap : txDescCount = 32 := rfl
  have hle := le_trans h.freed_le h.sent_le
  have hroom := h.room
  rw [h.count, h.head_eq hpc, h.tail, hcap]
  omega

theorem Ring.bufs_eq (h : Ring s) : s.bufs = s.freed ++
    (range s.txcount.toNat).map fun i => s.txbuf ((s.tail + i) % txDescCount) := by
  have hlb : s.bufs.length = s.queued.length := length_map _
  have hcount : s.txcount.toNat = s.bufs.length - s.freed.length := by
    rw [h.count]
    omega
  have hall := take_append_drop s.freed.length s.bufs
  rw [← h.freed, h.bufs.drop_eq, ← hcount] at hall
  rw [h.tail]
  simpa only [Nat.mod_add_mod] using hall.symm

theorem Inv.consistent (h : Inv n s) : Consistent s := by
  refine ⟨h.ring.count_eq, h.ring.bufs_eq, ⟨?_, h.ring.freed_le⟩, ?_, h.calls.queued⟩
  · rw [h.ring.sent]
    exact take_prefix _ _
  · intro hpc hend
    apply h.ring.all_freed hpc
    intro hc
    rw [finishRound, if_pos hc] at hend
    rw [hpc] at hend
    cases hend

/-- A call of `stm32f7_eth_transmit` finds room for its chain. -/
def HasRoom (s : State) : Op → Prop
  | .transmit chain => s.txcount < (txDescCount : Int) - chain.length - 1
  | _ => True

instance (s : State) (op : Op) : Decidable (HasRoom s op) := by
  unfold HasRoom
  split
  · infer_instance
  · infer_instance

theorem refused_stepCall (hs : stepCall s = some s') : s'.refused = s.refused := by
  unfold Tx.stepCall at hs
  split at hs
  · cases hs
  · split at hs
    · cases hs
      rfl
    · cases hs
      simp [State.refused, Tx.endTransmit, enobufs]
  · cases hs
    rfl
  · cases hs
    unfold Tx.finishRound
    split
    · rfl
    · rfl

theorem refused_next (hs : Next s op s') (h : HasRoom s op) : s'.refused = s.refused := by
  cases op with
  | transmit chain =>
    rw [Next, exec] at hs
    split at hs
    · cases hs
      have hn : ¬(criticalEnter s).txcount ≥ (txDescCount : Int) - chain.length - 1 :=
        Int.not_le.2 h
      rw [Tx.beginTransmit, if_neg hn]
      rfl
    · cases hs
  | finish =>
    rw [Next, exec] at hs
    split at hs
    · cases hs
      rfl
    · cases hs
  | cpu => exact refused_stepCall hs
  | dma =>
    rw [Next, exec] at hs
    split at hs
    · cases hs
      rfl
    · cases hs

theorem refused_lt (hs : Next s op s') (h : ¬HasRoom s op) : s.refused < s'.refused := by
  cases op with
  | transmit chain =>
    rw [Next, exec] at hs
    split at hs
    · cases hs
      have hn : (criticalEnter s).txcount ≥ (txDescCount : Int) - chain.length - 1 := Int.not_lt.1 h
      rw [Tx.beginTransmit, if_pos hn]
      simp [State.refused, criticalEnter]
    · cases hs
  | finish | cpu | dma => exact absurd trivial h

/-- Whatever chains are sent and however the DMA and the calls interleave, the ring keeps its
promises; the calls between two moments leave the critical sections as they found them exactly if
each of them finds room for its chain. -/
theorem transmit_ring (hs : Run Next (fun _ _ => True) (setup ring addrNext txbuf n) s)
    (ht : Run Next (fun _ _ => True) s t) :
    Consistent t ∧ (s.pc = .idle → t.pc = .idle →
      (t.critnest = s.critnest ↔ Run Next HasRoom s t)) := by
  have hinv := Inv.setup ring addrNext txbuf n
  have his := hs.invariant (Inv n) hinv fun h _ hst => h.next hst
  have hit := ht.invariant (Inv n) his fun h _ hst => h.next hst
  refine ⟨hit.consistent, ?_⟩
  intro hps hpt
  rw [his.calls.critnest, hit.calls.critnest, hps, hpt]
  apply (Nat.add_right_cancel_iff.trans Nat.add_left_cancel_iff).trans
  exact ht.constant_iff State.refused refused_next refused_lt

theorem transmit_ring_one :
    ∃ t, Run Next HasRoom (setup (fun _ => ⟨0, 0, 0⟩) (fun _ => 0) (fun _ => ⟨0, 0⟩) 0) t ∧
      t.freed = [⟨7, 60⟩] ∧ Consistent t ∧ t.critnest = 0 := by
  obtain ⟨t, hrun, hfreed, hpc⟩ := Run.of_checked exec HasRoom
    (setup (fun _ => ⟨0, 0, 0⟩) (fun _ => 0) (fun _ => ⟨0, 0⟩) 0)
    [.transmit [⟨7, 60⟩], .cpu, .dma 0, .cpu, .cpu, .finish, .cpu, .cpu]
    (fun t => t.freed = [⟨7, 60⟩] ∧ t.pc = .idle) (by decide)
  obtain ⟨hcons, hnest⟩ := transmit_ring (.refl _) (hrun.mono fun _ _ _ => trivial)
  exact ⟨t, hrun, hfreed, hcons, (hnest rfl hpc).2 hrun⟩

/-- With one mbuf in the ring there is no room for a chain of 30, and the call that says so leaves
its critical section open. -/
theorem transmit_leaves_critical_section :
    ∃ t, Run Next (fun _ _ => True)
        (setup (fun _ => ⟨0, 0, 0⟩) (fun _ => 0) (fun _ => ⟨0, 0⟩) 0) t ∧ t.pc = .idle ∧
      t.calls = [([⟨7, 60⟩], 0), ((range 30).map fun i => ⟨8 + i, 60⟩, enobufs)] ∧
      t.critnest = 1 :=
  Run.of_checked exec (fun _ _ => True)
    (setup (fun _ => ⟨0, 0, 0⟩) (fun _ => 0) (fun _ => ⟨0, 0⟩) 0)
    [.transmit [⟨7, 60⟩], .cpu, .cpu, .cpu, .transmit ((range 30).map fun i => ⟨8 + i, 60⟩)]
    (fun t => t.pc = .idle ∧
      t.calls = [([⟨7, 60⟩], 0), ((range 30).map fun i => ⟨8 + i, 60⟩, enobufs)] ∧
      t.critnest = 1)
    (by decide)

end Mdepx.Eth.Tx
