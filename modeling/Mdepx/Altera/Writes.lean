import Mdepx.Altera.Transmit

namespace Mdepx.Altera
open Lib List

/-! The register writes of `fifo_process_tx` one by one. -/

inductive Write
  | metadata (v : Nat)
  | data (v : Nat)
deriving DecidableEq

def Fifo.write (keep : Bool) (f : Fifo) : Write → Fifo
  | .metadata v => f.writeMetadata v
  | .data v => f.writeData keep v

def Fifo.replay (keep : Bool) (f : Fifo) (log : List Write) : Fifo := log.foldl (Fifo.write keep) f

theorem Fifo.replay_append (keep : Bool) (f : Fifo) (log log' : List Write) :
    f.replay keep (log ++ log') = (f.replay keep log).replay keep log' :=
  foldl_append

namespace Tx

def sendWrites (last : Bool) (s : Tx) : List Write :=
  (if s.len = 0 ∧ last = true ∧ s.got = 0 then [.metadata (htole32 eop)] else []) ++
    [.data (s.buf >>> s.got &&& 0xffffffff)]

def flushWrites (last : Bool) (s : Tx) : List Write :=
  if 32 ≤ s.got then sendWrites last { s with got := s.got - 32 } else []

def wordsWrites (last : Bool) (m : Bytes) : Nat → Tx → List Write
  | 0, _ => []
  | k + 1, s =>
    if 4 ≤ s.len then
      let s := { s.read m 4 with got := s.got }
      sendWrites last s ++ wordsWrites last m k (send false last s)
    else []

def segmentWrites (last : Bool) (m : Bytes) (s : Tx) (iov : Iovec) : List Write :=
  let s := { s with lo := iov.base, len := iov.len % 2 ^ 32 }
  let t := (s.align m).flush false last
  flushWrites last (s.align m) ++ wordsWrites last m (t.len / 4) t ++
    flushWrites last ((words false last m (t.len / 4) t).remainder m)

def segmentsWrites (m : Bytes) : List Iovec → Tx → List Write
  | [], _ => []
  | iov :: iovs, s =>
    segmentWrites iovs.isEmpty m s iov ++
      segmentsWrites m iovs (segment false iovs.isEmpty m s iov)

def finishWrites (s : Tx) : List Write :=
  if s.got ≠ 0 then
    [.metadata (htole32 (eop ||| (4 - s.got / 8) <<< emptyShift)),
      .data ((s.buf <<< (32 - s.got)) % 2 ^ 64 &&& 0xffffffff)]
  else []

end Tx

def fifoProcessTxWrites (m : Bytes) (iovs : List Iovec) : List Write :=
  let s : Tx := ⟨0, 0, 0, 0, ⟨0, []⟩⟩
  .metadata (htole32 sop) :: (Tx.segmentsWrites m iovs s ++ (s.segments false m iovs).finishWrites)

theorem send_replay (keep last : Bool) (s : Tx) (f : Fifo) :
    Tx.send keep last { s with fifo := f } =
      { Tx.send false last s with fifo := f.replay keep (s.sendWrites last) } := by
  unfold Tx.send Tx.sendWrites
  dsimp only
  split <;> rfl

theorem flush_replay (keep last : Bool) (s : Tx) (f : Fifo) :
    Tx.flush keep last { s with fifo := f } =
      { Tx.flush false last s with fifo := f.replay keep (s.flushWrites last) } := by
  unfold Tx.flush Tx.flushWrites
  dsimp only
  split
  · exact send_replay keep last { s with got := s.got - 32 } f
  · rfl

theorem words_replay (keep last : Bool) (m : Bytes) (k : Nat) (s : Tx) (f : Fifo) :
    Tx.words keep last m k { s with fifo := f } =
      { Tx.words false last m k s with fifo := f.replay keep (s.wordsWrites last m k) } := by
  induction k generalizing s f with
  | zero => rfl
  | succ k ih =>
    unfold Tx.words Tx.wordsWrites
    dsimp only
    split
    · rw [Fifo.replay_append, ← ih, ← send_replay]
      rfl
    · rfl

theorem align_fifo (m : Bytes) (s : Tx) (f : Fifo) :
    Tx.align m { s with fifo := f } = { s.align m with fifo := f } := by
  unfold Tx.align Tx.read
  dsimp only
  split <;> split <;> rfl

theorem remainder_fifo (m : Bytes) (s : Tx) (f : Fifo) :
    Tx.remainder m { s with fifo := f } = { s.remainder m with fifo := f } := by
  unfold Tx.remainder Tx.read
  dsimp only
  split <;> split <;> rfl

theorem segment_replay (keep last : Bool) (m : Bytes) (s : Tx) (iov : Iovec) (f : Fifo) :
    Tx.segment keep last m { s with fifo := f } iov =
      { Tx.segment false last m s iov with
        fifo := f.replay keep (s.segmentWrites last m iov) } := by
  have hflush : Tx.flush keep last (Tx.align m
      { s with lo := iov.base, len := iov.len % 2 ^ 32, fifo := f }) = _ :=
    (congrArg _ (align_fifo m { s with lo := iov.base, len := iov.len % 2 ^ 32 } f)).trans
      (flush_replay keep last _ f)
  have hlen := congrArg Tx.len hflush
  unfold Tx.segment Tx.segmentWrites
  dsimp only at hlen ⊢
  rw [Fifo.replay_append, Fifo.replay_append, ← flush_replay, ← remainder_fifo, ← words_replay,
    ← hflush, hlen]

theorem segments_replay (keep : Bool) (m : Bytes) (iovs : List Iovec) (s : Tx) (f : Fifo) :
    Tx.segments keep m iovs { s with fifo := f } =
      { Tx.segments false m iovs s with fifo := f.replay keep (s.segmentsWrites m iovs) } := by
  induction iovs generalizing s f with
  | nil => rfl
  | cons iov iovs ih =>
    unfold Tx.segments Tx.segmentsWrites
    rw [Fifo.replay_append, ← ih, ← segment_replay]

theorem finish_replay (keep : Bool) (s : Tx) (f : Fifo) :
    Tx.finish keep { s with fifo := f } = f.replay keep s.finishWrites := by
  unfold Tx.finish Tx.finishWrites
  dsimp only
  split <;> rfl

theorem fifoProcessTx_replay (keep : Bool) (m : Bytes) (iovs : List Iovec) (f : Fifo) :
    fifoProcessTx keep m iovs f = f.replay keep (fifoProcessTxWrites m iovs) := by
  have hsegs := segments_replay keep m iovs ⟨0, 0, 0, 0, ⟨0, []⟩⟩ (f.writeMetadata (htole32 sop))
  have hreplay : ∀ log, f.replay keep (.metadata (htole32 sop) :: log) =
      (f.writeMetadata (htole32 sop)).replay keep log := fun _ => rfl
  unfold fifoProcessTx fifoProcessTxWrites
  rw [hreplay, Fifo.replay_append, ← finish_replay, ← hsegs]

/-- Each word is written by itself or right behind a mark that is not the first one. -/
inductive Marked : List Write → Prop
  | nil : Marked []
  | word (v : Nat) : Marked log → Marked (.data v :: log)
  | mark (v : Nat) : x ≠ htole32 sop → x ≠ 0 → Marked log →
      Marked (.metadata x :: .data v :: log)

def unmark (e : Nat × Nat) : List Write :=
  if e.2 = htole32 sop ∨ e.2 = 0 then [.data e.1] else [.metadata e.2, .data e.1]

theorem Marked.append (h : Marked log) (h' : Marked log') : Marked (log ++ log') := by
  induction h with
  | nil => exact h'
  | word v _ ih => exact .word v ih
  | mark v hsop h0 _ ih => exact .mark v hsop h0 ih

theorem Marked.replay (h : Marked log) (f : Fifo) (hreg : f.reg = htole32 sop ∨ f.reg = 0) :
    ∃ q, (f.replay false log).queue = f.queue ++ q ∧ q.flatMap unmark = log := by
  induction h generalizing f with
  | nil => exact ⟨[], (append_nil _).symm, rfl⟩
  | @word log v _ ih =>
    obtain ⟨q, hq, hlog⟩ := ih (f.writeData false v) (.inr rfl)
    refine ⟨(v, f.reg) :: q, ?_, ?_⟩
    · exact hq.trans (append_assoc _ _ _)
    · rw [flatMap_cons, hlog, unmark, if_pos hreg]
      rfl
  | @mark x log v hsop h0 _ ih =>
    obtain ⟨q, hq, hlog⟩ := ih ((f.writeMetadata x).writeData false v) (.inr rfl)
    refine ⟨(v, x) :: q, ?_, ?_⟩
    · exact hq.trans (append_assoc _ _ _)
    · rw [flatMap_cons, hlog, unmark, if_neg (not_or.2 ⟨hsop, h0⟩)]
      rfl

theorem sendWrites_marked (last : Bool) (s : Tx) : Marked (s.sendWrites last) := by
  unfold Tx.sendWrites
  split
  · exact .mark _ (by decide) (by decide) .nil
  · exact .word _ .nil

theorem flushWrites_marked (last : Bool) (s : Tx) : Marked (s.flushWrites last) := by
  unfold Tx.flushWrites
  split
  · exact sendWrites_marked last _
  · exact .nil

theorem wordsWrites_marked (last : Bool) (m : Bytes) (k : Nat) (s : Tx) :
    Marked (s.wordsWrites last m k) := by
  induction k generalizing s with
  | zero => exact .nil
  | succ k ih =>
    unfold Tx.wordsWrites
    split
    · exact (sendWrites_marked last _).append (ih _)
    · exact .nil

theorem segmentWrites_marked (last : Bool) (m : Bytes) (s : Tx) (iov : Iovec) :
    Marked (s.segmentWrites last m iov) :=
  ((flushWrites_marked last _).append (wordsWrites_marked last m _ _)).append
    (flushWrites_marked last _)

theorem segmentsWrites_marked (m : Bytes) (iovs : List Iovec) (s : Tx) :
    Marked (s.segmentsWrites m iovs) := by
  induction iovs generalizing s with
  | nil => exact .nil
  | cons iov iovs ih => exact (segmentWrites_marked iovs.isEmpty m s iov).append (ih _)

theorem endMark_ne (n : Nat) : htole32 (eop ||| (4 - n) <<< emptyShift) ≠ htole32 sop ∧
    htole32 (eop ||| (4 - n) <<< emptyShift) ≠ 0 := by
  have hall : ∀ k < 5, htole32 (eop ||| k <<< emptyShift) ≠ htole32 sop ∧
      htole32 (eop ||| k <<< emptyShift) ≠ 0 := by
    decide
  exact hall (4 - n) (by omega)

theorem finishWrites_marked (s : Tx) : Marked s.finishWrites := by
  unfold Tx.finishWrites
  split
  · exact .mark _ (endMark_ne _).1 (endMark_ne _).2 .nil
  · exact .nil

theorem unmark_tagged (us vs : List (List UInt8)) :
    (tagged false us vs).flatMap unmark = vs.map fun v => .data (ofBytes v) := by
  induction vs generalizing us with
  | nil => rfl
  | cons v vs ih =>
    have hmark : mark false us = htole32 sop ∨ mark false us = 0 := by
      unfold mark
      split
      · exact .inl rfl
      · exact .inr rfl
    rw [tagged, flatMap_cons, ih, unmark, if_pos hmark]
    rfl

/-- After the mark of its start come the words of the packet, all of them full, and the last one,
filled up with zeroes, right behind the mark of the end with the number of these. -/
theorem fifoProcessTx_writes (m : Bytes) (iovs : List Iovec) (hne : iovs ≠ [])
    (hpos : ∀ iov ∈ iovs, 0 < iov.len) (hb : ∀ iov ∈ iovs, iov.len < 2 ^ 32) :
    ∃ (us : List (List UInt8)) (w : List UInt8) (pad : Nat),
      (∀ u ∈ us ++ [w], u.length = 4) ∧ pad < 4 ∧
      (us ++ [w]).flatten = packet m iovs ++ replicate pad 0 ∧
      fifoProcessTxWrites m iovs =
        .metadata (htole32 sop) :: us.map (fun u => .data (ofBytes u)) ++
          [.metadata (htole32 (eop ||| pad <<< emptyShift)), .data (ofBytes w)] := by
  obtain ⟨us, w, h⟩ := fifoProcessTx_framed false m iovs 0 hne hpos hb
  have hle := h.le
  have hlow := h.pos
  have hmarked := (segmentsWrites_marked m iovs ⟨0, 0, 0, 0, ⟨0, []⟩⟩).append
    (finishWrites_marked (Tx.segments false m iovs ⟨0, 0, 0, 0, ⟨0, []⟩⟩))
  obtain ⟨q, hq, hlog⟩ := hmarked.replay ⟨htole32 sop, []⟩ (.inl rfl)
  have hqueue : q = (fifoProcessTx false m iovs ⟨0, []⟩).queue := by
    rw [fifoProcessTx_replay]
    exact hq.symm
  refine ⟨us, w ++ replicate (4 - w.length) 0, 4 - w.length, ?_, by omega, ?_, ?_⟩
  · refine forall_mem_append.2 ⟨h.four, forall_mem_singleton.2 ?_⟩
    rw [length_append, length_replicate]
    omega
  · rw [flatten_append, flatten_singleton, h.bytes, append_assoc]
  · rw [fifoProcessTxWrites, ← hlog, hqueue, h.queue, flatMap_append, unmark_tagged,
      flatMap_singleton, unmark, if_neg (not_or.2 (endMark_ne w.length))]
    rfl

theorem fifoProcessTx_writes_two :
    (∀ iov ∈ ([⟨1, 3⟩, ⟨6, 4⟩] : List Iovec), 0 < iov.len ∧ iov.len < 2 ^ 32) ∧
      ∃ (us : List (List UInt8)) (w : List UInt8) (pad : Nat),
        (∀ u ∈ us ++ [w], u.length = 4) ∧ pad < 4 ∧
        (us ++ [w]).flatten =
          packet (fun a => UInt8.ofNat a) [⟨1, 3⟩, ⟨6, 4⟩] ++ replicate pad 0 ∧
        fifoProcessTxWrites (fun a => UInt8.ofNat a) [⟨1, 3⟩, ⟨6, 4⟩] =
          .metadata (htole32 sop) :: us.map (fun u => .data (ofBytes u)) ++
            [.metadata (htole32 (eop ||| pad <<< emptyShift)), .data (ofBytes w)] := by
  have hlen : ∀ iov ∈ ([⟨1, 3⟩, ⟨6, 4⟩] : List Iovec), 0 < iov.len ∧ iov.len < 2 ^ 32 := by decide
  exact ⟨hlen, fifoProcessTx_writes (fun a => UInt8.ofNat a) [⟨1, 3⟩, ⟨6, 4⟩] (by decide)
    (fun iov h => (hlen iov h).1) (fun iov h => (hlen iov h).2)⟩

/-- Of a segment whose length does not fit the `uint32_t` nothing is sent, and there is no end. -/
theorem fifoProcessTx_writes_truncated :
    (packet (fun a => UInt8.ofNat a) [⟨0, 2 ^ 32⟩]).length = 2 ^ 32 ∧
      fifoProcessTxWrites (fun a => UInt8.ofNat a) [⟨0, 2 ^ 32⟩] = [.metadata (htole32 sop)] := by
  refine ⟨?_, ?_⟩
  · rw [packet, flatMap_singleton, slice_length]
  · simp [fifoProcessTxWrites, Tx.segmentsWrites, Tx.segmentWrites, Tx.segments, Tx.segment,
      Tx.align, Tx.flush, Tx.flushWrites, Tx.words, Tx.wordsWrites, Tx.remainder, Tx.finishWrites]

example :
    fifoProcessTxWrites (fun a => UInt8.ofNat a) [⟨1, 3⟩, ⟨6, 4⟩] =
      [.metadata (htole32 sop), .data 0x01020306,
        .metadata (htole32 (eop ||| 1 <<< emptyShift)), .data 0x07080900] := by
  decide +kernel

end Mdepx.Altera
