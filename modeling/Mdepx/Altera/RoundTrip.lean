import Mdepx.Altera.Transmit

namespace Mdepx.Altera
open Lib List

/-! What `fifo_process_rx` makes of the words of `fifo_process_tx`. -/

section
variable {keep : Bool} {m : Bytes} {base : Nat} {s : Rx} {bs w : List UInt8}
  {us ws : List (List UInt8)} {queue : List (Nat × Nat)}

structure At (m : Bytes) (base : Nat) (bs : List UInt8) (s : Rx) : Prop where
  got : s.got = 0
  mem : s.mem = putBytes m base bs
  lo : s.lo = base + bs.length
  transferred : s.transferred = bs.length % 2 ^ 32

theorem At.take (h : At m base bs s) (hw : w.length = 4) :
    At m base (bs ++ w) (s.take (ofBytes w) 32) := by
  have hp : Pending (shiftIn 64 s.buf (8 * w.length) (ofBytes w)) w :=
    (pending_nil s.buf).shiftIn w (by rw [hw]; decide)
  rw [Pending, hw] at hp
  have hword : Rx.accumulate s.buf (ofBytes w) 32 >>> 0 &&& 0xffffffff = ofBytes w :=
    (Nat.and_two_pow_sub_one_eq_mod _ 32).trans hp
  have hlen : (bs ++ w).length = bs.length + 4 := by rw [length_append, hw]
  have hget : s.take (ofBytes w) 32 = { s with
      buf := Rx.accumulate s.buf (ofBytes w) 32
      mem := storeBig s.mem s.lo 4 (ofBytes w)
      lo := s.lo + 4
      transferred := (s.transferred + 4) % 2 ^ 32 } := by
    unfold Rx.take
    simp only [h.got, zero_add, le_refl, if_true, hword]
  rw [hget]
  refine ⟨h.got, ?_, ?_, ?_⟩
  · rw [← putBytes_append, ← h.mem, ← h.lo, ← hw]
    exact storeBig_ofBytes s.mem s.lo w
  · rw [hlen]
    simp only [h.lo, add_assoc]
  · rw [hlen]
    simp only [h.transferred, Nat.mod_add_mod]

theorem rxLoop_plain
    (hm : le32toh metadata = 0 ∧ s.sopRcvd = true ∨ le32toh metadata = sop) :
    rxLoop ((data, metadata) :: queue) 0 s =
      rxLoop queue 0 (Rx.take { s with sopRcvd := true } data 32) := by
  rcases hm with ⟨hm, hs⟩ | hm
  · simp [rxLoop, hm, hs]
  · simp [rxLoop, hm, sop, errorMask, channelMask, eop]

theorem mark_plain (hs : s.sopRcvd = true ∨ us = []) :
    le32toh (mark keep us) = 0 ∧ s.sopRcvd = true ∨ le32toh (mark keep us) = sop := by
  unfold mark
  split
  · exact .inr (by decide)
  · rename_i hmark
    exact .inl ⟨by decide, hs.resolve_right fun hu => hmark (.inl hu)⟩

theorem rxLoop_tagged (keep : Bool) (us : List (List UInt8)) (queue : List (Nat × Nat))
    (h : At m base bs s) (hs : s.sopRcvd = true ∨ us = []) (hfour : ∀ w ∈ ws, w.length = 4) :
    ∃ s', rxLoop (tagged keep us ws ++ queue) 0 s = rxLoop queue 0 s' ∧
      At m base (bs ++ ws.flatten) s' ∧ (s'.sopRcvd = true ∨ us ++ ws = []) := by
  induction ws generalizing us bs s with
  | nil =>
    refine ⟨s, rfl, ?_, ?_⟩
    · rw [flatten_nil, append_nil]
      exact h
    · rw [append_nil]
      exact hs
  | cons w ws ih =>
    obtain ⟨hw, hfour⟩ := forall_mem_cons.1 hfour
    have h' : At m base (bs ++ w) (Rx.take { s with sopRcvd := true } (ofBytes w) 32) :=
      At.take ⟨h.got, h.mem, h.lo, h.transferred⟩ hw
    have hs' : (Rx.take { s with sopRcvd := true } (ofBytes w) 32).sopRcvd = true := by
      unfold Rx.take
      simp only
      split
      · rfl
      · rfl
    obtain ⟨t, ht, hat, hst⟩ := ih (us ++ [w]) h' (.inl hs') hfour
    refine ⟨t, ?_, ?_, ?_⟩
    · rw [← ht]
      exact rxLoop_plain (mark_plain hs)
    · rw [flatten_cons, ← append_assoc]
      exact hat
    · rw [append_assoc] at hst
      exact hst

/-- The number of bits that the receiver takes of a last word with `n` bytes missing: the mask
drops one bit of the number. -/
def lastBits (n : Nat) : Nat := if n % 2 = 0 then 32 else 24

theorem rxLoop_last (hs : s.sopRcvd = true) (hn : n < 4) :
    rxLoop [(data, htole32 (eop ||| n <<< emptyShift))] 0 s =
      some (s.take data (lastBits n), [], 0) := by
  have hback : ∀ n < 4, le32toh (htole32 (eop ||| n <<< emptyShift)) = eop ||| n <<< emptyShift ∧
      (eop ||| n <<< emptyShift) &&& errorMask = 0 ∧
      (eop ||| n <<< emptyShift) &&& channelMask = 0 ∧
      (eop ||| n <<< emptyShift) &&& eop ≠ 0 ∧
      ((eop ||| n <<< emptyShift) &&& emptyMask) >>> emptyShift * 8 ≤ 32 ∧
      32 - ((eop ||| n <<< emptyShift) &&& emptyMask) >>> emptyShift * 8 = lastBits n := by
    decide
  obtain ⟨hle, herr, hchan, heop, hshift, hbits⟩ := hback n hn
  have hstate : { s with sopRcvd := true } = s := by rw [← hs]
  simp only [rxLoop, hle, herr, hchan, hs, ne_eq, not_true_eq_false, or_self, if_false, heop,
    not_false_eq_true, if_true, Bool.true_or, Bool.true_eq_false, zero_mul, zero_add,
    Nat.not_lt.2 hshift, Nat.sub_zero, hbits]
  rw [hstate]

theorem toInt_of_lt (h : n < 2 ^ 31) : (BitVec.ofNat 32 n).toInt = n := by
  have hn : (BitVec.ofNat 32 n).toNat = n := by
    rw [BitVec.toNat_ofNat]
    exact Nat.mod_eq_of_lt (by omega)
  rw [BitVec.toInt_eq_toNat_of_lt (by omega), hn]

theorem toInt_ne (hn : n < 2 ^ 32) (hk : k < 2 ^ 31) (hne : n ≠ k) :
    (BitVec.ofNat 32 n).toInt ≠ k := by
  intro h
  rw [← toInt_of_lt hk] at h
  have he := congrArg BitVec.toNat (BitVec.eq_of_toInt_eq h)
  rw [BitVec.toNat_ofNat, BitVec.toNat_ofNat, Nat.mod_eq_of_lt hn,
    Nat.mod_eq_of_lt (by omega)] at he
  exact hne he

theorem At.finish (h : At m base bs s) :
    s.finish [] 0 = ⟨putBytes m base bs, [], (BitVec.ofNat 32 (bs.length % 2 ^ 32)).toInt⟩ := by
  simp only [Rx.finish, h.got, ne_eq, not_true_eq_false, if_false, h.mem, h.transferred]

theorem At.finish_part (h : At m base bs s) (data : Nat) :
    ((s.take data 24).finish [] 0).ret =
      (BitVec.ofNat 32 ((bs.length % 2 ^ 32 + 192) % 2 ^ 32)).toInt := by
  have htake : s.take data 24 = { s with buf := Rx.accumulate s.buf data 24, got := 24 } := by
    unfold Rx.take
    simp only [h.got]
    rfl
  rw [htake, ← h.transferred]
  rfl

theorem flatten_length (h : ∀ u ∈ us, u.length = 4) : us.flatten.length = 4 * us.length := by
  induction us with
  | nil => rfl
  | cons u us ih =>
    obtain ⟨hu, h⟩ := forall_mem_cons.1 h
    rw [flatten_cons, length_append, hu, ih h, length_cons]
    omega

theorem Framed.receive (h : Framed keep bs queue us w) (m : Bytes) (base : Nat)
    (hlen : 4 < bs.length) (hlt : bs.length < 2 ^ 31) :
    ∃ r, fifoProcessRx m base 0 queue = some r ∧
      (w.length = 4 → r = ⟨putBytes m base bs, [], bs.length⟩) ∧
      (w.length ≠ 4 → r.ret ≠ bs.length) := by
  have hpos := h.pos
  have hle := h.le
  have hbytes : bs.length = us.flatten.length + w.length := by rw [h.bytes, length_append]
  have hfour := flatten_length h.four
  have hstart : At m base [] ⟨0, 0, m, base, 0, false⟩ :=
    ⟨rfl, (putBytes_nil m base).symm, rfl, rfl⟩
  obtain ⟨s, hloop, hat, hs⟩ := rxLoop_tagged keep []
    [(ofBytes (w ++ replicate (4 - w.length) 0),
      htole32 (eop ||| (4 - w.length) <<< emptyShift))] hstart (.inr rfl) h.four
  have hs : s.sopRcvd = true := by
    apply hs.resolve_right
    rintro rfl
    rw [flatten_nil, length_nil] at hbytes
    omega
  have hrun : fifoProcessRx m base 0 queue =
      some ((s.take (ofBytes (w ++ replicate (4 - w.length) 0))
        (lastBits (4 - w.length))).finish [] 0) := by
    unfold fifoProcessRx
    rw [if_neg (by simp [h.queue]), h.queue, hloop, rxLoop_last hs (by omega)]
    rfl
  refine ⟨_, hrun, fun hw => ?_, fun hw => ?_⟩
  · rw [hw]
    have hlast := (hat.take hw).finish
    rw [nil_append, ← h.bytes, Nat.mod_eq_of_lt (by omega), toInt_of_lt hlt] at hlast
    rw [replicate_zero, append_nil]
    exact hlast
  · by_cases hodd : (4 - w.length) % 2 = 0
    · have hpad : (w ++ replicate (4 - w.length) 0).length = 4 := by
        rw [length_append, length_replicate]
        omega
      rw [lastBits, if_pos hodd, (hat.take hpad).finish]
      apply toInt_ne (Nat.mod_lt _ (by decide)) hlt
      simp only [nil_append, length_append, hpad]
      omega
    · rw [lastBits, if_neg hodd, hat.finish_part]
      apply toInt_ne (Nat.mod_lt _ (by decide)) hlt
      rw [nil_append]
      omega

theorem rxLoop_error (h : rxLoop queue k s = some (t, q, e)) : e ≤ 0 := by
  induction queue generalizing k s with
  | nil =>
    cases h
    exact le_refl 0
  | cons x queue ih =>
    simp only [rxLoop] at h
    split_ifs at h
    all_goals first | exact ih h | (cases h; decide)

theorem fifoProcessRx_lt (h : fifoProcessRx m base k queue = some r) : r.ret < 2 ^ 31 := by
  unfold fifoProcessRx at h
  split at h
  · cases h
    exact (by decide : (0 : Int) < 2 ^ 31)
  · obtain ⟨⟨s, q, e⟩, hloop, rfl⟩ := Option.map_eq_some_iff.1 h
    have he := rxLoop_error hloop
    simp only [Rx.finish]
    split
    · omega
    · exact BitVec.toInt_lt

theorem len_le_packet (m : Bytes) (h : iov ∈ iovs) : iov.len ≤ (packet m iovs).length := by
  obtain ⟨l, r, rfl⟩ := append_of_mem h
  rw [packet, flatMap_append, flatMap_cons, length_append, length_append,
    slice_length]
  omega

/-- A packet of more than four bytes comes back, in memory and in length, exactly if its length is
a multiple of four and a positive `int`. The `METADATA` register may keep its value or not. -/
theorem fifo_round_trip_iff (keep : Bool) (m m' : Bytes) (iovs : List Iovec) (reg base : Nat)
    (hpos : ∀ iov ∈ iovs, 0 < iov.len) (hlen : 4 < (packet m iovs).length) :
    (∃ q, fifoProcessRx m' base 0 (fifoProcessTx keep m iovs ⟨reg, []⟩).queue =
      some ⟨putBytes m' base (packet m iovs), q, (packet m iovs).length⟩) ↔
    4 ∣ (packet m iovs).length ∧ (packet m iovs).length < 2 ^ 31 := by
  have hne : iovs ≠ [] := by
    rintro rfl
    exact absurd hlen (by simp [packet])
  have hreceive (hlt : (packet m iovs).length < 2 ^ 31) : ∃ r,
      fifoProcessRx m' base 0 (fifoProcessTx keep m iovs ⟨reg, []⟩).queue = some r ∧
        (4 ∣ (packet m iovs).length →
          r = ⟨putBytes m' base (packet m iovs), [], (packet m iovs).length⟩) ∧
        (¬ 4 ∣ (packet m iovs).length → r.ret ≠ (packet m iovs).length) := by
    have hb (iov : Iovec) (hi : iov ∈ iovs) : iov.len < 2 ^ 32 := by
      have hle := len_le_packet m hi
      omega
    obtain ⟨us, w, h⟩ := fifoProcessTx_framed keep m iovs reg hne hpos hb
    obtain ⟨r, hr, hfull, hpart⟩ := h.receive m' base hlen hlt
    have hw : 4 ∣ (packet m iovs).length ↔ w.length = 4 := by
      have hp := h.pos
      have hle := h.le
      rw [h.bytes, length_append, flatten_length h.four]
      omega
    exact ⟨r, hr, fun hd => hfull (hw.1 hd), fun hd => hpart fun he => hd (hw.2 he)⟩
  constructor
  · rintro ⟨q, hq⟩
    have hlt : (packet m iovs).length < 2 ^ 31 := by
      have hret := fifoProcessRx_lt hq
      simp only at hret
      omega
    refine ⟨?_, hlt⟩
    obtain ⟨r, hr, -, hpart⟩ := hreceive hlt
    rw [hq] at hr
    by_contra hd
    apply hpart hd
    rw [← Option.some.inj hr]
  · rintro ⟨hd, hlt⟩
    obtain ⟨r, hr, hfull, -⟩ := hreceive hlt
    rw [hfull hd] at hr
    exact ⟨[], hr⟩

theorem fifo_round_trip_eight :
    (packet (fun i => UInt8.ofNat i) [⟨1, 3⟩, ⟨11, 5⟩]).length = 8 ∧
      ∃ q, fifoProcessRx (fun _ => 0) 100 0
          (fifoProcessTx true (fun i => UInt8.ofNat i) [⟨1, 3⟩, ⟨11, 5⟩] ⟨0, []⟩).queue =
        some ⟨putBytes (fun _ => 0) 100 (packet (fun i => UInt8.ofNat i) [⟨1, 3⟩, ⟨11, 5⟩]), q,
          (packet (fun i => UInt8.ofNat i) [⟨1, 3⟩, ⟨11, 5⟩]).length⟩ :=
  ⟨by decide, (fifo_round_trip_iff true _ _ _ 0 100 (by decide) (by decide)).2 (by decide)⟩

theorem fifo_round_trip_part :
    [5, 6, 7].map (fun n => (fifoProcessRx (fun _ => 0) 100 0
      (fifoProcessTx true (fun i => UInt8.ofNat i) [⟨0, n⟩] ⟨0, []⟩).queue).map (·.ret)) =
    [some 196, some 8, some 196] := by
  decide +kernel

end
end Mdepx.Altera
