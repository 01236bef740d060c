import Mdepx.Altera.Basic

namespace Mdepx.Altera
open Lib List

/-! What `fifo_process_tx` puts into the queue. -/

section
variable {keep last : Bool} {m : Bytes} {s : Tx} {whole left : List UInt8}
  {ws : List (List UInt8)} {w : List UInt8}

def packet (m : Bytes) (iovs : List Iovec) : List UInt8 :=
  iovs.flatMap fun iov => slice m iov.base iov.len

def mark (keep : Bool) (ws : List (List UInt8)) : Nat :=
  if ws = [] ∨ keep = true then htole32 sop else 0

def tagged (keep : Bool) (us : List (List UInt8)) : List (List UInt8) → List (Nat × Nat)
  | [] => []
  | w :: ws => (ofBytes w, mark keep us) :: tagged keep (us ++ [w]) ws

theorem tagged_append (keep : Bool) (us vs ws : List (List UInt8)) :
    tagged keep us (vs ++ ws) = tagged keep us vs ++ tagged keep (us ++ vs) ws := by
  induction vs generalizing us with
  | nil => rw [append_nil]; rfl
  | cons v vs ih => rw [cons_append, tagged, ih, append_assoc]; rfl

theorem mark_succ (keep : Bool) (ws : List (List UInt8)) (w : List UInt8) :
    (if keep then mark keep ws else 0) = mark keep (ws ++ [w]) := by
  cases keep with
  | true | false => simp [mark]

def Queued (keep : Bool) (ended : Prop) (ws : List (List UInt8)) (f : Fifo) : Prop :=
  (¬ ended ∧ f.queue = tagged keep [] ws ∧ f.reg = mark keep ws) ∨
    (ended ∧ ∃ vs w, ws = vs ++ [w] ∧ f.queue = tagged keep [] vs ++ [(ofBytes w, htole32 eop)])

structure Sent (keep last : Bool) (m : Bytes) (whole : List UInt8) (s : Tx)
    (ws : List (List UInt8)) (left : List UInt8) : Prop where
  whole : whole = ws.flatten ++ left ++ slice m s.lo s.len
  four : ∀ w ∈ ws, w.length = 4
  got : s.got = 8 * left.length
  pending : Pending s.buf left
  bound : s.len < 2 ^ 32
  queued : Queued keep (last = true ∧ s.len = 0 ∧ s.got = 0) ws s.fifo

theorem Queued.open (h : Queued keep p ws f) (hp : ¬ p) :
    f.queue = tagged keep [] ws ∧ f.reg = mark keep ws := by
  rcases h with ⟨-, h⟩ | ⟨hp', -⟩
  · exact h
  · exact absurd hp' hp

theorem read_len (m : Bytes) (hk : k ≤ s.len) (hb : s.len < 2 ^ 32) :
    (s.read m k).len = s.len - k := by
  simp only [Tx.read]
  omega

theorem Sent.read (h : Sent keep last m whole s ws left) (hk : 0 < k) (hlen : k ≤ s.len)
    (hroom : left.length + k ≤ 8) :
    Sent keep last m whole (s.read m k) ws (left ++ slice m s.lo k) := by
  have hb := h.bound
  have hlen' := read_len m hlen hb
  have hgot : (s.read m k).got = s.got + 8 * k := rfl
  refine ⟨?_, h.four, ?_, ?_, ?_, .inl ⟨?_, h.queued.open ?_⟩⟩
  · obtain ⟨n, hn⟩ := Nat.exists_eq_add_of_le hlen
    rw [h.whole, hlen', hn, slice_add, Nat.add_sub_cancel_left]
    simp only [append_assoc]
    rfl
  · rw [hgot, h.got, length_append, slice_length, mul_add]
  · have hp := h.pending.shiftIn (w := 64) (slice m s.lo k) (by rw [slice_length]; omega)
    rw [slice_length] at hp
    exact hp
  · omega
  · omega
  · omega

theorem Sent.send (hw : whole = ws.flatten ++ (w ++ left) ++ slice m s.lo s.len)
    (hfour : ∀ w ∈ ws, w.length = 4) (hlen : w.length = 4) (hgot : s.got = 8 * left.length)
    (hp : Pending s.buf (w ++ left)) (hb : s.len < 2 ^ 32)
    (hq : s.fifo.queue = tagged keep [] ws ∧ s.fifo.reg = mark keep ws) :
    Sent keep last m whole (s.send keep last) (ws ++ [w]) left := by
  have hword : s.buf >>> s.got &&& 0xffffffff = ofBytes w := by
    have htake := hp.take
    rw [hlen] at htake
    rw [hgot, ← htake]
    exact Nat.and_two_pow_sub_one_eq_mod _ 32
  refine ⟨?_, ?_, hgot, hp.rest, hb, ?_⟩
  · rw [hw, flatten_append, flatten_singleton, ← append_assoc ws.flatten w left]
    rfl
  · exact forall_mem_append.2 ⟨hfour, forall_mem_singleton.2 hlen⟩
  · simp only [Tx.send, hword]
    by_cases hend : last = true ∧ s.len = 0 ∧ s.got = 0
    · refine .inr ⟨hend, ws, w, rfl, ?_⟩
      rw [if_pos ⟨hend.2.1, hend.1, hend.2.2⟩]
      simp only [Fifo.writeData, Fifo.writeMetadata, hq.1]
    · refine .inl ⟨hend, ?_, ?_⟩
      · rw [if_neg fun h => hend ⟨h.2.1, h.1, h.2.2⟩]
        simp only [Fifo.writeData, hq.1, hq.2]
        rw [tagged_append]
        rfl
      · rw [if_neg fun h => hend ⟨h.2.1, h.1, h.2.2⟩]
        simp only [Fifo.writeData, hq.2]
        exact mark_succ keep ws w

theorem Sent.flush (h : Sent keep last m whole s ws left) (hleft : left.length ≤ 7) :
    ∃ ws' left', Sent keep last m whole (s.flush keep last) ws' left' ∧ left'.length ≤ 3 ∧
      (s.flush keep last).len = s.len := by
  have hgot := h.got
  unfold Tx.flush
  split
  · have hsplit : left = left.take 4 ++ left.drop 4 := (take_append_drop 4 left).symm
    have hdrop : (left.drop 4).length = left.length - 4 := length_drop
    refine ⟨ws ++ [left.take 4], left.drop 4, ?_, by omega, rfl⟩
    apply Sent.send
    · rw [← hsplit]
      exact h.whole
    · exact h.four
    · rw [length_take]
      omega
    · simp only [hdrop]
      omega
    · rw [← hsplit]
      exact h.pending
    · exact h.bound
    · exact h.queued.open (by omega)
  · exact ⟨ws, left, h, by omega, rfl⟩

theorem Sent.words (h : Sent keep last m whole s ws left) (hleft : left.length ≤ 3)
    (hk : s.len / 4 = k) :
    ∃ ws' left', Sent keep last m whole (s.words keep last m k) ws' left' ∧ left'.length ≤ 3 ∧
      (s.words keep last m k).len = s.len % 4 := by
  induction k generalizing s ws left with
  | zero =>
    refine ⟨ws, left, h, hleft, ?_⟩
    simp only [Tx.words]
    omega
  | succ k ih =>
    have hread := h.read (k := 4) (by decide) (by omega) (by omega)
    have hlen := read_len m (k := 4) (by omega) h.bound
    have hfull : (left ++ slice m s.lo 4).length = left.length + 4 := by
      rw [length_append, slice_length]
    have hsplit := (take_append_drop 4 (left ++ slice m s.lo 4)).symm
    have hdrop : ((left ++ slice m s.lo 4).drop 4).length = left.length := by
      rw [length_drop, hfull]
      omega
    have hsend : Sent keep last m whole
        (Tx.send keep last { s.read m 4 with got := s.got })
        (ws ++ [(left ++ slice m s.lo 4).take 4]) ((left ++ slice m s.lo 4).drop 4) := by
      apply Sent.send
      · rw [← hsplit]
        exact hread.whole
      · exact h.four
      · rw [length_take]
        omega
      · rw [hdrop]
        exact h.got
      · rw [← hsplit]
        exact hread.pending
      · exact hread.bound
      · exact hread.queued.open fun hend => by
          have hgot := hread.got
          omega
    have hrec := ih hsend (by omega) (by simp only [Tx.send, hlen]; omega)
    obtain ⟨ws', left', h', hleft', hlen'⟩ := hrec
    rw [Tx.words, if_pos (by omega)]
    refine ⟨ws', left', h', hleft', ?_⟩
    rw [hlen']
    simp only [Tx.send, hlen]
    omega

theorem Sent.read_if {c : Prop} [Decidable c] (h : Sent keep last m whole s ws left) (hk : 0 < k)
    (hc : c → k ≤ s.len) (hroom : left.length + k ≤ 8) :
    ∃ left', Sent keep last m whole (if c then s.read m k else s) ws left' ∧
      left'.length ≤ left.length + k ∧
      (if c then s.read m k else s).len = s.len - if c then k else 0 := by
  by_cases hcond : c
  · simp only [if_pos hcond]
    refine ⟨left ++ slice m s.lo k, h.read hk (hc hcond) hroom, ?_, read_len m (hc hcond) h.bound⟩
    rw [length_append, slice_length]
  · simp only [if_neg hcond]
    exact ⟨left, h, Nat.le_add_right _ _, rfl⟩

theorem Sent.align (h : Sent keep last m whole s ws left) (hpos : 0 < s.len)
    (hleft : left.length ≤ 3) :
    ∃ left', Sent keep last m whole (s.align m) ws left' ∧ left'.length ≤ 6 := by
  obtain ⟨left₁, h₁, hleft₁, -⟩ := h.read_if (c := s.lo &&& 1 ≠ 0) (k := 1) (by decide)
    (fun _ => hpos) (by omega)
  obtain ⟨left₂, h₂, hleft₂, -⟩ := h₁.read_if (k := 2)
    (c := 2 ≤ (if s.lo &&& 1 ≠ 0 then s.read m 1 else s).len ∧
      (if s.lo &&& 1 ≠ 0 then s.read m 1 else s).lo &&& 2 ≠ 0) (by decide) (fun h => h.1) (by omega)
  exact ⟨left₂, h₂, by omega⟩

theorem Sent.remainder (h : Sent keep last m whole s ws left) (hlen : s.len < 4)
    (hleft : left.length ≤ 3) :
    ∃ left', Sent keep last m whole (s.remainder m) ws left' ∧ left'.length ≤ 6 ∧
      (s.remainder m).len = 0 := by
  have hbits : ∀ n < 4, (n &&& 2 ≠ 0 → 2 ≤ n) ∧ (n - if n &&& 2 ≠ 0 then 2 else 0) < 2 := by decide
  have hbit : ∀ n < 2, (n &&& 1 ≠ 0 → 1 ≤ n) ∧ (n - if n &&& 1 ≠ 0 then 1 else 0) = 0 := by decide
  obtain ⟨hle, hlt⟩ := hbits s.len hlen
  obtain ⟨left₁, h₁, hleft₁, hlen₁⟩ := h.read_if (k := 2) (by decide) hle (by omega)
  rw [← hlen₁] at hlt
  obtain ⟨hle', hzero⟩ := hbit _ hlt
  obtain ⟨left₂, h₂, hleft₂, hlen₂⟩ := h₁.read_if (k := 1) (by decide) hle' (by omega)
  exact ⟨left₂, h₂, by omega, hlen₂.trans hzero⟩

theorem Sent.segment (h : Sent keep false m whole s ws left) (hend : s.len = 0)
    (hleft : left.length ≤ 3) (hpos : 0 < iov.len) (hb : iov.len < 2 ^ 32) (last : Bool) :
    ∃ ws' left', Sent keep last m (whole ++ slice m iov.base iov.len)
        (s.segment keep last m iov) ws' left' ∧
      left'.length ≤ 3 ∧ (s.segment keep last m iov).len = 0 := by
  have hmod := Nat.mod_eq_of_lt hb
  have h₀ : Sent keep last m (whole ++ slice m iov.base iov.len)
      { s with lo := iov.base, len := iov.len % 2 ^ 32 } ws left := by
    refine ⟨?_, h.four, h.got, h.pending, by simp only [hmod]; exact hb, .inl ⟨?_, ?_⟩⟩
    · rw [h.whole, hend, hmod]
      simp only [slice, append_nil]
    · simp only [hmod]
      omega
    · exact h.queued.open (by simp)
  obtain ⟨left₁, h₁, hleft₁⟩ := h₀.align (by simp only [hmod]; exact hpos) hleft
  obtain ⟨ws₂, left₂, h₂, hleft₂, -⟩ := h₁.flush (by omega)
  obtain ⟨ws₃, left₃, h₃, hleft₃, hlen₃⟩ := h₂.words hleft₂ rfl
  obtain ⟨left₄, h₄, hleft₄, hlen₄⟩ := h₃.remainder (by omega) hleft₃
  obtain ⟨ws₅, left₅, h₅, hleft₅, hlen₅⟩ := h₄.flush (by omega)
  exact ⟨ws₅, left₅, h₅, hleft₅, hlen₅.trans hlen₄⟩

theorem Sent.segments (h : Sent keep false m whole s ws left) (hend : s.len = 0)
    (hleft : left.length ≤ 3) (iovs : List Iovec) (hne : iovs ≠ [])
    (hpos : ∀ iov ∈ iovs, 0 < iov.len) (hb : ∀ iov ∈ iovs, iov.len < 2 ^ 32) :
    ∃ ws' left', Sent keep true m (whole ++ packet m iovs) (s.segments keep m iovs) ws' left' ∧
      left'.length ≤ 3 ∧ (s.segments keep m iovs).len = 0 := by
  induction iovs generalizing whole s ws left with
  | nil => exact absurd rfl hne
  | cons iov iovs ih =>
    obtain ⟨hpos₁, hpos⟩ := forall_mem_cons.1 hpos
    obtain ⟨hb₁, hb⟩ := forall_mem_cons.1 hb
    obtain ⟨ws₁, left₁, h₁, hleft₁, hend₁⟩ := h.segment hend hleft hpos₁ hb₁ iovs.isEmpty
    cases iovs with
    | nil =>
      refine ⟨ws₁, left₁, ?_, hleft₁, hend₁⟩
      rw [packet, flatMap_singleton]
      exact h₁
    | cons =>
      rw [packet, flatMap_cons, ← append_assoc]
      exact ih h₁ hend₁ hleft₁ (cons_ne_nil _ _) hpos hb

/-- The words of a packet: `us` and the last one, of the bytes `w` and as many zeroes as are
missing. -/
structure Framed (keep : Bool) (bs : List UInt8) (queue : List (Nat × Nat))
    (us : List (List UInt8)) (w : List UInt8) : Prop where
  bytes : bs = us.flatten ++ w
  four : ∀ u ∈ us, u.length = 4
  pos : 0 < w.length
  le : w.length ≤ 4
  queue : queue = tagged keep [] us ++
    [(ofBytes (w ++ List.replicate (4 - w.length) 0),
      htole32 (eop ||| (4 - w.length) <<< emptyShift))]

theorem Sent.finish (h : Sent keep true m whole s ws left) (hend : s.len = 0)
    (hleft : left.length ≤ 3) : ∃ us w, Framed keep whole (s.finish keep).queue us w := by
  have hgot := h.got
  have hwhole := h.whole
  rw [hend, slice, append_nil] at hwhole
  unfold Tx.finish
  by_cases h0 : s.got = 0
  · rw [if_neg (not_not.2 h0)]
    have hnil : left = [] := length_eq_zero_iff.1 (by omega)
    rcases h.queued with ⟨hne, -⟩ | ⟨-, vs, w, rfl, hq⟩
    · exact absurd ⟨rfl, hend, h0⟩ hne
    · obtain ⟨hfour, hw⟩ := forall_mem_append.1 h.four
      have hw : w.length = 4 := hw w (mem_singleton.2 rfl)
      refine ⟨vs, w, ?_, hfour, by omega, by omega, ?_⟩
      · rw [hwhole, hnil, flatten_append, flatten_singleton, append_nil]
      · rw [hq, hw, replicate_zero, append_nil]
        rfl
  · rw [if_pos h0]
    obtain ⟨hq, -⟩ := h.queued.open fun hend => h0 hend.2.2
    refine ⟨ws, left, hwhole, h.four, by omega, by omega, ?_⟩
    have hdiv : s.got / 8 = left.length := by omega
    have hmissing : 32 - s.got = 8 * (4 - left.length) := by omega
    have hpad := h.pending.pad (4 - left.length)
    rw [Nat.add_sub_cancel' (by omega)] at hpad
    have hword : (s.buf <<< (32 - s.got)) % 2 ^ 64 &&& 0xffffffff =
        ofBytes (left ++ List.replicate (4 - left.length) 0) := by
      rw [← hpad, hmissing]
      exact (Nat.and_two_pow_sub_one_eq_mod _ 32).trans (Nat.mod_mod_of_dvd _ (by decide))
    simp only [Fifo.writeMetadata, Fifo.writeData, hq, hdiv, hword]

theorem fifoProcessTx_framed (keep : Bool) (m : Bytes) (iovs : List Iovec) (reg : Nat)
    (hne : iovs ≠ []) (hpos : ∀ iov ∈ iovs, 0 < iov.len) (hb : ∀ iov ∈ iovs, iov.len < 2 ^ 32) :
    ∃ us w, Framed keep (packet m iovs) (fifoProcessTx keep m iovs ⟨reg, []⟩).queue us w := by
  have hstart : Sent keep false m [] ⟨0, 0, 0, 0, ⟨htole32 sop, []⟩⟩ [] [] :=
    ⟨rfl, nofun, rfl, pending_nil 0, by decide, .inl ⟨nofun, rfl, rfl⟩⟩
  obtain ⟨ws, left, h, hleft, hend⟩ := hstart.segments rfl (by decide) iovs hne hpos hb
  exact h.finish hend hleft

end
end Mdepx.Altera
