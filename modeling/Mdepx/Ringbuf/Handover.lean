import Mdepx.Ringbuf.Basic
import Mdepx.Lib.Window

namespace Mdepx.Ringbuf
open Lib Function List

structure Ring (size base n r : Nat) (s : State β) : Prop where
  sender : s.sender.sc.role = .sender ∧ s.sender.sc.head = base + size * (s.sent.length % n)
  recver : s.recver.sc.role = .recver ∧ s.recver.sc.head = base + size * (r % n)
  le : r ≤ s.sent.length
  room : s.sent.length ≤ r + n
  next : ∀ i < n, (s.mem (base + size * i)).next = base + size * ((i + 1) % n)
  own : ∀ i < n, (s.mem (base + size * i)).flags &&& MDX_RINGBUF_OWN ≠ 0 ↔
    Window n r s.sent.length i
  kept : ∀ j, r ≤ j → j < s.sent.length → (s.recver.holds = true → j ≠ r) →
    s.sent[j]? = some (s.entry (base + size * (j % n)))
  received : s.received = s.sent.take (r + if s.recver.holds then 1 else 0)
  senderHolds : s.sender.holds = true → s.sent.length < r + n
  recverHolds : s.recver.holds = true → r < s.sent.length

section
variable {s s' : State β} {size base n r : Nat}

theorem addr_inj (hs : 0 < size) (h : base + size * i = base + size * j) : i = j :=
  Nat.eq_of_mul_eq_mul_left hs (add_left_cancel h)

theorem own_set (f : BitVec 32) : (f ||| MDX_RINGBUF_OWN) &&& MDX_RINGBUF_OWN ≠ 0 := by
  rw [or_mask_and_mask]
  decide

section
variable (h : Ring size base n r s)
include h

theorem Ring.head_sender (hn : 0 < n) :
    mdxRingbufHead s.mem s.sender.sc =
      if s.sent.length < r + n then some s.sender.sc.head else none := by
  have hown := h.own (s.sent.length % n) (Nat.mod_lt _ hn)
  rw [window_end hn h.le h.room, ← h.sender.2] at hown
  have hroom := h.room
  unfold mdxRingbufHead
  dsimp only
  rw [h.sender.1]
  by_cases hlt : s.sent.length < r + n
  · have hne : ¬s.sent.length = r + n := by omega
    rw [if_pos hlt, if_neg fun hc => hne (hown.1 hc.2), if_neg fun hc => nomatch hc.1]
  · rw [if_neg hlt, if_pos ⟨rfl, hown.2 (by omega)⟩]

theorem Ring.head_recver (hn : 0 < n) :
    mdxRingbufHead s.mem s.recver.sc =
      if r < s.sent.length then some s.recver.sc.head else none := by
  have hown := h.own (r % n) (Nat.mod_lt _ hn)
  rw [window_start, ← h.recver.2] at hown
  unfold mdxRingbufHead
  dsimp only
  rw [h.recver.1, if_neg fun hc => nomatch hc.1]
  by_cases hlt : r < s.sent.length
  · rw [if_pos hlt, if_neg fun hc => hown.2 hlt hc.2]
  · rw [if_neg hlt, if_pos ⟨rfl, not_not.1 (mt hown.1 hlt)⟩]

theorem Ring.take_sender (hlt : s.sent.length < r + n) :
    Ring size base n r { s with sender := { s.sender with holds := true } } :=
  ⟨h.sender, h.recver, h.le, h.room, h.next, h.own, h.kept, h.received, fun _ => hlt,
    h.recverHolds⟩

theorem Ring.take_recver (hlt : r < s.sent.length)
    (hh : s.recver.holds = false) :
    Ring size base n r { s with
      recver := { s.recver with holds := true }
      received := s.received ++ [s.entry s.recver.sc.head] } := by
  refine ⟨h.sender, h.recver, h.le, h.room, h.next, h.own, ?_, ?_, h.senderHolds, fun _ => hlt⟩
  · intro j hr hj hne
    apply h.kept j hr hj
    rw [hh]
    exact nofun
  · have hkept := h.kept r (le_refl r) hlt (by rw [hh]; exact nofun)
    have hreceived := h.received
    simp only [hh, Bool.false_eq_true, if_false, add_zero] at hreceived
    show s.received ++ [s.entry s.recver.sc.head] = s.sent.take (r + 1)
    rw [hreceived, h.recver.2, take_add_one, hkept]
    rfl

theorem Ring.again_recver (hh : s.recver.holds = true) :
    Ring size base n r { s with recver := { s.recver with holds := true } } := by
  have hs : { s with recver := { s.recver with holds := true } } = s := by
    rw [← hh]
  rw [hs]
  exact h

theorem Ring.write (hs : 0 < size) (p : Payload β)
    (hk : ∀ j, r ≤ j → j < s.sent.length → (s.recver.holds = true → j ≠ r) → j % n ≠ i) :
    Ring size base n r { s with
      mem :=
        update s.mem (base + size * i) ((s.mem (base + size * i)).setPayload p) } := by
  have hsame {γ : Type} (f : Entry β → γ) (hf : ∀ e, f (e.setPayload p) = f e) (k : Nat) :
      f (update s.mem (base + size * i) ((s.mem (base + size * i)).setPayload p)
        (base + size * k)) = f (s.mem (base + size * k)) := by
    by_cases hki : base + size * k = base + size * i
    · rw [hki, update_self, hf]
    · rw [update_of_ne hki]
  refine ⟨h.sender, h.recver, h.le, h.room, ?_, ?_, ?_, h.received, h.senderHolds, h.recverHolds⟩
  · intro k hkn
    exact (hsame Entry.next (fun _ => rfl) k).trans (h.next k hkn)
  · intro k hkn
    rw [← h.own k hkn]
    exact Iff.of_eq (congrArg (· &&& MDX_RINGBUF_OWN ≠ 0) (hsame Entry.flags (fun _ => rfl) k))
  · intro j hr hj hne
    have hji := hk j hr hj hne
    rw [h.kept j hr hj hne]
    simp only [State.entry]
    rw [update_of_ne fun he => hji (addr_inj hs he)]

theorem Ring.next_addr (hn : 0 < n) (j : Nat) :
    (s.mem (base + size * (j % n))).next = base + size * ((j + 1) % n) := by
  rw [h.next _ (Nat.mod_lt j hn), Nat.mod_add_mod]

end

def setFlags (mem : Mem β) (a : Nat) (f : BitVec 32) : Mem β :=
  Function.update mem a { mem a with flags := f }

theorem setFlags_other {γ : Type} (f : Entry β → γ) (hf : ∀ e x, f { e with flags := x } = f e)
    (mem : Mem β) (a : Nat) (x : BitVec 32) (b : Nat) : f (setFlags mem a x b) = f (mem b) := by
  by_cases hb : b = a
  · rw [hb, setFlags, update_self, hf]
  · rw [setFlags, update_of_ne hb]

theorem setFlags_own (hs : 0 < size) (mem : Mem β) (i k : Nat) (x : BitVec 32) :
    (setFlags mem (base + size * i) x (base + size * k)).flags =
      if k = i then x else (mem (base + size * k)).flags := by
  by_cases hk : k = i
  · rw [if_pos hk, hk, setFlags, update_self]
  · rw [if_neg hk, setFlags, update_of_ne fun he => hk (addr_inj hs he)]

section
variable (h : Ring size base n r s) (hs : 0 < size) (hn : 0 < n)
include h hs hn

theorem Ring.submit_sender (hh : s.sender.holds = true) :
    Ring size base n r { s with
      mem := (mdxRingbufSubmit s.mem s.sender.sc).1
      sender := ⟨(mdxRingbufSubmit s.mem s.sender.sc).2, false⟩
      sent := s.sent ++ [s.entry s.sender.sc.head] } := by
  have hlt := h.senderHolds hh
  have hle := h.le
  have hlen : (s.sent ++ [s.entry s.sender.sc.head]).length = s.sent.length + 1 := by simp
  have hsubmit : mdxRingbufSubmit s.mem s.sender.sc =
      (setFlags s.mem s.sender.sc.head ((s.mem s.sender.sc.head).flags ||| MDX_RINGBUF_OWN),
        { s.sender.sc with head := (s.mem s.sender.sc.head).next }) := by
    simp only [mdxRingbufSubmit, h.sender.1, if_true, setFlags]
  rw [hsubmit]
  refine ⟨⟨h.sender.1, ?_⟩, h.recver, ?_, ?_, ?_, ?_, ?_, ?_, nofun, ?_⟩
  · show (s.mem s.sender.sc.head).next = _
    rw [hlen, h.sender.2, h.next_addr hn]
  · rw [hlen]
    omega
  · rw [hlen]
    omega
  · intro k hk
    rw [← h.next k hk]
    exact setFlags_other Entry.next (fun _ _ => rfl) _ _ _ _
  · intro k hk
    rw [hlen, window_push hle, ← h.own k hk, h.sender.2, setFlags_own hs]
    by_cases hks : k = s.sent.length % n
    · rw [if_pos hks]
      exact iff_of_true (own_set _) (.inl hks)
    · rw [if_neg hks]
      exact (or_iff_right hks).symm
  · intro j hr hj hne
    have hentry (a : Nat) : (a, (setFlags s.mem s.sender.sc.head
        ((s.mem s.sender.sc.head).flags ||| MDX_RINGBUF_OWN) a).payload) = s.entry a :=
      congrArg (Prod.mk a) (setFlags_other Entry.payload (fun _ _ => rfl) _ _ _ _)
    rw [hlen] at hj
    simp only [State.entry] at hentry ⊢
    rw [hentry]
    rcases lt_or_eq_of_le (Nat.le_of_lt_succ hj) with hj | rfl
    · rw [getElem?_append_left hj]
      exact h.kept j hr hj hne
    · rw [getElem?_concat_length, h.sender.2]
  · rw [take_append_of_le_length]
    · exact h.received
    · split
      · rename_i hrh
        exact h.recverHolds hrh
      · exact hle
  · intro hrh
    rw [hlen]
    exact Nat.lt_succ_of_lt (h.recverHolds hrh)

theorem Ring.submit_recver (hh : s.recver.holds = true) :
    Ring size base n (r + 1) { s with
      mem := (mdxRingbufSubmit s.mem s.recver.sc).1
      recver := ⟨(mdxRingbufSubmit s.mem s.recver.sc).2, false⟩ } := by
  have hlt := h.recverHolds hh
  have hroom := h.room
  have hsubmit : mdxRingbufSubmit s.mem s.recver.sc =
      (setFlags s.mem s.recver.sc.head ((s.mem s.recver.sc.head).flags &&& ~~~MDX_RINGBUF_OWN),
        { s.recver.sc with head := (s.mem s.recver.sc.head).next }) := by
    simp only [mdxRingbufSubmit, h.recver.1, reduceCtorEq, if_false, setFlags]
  rw [hsubmit]
  have hroom' : s.sent.length ≤ r + 1 + n := by omega
  refine ⟨h.sender, ⟨h.recver.1, ?_⟩, hlt, hroom', ?_, ?_, ?_, ?_, ?_, nofun⟩
  · show (s.mem s.recver.sc.head).next = _
    rw [h.recver.2, h.next_addr hn]
  · intro k hk
    rw [← h.next k hk]
    exact setFlags_other Entry.next (fun _ _ => rfl) _ _ _ _
  · intro k hk
    rw [window_pop hroom, ← h.own k hk, h.recver.2, setFlags_own hs]
    by_cases hkr : k = r % n
    · rw [if_pos hkr]
      exact iff_of_false (not_not.2 (and_not_mask_and_mask _ _)) fun hc => hc.1 hkr
    · rw [if_neg hkr]
      exact (and_iff_right hkr).symm
  · intro j hr hj _
    have hkept := h.kept j (by omega) hj fun _ => by omega
    rw [hkept]
    exact congrArg (fun p => some (_, p))
      (setFlags_other Entry.payload (fun _ _ => rfl) _ _ _ _).symm
  · have hreceived := h.received
    rw [hh] at hreceived
    exact hreceived
  · intro hsh
    have hsl := h.senderHolds hsh
    show s.sent.length < r + 1 + n
    omega

theorem Ring.step (hx : exec s op = some s') : ∃ r', Ring size base n r' s' := by
  cases op with
  | head role =>
    cases role with
    | sender =>
      simp only [exec, State.side, h.head_sender hn] at hx
      by_cases hlt : s.sent.length < r + n
      · simp only [if_pos hlt, State.setSide, reduceCtorEq, false_and, if_false] at hx
        cases hx
        exact ⟨r, h.take_sender hlt⟩
      · simp only [if_neg hlt] at hx
        cases hx
        exact ⟨r, h⟩
    | recver =>
      simp only [exec, State.side, h.head_recver hn] at hx
      by_cases hlt : r < s.sent.length
      · simp only [if_pos hlt, State.setSide, true_and] at hx
        split at hx
        · rename_i hh
          cases hx
          exact ⟨r, h.take_recver hlt hh⟩
        · rename_i hh
          cases hx
          exact ⟨r, h.again_recver (Bool.not_eq_false _ ▸ hh)⟩
      · simp only [if_neg hlt] at hx
        cases hx
        exact ⟨r, h⟩
  | write role p =>
    simp only [exec] at hx
    split at hx
    · rename_i hh
      cases hx
      cases role with
      | sender =>
        have hlt := h.senderHolds hh
        have hw := h.write (i := s.sent.length % n) hs p fun j hr hj _ he => by
          have heq := slot_inj (le_of_lt hj) (by omega) he
          omega
        rw [← h.sender.2] at hw
        exact ⟨r, hw⟩
      | recver =>
        have hroom := h.room
        have hw := h.write (i := r % n) hs p fun j hr hj hne he =>
          hne hh (slot_inj hr (by omega) he.symm).symm
        rw [← h.recver.2] at hw
        exact ⟨r, hw⟩
    · cases hx
  | submit role =>
    simp only [exec] at hx
    split at hx
    · rename_i hh
      cases role with
      | sender =>
        cases hx
        exact ⟨r, h.submit_sender hs hn hh⟩
      | recver =>
        cases hx
        exact ⟨r + 1, h.submit_recver hs hn hh⟩
    · cases hx

end

theorem initEntry_foldl (hs : 0 < size) (buf bufsize : Int) (mem : Mem β) (m k : Nat) :
    let mem' := (range m).foldl (initEntry size base n buf bufsize) mem
    k < m → (mem' (base + size * k)).flags = 0 ∧
      (mem' (base + size * k)).next = if k = n - 1 then base else base + size * (k + 1) := by
  induction m with
  | zero => exact nofun
  | succ m ih =>
    intro mem' hk
    have hmem : mem' = initEntry size base n buf bufsize
        ((range m).foldl (initEntry size base n buf bufsize) mem) m := by
      show (range (m + 1)).foldl _ _ = _
      rw [range_succ, foldl_append]
      rfl
    rw [hmem, initEntry]
    by_cases hkm : k = m
    · subst hkm
      rw [update_self]
      exact ⟨rfl, rfl⟩
    · rw [update_of_ne fun he => hkm (addr_inj hs he)]
      exact ih (by omega)

theorem setup_ring (hs : 0 < size) (hb : size ≤ basesize) (mem : Mem β) (base : Nat) (buf : Int)
    (bufsize : Nat) (sc : Softc) :
    ∃ s, setup size mem base basesize buf bufsize sc = some s ∧
      Ring size base (basesize / size) 0 s := by
  have hn : 0 < basesize / size := Nat.div_pos hb hs
  have hcond : ¬(basesize = 0 ∨ basesize / size = 0) := by omega
  simp only [setup, mdxRingbufInit, if_neg hcond]
  refine ⟨_, rfl, ⟨rfl, ?_⟩, ⟨rfl, ?_⟩, Nat.le_refl 0, Nat.zero_le _, ?_, ?_, nofun, rfl, nofun,
    nofun⟩
  · show base = base + size * (0 % _)
    rw [Nat.zero_mod, mul_zero, add_zero]
  · show base = base + size * (0 % _)
    rw [Nat.zero_mod, mul_zero, add_zero]
  · intro i hi
    rw [(initEntry_foldl hs _ _ _ _ i hi).2]
    split
    · rename_i hlast
      have hsucc : i + 1 = basesize / size := by omega
      rw [hsucc, Nat.mod_self, mul_zero, add_zero]
    · rw [Nat.mod_eq_of_lt (by omega)]
  · intro i hi
    rw [(initEntry_foldl hs _ _ _ _ i hi).1]
    refine iff_of_false (not_not.2 rfl) ?_
    rintro ⟨j, -, hj, -⟩
    exact absurd hj (Nat.not_lt_zero j)

/-- The receiver obtains what the sender submits, in order and once; no entry is in the hands of
both sides; no more than `n` entries are under way; and none is withheld from the receiver. -/
structure HandOver (n : Nat) (s : State β) : Prop where
  inOrder : s.received <+: s.sent
  apart : s.sender.holds = true → s.recver.holds = true →
    s.sender.sc.head ≠ s.recver.sc.head
  bounded : s.sent.length ≤ s.received.length + n
  obtains : mdxRingbufHead s.mem s.recver.sc = none ↔
    s.recver.holds = false ∧ s.received = s.sent

theorem Ring.handOver (h : Ring size base n r s) (hs : 0 < size) (hn : 0 < n) : HandOver n s := by
  have hroom := h.room
  have hle := h.le
  have hlen : r ≤ s.received.length := by
    rw [h.received, length_take]
    omega
  refine ⟨?_, ?_, by omega, ?_⟩
  · rw [h.received]
    exact take_prefix _ _
  · intro hsh hrh he
    rw [h.sender.2, h.recver.2] at he
    have hr := h.recverHolds hrh
    have hsl := h.senderHolds hsh
    have heq := slot_inj hle hsl (addr_inj hs he).symm
    omega
  · rw [h.head_recver hn]
    have hreceived := h.received
    constructor
    · intro hnone
      have hend : ¬r < s.sent.length := by
        intro hlt
        rw [if_pos hlt] at hnone
        cases hnone
      have hh : s.recver.holds = false := Bool.eq_false_iff.2 fun hh => hend (h.recverHolds hh)
      refine ⟨hh, ?_⟩
      rw [hreceived, take_of_length_le (by omega)]
    · rintro ⟨hh, he⟩
      rw [hh, he] at hreceived
      have hlen := congrArg length hreceived
      simp only [Bool.false_eq_true, if_false, add_zero, length_take] at hlen
      rw [if_neg (by omega)]

end

/-- A ring buffer that has been set up and joined hands the entries over. -/
theorem ring_hand_over (hs : 0 < size) (hb : size ≤ basesize) (mem : Mem β) (base : Nat)
    (buf : Int) (bufsize : Nat) (sc : Softc) :
    ∃ s₀, setup size mem base basesize buf bufsize sc = some s₀ ∧
      ∀ s, Run Next (fun _ _ => True) s₀ s → HandOver (basesize / size) s := by
  have hn : 0 < basesize / size := Nat.div_pos hb hs
  obtain ⟨s₀, hs₀, hring⟩ := setup_ring hs hb mem base buf bufsize sc
  refine ⟨s₀, hs₀, ?_⟩
  intro s hrun
  obtain ⟨r, h⟩ := hrun.invariant (fun s => ∃ r, Ring size base (basesize / size) r s) ⟨0, hring⟩
    fun ⟨r, h⟩ _ hx => h.step hs hn hx
  exact h.handOver hs hn

theorem ring_hand_over_two :
    ∃ s₀ s : State Nat,
      setup 24 (fun _ => ⟨0, 0, 0, 0, 0, 0, 0⟩) 64 50 0 0 ⟨0, 0, .sender⟩ = some s₀ ∧
      Run Next (fun _ _ => True) s₀ s ∧ s.received = [(64, ⟨1, 0, 7⟩)] ∧ HandOver 2 s := by
  obtain ⟨s₀, hs₀, h⟩ := ring_hand_over (show 0 < 24 by decide) (show 24 ≤ 50 by decide)
    (fun _ => ⟨0, 0, 0, 0, 0, 0, 0⟩) 64 0 0 ⟨0, 0, .sender⟩
  have hx : ([.head .sender, .write .sender ⟨1, 0, 7⟩, .submit .sender, .head .recver].foldlM exec
      s₀).map (·.received) = some [(64, ⟨1, 0, 7⟩)] := by
    cases hs₀
    decide +kernel
  obtain ⟨s, hs, hr⟩ := Option.map_eq_some_iff.1 hx
  have hrun : Run Next (fun _ _ => True) s₀ s :=
    Run.of_foldlM (fun _ _ _ _ hn => ⟨trivial, hn⟩) hs
  exact ⟨s₀, s, hs₀, hrun, hr, h s hrun⟩

end Mdepx.Ringbuf
