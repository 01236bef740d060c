import Mathlib.Data.Nat.Bitwise
import Mdepx.Lib.TwoWire

namespace Mdepx.I2c
open Lib TwoWire List

/-! The I2C master of `dev/i2c/bitbang/i2c_bitbang.c`, which drives the two lines itself. -/

def iicMRd : UInt16 := (1 : UInt16) <<< 0
def iicMNostop : UInt16 := (1 : UInt16) <<< 1

def i2cRd : UInt8 := 1
def i2cWr : UInt8 := 0

structure I2cMsg where
  slave : UInt16
  flags : UInt16
  buf : List UInt8
deriving DecidableEq

structure Bus where
  log : List Drive
  samples : Nat
deriving DecidableEq

namespace Bus

def i2cScl (level : Bool) (s : Bus) : Bus := { s with log := s.log ++ [.scl level] }

def i2cSda (level : Bool) (s : Bus) : Bus := { s with log := s.log ++ [.sda level] }

end Bus

def i2cStartCondition (s : Bus) : Bus :=
  (((s.i2cScl true).i2cSda true).i2cSda false).i2cScl false

def i2cStopCondition (s : Bus) : Bus :=
  ((s.i2cSda false).i2cScl true).i2cSda true

def i2cWriteBit (b : UInt8) (s : Bus) : Bus :=
  let s := if b > 0 then s.i2cSda true else s.i2cSda false
  (s.i2cScl true).i2cScl false

section
variable (sda : Nat → Bool)

/-- The `n`-th time the data line is read it is at the level `sda n`. -/
def i2cReadBit (s : Bus) : UInt8 × Bus :=
  let s := (s.i2cSda true).i2cScl true
  let b := if sda s.samples then 1 else 0
  let s := { s with samples := s.samples + 1 }
  (b, s.i2cScl false)

def writeBits : Nat → UInt8 → Bus → Bus
  | 0, _, s => s
  | k + 1, b, s =>
    let s := if b &&& 0x80 ≠ 0 then i2cWriteBit 1 s else i2cWriteBit 0 s
    writeBits k (b <<< 1) s

/-- Whether the byte is acknowledged. -/
def i2cWriteByte (b : UInt8) (start : Bool) (s : Bus) : Bool × Bus :=
  let s := if start then i2cStartCondition s else s
  let s := writeBits 8 b s
  let (ack, s) := i2cReadBit sda s
  (!(ack != 0), s)

def readBits : Nat → UInt8 → Bus → UInt8 × Bus
  | 0, b, s => (b, s)
  | k + 1, b, s =>
    let (bit, s) := i2cReadBit sda s
    readBits k (b <<< 1 ||| bit) s

def i2cReadByte (ack : Bool) (s : Bus) : UInt8 × Bus :=
  let (b, s) := readBits sda 8 0 s
  (b, if ack then i2cWriteBit 0 s else i2cWriteBit 1 s)

def readBytes : Nat → Bus → List UInt8 × Bus
  | 0, s => ([], s)
  | n + 1, s =>
    let (b, s) := i2cReadByte sda (n != 0) s
    let (bs, s) := readBytes n s
    (b :: bs, s)

def writeBytes : List UInt8 → Bus → Bool × Bus
  | [], s => (true, s)
  | b :: bs, s =>
    let (ack, s) := i2cWriteByte sda b false s
    if ack = false then (false, s) else writeBytes bs s

def xferMsg (msg : I2cMsg) (s : Bus) : Bool × I2cMsg × Bus :=
  let addr := (msg.slave <<< 1).toUInt8
  if msg.flags &&& iicMRd ≠ 0 then
    let (ack, s) := i2cWriteByte sda (addr ||| i2cRd) true s
    if ack = false then (false, msg, s)
    else
      let (buf, s) := readBytes sda msg.buf.length s
      (true, { msg with buf := buf }, s)
  else
    let (ack, s) := i2cWriteByte sda (addr ||| i2cWr) true s
    if ack = false then (false, msg, s)
    else
      let (ack, s) := writeBytes sda msg.buf s
      (ack, msg, s)

def i2cBitbangXfer : List I2cMsg → Bus → Int × List I2cMsg × Bus
  | [], s => (0, [], s)
  | msg :: msgs, s =>
    match xferMsg sda msg s with
    | (false, msg, s) => (-1, msg :: msgs, s)
    | (true, msg, s) =>
      let s := if msg.flags &&& iicMNostop = 0 then i2cStopCondition s else s
      let (error, msgs, s) := i2cBitbangXfer msgs s
      (error, msg :: msgs, s)

end

def byteBits (b : UInt8) : List Symbol := (range 8).map fun i => .bit (b.toNat.testBit (7 - i))

def addressBits (slave : UInt16) (rd : Bool) : List Symbol :=
  ((range 7).map fun i => .bit (slave.toNat.testBit (6 - i))) ++ [.bit rd]

/-- For the last bit of a byte that is written the master leaves the data line to the slave. -/
def written (bits : List Symbol) : List Symbol := bits ++ [.bit true]

/-- For the bits of a byte that is read it leaves the line as well; it acknowledges all bytes but
the last. -/
def readGroups : Nat → List (List Symbol)
  | 0 => []
  | n + 1 => (replicate 8 (.bit true) ++ [.bit (n == 0)]) :: readGroups n

namespace I2cMsg

def Rd (msg : I2cMsg) : Prop := msg.flags &&& iicMRd ≠ 0

def Nostop (msg : I2cMsg) : Prop := msg.flags &&& iicMNostop ≠ 0

instance (msg : I2cMsg) : Decidable msg.Rd := inferInstanceAs (Decidable (_ ≠ _))

instance (msg : I2cMsg) : Decidable msg.Nostop := inferInstanceAs (Decidable (_ ≠ _))

def groups (msg : I2cMsg) : List (List Symbol) :=
  written (addressBits msg.slave msg.Rd) ::
    if msg.Rd then readGroups msg.buf.length
    else msg.buf.map fun b => written (byteBits b)

def whole (msg : I2cMsg) : List Symbol :=
  .start :: msg.groups.flatten ++ if msg.Nostop then [] else [.stop]

/-- How many bytes of the message the slave has to acknowledge. -/
def acks (msg : I2cMsg) : Nat := if msg.Rd then 1 else msg.buf.length + 1

/-- How often the data line is read for the message. -/
def reads (msg : I2cMsg) : Nat := if msg.Rd then 1 + 8 * msg.buf.length else 1 + msg.buf.length

end I2cMsg

/-- From the sample `n` on, the line is low whenever it is read for an acknowledgement. -/
def Acknowledged (sda : Nat → Bool) : List I2cMsg → Nat → Prop
  | [], _ => True
  | msg :: msgs, n => (∀ i < msg.acks, sda (n + i) = false) ∧ Acknowledged sda msgs (n + msg.reads)

/-- The byte with the number `k` is the first one of the message that is not acknowledged. -/
structure Refuses (sda : Nat → Bool) (msg : I2cMsg) (n k : Nat) : Prop where
  lt : k < msg.acks
  low : ∀ i < k, sda (n + i) = false
  high : sda (n + k) = true

def samplesOf (msgs : List I2cMsg) : Nat := (msgs.map I2cMsg.reads).sum

def Emits (s s' : Bus) (P : Lines → Prop) (seen : List Symbol) (Q : Lines → Prop) : Prop :=
  ∃ ds, s'.log = s.log ++ ds ∧ Says P ds seen Q

section
variable {s s' s'' : Bus} {P P' Q R : Lines → Prop} {seen seen' : List Symbol}

theorem Emits.refl (s : Bus) (P : Lines → Prop) : Emits s s P [] P :=
  ⟨[], (append_nil _).symm, .nil P⟩

theorem Emits.trans (h : Emits s s' P seen Q) (h' : Emits s' s'' Q seen' R) :
    Emits s s'' P (seen ++ seen') R := by
  obtain ⟨ds, hlog, hsays⟩ := h
  obtain ⟨ds', hlog', hsays'⟩ := h'
  refine ⟨ds ++ ds', ?_, hsays.append hsays'⟩
  rw [hlog', hlog, append_assoc]

theorem Emits.mono (h : Emits s s' P seen Q) (hp : ∀ l, P' l → P l) (hq : ∀ l, Q l → R l) :
    Emits s s' P' seen R := by
  obtain ⟨ds, hlog, hsays⟩ := h
  exact ⟨ds, hlog, hsays.mono hp hq⟩

theorem Emits.low (h : Emits s s' P seen (Lines.Held b)) : Emits s s' P seen Lines.Low :=
  h.mono (fun _ hl => hl) fun _ hl => hl.low

theorem emits_start (s : Bus) :
    Emits s (i2cStartCondition s) Lines.Ready [.start] (Lines.Held false) :=
  ⟨_, by simp [i2cStartCondition, Bus.i2cScl, Bus.i2cSda], says_start⟩

theorem emits_stop (s : Bus) : Emits s (i2cStopCondition s) Lines.Low [.stop] Lines.Idle :=
  ⟨_, by simp [i2cStopCondition, Bus.i2cScl, Bus.i2cSda], says_stop⟩

theorem emits_writeBit (s : Bus) (b : UInt8) :
    Emits s (i2cWriteBit b s) Lines.Low [.bit (decide (b > 0))] (Lines.Held (decide (b > 0))) := by
  refine ⟨_, ?_, says_bit (decide (b > 0))⟩
  by_cases h : b > 0
  · simp [i2cWriteBit, Bus.i2cScl, Bus.i2cSda, h]
  · simp [i2cWriteBit, Bus.i2cScl, Bus.i2cSda, h]

variable (sda : Nat → Bool)

theorem emits_readBit (s : Bus) :
    Emits s (i2cReadBit sda s).2 Lines.Low [.bit true] (Lines.Held true) :=
  ⟨_, by simp [i2cReadBit, Bus.i2cScl, Bus.i2cSda], says_bit true⟩

def shifted : Nat → UInt8 → List Symbol
  | 0, _ => []
  | k + 1, b => .bit (b &&& 0x80 ≠ 0) :: shifted k (b <<< 1)

theorem bit_top (b : UInt8) : Symbol.bit (b &&& 0x80 ≠ 0) = .bit (b.toNat.testBit 7) := by
  have hnat : (b &&& 0x80).toNat = (b.toNat.testBit 7).toNat * 2 ^ 7 := by
    rw [UInt8.toNat_and]
    exact Nat.and_two_pow b.toNat 7
  have hzero : b &&& 0x80 = 0 ↔ b.toNat.testBit 7 = false := by
    rw [← UInt8.toNat_inj, hnat]
    simp
  simp only [ne_eq, hzero, Bool.not_eq_false, Bool.decide_eq_true]

theorem testBit_shift (b : UInt8) {i : Nat} (hi : i < 7) :
    (b <<< 1).toNat.testBit (7 - i) = b.toNat.testBit (7 - (i + 1)) := by
  have hnat : (b <<< 1).toNat = b.toNat <<< 1 % 2 ^ 8 := UInt8.toNat_shiftLeft b 1
  have hin : 7 - i < 8 := by omega
  have hone : 7 - i ≥ 1 := by omega
  rw [hnat, Nat.testBit_mod_two_pow, Nat.testBit_shiftLeft, decide_eq_true hin, decide_eq_true hone,
    Bool.true_and, Bool.true_and, Nat.sub_sub]

theorem shifted_eq {k : Nat} (hk : k ≤ 8) (b : UInt8) :
    shifted k b = (range k).map fun i => .bit (b.toNat.testBit (7 - i)) := by
  induction k generalizing b with
  | zero => rfl
  | succ k ih =>
    rw [shifted, ih (Nat.le_of_succ_le hk), range_succ_eq_map, map_cons, map_map,
      bit_top]
    refine congrArg _ (map_congr_left fun i hi => ?_)
    have hi : i < 7 := lt_of_lt_of_le (mem_range.1 hi) (Nat.le_of_succ_le_succ hk)
    exact congrArg _ (testBit_shift b hi)

theorem shifted_eight (b : UInt8) : shifted 8 b = byteBits b := shifted_eq (le_refl 8) b

theorem emits_writeBits (k : Nat) (b : UInt8) (s : Bus) :
    Emits s (writeBits k b s) Lines.Low (shifted k b) Lines.Low := by
  induction k generalizing b s with
  | zero => exact .refl s Lines.Low
  | succ k ih =>
    have hbit : Emits s (if b &&& 0x80 ≠ 0 then i2cWriteBit 1 s else i2cWriteBit 0 s) Lines.Low
        [.bit (b &&& 0x80 ≠ 0)] Lines.Low := by
      by_cases h : b &&& 0x80 ≠ 0
      · rw [if_pos h, decide_eq_true h]
        exact (emits_writeBit s 1).low
      · rw [if_neg h, decide_eq_false h]
        exact (emits_writeBit s 0).low
    exact hbit.trans (ih _ _)

theorem emits_writeByte (b : UInt8) (s : Bus) :
    Emits s (i2cWriteByte sda b false s).2 Lines.Low (written (byteBits b)) (Lines.Held true) := by
  rw [← shifted_eight]
  exact (emits_writeBits 8 b s).trans (emits_readBit sda _)

theorem emits_startByte (b : UInt8) (s : Bus) :
    Emits s (i2cWriteByte sda b true s).2 Lines.Ready (.start :: written (byteBits b))
      (Lines.Held true) := by
  rw [← shifted_eight]
  exact (emits_start s).low.trans ((emits_writeBits 8 b _).trans (emits_readBit sda _))

theorem emits_readBits (k : Nat) (b : UInt8) (s : Bus) :
    Emits s (readBits sda k b s).2 Lines.Low (replicate k (.bit true)) Lines.Low := by
  induction k generalizing b s with
  | zero => exact .refl s Lines.Low
  | succ k ih => exact (emits_readBit sda s).low.trans (ih _ _)

theorem emits_readByte (ack : Bool) (s : Bus) :
    Emits s (i2cReadByte sda ack s).2 Lines.Low (replicate 8 (.bit true) ++ [.bit (!ack)])
      (Lines.Held !ack) := by
  refine (emits_readBits sda 8 0 s).trans ?_
  cases ack with
  | true => exact emits_writeBit _ 0
  | false => exact emits_writeBit _ 1

theorem emits_readBytes (n : Nat) (s : Bus) :
    Emits s (readBytes sda n s).2 (Lines.Held true) (readGroups n).flatten (Lines.Held true) := by
  have hlow : ∀ n s, Emits s (readBytes sda (n + 1) s).2 Lines.Low (readGroups (n + 1)).flatten
      (Lines.Held true) := by
    intro n
    induction n with
    | zero => exact fun s => emits_readByte sda false s
    | succ n ih => exact fun s => (emits_readByte sda true s).low.trans (ih _)
  cases n with
  | zero => exact .refl s _
  | succ n => exact (hlow n s).mono (fun _ hl => hl.low) fun _ hl => hl

theorem i2cWriteBit_samples (b : UInt8) (s : Bus) : (i2cWriteBit b s).samples = s.samples := by
  unfold i2cWriteBit
  split <;> rfl

theorem writeBits_samples (k : Nat) (b : UInt8) (s : Bus) :
    (writeBits k b s).samples = s.samples := by
  induction k generalizing b s with
  | zero => rfl
  | succ k ih =>
    rw [writeBits, ih]
    split <;> exact i2cWriteBit_samples _ s

theorem i2cWriteByte_ack (b : UInt8) (start : Bool) (s : Bus) :
    (i2cWriteByte sda b start s).1 = !sda s.samples ∧
      (i2cWriteByte sda b start s).2.samples = s.samples + 1 := by
  have hsamples : (writeBits 8 b (if start then i2cStartCondition s else s)).samples =
      s.samples := by
    rw [writeBits_samples]
    split <;> rfl
  unfold i2cWriteByte i2cReadBit
  simp only [Bus.i2cScl, Bus.i2cSda, hsamples, and_true]
  cases sda s.samples <;> rfl

theorem readBits_samples (k : Nat) (b : UInt8) (s : Bus) :
    (readBits sda k b s).2.samples = s.samples + k := by
  induction k generalizing b s with
  | zero => rfl
  | succ k ih =>
    rw [readBits, ih]
    exact Nat.succ_add_eq_add_succ s.samples k

theorem i2cReadByte_samples (ack : Bool) (s : Bus) :
    (i2cReadByte sda ack s).2.samples = s.samples + 8 := by
  rw [← readBits_samples sda 8 0 s, i2cReadByte]
  cases ack with
  | true => exact i2cWriteBit_samples 0 _
  | false => exact i2cWriteBit_samples 1 _

theorem readBytes_samples (n : Nat) (s : Bus) :
    (readBytes sda n s).2.samples = s.samples + 8 * n := by
  induction n generalizing s with
  | zero => rfl
  | succ n ih =>
    rw [readBytes, ih, i2cReadByte_samples]
    omega

variable {sda} in
theorem low_succ {n k : Nat} (hfirst : sda n = false) (h : ∀ i < k, sda (n + 1 + i) = false) :
    ∀ i < k + 1, sda (n + i) = false := by
  intro i hi
  cases i with
  | zero => exact hfirst
  | succ i => exact Nat.succ_add_eq_add_succ n i ▸ h i (Nat.lt_of_succ_lt_succ hi)

theorem emits_writeBytes (bs : List UInt8) (s : Bus) :
    ((writeBytes sda bs s).1 = true ∧ (∀ i < bs.length, sda (s.samples + i) = false) ∧
      (writeBytes sda bs s).2.samples = s.samples + bs.length ∧
      Emits s (writeBytes sda bs s).2 (Lines.Held true)
        (bs.map fun b => written (byteBits b)).flatten (Lines.Held true)) ∨
    ((writeBytes sda bs s).1 = false ∧ ∃ k < bs.length, (∀ i < k, sda (s.samples + i) = false) ∧
      sda (s.samples + k) = true ∧ Emits s (writeBytes sda bs s).2 (Lines.Held true)
        ((bs.map fun b => written (byteBits b)).take (k + 1)).flatten (Lines.Held true)) := by
  induction bs generalizing s with
  | nil => exact .inl ⟨rfl, nofun, rfl, .refl s _⟩
  | cons b bs ih =>
    have hbyte := (emits_writeByte sda b s).mono (fun _ (hl : Lines.Held true _) => hl.low)
      fun _ hl => hl
    obtain ⟨hack, hsamples⟩ := i2cWriteByte_ack sda b false s
    unfold writeBytes
    cases hsda : sda s.samples with
    | true =>
      simp only [hack, hsda, Bool.not_true, if_true]
      refine .inr ⟨trivial, 0, Nat.zero_lt_succ _, nofun, hsda, ?_⟩
      simpa using hbyte
    | false =>
      have hih := ih (i2cWriteByte sda b false s).2
      rw [hsamples] at hih
      simp only [hack, hsda, Bool.not_false, Bool.true_eq_false, if_false]
      rcases hih with ⟨hok, h, hlen, hemits⟩ | ⟨hno, k, hk, h, hhigh, hemits⟩
      · exact .inl ⟨hok, low_succ hsda h, hlen.trans (Nat.succ_add_eq_add_succ _ _),
          hbyte.trans hemits⟩
      · exact .inr ⟨hno, k + 1, Nat.succ_lt_succ hk, low_succ hsda h,
          Nat.succ_add_eq_add_succ s.samples k ▸ hhigh, hbyte.trans hemits⟩

theorem shiftLeft_or_bit (n : Nat) (b : Bool) : n <<< 1 ||| b.toNat = Nat.bit b n := by
  have hhigh : n <<< 1 = Nat.bit false n := by rw [Nat.shiftLeft_eq, Nat.bit_false, mul_comm]
  have hlow : b.toNat = Nat.bit b 0 := by cases b <;> rfl
  rw [hhigh, hlow, Nat.lor_bit, Bool.false_or, Nat.or_zero]

theorem byteBits_address (msg : I2cMsg) (h : msg.slave < 128) :
    byteBits ((msg.slave <<< 1).toUInt8 ||| if msg.Rd then i2cRd else i2cWr) =
      addressBits msg.slave msg.Rd := by
  have hslave : msg.slave.toNat < 128 := UInt16.lt_iff_toNat_lt.1 h
  have haddr : (msg.slave <<< 1).toUInt8.toNat = msg.slave.toNat <<< 1 := by
    have hshift : (msg.slave <<< 1).toNat = msg.slave.toNat <<< 1 % 2 ^ 16 :=
      UInt16.toNat_shiftLeft msg.slave 1
    rw [UInt16.toNat_toUInt8, hshift]
    omega
  have hdir : (if msg.Rd then i2cRd else i2cWr).toNat = (decide msg.Rd).toNat := by
    by_cases hrd : msg.Rd
    · rw [if_pos hrd, decide_eq_true hrd]
      rfl
    · rw [if_neg hrd, decide_eq_false hrd]
      rfl
  rw [byteBits, addressBits, UInt8.toNat_or, haddr, hdir, shiftLeft_or_bit, range_succ,
    map_append, map_singleton, Nat.sub_self, Nat.testBit_bit_zero]
  refine congrArg (· ++ _) (map_congr_left fun i hi => ?_)
  have hsucc : 7 - i = 6 - i + 1 := Nat.succ_sub (Nat.le_of_lt_succ (mem_range.1 hi))
  rw [hsucc, Nat.testBit_bit_succ]

theorem emits_address (msg : I2cMsg) (h : msg.slave < 128) (s : Bus) :
    Emits s (i2cWriteByte sda ((msg.slave <<< 1).toUInt8 ||| if msg.Rd then i2cRd else i2cWr)
      true s).2 Lines.Ready (.start :: written (addressBits msg.slave msg.Rd))
      (Lines.Held true) := by
  rw [← byteBits_address msg h]
  exact emits_startByte sda _ s

theorem xferMsg_rd {msg : I2cMsg} (h : msg.Rd) (s : Bus) :
    xferMsg sda msg s =
      let r := i2cWriteByte sda ((msg.slave <<< 1).toUInt8 ||| i2cRd) true s
      let r' := readBytes sda msg.buf.length r.2
      if r.1 = false then (false, msg, r.2) else (true, { msg with buf := r'.1 }, r'.2) :=
  if_pos h

theorem xferMsg_wr {msg : I2cMsg} (h : ¬msg.Rd) (s : Bus) :
    xferMsg sda msg s =
      let r := i2cWriteByte sda ((msg.slave <<< 1).toUInt8 ||| i2cWr) true s
      let r' := writeBytes sda msg.buf r.2
      if r.1 = false then (false, msg, r.2) else (r'.1, msg, r'.2) :=
  if_neg h

/-- A message is sent and acknowledged as a whole, or up to the byte that is refused. -/
def Passes (msg : I2cMsg) (s : Bus) : Prop :=
  (∃ buf s', xferMsg sda msg s = (true, { msg with buf := buf }, s') ∧
    (∀ i < msg.acks, sda (s.samples + i) = false) ∧ s'.samples = s.samples + msg.reads ∧
    Emits s s' Lines.Ready (.start :: msg.groups.flatten) (Lines.Held true)) ∨
  (∃ s', xferMsg sda msg s = (false, msg, s') ∧ ∃ k, Refuses sda msg s.samples k ∧
    Emits s s' Lines.Ready (.start :: (msg.groups.take (k + 1)).flatten) (Lines.Held true))

theorem refuses_address (msg : I2cMsg) (h : sda n = true) : Refuses sda msg n 0 := by
  refine ⟨?_, fun i hi => absurd hi (Nat.not_lt_zero i), h⟩
  unfold I2cMsg.acks
  split <;> exact Nat.zero_lt_succ _

theorem emits_first (msg : I2cMsg) (h : msg.slave < 128) (s : Bus) :
    Emits s (i2cWriteByte sda ((msg.slave <<< 1).toUInt8 ||| if msg.Rd then i2cRd else i2cWr)
      true s).2 Lines.Ready (.start :: (msg.groups.take 1).flatten) (Lines.Held true) := by
  simpa [I2cMsg.groups] using emits_address sda msg h s

theorem passes_rd {msg : I2cMsg} (hrd : msg.Rd) (h : msg.slave < 128) (s : Bus) :
    Passes sda msg s := by
  have haddr := emits_address sda msg h s
  have hfirst := emits_first sda msg h s
  have hgroups : msg.groups =
      written (addressBits msg.slave msg.Rd) :: readGroups msg.buf.length := by
    rw [I2cMsg.groups, if_pos hrd]
  obtain ⟨hack, hsamples⟩ := i2cWriteByte_ack sda ((msg.slave <<< 1).toUInt8 ||| i2cRd) true s
  rw [if_pos hrd] at haddr hfirst
  rw [Passes, xferMsg_rd sda hrd]
  dsimp only
  rw [hack]
  cases hsda : sda s.samples with
  | true => exact .inr ⟨_, rfl, 0, refuses_address sda msg hsda, hfirst⟩
  | false =>
    refine .inl ⟨_, _, rfl, ?_, ?_, ?_⟩
    · rw [I2cMsg.acks, if_pos hrd]
      intro i hi
      rw [Nat.lt_one_iff.1 hi]
      exact hsda
    · rw [readBytes_samples, hsamples, I2cMsg.reads, if_pos hrd, add_assoc]
    · rw [hgroups]
      exact haddr.trans (emits_readBytes sda msg.buf.length _)

theorem passes_wr {msg : I2cMsg} (hrd : ¬msg.Rd) (h : msg.slave < 128) (s : Bus) :
    Passes sda msg s := by
  have haddr := emits_address sda msg h s
  have hfirst := emits_first sda msg h s
  have hgroups : msg.groups =
      written (addressBits msg.slave msg.Rd) :: msg.buf.map fun b => written (byteBits b) := by
    rw [I2cMsg.groups, if_neg hrd]
  have hacks : msg.acks = msg.buf.length + 1 := if_neg hrd
  obtain ⟨hack, hsamples⟩ := i2cWriteByte_ack sda ((msg.slave <<< 1).toUInt8 ||| i2cWr) true s
  rw [if_neg hrd] at haddr hfirst
  rw [Passes, xferMsg_wr sda hrd]
  dsimp only
  rw [hack]
  cases hsda : sda s.samples with
  | true => exact .inr ⟨_, rfl, 0, refuses_address sda msg hsda, hfirst⟩
  | false =>
    have hbytes := emits_writeBytes sda msg.buf
      (i2cWriteByte sda ((msg.slave <<< 1).toUInt8 ||| i2cWr) true s).2
    rw [hsamples] at hbytes
    rcases hbytes with ⟨hok, hlow, hlen, hbytes⟩ | ⟨hno, k, hk, hlow, hhigh, hbytes⟩
    · refine .inl ⟨msg.buf, _, congrArg (·, msg, _) hok, ?_, ?_, ?_⟩
      · rw [hacks]
        exact low_succ hsda hlow
      · rw [hlen, I2cMsg.reads, if_neg hrd, add_assoc]
      · rw [hgroups]
        exact haddr.trans hbytes
    · refine .inr ⟨_, congrArg (·, msg, _) hno, k + 1, ⟨?_, low_succ hsda hlow, ?_⟩, ?_⟩
      · rw [hacks]
        exact Nat.succ_lt_succ hk
      · rw [← Nat.succ_add_eq_add_succ]
        exact hhigh
      · rw [hgroups]
        exact haddr.trans hbytes

theorem passes_msg (msg : I2cMsg) (h : msg.slave < 128) (s : Bus) : Passes sda msg s := by
  by_cases hrd : msg.Rd
  · exact passes_rd sda hrd h s
  · exact passes_wr sda hrd h s

def leaves (msg : I2cMsg) : Lines → Prop := if msg.Nostop then Lines.Held true else Lines.Idle

theorem leaves_ready (msg : I2cMsg) (l : Lines) (h : leaves msg l) : l.Ready := by
  unfold leaves at h
  split at h
  · exact .inr h
  · exact .inl h

theorem emits_whole (h : Emits s s' Lines.Ready (.start :: msg.groups.flatten) (Lines.Held true)) :
    Emits s (if msg.flags &&& iicMNostop = 0 then i2cStopCondition s' else s') Lines.Ready
      msg.whole (leaves msg) := by
  unfold I2cMsg.whole leaves
  by_cases hstop : msg.flags &&& iicMNostop = 0
  · have hno : ¬msg.Nostop := not_not.2 hstop
    rw [if_pos hstop, if_neg hno, if_neg hno]
    exact h.low.trans (emits_stop s')
  · have hno : msg.Nostop := hstop
    rw [if_neg hstop, if_pos hno, if_pos hno, append_nil]
    exact h

theorem i2cStop_samples (msg : I2cMsg) (s : Bus) :
    (if msg.flags &&& iicMNostop = 0 then i2cStopCondition s else s).samples = s.samples := by
  split <;> rfl

theorem emits_xfer (msgs : List I2cMsg) (h : ∀ msg ∈ msgs, msg.slave < 128) (s : Bus) :
    ((i2cBitbangXfer sda msgs s).1 = 0 ∧ Acknowledged sda msgs s.samples ∧
      Emits s (i2cBitbangXfer sda msgs s).2.2 Lines.Ready (msgs.flatMap I2cMsg.whole)
        (msgs.getLast?.elim Lines.Ready leaves)) ∨
    ((i2cBitbangXfer sda msgs s).1 = -1 ∧ ∃ said msg rest k, msgs = said ++ msg :: rest ∧
      Acknowledged sda said s.samples ∧ Refuses sda msg (s.samples + samplesOf said) k ∧
      Emits s (i2cBitbangXfer sda msgs s).2.2 Lines.Ready
        (said.flatMap I2cMsg.whole ++ .start :: (msg.groups.take (k + 1)).flatten)
        (Lines.Held true)) := by
  induction msgs generalizing s with
  | nil => exact .inl ⟨rfl, trivial, .refl s _⟩
  | cons msg msgs ih =>
    obtain ⟨hmsg, h⟩ := forall_mem_cons.1 h
    unfold i2cBitbangXfer
    rcases passes_msg sda msg hmsg s with
      ⟨buf, s', hx, hacks, hreads, hemits⟩ | ⟨s', hx, k, hk, hemits⟩
    · rw [hx]
      have hwhole := emits_whole hemits
      have hih := ih h (if msg.flags &&& iicMNostop = 0 then i2cStopCondition s' else s')
      rw [i2cStop_samples, hreads] at hih
      dsimp only
      rcases hih with ⟨hok, hall, hemits'⟩ | ⟨herr, said, msg', rest, k, hsplit, hsaid, hk, hcut⟩
      · refine .inl ⟨hok, ⟨hacks, hall⟩, ?_⟩
        cases msgs with
        | nil => exact hwhole.trans (.refl _ _)
        | cons =>
          exact hwhole.trans (hemits'.mono (leaves_ready msg) fun _ hl => hl)
      · refine .inr ⟨herr, msg :: said, msg', rest, k, congrArg _ hsplit, ⟨hacks, hsaid⟩, ?_, ?_⟩
        · rw [samplesOf, map_cons, sum_cons, ← add_assoc]
          exact hk
        · rw [flatMap_cons, append_assoc]
          exact hwhole.trans (hcut.mono (leaves_ready msg) fun _ hl => hl)
    · rw [hx]
      exact .inr ⟨rfl, [], msg, msgs, k, rfl, trivial, hk, hemits⟩

variable {sda} in
theorem Refuses.not_acknowledged (said rest : List I2cMsg)
    (h : Refuses sda msg (n + samplesOf said) k) :
    ¬Acknowledged sda (said ++ msg :: rest) n := by
  induction said generalizing n with
  | nil => exact fun hall => Bool.false_ne_true ((hall.1 k h.lt).symm.trans h.high)
  | cons msg' said ih =>
    rw [samplesOf, map_cons, sum_cons, ← add_assoc] at h
    exact fun hall => ih h hall.2

theorem readGroups_nine (n : Nat) : ∀ g ∈ readGroups n, g.length = 9 := by
  induction n with
  | zero => exact nofun
  | succ n ih => exact forall_mem_cons.2 ⟨rfl, ih⟩

theorem groups_nine (msg : I2cMsg) : ∀ g ∈ msg.groups, g.length = 9 := by
  refine forall_mem_cons.2 ⟨rfl, ?_⟩
  split
  · exact readGroups_nine _
  · exact forall_mem_map.2 fun _ _ => rfl

def Released (seen : Lines × List Symbol) : Prop := seen.1.Idle ∧ seen.2.getLast? = some .stop

theorem whole_getLast? (msgs : List I2cMsg) (hne : msgs ≠ []) (h : ¬(msgs.getLast hne).Nostop) :
    (msgs.flatMap I2cMsg.whole).getLast? = some .stop := by
  rw [← dropLast_append_getLast hne, flatMap_append, flatMap_singleton,
    I2cMsg.whole, if_neg h, ← append_assoc]
  exact getLast?_concat

/-- From an idle bus the messages are said one after the other, each byte with nine clocks, all of
them if every byte is acknowledged, which is when the call succeeds, and up to the end of the first
byte that is not otherwise; and exactly in the first case is the bus let go of unless the call
succeeds and the last message is not to end with a stop. -/
theorem i2cBitbangXfer_trace (msgs : List I2cMsg) (hne : msgs ≠ [])
    (h7 : ∀ msg ∈ msgs, msg.slave < 128) (l : Lines) (hl : l.Idle) :
    let r := i2cBitbangXfer sda msgs ⟨[], 0⟩
    let seen := watch l r.2.2.log
    (∀ msg ∈ msgs, ∀ g ∈ msg.groups, g.length = 9) ∧
    (r.1 = 0 ↔ Acknowledged sda msgs 0) ∧
    (Acknowledged sda msgs 0 ∧ seen.2 = msgs.flatMap I2cMsg.whole ∨
      ∃ said msg rest k, msgs = said ++ msg :: rest ∧
        Acknowledged sda said 0 ∧ Refuses sda msg (samplesOf said) k ∧
        seen.2 = said.flatMap I2cMsg.whole ++ .start :: (msg.groups.take (k + 1)).flatten) ∧
    ((¬(r.1 = 0 ∧ (msgs.getLast hne).Nostop) → Released seen) ↔ Acknowledged sda msgs 0) := by
  refine ⟨fun msg _ => groups_nine msg, ?_⟩
  rcases emits_xfer sda msgs h7 ⟨[], 0⟩ with
    ⟨hok, hacks, ds, hlog, hsays⟩ | ⟨herr, said, msg, rest, k, hsplit, hsaid, hk, ds, hlog, hsays⟩
  · rw [nil_append] at hlog
    subst hlog
    obtain ⟨hseen, hend⟩ := hsays l (.inl hl)
    refine ⟨iff_of_true hok hacks, .inl ⟨hacks, hseen⟩, iff_of_true (fun hno => ?_) hacks⟩
    have hstop : ¬(msgs.getLast hne).Nostop := fun hstop => hno ⟨hok, hstop⟩
    rw [getLast?_eq_some_getLast hne, Option.elim_some, leaves, if_neg hstop] at hend
    exact ⟨hend, hseen ▸ whole_getLast? msgs hne hstop⟩
  · rw [nil_append] at hlog
    subst hlog
    obtain ⟨hseen, hend⟩ := hsays l (.inl hl)
    rw [zero_add] at hk
    have hno : ¬Acknowledged sda msgs 0 := by
      rw [hsplit]
      exact (show Refuses sda msg (0 + samplesOf said) k by rwa [zero_add]).not_acknowledged _ _
    have hfail : (i2cBitbangXfer sda msgs ⟨[], 0⟩).1 ≠ 0 := by
      rw [herr]
      decide
    refine ⟨iff_of_false hfail hno, .inr ⟨said, msg, rest, k, hsplit, hsaid, hk, hseen⟩, ?_⟩
    exact iff_of_false (fun hr => hend.not_idle (hr fun h => hfail h.1).1) hno

end

def writeThenRead : List I2cMsg := [⟨0x50, iicMNostop, [0xa5]⟩, ⟨0x50, iicMRd, [0]⟩]

theorem i2cBitbangXfer_trace_writeThenRead :
    (∀ msg ∈ writeThenRead, msg.slave < 128) ∧
      Released (watch ⟨true, true, false⟩
        (i2cBitbangXfer (fun _ => false) writeThenRead ⟨[], 0⟩).2.2.log) := by
  have h7 : ∀ msg ∈ writeThenRead, msg.slave < 128 := by decide
  obtain ⟨-, -, -, hreleased⟩ := i2cBitbangXfer_trace (fun _ => false) writeThenRead (by decide) h7
    ⟨true, true, false⟩ ⟨rfl, rfl⟩
  have hall : Acknowledged (fun _ => false) writeThenRead 0 :=
    ⟨fun _ _ => rfl, fun _ _ => rfl, trivial⟩
  exact ⟨h7, hreleased.2 hall fun h => absurd h.2 (by decide)⟩

/-- Nobody answers at the address: the call fails and leaves the clock low. -/
theorem i2cBitbangXfer_unreleased :
    let r := i2cBitbangXfer (fun _ => true) [⟨0x50, 0, [0xa5]⟩] ⟨[], 0⟩
    let seen := watch ⟨true, true, false⟩ r.2.2.log
    r.1 = -1 ∧ seen.1 = ⟨false, true, false⟩ ∧ Symbol.stop ∉ seen.2 := by
  decide +kernel

end Mdepx.I2c
