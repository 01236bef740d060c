import Mathlib.Algebra.GroupWithZero.Nat
import Mathlib.Logic.Function.Basic

namespace Mdepx.Clint
open Function

/-! `clint_set_timer` of `arch/riscv/riscv/clint_timer.c`, for both widths of the registers. -/

structure Words where
  hi : UInt32
  lo : UInt32
deriving DecidableEq

namespace Words

def ofUInt64 (v : UInt64) : Words := ⟨(v >>> 32).toUInt32, v.toUInt32⟩

def toUInt64 (w : Words) : UInt64 := UInt64.ofNat (w.hi.toNat * 2 ^ 32 + w.lo.toNat)

theorem toNat_hi (v : UInt64) : (ofUInt64 v).hi.toNat = v.toNat / 2 ^ 32 := by
  have hv := v.toNat_lt
  have hshift : (v >>> 32).toNat = v.toNat >>> 32 := UInt64.toNat_shiftRight v 32
  rw [ofUInt64, UInt64.toNat_toUInt32, hshift, Nat.shiftRight_eq_div_pow]
  omega

theorem toNat_lo (v : UInt64) : (ofUInt64 v).lo.toNat = v.toNat % 2 ^ 32 :=
  UInt64.toNat_toUInt32 v

theorem toNat_toUInt64 (w : Words) : w.toUInt64.toNat = w.hi.toNat * 2 ^ 32 + w.lo.toNat := by
  have hhi := w.hi.toNat_lt
  have hlo := w.lo.toNat_lt
  rw [toUInt64, UInt64.toNat_ofNat']
  omega

theorem toUInt64_ofUInt64 (v : UInt64) : (ofUInt64 v).toUInt64 = v := by
  apply UInt64.toNat_inj.1
  rw [toNat_toUInt64, toNat_hi, toNat_lo]
  exact Nat.div_add_mod' v.toNat (2 ^ 32)

end Words

/-- How often the counter has been read, the compare registers, and the last value that was given
to the firmware. -/
structure ClintSoftc where
  reads : Nat
  mtimecmp : Nat → Words
  sbiTimer : Option UInt64

section
variable (mtime : Nat → UInt64)

namespace Rv64

/-- The `n`-th time it is read the counter is at `mtime n`. -/
def clintSetTimer (supervisor : Bool) (cpuid : Nat) (ticks : UInt32) (sc : ClintSoftc) :
    ClintSoftc :=
  let val := mtime sc.reads
  let sc := { sc with reads := sc.reads + 1 }
  let new := val + ticks.toUInt64
  if supervisor then { sc with sbiTimer := some new }
  else { sc with mtimecmp := Function.update sc.mtimecmp cpuid (.ofUInt64 new) }

end Rv64

namespace Rv32

def rdMtimeHi (sc : ClintSoftc) : UInt32 × ClintSoftc :=
  ((Words.ofUInt64 (mtime sc.reads)).hi, { sc with reads := sc.reads + 1 })

def rdMtimeLo (sc : ClintSoftc) : UInt32 × ClintSoftc :=
  ((Words.ofUInt64 (mtime sc.reads)).lo, { sc with reads := sc.reads + 1 })

def wrMtimecmpHi (cpuid : Nat) (hi : UInt32) (sc : ClintSoftc) : ClintSoftc :=
  { sc with mtimecmp := Function.update sc.mtimecmp cpuid { sc.mtimecmp cpuid with hi } }

def wrMtimecmpLo (cpuid : Nat) (lo : UInt32) (sc : ClintSoftc) : ClintSoftc :=
  { sc with mtimecmp := Function.update sc.mtimecmp cpuid { sc.mtimecmp cpuid with lo } }

def tryagain : Nat → ClintSoftc → Option (UInt32 × UInt32 × ClintSoftc)
  | 0, _ => none
  | fuel + 1, sc =>
    let (hi, sc) := rdMtimeHi mtime sc
    let (lo, sc) := rdMtimeLo mtime sc
    let (hi1, sc) := rdMtimeHi mtime sc
    if hi ≠ hi1 then tryagain fuel sc else some (hi, lo, sc)

def clintSetTimer (fuel : Nat) (supervisor : Bool) (cpuid : Nat) (ticks : UInt32)
    (sc : ClintSoftc) : Option ClintSoftc :=
  match tryagain mtime fuel sc with
  | none => none
  | some (hi, lo, sc) =>
    let new := lo + ticks
    let hi := if new < lo then hi + 1 else hi
    if supervisor then none
    else some (wrMtimecmpLo cpuid new (wrMtimecmpHi cpuid hi sc))

end Rv32

/-- The counter goes on by less than `2 ^ 32` between two reads of it. -/
def Advances : Prop := ∀ n, (mtime (n + 1) - mtime n).toNat < 2 ^ 32

end

section
variable {mtime : Nat → UInt64}

theorem Advances.toNat_succ (h : Advances mtime) (n : Nat) :
    ∃ d < 2 ^ 32, (mtime (n + 1)).toNat = ((mtime n).toNat + d) % 2 ^ 64 := by
  refine ⟨(mtime (n + 1) - mtime n).toNat, h n, ?_⟩
  rw [← UInt64.toNat_add, UInt64.add_comm, UInt64.sub_add_cancel]

theorem Advances.hi_eq (h : Advances mtime)
    (hhi : (Words.ofUInt64 (mtime n)).hi = (Words.ofUInt64 (mtime (n + 2))).hi) :
    (Words.ofUInt64 (mtime n)).hi = (Words.ofUInt64 (mtime (n + 1))).hi := by
  obtain ⟨d, hd, hfirst⟩ := h.toNat_succ n
  obtain ⟨d', hd', hsecond⟩ := h.toNat_succ (n + 1)
  change (mtime (n + 2)).toNat = _ at hsecond
  have hlt := (mtime n).toNat_lt
  have hhi := congrArg UInt32.toNat hhi
  apply UInt32.toNat_inj.1
  rw [Words.toNat_hi, Words.toNat_hi] at hhi ⊢
  omega

theorem tryagain_words (h : Advances mtime)
    (hloop : Rv32.tryagain mtime fuel sc = some (hi, lo, sc')) :
    ∃ n, sc.reads ≤ n ∧ sc' = { sc with reads := n + 3 } ∧
      Words.ofUInt64 (mtime (n + 1)) = ⟨hi, lo⟩ := by
  induction fuel generalizing sc with
  | zero => cases hloop
  | succ fuel ih =>
    unfold Rv32.tryagain at hloop
    dsimp only [Rv32.rdMtimeHi, Rv32.rdMtimeLo] at hloop
    split at hloop
    · obtain ⟨n, hn, hsc, hwords⟩ := ih hloop
      exact ⟨n, Nat.le_trans (Nat.le_add_right sc.reads 3) hn, hsc, hwords⟩
    · rename_i hhi
      cases hloop
      exact ⟨sc.reads, Nat.le_refl _, rfl, congrArg (Words.mk · _) (h.hi_eq (not_not.1 hhi)).symm⟩

theorem words_add (v : UInt64) (ticks : UInt32) :
    let w := Words.ofUInt64 v
    Words.mk (if w.lo + ticks < w.lo then w.hi + 1 else w.hi) (w.lo + ticks) =
      .ofUInt64 (v + ticks.toUInt64) := by
  have hv := v.toNat_lt
  have ht := ticks.toNat_lt
  have hlo : ((Words.ofUInt64 v).lo + ticks).toNat = (v.toNat + ticks.toNat) % 2 ^ 32 := by
    rw [UInt32.toNat_add, Words.toNat_lo]
    omega
  have hnew : (v + ticks.toUInt64).toNat = (v.toNat + ticks.toNat) % 2 ^ 64 := by
    rw [UInt64.toNat_add, UInt32.toNat_toUInt64]
  refine congrArg₂ Words.mk ?_ ?_
  · apply UInt32.toNat_inj.1
    change _ = (Words.ofUInt64 (v + ticks.toUInt64)).hi.toNat
    rw [Words.toNat_hi, hnew]
    by_cases hcarry : (Words.ofUInt64 v).lo + ticks < (Words.ofUInt64 v).lo
    · rw [if_pos hcarry, UInt32.toNat_add, Words.toNat_hi, UInt32.toNat_one]
      rw [UInt32.lt_iff_toNat_lt, hlo, Words.toNat_lo] at hcarry
      omega
    · rw [if_neg hcarry, Words.toNat_hi]
      rw [UInt32.lt_iff_toNat_lt, hlo, Words.toNat_lo] at hcarry
      omega
  · apply UInt32.toNat_inj.1
    change _ = (Words.ofUInt64 (v + ticks.toUInt64)).lo.toNat
    rw [Words.toNat_lo, hnew, hlo]
    omega

/-- With registers of 32 bits the compare value is what the other version makes of one read of the
counter, at an instant between the first read and the last. -/
theorem clintSetTimer_refines (h : Advances mtime)
    (hset : Rv32.clintSetTimer mtime fuel false cpuid ticks sc = some sc') :
    ∃ n, sc.reads < n ∧ n + 1 < sc'.reads ∧
      (sc'.mtimecmp cpuid).toUInt64 = mtime n + ticks.toUInt64 ∧
      sc'.mtimecmp =
        (Rv64.clintSetTimer mtime false cpuid ticks { sc with reads := n }).mtimecmp := by
  unfold Rv32.clintSetTimer at hset
  cases hloop : Rv32.tryagain mtime fuel sc with
  | none =>
    rw [hloop] at hset
    cases hset
  | some r =>
    obtain ⟨hi, lo, sc₁⟩ := r
    obtain ⟨n, hn, rfl, hwords⟩ := tryagain_words h hloop
    have hadd := words_add (mtime (n + 1)) ticks
    rw [hwords] at hadd
    rw [hloop] at hset
    cases hset
    dsimp only at hadd
    refine ⟨n + 1, Nat.lt_succ_of_le hn, Nat.lt_succ_self _, ?_, ?_⟩
    · dsimp only [Rv32.wrMtimecmpLo, Rv32.wrMtimecmpHi]
      rw [update_self, update_self, hadd, Words.toUInt64_ofUInt64]
    · dsimp only [Rv32.wrMtimecmpLo, Rv32.wrMtimecmpHi, Rv64.clintSetTimer]
      rw [update_self, update_idem, hadd]
      rfl

theorem clintSetTimer_refines_carry :
    let mtime : Nat → UInt64 := fun n => 0xffffffff + UInt64.ofNat n
    ∃ sc', Rv32.clintSetTimer mtime 2 false 0 0xffffffff ⟨0, fun _ => ⟨0, 0⟩, none⟩ = some sc' ∧
      ∃ n < sc'.reads, (sc'.mtimecmp 0).toUInt64 = mtime n + 0xffffffff := by
  intro mtime
  have hadvances : Advances mtime := by
    intro n
    have hone : mtime (n + 1) - mtime n = 1 := by
      apply UInt64.toNat_inj.1
      rw [UInt64.toNat_sub, UInt64.toNat_add, UInt64.toNat_add, UInt64.toNat_ofNat',
        UInt64.toNat_ofNat']
      change _ = 1
      have hbase : (0xffffffff : UInt64).toNat = 4294967295 := rfl
      rw [hbase]
      omega
    rw [hone]
    decide
  obtain ⟨sc', hset⟩ : ∃ sc', Rv32.clintSetTimer mtime 2 false 0 0xffffffff
      ⟨0, fun _ => ⟨0, 0⟩, none⟩ = some sc' := Option.isSome_iff_exists.1 (by decide +kernel)
  obtain ⟨n, -, hn, hvalue, -⟩ := clintSetTimer_refines hadvances hset
  exact ⟨sc', hset, n, Nat.lt_of_succ_lt hn, hvalue⟩

end

end Mdepx.Clint
