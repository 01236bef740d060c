import Mathlib.Data.UInt
import Mathlib.Tactic.Ring

namespace Mdepx.Cputime

/-! The conversions of `kernel/callout/mdx_cputime*.c`. One that panics gives nothing. -/

abbrev Conversion := UInt32 → UInt32 → Option UInt32

def mdxCputimeUsecToTicks : Conversion := fun freq usec =>
  let ticks := (freq.toUInt64 <<< 32) / 1000000
  let maxval := (0xffffffff : UInt64) <<< 32
  if maxval / ticks < usec.toUInt64 then none
  else some ((ticks * usec.toUInt64) >>> 32).toUInt32

def mdxCputimeUsecToTicks1mhz : Conversion := fun freq usec =>
  if freq = 1000000 then some usec else none

/-- What `mdx_callout_register` reads of a `struct mi_timer`. Of `start`, `stop` and `count` only
counts whether they are there. -/
structure MiTimer where
  start : Bool
  stop : Bool
  count : Bool
  maxcnt : UInt32
  frequency : UInt32
  usecToTicks : Option Conversion

structure Config where
  usecToTicks1mhz : Bool
  usecToTicks : Bool

def mdxCalloutSetup (cfg : Config) (mt : MiTimer) : Option MiTimer :=
  if mt.usecToTicks.isSome then some mt
  else if cfg.usecToTicks1mhz = true ∧ mt.frequency = 1000000 then
    some { mt with usecToTicks := some mdxCputimeUsecToTicks1mhz }
  else if cfg.usecToTicks = true ∧ mt.frequency ≠ 1000000 then
    some { mt with usecToTicks := some mdxCputimeUsecToTicks }
  else none

def mdxCalloutRegister (cfg : Config) (mt : MiTimer) : Option MiTimer :=
  if mt.maxcnt = 0 ∨ mt.start = false ∨ mt.stop = false ∨ mt.frequency = 0 ∨ mt.count = false then
    none
  else mdxCalloutSetup cfg mt

def mdxCalloutUsecToTicks (mt : MiTimer) (usec : UInt32) : Option UInt32 :=
  mt.usecToTicks.bind fun conversion => conversion mt.frequency usec

def gd32vTimer : MiTimer := ⟨true, true, true, 0xffff, 10000, some mdxCputimeUsecToTicks⟩

example : mdxCalloutUsecToTicks gd32vTimer 99 = some 0 := by decide +kernel

example : mdxCalloutUsecToTicks gd32vTimer 1000 = some 9 := by decide +kernel

def ticksPerUsec (freq : UInt32) : UInt64 := (freq.toUInt64 <<< 32) / 1000000

theorem toNat_shl_freq (freq : UInt32) :
    (freq.toUInt64 <<< 32).toNat = freq.toNat * 2 ^ 32 := by
  have hlt := freq.toNat_lt
  rw [UInt64.toNat_shiftLeft, Nat.shiftLeft_eq]
  exact Nat.mod_eq_of_lt (show freq.toNat * 2 ^ 32 < 2 ^ 64 by omega)

theorem toNat_ticksPerUsec (freq : UInt32) :
    (ticksPerUsec freq).toNat = freq.toNat * 2 ^ 32 / 1000000 := by
  rw [ticksPerUsec, UInt64.toNat_div, toNat_shl_freq]
  rfl

theorem ticksPerUsec_pos {freq : UInt32} (h : 1 ≤ freq) : 0 < (ticksPerUsec freq).toNat := by
  have hfreq : 1 ≤ freq.toNat := UInt32.le_iff_toNat_le.1 h
  rw [toNat_ticksPerUsec]
  omega

theorem mdxCputimeUsecToTicks_eq_some {freq : UInt32} (h : 1 ≤ freq) (usec r : UInt32) :
    mdxCputimeUsecToTicks freq usec = some r ↔
      (ticksPerUsec freq).toNat * usec.toNat ≤ 0xffffffff * 2 ^ 32 ∧
      ((ticksPerUsec freq * usec.toUInt64) >>> 32).toUInt32 = r := by
  have hguard : ((0xffffffff : UInt64) <<< 32) / ticksPerUsec freq < usec.toUInt64 ↔
      ¬(ticksPerUsec freq).toNat * usec.toNat ≤ 0xffffffff * 2 ^ 32 := by
    rw [UInt64.lt_iff_toNat_lt, UInt64.toNat_div, Nat.div_lt_iff_lt_mul (ticksPerUsec_pos h),
      not_le, mul_comm]
    rfl
  have hdef : mdxCputimeUsecToTicks freq usec =
      if ((0xffffffff : UInt64) <<< 32) / ticksPerUsec freq < usec.toUInt64 then none
      else some ((ticksPerUsec freq * usec.toUInt64) >>> 32).toUInt32 := rfl
  rw [hdef]
  by_cases hfits : (ticksPerUsec freq).toNat * usec.toNat ≤ 0xffffffff * 2 ^ 32
  · rw [if_neg fun hg => hguard.1 hg hfits, Option.some_inj]
    exact (and_iff_right hfits).symm
  · rw [if_pos (hguard.2 hfits)]
    exact iff_of_false (Option.some_ne_none r).symm fun hr => hfits hr.1

theorem toNat_mul_usec {freq usec : UInt32}
    (h : (ticksPerUsec freq).toNat * usec.toNat ≤ 0xffffffff * 2 ^ 32) :
    (ticksPerUsec freq * usec.toUInt64).toNat = (ticksPerUsec freq).toNat * usec.toNat := by
  rw [UInt64.toNat_mul]
  exact Nat.mod_eq_of_lt (show (ticksPerUsec freq).toNat * usec.toNat < 2 ^ 64 by omega)

theorem toNat_ticks {freq usec : UInt32}
    (h : (ticksPerUsec freq).toNat * usec.toNat ≤ 0xffffffff * 2 ^ 32) :
    ((ticksPerUsec freq * usec.toUInt64) >>> 32).toUInt32.toNat =
      (ticksPerUsec freq).toNat * usec.toNat / 2 ^ 32 := by
  rw [UInt64.toNat_toUInt32, UInt64.toNat_shiftRight, toNat_mul_usec h, Nat.shiftRight_eq_div_pow]
  exact Nat.mod_eq_of_lt
    (show (ticksPerUsec freq).toNat * usec.toNat / 2 ^ 32 < 2 ^ 32 by omega)

theorem scaled_bounds (f u : Nat) (hu : u < 2 ^ 32) :
    f * u / 1000000 - 1 ≤ f * 2 ^ 32 / 1000000 * u / 2 ^ 32 ∧
      f * 2 ^ 32 / 1000000 * u / 2 ^ 32 ≤ f * u / 1000000 := by
  have hdiv := Nat.div_add_mod (f * 2 ^ 32) 1000000
  have hmod := Nat.mod_lt (f * 2 ^ 32) (show 0 < 1000000 by decide)
  generalize f * 2 ^ 32 / 1000000 = t at *
  generalize f * 2 ^ 32 % 1000000 = m at *
  have hprod : 1000000 * (t * u) + m * u = f * u * 2 ^ 32 := by
    calc 1000000 * (t * u) + m * u = (1000000 * t + m) * u := by ring
      _ = f * 2 ^ 32 * u := by rw [hdiv]
      _ = f * u * 2 ^ 32 := by ring
  have hlost : m * u ≤ 999999 * u := Nat.mul_le_mul_right u (Nat.le_of_lt_succ hmod)
  generalize t * u = x at *
  generalize m * u = y at *
  generalize f * u = z at *
  omega

theorem ticksPerUsec_1mhz : ticksPerUsec 1000000 = 2 ^ 32 := by decide +kernel

theorem mdxCputimeUsecToTicks_1mhz (usec : UInt32) :
    mdxCputimeUsecToTicks 1000000 usec = some usec := by
  have husec := usec.toNat_lt
  have htick : (ticksPerUsec 1000000).toNat = 2 ^ 32 := by rw [ticksPerUsec_1mhz]; rfl
  have hfits : (ticksPerUsec 1000000).toNat * usec.toNat ≤ 0xffffffff * 2 ^ 32 := by
    rw [htick]
    omega
  refine (mdxCputimeUsecToTicks_eq_some (by decide) usec usec).2 ⟨hfits, ?_⟩
  apply UInt32.toNat_inj.1
  rw [toNat_ticks hfits, htick]
  omega

/-- For every frequency but zero the conversion divides by no zero and its arithmetic does not wrap;
a result is less than two ticks short of the exact one and grows with the microseconds. A timer of
1 MHz is converted as by the conversion that is for it alone. -/
theorem mdxCputimeUsecToTicks_exact (freq : UInt32) (hfreq : 1 ≤ freq) :
    ticksPerUsec freq ≠ 0 ∧
    (freq.toUInt64 <<< 32).toNat = freq.toNat * 2 ^ 32 ∧
    (∀ usec r, mdxCputimeUsecToTicks freq usec = some r →
      (ticksPerUsec freq * usec.toUInt64).toNat = (ticksPerUsec freq).toNat * usec.toNat ∧
      r.toNat = ((ticksPerUsec freq * usec.toUInt64) >>> 32).toNat ∧
      freq.toNat * usec.toNat / 1000000 - 1 ≤ r.toNat ∧
      r.toNat ≤ freq.toNat * usec.toNat / 1000000) ∧
    (∀ usec usec' r', usec ≤ usec' → mdxCputimeUsecToTicks freq usec' = some r' →
      ∃ r, mdxCputimeUsecToTicks freq usec = some r ∧ r ≤ r') ∧
    (freq = 1000000 → ∀ usec, mdxCputimeUsecToTicks freq usec = some usec ∧
      mdxCputimeUsecToTicks1mhz freq usec = some usec) := by
  refine ⟨?_, toNat_shl_freq freq, ?_, ?_, ?_⟩
  · intro h
    have hpos := ticksPerUsec_pos hfreq
    rw [h] at hpos
    exact lt_irrefl 0 hpos
  · intro usec r h
    obtain ⟨hfits, rfl⟩ := (mdxCputimeUsecToTicks_eq_some hfreq usec r).1 h
    have hbounds := scaled_bounds freq.toNat usec.toNat usec.toNat_lt
    rw [← toNat_ticksPerUsec, ← toNat_ticks hfits] at hbounds
    refine ⟨toNat_mul_usec hfits, ?_, hbounds⟩
    rw [toNat_ticks hfits, UInt64.toNat_shiftRight, toNat_mul_usec hfits,
      Nat.shiftRight_eq_div_pow]
    rfl
  · intro usec usec' r' hle h
    obtain ⟨hfits', rfl⟩ := (mdxCputimeUsecToTicks_eq_some hfreq usec' r').1 h
    have hmul := Nat.mul_le_mul_left (ticksPerUsec freq).toNat (UInt32.le_iff_toNat_le.1 hle)
    have hfits := hmul.trans hfits'
    refine ⟨_, (mdxCputimeUsecToTicks_eq_some hfreq usec _).2 ⟨hfits, rfl⟩, ?_⟩
    rw [UInt32.le_iff_toNat_le, toNat_ticks hfits, toNat_ticks hfits']
    exact Nat.div_le_div_right hmul
  · intro h usec
    subst h
    exact ⟨mdxCputimeUsecToTicks_1mhz usec, if_pos rfl⟩

theorem mdxCputimeUsecToTicks_exact_gd32v :
    (1 : UInt32) ≤ 10000 ∧ mdxCputimeUsecToTicks 10000 1000 = some 9 ∧
      10000 * 1000 / 1000000 - 1 ≤ (9 : UInt32).toNat := by
  have h : mdxCputimeUsecToTicks 10000 1000 = some 9 := by decide +kernel
  have hexact := mdxCputimeUsecToTicks_exact 10000 (by decide)
  exact ⟨by decide, h, (hexact.2.2.1 1000 9 h).2.2.1⟩

end Mdepx.Cputime
