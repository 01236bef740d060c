import Mathlib.Tactic.IntervalCases
import Mdepx.Lib.Signed

namespace Mdepx.Time
open Mdepx.Lib BitVec

/-! `int` has 32 bits, `long` has `lw` and the unsigned `time_t` has `w`. -/

abbrev CInt := BitVec 32

structure Tm where
  tmSec : CInt
  tmMin : CInt
  tmHour : CInt
  tmMday : CInt
  tmMon : CInt
  tmYear : CInt
  deriving DecidableEq

def jdnEpochStart : CInt := 2440588

def gregorian2jdn (y m d : CInt) : CInt :=
  (1461 * (y + 4800 + (m - 14).sdiv 12)).sdiv 4 +
    (367 * (m - 2 - 12 * (m - 14).sdiv 12)).sdiv 12 -
    (3 * (y + 4900 + (m.sdiv 14).sdiv 12).sdiv 100).sdiv 4 +
    d - 32075

/-- The seconds are computed in `int` and only the result is converted to `time_t`. -/
def mktime (w : Nat) (tm : Tm) : BitVec w :=
  let jdn := gregorian2jdn (tm.tmYear + 1900) (tm.tmMon + 1) tm.tmMday
  let jdn := jdn - jdnEpochStart
  (((jdn * 24 + tm.tmHour) * 60 + tm.tmMin) * 60 + tm.tmSec).signExtend w

def jdn2gregorian (lw : Nat) (jdn : CInt) : CInt × CInt × CInt :=
  let l : BitVec lw := (jdn + 68569).signExtend lw
  let n := (4 * l).sdiv 146097
  let l := l - (146097 * n + 3).sdiv 4
  let i := (4000 * (l + 1)).sdiv 1461001
  let l := l - (1461 * i).sdiv 4 + 31
  let j := (80 * l).sdiv 2447
  let d := l - (2447 * j).sdiv 80
  let l := j.sdiv 11
  let m := j + 2 - 12 * l
  let y := 100 * (n - 49) + i + l
  (y.signExtend 32, m.signExtend 32, d.signExtend 32)

def gmtimeR (lw : Nat) (tp : BitVec w) : Tm :=
  let jdn : CInt := (tp / 86400).setWidth 32
  let jdn := jdn + jdnEpochStart
  let date := jdn2gregorian lw jdn
  { tmYear := date.1 - 1900
    tmMon := date.2.1 - 1
    tmMday := date.2.2
    tmHour := (tp / 3600 % 24).setWidth 32
    tmMin := (tp / 60 % 60).setWidth 32
    tmSec := (tp % 60).setWidth 32 }

/--
A day in the calendar both formulas go through: centuries of years that begin in March, with
the months of a year numbered from 1.
-/
structure MarchDate where
  century : Int
  year : Int
  month : Int
  day : Int

def marchDate (jdn : Int) : MarchDate :=
  let l := jdn + 68569
  let n := 4 * l / 146097
  let l := l - (146097 * n + 3) / 4
  let i := 4000 * (l + 1) / 1461001
  let l := l - 1461 * i / 4 + 31
  let j := 80 * l / 2447
  ⟨n, i, j, l - 2447 * j / 80⟩

namespace MarchDate

structure Valid (p : MarchDate) : Prop where
  year_nonneg : 0 ≤ p.year
  year_le : p.year ≤ 99
  month_pos : 1 ≤ p.month
  month_le : p.month ≤ 12

def jdn (p : MarchDate) : Int :=
  36525 * (p.century - 1) + 1461 * p.year / 4 + 367 * p.month / 12 - 3 * p.century / 4 + p.day
    - 32075

/-- January and February, months 11 and 12, are in the next year of the civil calendar. -/
def civilYear (p : MarchDate) : Int := 100 * (p.century - 49) + p.year + p.month / 11

def civilMonth (p : MarchDate) : Int := p.month + 2 - 12 * (p.month / 11)

/-- January or February of a century year that the leap years leave out. -/
def Slips (p : MarchDate) : Prop := 11 ≤ p.month ∧ p.year = 99 ∧ p.century % 4 ≠ 0

instance (p : MarchDate) : Decidable p.Slips := by
  unfold Slips
  infer_instance

end MarchDate

theorem month_days {j : Int} (h : 1 ≤ j) (h' : j ≤ 12) : 2447 * j / 80 = 367 * j / 12 := by
  interval_cases j <;> rfl

theorem marchDate_valid (jdn : Int) : (marchDate jdn).Valid := by
  unfold marchDate
  constructor <;> dsimp only <;> omega

theorem jdn_marchDate (jdn : Int) : (marchDate jdn).jdn = jdn := by
  obtain ⟨_, _, hm, hm'⟩ := marchDate_valid jdn
  have hd := month_days hm hm'
  unfold marchDate at hd ⊢
  unfold MarchDate.jdn
  dsimp only at hd ⊢
  omega

theorem jdn2gregorian_ofInt (hlw : 32 ≤ lw) (h : 0 ≤ jdn) (h' : jdn ≤ 500000000) :
    jdn2gregorian lw (BitVec.ofInt 32 jdn) =
      (BitVec.ofInt 32 (marchDate jdn).civilYear, BitVec.ofInt 32 (marchDate jdn).civilMonth,
        BitVec.ofInt 32 (marchDate jdn).day) := by
  unfold jdn2gregorian MarchDate.civilYear MarchDate.civilMonth marchDate
  have h32 : 32 ≤ 32 := le_refl 32
  simp (disch := omega) only [ofNat_eq_ofInt, ← ofInt_add, ← ofInt_sub, ← ofInt_mul,
    sdiv_ofInt_word hlw, signExtend_ofInt_word h32, signExtend_ofInt_word hlw]

namespace MarchDate

variable {p : MarchDate}

theorem Valid.civilMonth_pos (h : p.Valid) : 1 ≤ p.civilMonth := by
  have hj := h.month_pos
  have hj' := h.month_le
  unfold civilMonth
  omega

theorem Valid.civilMonth_le (h : p.Valid) : p.civilMonth ≤ 12 := by
  have hj := h.month_pos
  have hj' := h.month_le
  unfold civilMonth
  omega

theorem Valid.carry (h : p.Valid) : (p.civilMonth - 14).tdiv 12 = -(p.month / 11) := by
  obtain ⟨n, i, j, d⟩ := p
  obtain ⟨_, _, hj, hj'⟩ := h
  unfold civilMonth
  dsimp only at hj hj' ⊢
  interval_cases j <;> rfl

theorem civilYear_carry :
    p.civilYear + 4800 + -(p.month / 11) = 100 * (p.century - 1) + p.year := by
  unfold civilYear
  omega

theorem civilMonth_carry : p.civilMonth - 2 - 12 * -(p.month / 11) = p.month := by
  unfold civilMonth
  omega

theorem Valid.century_leaps (h : p.Valid) :
    3 * ((p.civilYear + 4900) / 100) / 4 = 3 * p.century / 4 + if p.Slips then 1 else 0 := by
  obtain ⟨hi, hi', hj, hj'⟩ := h
  by_cases hlast : 11 ≤ p.month ∧ p.year = 99
  · have hc : (p.civilYear + 4900) / 100 = p.century + 1 := by
      unfold civilYear
      omega
    by_cases hs : p.century % 4 = 0
    · have hn : ¬ p.Slips := fun h => h.2.2 hs
      rw [hc, if_neg hn]
      omega
    · have hp : p.Slips := ⟨hlast.1, hlast.2, hs⟩
      rw [hc, if_pos hp]
      have hr : p.century % 4 = 1 ∨ p.century % 4 = 2 ∨ p.century % 4 = 3 := by omega
      rcases hr with hr | hr | hr <;> omega
  · have hc : (p.civilYear + 4900) / 100 = p.century := by
      unfold civilYear
      omega
    have hn : ¬ p.Slips := fun h => hlast ⟨h.1, h.2.1⟩
    rw [hc, if_neg hn, add_zero]

end MarchDate

theorem year_days (c y : Int) : 1461 * (100 * c + y) / 4 = 36525 * c + 1461 * y / 4 := by
  omega

theorem gregorian2jdn_ofInt {p : MarchDate} (hp : p.Valid) (hc : 1 ≤ p.century)
    (hc' : p.century ≤ 1000) :
    gregorian2jdn (BitVec.ofInt 32 p.civilYear) (BitVec.ofInt 32 p.civilMonth)
        (BitVec.ofInt 32 p.day) =
      BitVec.ofInt 32 (p.jdn - if p.Slips then 1 else 0) := by
  have h32 : 32 ≤ 32 := le_refl 32
  have hm := hp.civilMonth_pos
  have hm' := hp.civilMonth_le
  have hcarry : (BitVec.ofInt 32 (p.civilMonth - 14)).sdiv (BitVec.ofInt 32 12) =
      BitVec.ofInt 32 (-(p.month / 11)) := by
    rw [← hp.carry]
    exact sdiv_ofInt (by decide) (fits_word h32 (by omega) (by omega))
      (fits_word h32 (by decide) (by decide))
  have hleaps := hp.century_leaps
  have hy : p.civilYear + 4800 + -(p.month / 11) = 100 * (p.century - 1) + p.year :=
    MarchDate.civilYear_carry
  obtain ⟨hi, hi', hj, hj'⟩ := hp
  have hno : p.civilMonth / 14 / 12 = 0 := by omega
  unfold gregorian2jdn
  simp only [ofNat_eq_ofInt, ← ofInt_add, ← ofInt_sub, ← ofInt_mul, hcarry]
  simp (disch := omega) only [← ofInt_add, ← ofInt_sub, ← ofInt_mul,
    sdiv_ofInt_word h32, MarchDate.civilMonth_carry]
  rw [hy, hno, add_zero, hleaps, year_days, MarchDate.jdn]
  congr 1
  omega

end Mdepx.Time
