import Mdepx.Lib.Calendar
import Mdepx.Time.RoundTrip

namespace Mdepx.Time
open Mdepx.Lib

namespace MarchDate

def civil (p : MarchDate) : Date := ⟨p.civilYear, p.civilMonth, p.day⟩

structure Proper (p : MarchDate) : Prop extends Valid p where
  day_pos : 1 ≤ p.day
  day_le : p.day ≤ monthLength p.civilYear p.civilMonth

variable {p : MarchDate}

/-- The last month is February, which has a leap day in each fourth year, and in the last year of a
century only if that is the last of four. -/
def leapDay (p : MarchDate) : Int :=
  if p.year % 4 = 3 ∧ (p.year ≠ 99 ∨ p.century % 4 = 0) then 1 else 0

theorem Valid.leapYear_iff (h : p.Valid) (hm : p.month = 12) :
    LeapYear p.civilYear ↔ p.year % 4 = 3 ∧ (p.year ≠ 99 ∨ p.century % 4 = 0) := by
  obtain ⟨hi, hi', _, _⟩ := h
  unfold LeapYear civilYear
  rw [hm]
  omega

theorem Valid.monthLength_eq (h : p.Valid) :
    monthLength p.civilYear p.civilMonth =
      if p.month = 12 then 28 + p.leapDay
      else 367 * (p.month + 1) / 12 - 367 * p.month / 12 := by
  by_cases hm : p.month = 12
  · have hfeb : p.civilMonth = 2 := by
      unfold civilMonth
      omega
    rw [if_pos hm, monthLength, if_pos hfeb, leapDay]
    simp only [h.leapYear_iff hm]
    split <;> rfl
  · have hj := h.month_pos
    have hj' : p.month ≤ 11 := by
      have hle := h.month_le
      omega
    rw [if_neg hm]
    unfold monthLength civilMonth
    generalize p.month = j at *
    interval_cases j <;> simp

theorem leapDay_eq (p : MarchDate) :
    p.leapDay = 0 ∨ p.leapDay = 1 ∧ p.year % 4 = 3 ∧ (p.year ≠ 99 ∨ p.century % 4 = 0) := by
  unfold leapDay
  split
  · exact .inr ⟨rfl, ‹_›⟩
  · exact .inl rfl

def yearDay (p : MarchDate) : Int := 367 * p.month / 12 + p.day - 31

theorem Proper.yearDay_nonneg (h : p.Proper) : 0 ≤ p.yearDay := by
  have hd := h.day_pos
  have hj := h.month_pos
  unfold yearDay
  omega

theorem Proper.yearDay_le (h : p.Proper) : p.yearDay ≤ 364 + p.leapDay := by
  have hlen := h.day_le
  have hj' := h.month_le
  have hleap := p.leapDay_eq
  rw [h.monthLength_eq] at hlen
  unfold yearDay
  split at hlen <;> omega

theorem jdn_yearDay (p : MarchDate) :
    p.jdn + 68569 = 36525 * p.century - 3 * p.century / 4 + 1461 * p.year / 4 + p.yearDay := by
  unfold MarchDate.jdn yearDay
  omega

theorem Proper.century_eq (h : p.Proper) : 4 * (p.jdn + 68569) / 146097 = p.century := by
  have hi := h.year_nonneg
  have hi' := h.year_le
  have he := h.yearDay_nonneg
  have he' := h.yearDay_le
  have hleap := p.leapDay_eq
  rw [jdn_yearDay]
  omega

theorem century_days (p : MarchDate) :
    p.jdn + 68569 - (146097 * p.century + 3) / 4 = 1461 * p.year / 4 + p.yearDay := by
  rw [jdn_yearDay]
  omega

theorem Proper.year_eq (h : p.Proper) :
    4000 * (1461 * p.year / 4 + p.yearDay + 1) / 1461001 = p.year := by
  have hi := h.year_nonneg
  have hi' := h.year_le
  have he := h.yearDay_nonneg
  have he' := h.yearDay_le
  have hleap := p.leapDay_eq
  omega

theorem year_days_sub (p : MarchDate) :
    1461 * p.year / 4 + p.yearDay - 1461 * p.year / 4 + 31 = 367 * p.month / 12 + p.day := by
  unfold yearDay
  omega

theorem Proper.month_eq (h : p.Proper) : 80 * (367 * p.month / 12 + p.day) / 2447 = p.month := by
  have hlen := h.day_le
  have hd := h.day_pos
  have hj := h.month_pos
  have hj' := h.month_le
  have hleap := p.leapDay_eq
  rw [h.monthLength_eq] at hlen
  split at hlen <;> omega

theorem Proper.marchDate_jdn (h : p.Proper) : marchDate p.jdn = p := by
  have hday : 367 * p.month / 12 + p.day - 2447 * p.month / 80 = p.day := by
    rw [month_days h.month_pos h.month_le]
    omega
  unfold marchDate
  simp only [h.century_eq, century_days, h.year_eq, year_days_sub, h.month_eq, hday]

def succ (p : MarchDate) : MarchDate :=
  if p.day < monthLength p.civilYear p.civilMonth then { p with day := p.day + 1 }
  else if p.month < 12 then { p with month := p.month + 1, day := 1 }
  else if p.year < 99 then { p with year := p.year + 1, month := 1, day := 1 }
  else ⟨p.century + 1, 0, 1, 1⟩

theorem monthLength_pos (year month : Int) : 1 ≤ monthLength year month := by
  unfold monthLength
  split
  · split <;> decide
  · split <;> decide

theorem monthLength_le (year month : Int) : monthLength year month ≤ 31 := by
  unfold monthLength
  split
  · split <;> decide
  · split <;> decide

theorem Proper.succ (h : p.Proper) : p.succ.Proper := by
  obtain ⟨⟨hi, hi', hj, hj'⟩, hd, hlen⟩ := h
  unfold MarchDate.succ
  split
  · exact ⟨⟨hi, hi', hj, hj'⟩, Int.le_add_one hd, ‹_›⟩
  split
  · exact ⟨⟨hi, hi', Int.le_add_one hj, ‹_›⟩, le_refl 1, monthLength_pos _ _⟩
  split
  · have h12 : (1 : Int) ≤ 12 := by decide
    exact ⟨⟨Int.le_add_one hi, ‹_›, le_refl 1, h12⟩, le_refl 1, monthLength_pos _ _⟩
  · have h12 : (1 : Int) ≤ 12 := by decide
    have h99 : (0 : Int) ≤ 99 := by decide
    exact ⟨⟨le_refl 0, h99, le_refl 1, h12⟩, le_refl 1, monthLength_pos _ _⟩

theorem year_days_succ (y : Int) :
    1461 * (y + 1) / 4 = 1461 * y / 4 + 365 + if y % 4 = 3 then 1 else 0 := by
  have hr : y % 4 = 0 ∨ y % 4 = 1 ∨ y % 4 = 2 ∨ y % 4 = 3 := by omega
  rcases hr with hr | hr | hr | hr <;> rw [hr] <;> simp <;> omega

theorem century_days_succ (c : Int) :
    3 * (c + 1) / 4 = 3 * c / 4 + if c % 4 = 0 then 0 else 1 := by
  have hr : c % 4 = 0 ∨ c % 4 = 1 ∨ c % 4 = 2 ∨ c % 4 = 3 := by omega
  rcases hr with hr | hr | hr | hr <;> rw [hr] <;> simp <;> omega

theorem Proper.succ_jdn (h : p.Proper) : p.succ.jdn = p.jdn + 1 := by
  have hlen := h.day_le
  have hlast := h.monthLength_eq
  obtain ⟨hi, hi', hj, hj'⟩ := h.toValid
  unfold MarchDate.succ
  split
  · unfold MarchDate.jdn
    dsimp only
    omega
  split
  · rw [if_neg (by omega)] at hlast
    unfold MarchDate.jdn
    dsimp only
    omega
  have hm : p.month = 12 := by omega
  have hday : p.day = 28 + p.leapDay := by
    rw [if_pos hm] at hlast
    omega
  split
  · have hleap : p.leapDay = if p.year % 4 = 3 then 1 else 0 := by
      unfold leapDay
      split <;> split <;> omega
    unfold MarchDate.jdn
    dsimp only
    rw [year_days_succ, hm, hday, hleap]
    omega
  · have hlasty : p.year = 99 := by omega
    have hleap : p.leapDay = 1 - if p.century % 4 = 0 then 0 else 1 := by
      unfold leapDay
      split <;> split <;> omega
    unfold MarchDate.jdn
    dsimp only
    rw [century_days_succ, hm, hday, hleap, hlasty]
    omega

theorem Proper.succ_civil (h : p.Proper) : p.succ.civil = p.civil.next := by
  obtain ⟨hi, hi', hj, hj'⟩ := h.toValid
  unfold MarchDate.succ Date.next civil
  dsimp only
  split
  · rfl
  split
  · unfold civilYear civilMonth
    dsimp only
    split <;> ext <;> dsimp only <;> omega
  have hm : p.month = 12 := by omega
  split
  · unfold civilYear civilMonth
    dsimp only
    split <;> ext <;> dsimp only <;> omega
  · unfold civilYear civilMonth
    dsimp only
    split <;> ext <;> dsimp only <;> omega

end MarchDate

def epoch : Date := ⟨1970, 1, 1⟩

def momentAt (t : Nat) : Moment := Moment.tick^[t] ⟨epoch, 0, 0, 0⟩

theorem marchDate_iterate (n : Nat) :
    (marchDate (2440588 + n)).Proper ∧ (marchDate (2440588 + n)).civil = Date.next^[n] epoch := by
  induction n with
  | zero => exact ⟨⟨⟨by decide, by decide, by decide, by decide⟩, by decide, by decide⟩, by decide⟩
  | succ n ih =>
    obtain ⟨hproper, hcivil⟩ := ih
    have hnext : marchDate (2440588 + (n + 1 : Nat)) = (marchDate (2440588 + n)).succ := by
      rw [← hproper.succ.marchDate_jdn, hproper.succ_jdn, jdn_marchDate]
      congr 1
    rw [hnext, Function.iterate_succ_apply', ← hcivil]
    exact ⟨hproper.succ, hproper.succ_civil⟩

theorem civilYear_bounds (h : 2440588 ≤ jdn) (h' : jdn ≤ 2490300) :
    0 ≤ (marchDate jdn).civilYear ∧ (marchDate jdn).civilYear ≤ 100000 := by
  obtain ⟨hi, hi', hj, hj'⟩ := marchDate_valid jdn
  have hc : 50 ≤ (marchDate jdn).century ∧ (marchDate jdn).century ≤ 1000 := by
    unfold marchDate
    dsimp only
    omega
  unfold MarchDate.civilYear
  omega

/-- `gmtime_r` gives the date and the time that lie so many seconds after the beginning of 1970, for
a `long` of 32 bits as for a longer one. -/
theorem gmtimeR_gregorian (hw : w = 32 ∨ w = 64) (hlw : 32 ≤ lw) (t : BitVec w)
    (ht : t.toNat < 2 ^ 32) :
    (gmtimeR lw t).tmYear.toInt = (momentAt t.toNat).date.year - 1900 ∧
    (gmtimeR lw t).tmMon.toInt = (momentAt t.toNat).date.month - 1 ∧
    (gmtimeR lw t).tmMday.toInt = (momentAt t.toNat).date.day ∧
    (gmtimeR lw t).tmHour.toInt = (momentAt t.toNat).hour ∧
    (gmtimeR lw t).tmMin.toInt = (momentAt t.toNat).min ∧
    (gmtimeR lw t).tmSec.toInt = (momentAt t.toNat).sec := by
  have hint : ∀ {a : Int}, -2147483648 ≤ a → a < 2147483648 → (BitVec.ofInt 32 a).toInt = a :=
    fun hlo hhi => (fits_word (le_refl 32) hlo hhi).toInt_ofInt (by decide)
  obtain ⟨hproper, hcivil⟩ := marchDate_iterate (t.toNat / 86400)
  have hdays : 2440588 + ((t.toNat / 86400 : Nat) : Int) = t.toNat / 86400 + 2440588 := by omega
  rw [hdays] at hproper hcivil
  have hyear := civilYear_bounds (days_ge t) (days_le t ht)
  have hmon := hproper.civilMonth_pos
  have hmon' := hproper.civilMonth_le
  have hmday := hproper.day_pos
  have hmday' := hproper.day_le.trans (MarchDate.monthLength_le _ _)
  rw [momentAt, Moment.tick_iterate, gmtimeR_ofInt hw hlw t ht]
  dsimp only [Moment.after]
  rw [← hcivil, hint (by omega) (by omega), hint (by omega) (by omega),
    hint (by omega) (by omega), hint (by omega) (by omega), hint (by omega) (by omega),
    hint (by omega) (by omega)]
  exact ⟨rfl, rfl, rfl, rfl, rfl, rfl⟩

theorem gmtimeR_gregorian_leapDay :
    (951825600 : BitVec 32).toNat < 2 ^ 32 ∧
      (gmtimeR 32 (951825600 : BitVec 32)).tmMday.toInt =
        (momentAt (951825600 : BitVec 32).toNat).date.day := by
  have ht : (951825600 : BitVec 32).toNat < 2 ^ 32 := by decide
  have hfields := gmtimeR_gregorian (.inl rfl) (le_refl 32) 951825600 ht
  exact ⟨ht, hfields.2.2.1⟩

/-- 29 February 2000, 12:00:00. -/
example : gmtimeR 32 (951825600 : BitVec 32) = ⟨0, 0, 12, 29, 1, 100⟩ := by decide +kernel

end Mdepx.Time
