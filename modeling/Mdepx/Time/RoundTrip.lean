import Mdepx.Time.Calendar

namespace Mdepx.Time
open Mdepx.Lib BitVec

theorem marchDate_century (h : 2440588 ≤ jdn) (h' : jdn ≤ 2490300) :
    1 ≤ (marchDate jdn).century ∧ (marchDate jdn).century ≤ 1000 := by
  unfold marchDate
  dsimp only
  omega

theorem slips_iff (h : 2440588 ≤ jdn) (h' : jdn ≤ 2490300) :
    (marchDate jdn).Slips ↔ 2488070 ≤ jdn ∧ jdn < 2488129 := by
  unfold MarchDate.Slips marchDate
  dsimp only
  have hn : 4 * (jdn + 68569) / 146097 = 68 ∨ 4 * (jdn + 68569) / 146097 = 69 ∨
      4 * (jdn + 68569) / 146097 = 70 := by
    omega
  rcases hn with hn | hn | hn
  · rw [hn]
    omega
  · rw [hn]
    constructor
    · omega
    · intro hr
      have hi : 4000 * (jdn + 68569 - (146097 * 69 + 3) / 4 + 1) / 1461001 = 99 := by omega
      rw [hi]
      omega
  · rw [hn]
    omega

theorem toNat_fields (hw : w = 32 ∨ w = 64) (t : BitVec w) :
    (t / 86400).toNat = t.toNat / 86400 ∧ (t / 3600 % 24).toNat = t.toNat / 3600 % 24 ∧
      (t / 60 % 60).toNat = t.toNat / 60 % 60 ∧ (t % 60).toNat = t.toNat % 60 := by
  rcases hw with rfl | rfl <;>
  simp only [toNat_udiv, toNat_umod] <;>
  trivial

theorem days_ge (t : BitVec w) : 2440588 ≤ (t.toNat : Int) / 86400 + 2440588 := by
  omega

theorem days_le (t : BitVec w) (ht : t.toNat < 2 ^ 32) :
    (t.toNat : Int) / 86400 + 2440588 ≤ 2490300 := by
  omega

theorem gmtimeR_ofInt (hw : w = 32 ∨ w = 64) (hlw : 32 ≤ lw) (t : BitVec w)
    (ht : t.toNat < 2 ^ 32) :
    gmtimeR lw t =
      let p := marchDate (t.toNat / 86400 + 2440588)
      { tmYear := BitVec.ofInt 32 (p.civilYear - 1900)
        tmMon := BitVec.ofInt 32 (p.civilMonth - 1)
        tmMday := BitVec.ofInt 32 p.day
        tmHour := BitVec.ofInt 32 (t.toNat / 3600 % 24)
        tmMin := BitVec.ofInt 32 (t.toNat / 60 % 60)
        tmSec := BitVec.ofInt 32 (t.toNat % 60) } := by
  obtain ⟨hday, hhour, hmin, hsec⟩ := toNat_fields hw t
  have hdate : jdn2gregorian lw (setWidth 32 (t / 86400) + jdnEpochStart) =
      jdn2gregorian lw (BitVec.ofInt 32 (t.toNat / 86400 + 2440588)) := by
    rw [setWidth_eq_ofInt, hday, ofInt_add]
    rfl
  unfold gmtimeR
  simp only [hdate, jdn2gregorian_ofInt hlw (le_trans (by decide) (days_ge t))
    (le_trans (days_le t ht) (by decide))]
  simp only [setWidth_eq_ofInt, hhour, hmin, hsec, ofInt_sub]
  trivial

theorem mktime_ofInt {p : MarchDate} (hp : p.Valid) (hc : 1 ≤ p.century)
    (hc' : p.century ≤ 1000) (hour min sec : Int) :
    mktime w
      { tmYear := BitVec.ofInt 32 (p.civilYear - 1900)
        tmMon := BitVec.ofInt 32 (p.civilMonth - 1)
        tmMday := BitVec.ofInt 32 p.day
        tmHour := BitVec.ofInt 32 hour
        tmMin := BitVec.ofInt 32 min
        tmSec := BitVec.ofInt 32 sec } =
      (BitVec.ofInt 32 ((((p.jdn - (if p.Slips then 1 else 0) - 2440588) * 24 + hour) * 60 + min) *
        60 + sec)).signExtend w := by
  unfold mktime jdnEpochStart
  simp only [ofNat_eq_ofInt, ← ofInt_add, Int.sub_add_cancel, gregorian2jdn_ofInt hp hc hc',
    ← ofInt_sub, ← ofInt_mul]

theorem mktime_gmtimeR (hw : w = 32 ∨ w = 64) (hlw : 32 ≤ lw) (t : BitVec w)
    (ht : t.toNat < 2 ^ 32) :
    mktime w (gmtimeR lw t) =
      (BitVec.ofInt 32 (t.toNat -
        if 4102444800 ≤ t.toNat ∧ t.toNat < 4107542400 then 86400 else 0)).signExtend w := by
  have hvalid := marchDate_valid (t.toNat / 86400 + 2440588)
  have hc := marchDate_century (days_ge t) (days_le t ht)
  rw [gmtimeR_ofInt hw hlw t ht, mktime_ofInt hvalid hc.1 hc.2, jdn_marchDate]
  congr 2
  have hs := slips_iff (days_ge t) (days_le t ht)
  by_cases hslip : (marchDate (t.toNat / 86400 + 2440588)).Slips
  · have hr := hs.mp hslip
    rw [if_pos hslip, if_pos (by omega)]
    omega
  · have hr := mt hs.mpr hslip
    rw [if_neg hslip, if_neg (by omega)]
    omega

/--
`mktime` undoes `gmtime_r` for every time before 2038; after that only in a `time_t` of 32 bits,
which undoes the overflow of the `int` it is computed in, and not in January and February 2100.
-/
theorem mktime_gmtimeR_iff (hw : w = 32 ∨ w = 64) (hlw : lw = 32 ∨ lw = 64) (t : BitVec w)
    (ht : t.toNat < 2 ^ 32) :
    mktime w (gmtimeR lw t) = t ↔
      t.toNat < 2 ^ 31 ∨ w = 32 ∧ ¬ (4102444800 ≤ t.toNat ∧ t.toNat < 4107542400) := by
  rw [mktime_gmtimeR hw (by omega) t ht]
  rcases hw with rfl | rfl
  · rw [signExtend_eq, ← toNat_inj, toNat_ofInt]
    by_cases hslip : 4102444800 ≤ t.toNat ∧ t.toNat < 4107542400
    · rw [if_pos hslip]
      omega
    · rw [if_neg hslip]
      omega
  · rw [← toInt_inj, toInt_signExtend_of_le (by decide), toInt_ofInt,
      toInt_eq_toNat_of_lt (by omega)]
    by_cases hlow : t.toNat < 2 ^ 31
    · rw [if_neg (by omega), Int.sub_zero, Int.bmod_eq_of_le (by omega) (by omega)]
      omega
    · have hb := Int.bmod_lt (x := t.toNat -
        if 4102444800 ≤ t.toNat ∧ t.toNat < 4107542400 then 86400 else 0) (m := 2 ^ 32) (by decide)
      omega

theorem mktime_gmtimeR_late : mktime 32 (gmtimeR 32 (4294967295 : BitVec 32)) = 4294967295 ∧
    mktime 64 (gmtimeR 32 (2147483647 : BitVec 64)) = 2147483647 :=
  ⟨(mktime_gmtimeR_iff (.inl rfl) (.inl rfl) 4294967295 (by decide)).mpr
      (.inr ⟨rfl, by decide⟩),
    (mktime_gmtimeR_iff (.inr rfl) (.inl rfl) 2147483647 (by decide)).mpr (.inl (by decide))⟩

/--
The first second of 2100 comes back as one of 2099, and the first one past `int` sign-extended.
-/
theorem mktime_loses : mktime 32 (gmtimeR 64 (4102444800 : BitVec 32)) = 4102358400 ∧
    mktime 64 (gmtimeR 64 (2147483648 : BitVec 64)) = 18446744071562067968 := by
  decide +kernel

end Mdepx.Time
