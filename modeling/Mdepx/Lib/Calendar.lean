import Mathlib.Logic.Function.Iterate

namespace Mdepx.Lib

/-! The Gregorian calendar and the time of day, by counting on. -/

/-- Every fourth year is a leap year, but of the centuries only every fourth. -/
def LeapYear (year : Int) : Prop := year % 4 = 0 ∧ (year % 100 ≠ 0 ∨ year % 400 = 0)

instance (year : Int) : Decidable (LeapYear year) := inferInstanceAs (Decidable (_ ∧ _))

def monthLength (year month : Int) : Int :=
  if month = 2 then if LeapYear year then 29 else 28
  else if month = 4 ∨ month = 6 ∨ month = 9 ∨ month = 11 then 30
  else 31

@[ext]
structure Date where
  year : Int
  month : Int
  day : Int
deriving DecidableEq

def Date.next (d : Date) : Date :=
  if d.day < monthLength d.year d.month then { d with day := d.day + 1 }
  else if d.month < 12 then ⟨d.year, d.month + 1, 1⟩
  else ⟨d.year + 1, 1, 1⟩

@[ext]
structure Moment where
  date : Date
  hour : Nat
  min : Nat
  sec : Nat
deriving DecidableEq

def Moment.tick (m : Moment) : Moment :=
  if m.sec < 59 then { m with sec := m.sec + 1 }
  else if m.min < 59 then { m with min := m.min + 1, sec := 0 }
  else if m.hour < 23 then { m with hour := m.hour + 1, min := 0, sec := 0 }
  else ⟨m.date.next, 0, 0, 0⟩

def Moment.after (d : Date) (t : Nat) : Moment :=
  ⟨Date.next^[t / 86400] d, t / 3600 % 24, t / 60 % 60, t % 60⟩

theorem Moment.tick_after (d : Date) (t : Nat) :
    (Moment.after d t).tick = Moment.after d (t + 1) := by
  have hsame : ¬(59 ≤ t % 60 ∧ 59 ≤ t / 60 % 60 ∧ 23 ≤ t / 3600 % 24) →
      (t + 1) / 86400 = t / 86400 := by
    omega
  unfold Moment.tick Moment.after
  dsimp only
  split
  · rw [hsame (by omega)]
    ext <;> dsimp only <;> omega
  split
  · rw [hsame (by omega)]
    ext <;> dsimp only <;> omega
  split
  · rw [hsame (by omega)]
    ext <;> dsimp only <;> omega
  · have hday : (t + 1) / 86400 = t / 86400 + 1 := by omega
    rw [hday, Function.iterate_succ_apply']
    ext <;> dsimp only <;> omega

theorem Moment.tick_iterate (d : Date) (t : Nat) :
    Moment.tick^[t] ⟨d, 0, 0, 0⟩ = Moment.after d t := by
  induction t with
  | zero => rfl
  | succ t ih => rw [Function.iterate_succ_apply', ih, Moment.tick_after]

end Mdepx.Lib
