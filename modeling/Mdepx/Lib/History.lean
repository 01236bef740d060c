import Mathlib.Data.List.Basic

namespace Mdepx.Lib

/-- A log, newest entry first, each entry of which met a condition on the entries before it. -/
inductive Grown (ok : ε → List ε → Prop) : List ε → Prop where
  | nil : Grown ok []
  | cons : ok e log → Grown ok log → Grown ok (e :: log)

theorem Grown.imp (h : Grown ok log) (hok : ∀ e ∈ log, ∀ l, ok e l → ok' e l) :
    Grown ok' log := by
  induction h with
  | nil => exact .nil
  | cons he _ ih =>
    apply Grown.cons
    · exact hok _ List.mem_cons_self _ he
    · exact ih fun e hm l => hok e (List.mem_cons_of_mem _ hm) l

theorem Grown.tail (h : Grown ok (l ++ e :: log)) : Grown ok log := by
  induction l with
  | nil =>
    cases h with
    | cons _ h => exact h
  | cons a l ih =>
    cases h with
    | cons _ h => exact ih h

theorem Grown.past (h : Grown ok (l ++ e :: log)) : ok e log := by
  induction l with
  | nil =>
    cases h with
    | cons he => exact he
  | cons a l ih =>
    cases h with
    | cons _ h => exact ih h

end Mdepx.Lib
