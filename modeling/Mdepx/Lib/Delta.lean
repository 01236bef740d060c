import Mathlib.Data.List.Nodup
import Mathlib.Data.List.TakeWhile
import Mathlib.Order.Basic

namespace Mdepx.Lib.Delta
open List

/-! Queues of deadlines in which every entry stores only its distance from the one before. -/

def deadlines (t : Nat) : List (α × Nat) → List (α × Nat)
  | [] => []
  | (x, d) :: ds => (x, t + d) :: deadlines (t + d) ds

def insert (c : α) : Nat → List (α × Nat) → List (α × Nat)
  | n, [] => [(c, n)]
  | n, (x, d) :: ds =>
    if n < d then (c, n) :: (x, d - n) :: ds else (x, d) :: insert c (n - d) ds

def postpone (n : Nat) : List (α × Nat) → List (α × Nat)
  | [] => []
  | (x, d) :: ds => (x, d + n) :: ds

def remove [DecidableEq α] (c : α) : List (α × Nat) → List (α × Nat)
  | [] => []
  | (x, d) :: ds => if x = c then postpone d ds else (x, d) :: remove c ds

def due : Nat → List (α × Nat) → List α
  | _, [] => []
  | e, (x, d) :: ds => if d ≤ e then x :: due (e - d) ds else []

def rest : Nat → List (α × Nat) → List (α × Nat)
  | _, [] => []
  | e, (x, d) :: ds => if d ≤ e then rest (e - d) ds else (x, d - e) :: ds

def total : List (α × Nat) → Nat
  | [] => 0
  | (_, d) :: ds => d + total ds

@[simp] theorem total_append (xs ys : List (α × Nat)) :
    total (xs ++ ys) = total xs + total ys := by
  induction xs with
  | nil => simp [total]
  | cons p xs ih => rw [cons_append, total, total, ih, Nat.add_assoc]

@[simp] theorem deadlines_fst (t : Nat) (ds : List (α × Nat)) :
    (deadlines t ds).map Prod.fst = ds.map Prod.fst := by
  induction ds generalizing t with
  | nil => rfl
  | cons p ds ih => simp only [deadlines, map_cons, ih]

theorem deadlines_append (t : Nat) (xs ys : List (α × Nat)) :
    deadlines t (xs ++ ys) =
      deadlines t xs ++ deadlines (t + total xs) ys := by
  induction xs generalizing t with
  | nil => rfl
  | cons p xs ih => simp only [cons_append, deadlines, ih, total, Nat.add_assoc]

theorem le_of_mem_deadlines (h : p ∈ deadlines t ds) : t ≤ p.2 := by
  induction ds generalizing t with
  | nil => cases h
  | cons q ds ih =>
    rcases mem_cons.1 h with h | h
    · rw [h]
      exact Nat.le_add_right _ _
    · exact le_trans (Nat.le_add_right _ _) (ih h)

theorem deadlines_sorted (t : Nat) (ds : List (α × Nat)) :
    (deadlines t ds).Pairwise (fun p q => p.2 ≤ q.2) := by
  induction ds generalizing t with
  | nil => exact .nil
  | cons p ds ih => exact .cons (fun q hq => le_of_mem_deadlines hq) (ih _)

theorem insert_fst_perm (c : α) (n : Nat) (ds : List (α × Nat)) :
    ((insert c n ds).map Prod.fst).Perm (c :: ds.map Prod.fst) := by
  induction ds generalizing n with
  | nil => exact .refl _
  | cons p ds ih =>
    simp only [insert]
    split
    · exact .refl _
    · exact ((ih _).cons _).trans (.swap _ _ _)

theorem deadlines_insert (c : α) (t n : Nat) (ds : List (α × Nat)) :
    deadlines t (insert c n ds) =
      (deadlines t ds).takeWhile (fun p => p.2 ≤ t + n) ++ (c, t + n) ::
        (deadlines t ds).dropWhile (fun p => p.2 ≤ t + n) := by
  induction ds generalizing t n with
  | nil => rfl
  | cons p ds ih =>
    obtain ⟨x, d⟩ := p
    simp only [insert]
    split
    · rename_i h
      have h1 : t + n + (d - n) = t + d := by omega
      simp only [deadlines, h1, takeWhile_cons, dropWhile_cons,
        Nat.add_le_add_iff_left, decide_eq_true_eq, if_neg (Nat.not_le.2 h), nil_append]
    · rename_i h
      have h1 : t + d + (n - d) = t + n := by omega
      simp only [deadlines, ih, h1, takeWhile_cons, dropWhile_cons,
        Nat.add_le_add_iff_left, decide_eq_true_eq, if_pos (Nat.not_lt.1 h), cons_append]

theorem deadlines_postpone (t n : Nat) (ds : List (α × Nat)) :
    deadlines t (postpone n ds) = deadlines (t + n) ds := by
  cases ds with
  | nil => rfl
  | cons p =>
    have h : t + (p.2 + n) = t + n + p.2 := by omega
    simp only [postpone, deadlines, h]

section
variable [DecidableEq α]

theorem remove_fst (c : α) (ds : List (α × Nat)) :
    (remove c ds).map Prod.fst = (ds.map Prod.fst).erase c := by
  induction ds with
  | nil => rfl
  | cons p ds ih =>
    simp only [remove, map_cons, erase_cons, beq_iff_eq]
    split
    · cases ds <;> rfl
    · rw [map_cons, ih]

theorem deadlines_remove (c : α) (t : Nat) (ds : List (α × Nat)) :
    deadlines t (remove c ds) = (deadlines t ds).eraseP (fun p => p.1 = c) := by
  induction ds generalizing t with
  | nil => rfl
  | cons p ds ih =>
    simp only [remove]
    split
    · rename_i h
      rw [deadlines_postpone, deadlines, eraseP_cons_of_pos (by simpa using h)]
    · rename_i h
      rw [deadlines, deadlines, eraseP_cons_of_neg (by simpa using h), ih]

theorem deadlines_remove_filter (c : α) (t : Nat) (ds : List (α × Nat))
    (h : (ds.map Prod.fst).Nodup) :
    deadlines t (remove c ds) = (deadlines t ds).filter (fun p => p.1 ≠ c) := by
  have herase {q : List (α × Nat)} (hq : (q.map Prod.fst).Nodup) :
      q.eraseP (fun p => p.1 = c) = q.filter (fun p => p.1 ≠ c) := by
    induction q with
    | nil => rfl
    | cons p q ih =>
      obtain ⟨hp, hq⟩ := nodup_cons.1 hq
      by_cases hc : p.1 = c
      · have hall : ∀ r ∈ q, decide (r.1 ≠ c) = true := by
          intro r hr
          simp only [decide_eq_true_eq]
          intro he
          exact hp (mem_map.2 ⟨r, hr, he.trans hc.symm⟩)
        rw [eraseP_cons_of_pos (by simpa using hc),
          filter_cons_of_neg (by simpa using hc), filter_eq_self.2 hall]
      · rw [eraseP_cons_of_neg (by simpa using hc),
          filter_cons_of_pos (by simpa using hc), ih hq]
  rw [deadlines_remove]
  apply herase
  rw [deadlines_fst]
  exact h

theorem remove_of_notMem {c : α} {ds : List (α × Nat)} (hc : c ∉ ds.map Prod.fst) :
    remove c ds = ds := by
  induction ds with
  | nil => rfl
  | cons p ds ih =>
    simp only [map_cons, mem_cons, not_or] at hc
    rw [remove, if_neg (Ne.symm hc.1), ih hc.2]

theorem length_remove_le (c : α) (ds : List (α × Nat)) : (remove c ds).length ≤ ds.length := by
  have hl := congrArg List.length (remove_fst c ds)
  rw [length_map] at hl
  have hle := (ds.map Prod.fst).length_erase_le (a := c)
  rw [length_map] at hle
  exact hl ▸ hle

theorem remove_insert (c : α) (n : Nat) (ds : List (α × Nat)) (hc : c ∉ ds.map Prod.fst) :
    remove c (insert c n ds) = ds := by
  induction ds generalizing n with
  | nil => simp only [insert, remove, if_true, postpone]
  | cons p ds ih =>
    obtain ⟨x, d⟩ := p
    simp only [map_cons, mem_cons, not_or] at hc
    simp only [insert]
    split
    · rename_i h
      have h1 : d - n + n = d := by omega
      simp only [remove, if_true, postpone, h1]
    · simp only [remove, if_neg (Ne.symm hc.1), ih _ hc.2]

end

theorem due_eq_takeWhile (t e : Nat) (ds : List (α × Nat)) :
    due e ds = ((deadlines t ds).takeWhile (fun p => p.2 ≤ t + e)).map Prod.fst := by
  induction ds generalizing t e with
  | nil => rfl
  | cons p ds ih =>
    obtain ⟨x, d⟩ := p
    simp only [due, deadlines, takeWhile_cons, Nat.add_le_add_iff_left,
      decide_eq_true_eq]
    split
    · rename_i h
      have h1 : t + d + (e - d) = t + e := by omega
      rw [map_cons, ih (t + d), h1]
    · rfl

theorem deadlines_shift (h : k ≤ t) (ds : List (α × Nat)) :
    deadlines (t - k) ds = (deadlines t ds).map (fun p => (p.1, p.2 - k)) := by
  induction ds generalizing t with
  | nil => rfl
  | cons p ds ih =>
    have h1 : t - k + p.2 = t + p.2 - k := by omega
    rw [deadlines, deadlines, map_cons, h1, ih (by omega)]

theorem deadlines_rest (t e : Nat) (ds : List (α × Nat)) :
    deadlines 0 (rest e ds) =
      ((deadlines t ds).dropWhile (fun p => p.2 ≤ t + e)).map
        (fun p => (p.1, p.2 - (t + e))) := by
  induction ds generalizing t e with
  | nil => rfl
  | cons p ds ih =>
    obtain ⟨x, d⟩ := p
    simp only [rest, deadlines, dropWhile_cons, Nat.add_le_add_iff_left,
      decide_eq_true_eq]
    split
    · rename_i h
      have h1 : t + d + (e - d) = t + e := by omega
      rw [ih (t + d), h1]
    · rename_i h
      have h1 : 0 + (d - e) = t + d - (t + e) := by omega
      rw [deadlines, map_cons, h1, deadlines_shift (by omega)]

theorem mem_deadlines_shift (h : k ≤ t) (hp : p ∈ deadlines (t - k) ds) :
    (p.1, p.2 + k) ∈ deadlines t ds := by
  rw [deadlines_shift h] at hp
  obtain ⟨q, hq, he⟩ := mem_map.1 hp
  have hle : k ≤ q.2 := le_trans h (le_of_mem_deadlines hq)
  have h2 : p.2 + k = q.2 := by
    rw [← he]
    exact Nat.sub_add_cancel hle
  rw [h2, ← he]
  exact hq

theorem mem_deadlines_nearer (h : k ≤ d) (hp : p ∈ deadlines t ((c, d - k) :: ds)) :
    (p.1, p.2 + k) ∈ deadlines t ((c, d) :: ds) := by
  have he : t + (d - k) = t + d - k := by omega
  rw [deadlines, he] at hp
  rw [deadlines]
  rcases mem_cons.1 hp with hp | hp
  · rw [hp]
    dsimp only
    rw [Nat.sub_add_cancel (by omega)]
    exact mem_cons_self
  · exact mem_cons_of_mem _ (mem_deadlines_shift (by omega) hp)

theorem insert_append_lt (c : α) (xs ys : List (α × Nat)) (h : n < total xs) :
    insert c n (xs ++ ys) = insert c n xs ++ ys := by
  induction xs generalizing n with
  | nil => cases h
  | cons p xs ih =>
    obtain ⟨x, d⟩ := p
    simp only [total] at h
    simp only [cons_append, insert]
    split
    · rfl
    · rw [ih (by omega), cons_append]

theorem insert_append_ge (c : α) (xs ys : List (α × Nat)) (h : total xs ≤ n) :
    insert c n (xs ++ ys) = xs ++ insert c (n - total xs) ys := by
  induction xs generalizing n with
  | nil => rfl
  | cons p xs ih =>
    obtain ⟨x, d⟩ := p
    simp only [total] at h ⊢
    have hd : ¬n < d := by omega
    rw [cons_append, insert, if_neg hd, ih (by omega), Nat.sub_sub, cons_append]

theorem total_insert (c : α) (n : Nat) (ds : List (α × Nat)) :
    total (insert c n ds) = max n (total ds) := by
  induction ds generalizing n with
  | nil => simp [insert, total]
  | cons p ds ih =>
    obtain ⟨x, d⟩ := p
    simp only [insert]
    split
    · simp only [total]
      omega
    · simp only [total, ih]
      omega

theorem takeWhile_of_sorted {q : List (α × Nat)} (h : q.Pairwise fun p r => p.2 ≤ r.2)
    (b : Nat) :
    q.takeWhile (fun p => p.2 ≤ b) = q.filter (fun p => p.2 ≤ b) := by
  induction h with
  | nil => rfl
  | @cons p q hp hq ih =>
    by_cases hb : p.2 ≤ b
    · simp only [takeWhile_cons, filter_cons, decide_eq_true_eq, hb, if_true, ih]
    · have hall : ∀ r ∈ q, ¬decide (r.2 ≤ b) = true := by
        intro r hr
        have hle := hp r hr
        simp only [decide_eq_true_eq]
        omega
      simp only [takeWhile_cons, filter_cons, decide_eq_true_eq, hb, if_false,
        filter_eq_nil_iff.2 hall]

theorem dropWhile_of_sorted {q : List (α × Nat)} (h : q.Pairwise fun p r => p.2 ≤ r.2)
    (b : Nat) :
    q.dropWhile (fun p => p.2 ≤ b) = q.filter (fun p => b < p.2) := by
  induction h with
  | nil => rfl
  | @cons p q hp hq ih =>
    by_cases hb : p.2 ≤ b
    · simp only [dropWhile_cons, filter_cons, decide_eq_true_eq, hb, if_true, ih,
        Nat.not_lt.2 hb, if_false]
    · have hall : ∀ r ∈ q, decide (b < r.2) = true := by
        intro r hr
        have hle := hp r hr
        simp only [decide_eq_true_eq]
        omega
      simp only [dropWhile_cons, filter_cons, decide_eq_true_eq, hb, if_false,
        Nat.lt_of_not_le hb, if_true, filter_eq_self.2 hall]

theorem deadlines_insert_filter (c : α) (t n : Nat) (ds : List (α × Nat)) :
    deadlines t (insert c n ds) =
      (deadlines t ds).filter (fun p => p.2 ≤ t + n) ++ (c, t + n) ::
        (deadlines t ds).filter (fun p => t + n < p.2) := by
  rw [deadlines_insert, takeWhile_of_sorted (deadlines_sorted t ds),
    dropWhile_of_sorted (deadlines_sorted t ds)]

theorem due_eq_filter (e : Nat) (ds : List (α × Nat)) :
    due e ds = ((deadlines 0 ds).filter (fun p => p.2 ≤ e)).map Prod.fst := by
  rw [due_eq_takeWhile 0, Nat.zero_add, takeWhile_of_sorted (deadlines_sorted 0 ds)]

theorem deadlines_rest_filter (e : Nat) (ds : List (α × Nat)) :
    deadlines 0 (rest e ds) =
      ((deadlines 0 ds).filter (fun p => e < p.2)).map (fun p => (p.1, p.2 - e)) := by
  rw [deadlines_rest 0, Nat.zero_add, dropWhile_of_sorted (deadlines_sorted 0 ds)]

end Mdepx.Lib.Delta
