import Mathlib.Data.List.Nodup

namespace Mdepx.Lib
open List

/-! Queues with priorities, as the list of those who wait in the order of their arrival. -/

variable {α : Type} {prio prio' : α → Nat} {ws : List α} {a b : α}

structure Foremost (prio : α → Nat) (ws : List α) (a : α) : Prop where
  first : ∃ as bs, ws = as ++ a :: bs ∧ ∀ b ∈ as, prio b < prio a
  top : ∀ b ∈ ws, prio b ≤ prio a

theorem Foremost.mem (h : Foremost prio ws a) : a ∈ ws := by
  obtain ⟨as, bs, rfl, -⟩ := h.first
  exact mem_append_right as mem_cons_self

structure Ahead (ws : List α) (a b : α) : Prop where
  mem : a ∈ ws
  sublist : b ∈ ws → [a, b].Sublist ws

theorem Ahead.append (h : Ahead ws a b) (x : α) : Ahead (ws ++ [x]) a b := by
  refine ⟨mem_append_left _ h.mem, fun hb => ?_⟩
  rcases mem_append.1 hb with hb | hb
  · exact (h.sublist hb).trans (sublist_append_left ws [x])
  · rw [mem_singleton.1 hb]
    exact (singleton_sublist.2 h.mem).append (List.Sublist.refl [x])

theorem Ahead.erase [DecidableEq α] (h : Ahead ws a b) (hnodup : ws.Nodup) (hx : x ≠ a) :
    Ahead (ws.erase x) a b := by
  refine ⟨(mem_erase_of_ne hx.symm).2 h.mem, fun hb => ?_⟩
  have hxb : x ≠ b := by
    rintro rfl
    exact hnodup.not_mem_erase hb
  have hrest : x ∉ [a, b] := by
    simp only [mem_cons, not_mem_nil, or_false, not_or]
    exact ⟨hx, hxb⟩
  have hsub := (h.sublist (mem_of_mem_erase hb)).erase x
  rwa [erase_of_not_mem hrest] at hsub

theorem ahead_of_taken [DecidableEq α] (hnodup : ws.Nodup) (ha : a ∈ ws) (hab : a ≠ b) :
    Ahead (ws.erase b) a b :=
  ⟨(mem_erase_of_ne hab).2 ha, fun hb => absurd hb hnodup.not_mem_erase⟩

theorem Foremost.not_ahead (h : Foremost prio ws b) (hnodup : ws.Nodup) (hprio : prio a = prio b) :
    ¬Ahead ws a b := by
  intro hahead
  obtain ⟨as, bs, rfl, has⟩ := h.first
  obtain ⟨-, htail, hdisj⟩ := nodup_append.1 hnodup
  have hsub := hahead.sublist (mem_append_right as mem_cons_self)
  obtain ⟨l, r, hl, hlas, hrbs⟩ := sublist_append_iff.1 hsub
  cases l with
  | nil =>
    rw [nil_append] at hl
    subst hl
    have hb : b ∈ bs := by
      cases hrbs with
      | cons _ hbs => exact hbs.subset (mem_cons_of_mem a mem_cons_self)
      | cons_cons _ hbs => exact hbs.subset mem_cons_self
    exact (nodup_cons.1 htail).1 hb
  | cons =>
    rw [cons_append] at hl
    cases (List.cons.inj hl).1
    exact Nat.ne_of_lt (has a (hlas.subset mem_cons_self)) hprio

def level (prio : α → Nat) (ws : List α) (p : Nat) : List α := ws.filter fun a => prio a = p

theorem level_congr (h : ∀ a ∈ ws, prio' a = prio a) (p : Nat) :
    level prio' ws p = level prio ws p := by
  apply filter_congr
  intro a ha
  rw [h a ha]

theorem level_append (prio : α → Nat) (ws : List α) (a : α) (p : Nat) :
    level prio (ws ++ [a]) p = if p = prio a then level prio ws p ++ [a] else level prio ws p := by
  rw [level, filter_append, filter_singleton]
  by_cases hp : p = prio a
  · rw [if_pos hp, hp]
    simp [level]
  · rw [if_neg hp]
    simp [level, Ne.symm hp]

theorem level_erase [DecidableEq α] (hnodup : ws.Nodup) (a : α) (p : Nat) :
    level prio (ws.erase a) p = (level prio ws p).erase a := by
  rw [level, level, hnodup.erase_eq_filter, (hnodup.filter _).erase_eq_filter, filter_comm]

theorem foremost_of_level (h : level prio ws p = a :: as) (htop : ∀ b ∈ ws, prio b ≤ p) :
    Foremost prio ws a := by
  obtain ⟨l, r, rfl, hl, ha, -⟩ := filter_eq_cons_iff.1 h
  have hp : prio a = p := of_decide_eq_true ha
  refine ⟨⟨l, r, rfl, fun b hb => ?_⟩, fun b hb => hp ▸ htop b hb⟩
  have hne : prio b ≠ p := fun he => hl b hb (decide_eq_true he)
  rw [hp]
  exact Nat.lt_of_le_of_ne (htop b (mem_append_left _ hb)) hne

end Mdepx.Lib
