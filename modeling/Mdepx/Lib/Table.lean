import Mathlib.Data.List.Nodup
import Mathlib.Logic.Function.Basic

namespace Mdepx.Lib
open Function List

/-! Dictionaries as lists of entries in the order in which their keys were added. -/

variable [BEq κ] [LawfulBEq κ]

/-- Assigns a value to a key, which goes to the end if it is new. -/
def assign (d : List (κ × β)) (k : κ) (v : β) : List (κ × β) :=
  match d with
  | [] => [(k, v)]
  | e :: d => if e.1 == k then (k, v) :: d else e :: assign d k v

def table (ks : List κ) (f : κ → β) : List (κ × β) :=
  ks.map fun k => (k, f k)

def addKey (ks : List κ) (k : κ) : List κ :=
  if k ∈ ks then ks else ks ++ [k]

omit [BEq κ] [LawfulBEq κ] in
theorem table_congr {f g : κ → β} (h : ∀ k ∈ ks, f k = g k) : table ks f = table ks g := by
  apply map_congr_left
  intro k hk
  rw [h k hk]

theorem lookup_table (ks : List κ) (f : κ → β) (k : κ) :
    (table ks f).lookup k = if k ∈ ks then some (f k) else none := by
  induction ks with
  | nil => rfl
  | cons l ks ih =>
    change lookup k ((l, f l) :: table ks f) = _
    by_cases hl : k = l
    · subst l
      rw [lookup_cons_self, if_pos mem_cons_self]
    · rw [lookup_cons, beq_false_of_ne hl, ih]
      simp [hl]

theorem assign_table [DecidableEq κ] {ks : List κ} {f : κ → β} (hn : ks.Nodup) (k : κ) (v : β) :
    assign (table ks f) k v = table (addKey ks k) (update f k v) := by
  induction ks with
  | nil =>
    change [(k, v)] = [(k, update f k v k)]
    rw [update_self]
  | cons l ks ih =>
    obtain ⟨hl, hn⟩ := nodup_cons.1 hn
    change (if l == k then (k, v) :: table ks f else (l, f l) :: assign (table ks f) k v) = _
    by_cases hlk : l = k
    · subst k
      have htail : table ks (update f l v) = table ks f := by
        apply table_congr
        intro k hk
        have hne : k ≠ l := by
          intro he
          subst he
          exact hl hk
        rw [update_of_ne hne]
      rw [if_pos (beq_self_eq_true l), addKey, if_pos mem_cons_self]
      change _ = (l, update f l v l) :: table ks (update f l v)
      rw [update_self, htail]
    · have hkeys : addKey (l :: ks) k = l :: addKey ks k := by
        have hmem : k ∈ l :: ks ↔ k ∈ ks := by simp [Ne.symm hlk]
        simp only [addKey, hmem]
        split <;> rfl
      rw [beq_false_of_ne hlk, if_neg Bool.false_ne_true, ih hn, hkeys]
      change _ = (l, update f k v l) :: table (addKey ks k) (update f k v)
      rw [update_of_ne hlk]

theorem addKey_nodup {ks : List κ} (hn : ks.Nodup) (k : κ) : (addKey ks k).Nodup := by
  rw [addKey]
  split
  · exact hn
  · rw [← concat_eq_append]
    apply List.Nodup.concat _ hn
    assumption

theorem mem_addKey {ks : List κ} : l ∈ addKey ks k ↔ l ∈ ks ∨ l = k := by
  rw [addKey]
  split
  · constructor
    · exact .inl
    · intro h
      rcases h with h | rfl
      · exact h
      · assumption
  · rw [mem_append, mem_singleton]

theorem addKey_append_filter {ks ls : List κ} (hl : l ∉ ls) :
    addKey ks l ++ ls.filter (· ∉ addKey ks l) = ks ++ (l :: ls).filter (· ∉ ks) := by
  have hrest : ls.filter (· ∉ addKey ks l) = ls.filter (· ∉ ks) := by
    apply filter_congr
    intro k hk
    have hne : k ≠ l := fun he => hl (he ▸ hk)
    simp [mem_addKey, hne]
  rw [hrest, addKey]
  by_cases h : l ∈ ks
  · rw [if_pos h, filter_cons_of_neg (by simpa using h)]
  · rw [if_neg h, filter_cons_of_pos (by simpa using h), append_assoc]
    rfl

section
variable (d : List (κ × β))

theorem lookup_assign (k : κ) (v : β) : (assign d k v).lookup k = some v := by
  induction d with
  | nil => exact lookup_cons_self
  | cons e d ih =>
    rw [assign]
    split
    · exact lookup_cons_self
    · rename_i he
      rw [lookup_cons, BEq.comm, Bool.eq_false_iff.2 he]
      exact ih

theorem assign_assign (k : κ) (u v : β) : assign (assign d k u) k v = assign d k v := by
  induction d with
  | nil => rw [assign, assign, assign, if_pos (beq_self_eq_true k)]
  | cons e d ih =>
    rw [assign, assign]
    split
    · rw [assign, if_pos (beq_self_eq_true k)]
    · rename_i he
      rw [assign, if_neg he, ih]

theorem lookup_assign_of_ne (h : l ≠ k) (v : β) : (assign d k v).lookup l = d.lookup l := by
  induction d with
  | nil => rw [assign, lookup_cons, beq_false_of_ne h]
  | cons e d ih =>
    rw [assign]
    split
    · rename_i he
      rw [lookup_cons, lookup_cons, beq_false_of_ne h, eq_of_beq he, beq_false_of_ne h]
    · rw [lookup_cons, lookup_cons, ih]

end

theorem assign_of_lookup {d : List (κ × β)} (h : d.lookup k = some v) : assign d k v = d := by
  induction d with
  | nil => cases h
  | cons e d ih =>
    obtain ⟨l, u⟩ := e
    rw [lookup_cons] at h
    by_cases hl : k = l
    · subst l
      rw [beq_self_eq_true] at h
      cases h
      rw [assign, if_pos (beq_self_eq_true k)]
    · rw [beq_false_of_ne hl] at h
      rw [assign, beq_false_of_ne (Ne.symm hl), ih h]
      rfl

theorem assign_of_absent {d : List (κ × β)} (h : k ∉ d.map Prod.fst) (v : β) :
    assign d k v = d ++ [(k, v)] := by
  induction d with
  | nil => rfl
  | cons e d ih =>
    rw [map_cons, mem_cons, not_or] at h
    rw [assign, beq_false_of_ne (Ne.symm h.1), ih h.2]
    rfl

theorem map_fst_assign (d : List (κ × β)) (k : κ) (v : β) :
    (assign d k v).map Prod.fst = addKey (d.map Prod.fst) k := by
  induction d with
  | nil => rfl
  | cons e d ih =>
    rw [assign]
    split
    · rename_i he
      rw [map_cons, map_cons, eq_of_beq he, addKey, if_pos mem_cons_self]
    · rename_i he
      have hne : k ≠ e.1 := fun h => he (h ▸ beq_self_eq_true k)
      rw [map_cons, map_cons, ih, addKey, addKey]
      simp only [mem_cons, hne, false_or]
      split <;> rfl

section
variable {d : List (κ × β)}

theorem lookup_filter {q : κ → Bool} (h : q k = true) :
    (d.filter fun e => q e.1).lookup k = d.lookup k := by
  induction d with
  | nil => rfl
  | cons e d ih =>
    by_cases hk : k = e.1
    · have hq : q e.1 = true := hk ▸ h
      rw [filter_cons, if_pos hq, lookup_cons, lookup_cons, hk, beq_self_eq_true]
    · rw [lookup_cons, beq_false_of_ne hk, ← ih, filter_cons]
      split
      · rw [lookup_cons, beq_false_of_ne hk]
      · rfl

theorem lookup_of_mem (hn : (d.map Prod.fst).Nodup) (h : (k, v) ∈ d) : d.lookup k = some v := by
  obtain ⟨l, m, rfl⟩ := append_of_mem h
  refine lookup_eq_some_iff.2 ⟨l, m, rfl, fun e he => bne_iff_ne.2 fun hk => ?_⟩
  rw [map_append, nodup_append] at hn
  exact hn.2.2 e.1 (mem_map_of_mem he) k mem_cons_self hk.symm

end

theorem eraseDups_filter (q : κ → Bool) (l : List κ) :
    (l.filter q).eraseDups = l.eraseDups.filter q := by
  induction hn : l.length using Nat.strongRecOn generalizing l with
  | ind n ih =>
    cases l with
    | nil => rfl
    | cons a l =>
      have hlt : (l.filter fun b => !b == a).length < n := by
        rw [← hn]
        exact Nat.lt_succ_of_le (length_filter_le _ l)
      have hcomm : (l.filter fun b => !b == a).filter q = (l.filter q).filter fun b => !b == a := by
        rw [filter_filter, filter_filter]
        simp only [Bool.and_comm]
      rw [eraseDups_cons, filter_cons, filter_cons, ← ih _ hlt _ rfl, hcomm]
      split
      · rw [eraseDups_cons]
      · rename_i ha
        congr 1
        rw [eq_comm, filter_eq_self]
        intro b hb
        have hqb : q b = true := (mem_filter.1 hb).2
        have hne : b ≠ a := fun he => ha (he ▸ hqb)
        simp [hne]

theorem eraseDups_nodup (l : List κ) : l.eraseDups.Nodup := by
  induction l with
  | nil => exact nodup_nil
  | cons a l ih =>
    rw [eraseDups_cons, eraseDups_filter, nodup_cons]
    refine ⟨?_, ih.filter _⟩
    intro ha
    simp at ha

theorem eraseDups_append_eq (l m : List κ) :
    (l ++ m).eraseDups = l.eraseDups ++ m.eraseDups.filter (· ∉ l.eraseDups) := by
  rw [eraseDups_append, removeAll, eraseDups_filter]
  congr 1
  apply filter_congr
  intro k hk
  simp

theorem eraseDups_concat (l : List κ) (k : κ) :
    (l ++ [k]).eraseDups = addKey l.eraseDups k := by
  have hone : [k].eraseDups = [k] := rfl
  rw [eraseDups_append_eq, addKey, hone]
  by_cases hk : k ∈ l.eraseDups
  · rw [if_pos hk, filter_cons_of_neg (by simpa using hk), filter_nil, append_nil]
  · rw [if_neg hk, filter_cons_of_pos (by simpa using hk), filter_nil]

end Mdepx.Lib
