import Mathlib.Data.List.DropRight

namespace Mdepx.Lib
open List

variable {p : α → Bool}

/-- The list without the elements with the property `p` at its ends. -/
def strip (p : α → Bool) (s : List α) : List α :=
  (s.dropWhile p).rdropWhile p

/-- The runs of elements between those with the property `p`. -/
def words (p : α → Bool) (s : List α) : List (List α) :=
  (s.splitOnP p).filter (!·.isEmpty)

theorem rdropWhile_append_of_all {r : List α} (s : List α) (hr : ∀ c ∈ r, p c = true) :
    (s ++ r).rdropWhile p = s.rdropWhile p := by
  induction r using reverseRecOn with
  | nil => rw [append_nil]
  | append_singleton r c ih =>
    rw [← append_assoc, rdropWhile_concat_pos _ _ _ (hr c (by simp))]
    exact ih fun c hc => hr c (mem_append_left _ hc)

theorem strip_eq_nil_iff : strip p s = [] ↔ ∀ c ∈ s, p c = true := by
  rw [strip, rdropWhile_eq_nil_iff]
  constructor
  · intro h
    rw [← dropWhile_eq_nil_iff]
    by_contra hs
    have hc := h _ (head_mem hs)
    rw [head_dropWhile_not p hs] at hc
    exact Bool.false_ne_true hc
  · intro h c hc
    exact h c ((dropWhile_sublist p).subset hc)

theorem strip_between {l m r : List α} (hl : ∀ c ∈ l, p c = true) (hr : ∀ c ∈ r, p c = true)
    (hhead : ∀ c, m.head? = some c → p c = false)
    (hlast : ∀ c, m.getLast? = some c → p c = false) : strip p (l ++ m ++ r) = m := by
  rw [strip, append_assoc, dropWhile_append_of_pos hl]
  cases m with
  | nil =>
    rw [nil_append, dropWhile_eq_nil_iff.2 hr, rdropWhile_nil]
  | cons c =>
    have hc : ¬ p c = true := Bool.eq_false_iff.1 (hhead c rfl)
    rw [cons_append, dropWhile_cons_of_neg hc, ← cons_append,
      rdropWhile_append_of_all _ hr, rdropWhile_eq_self_iff]
    intro hne
    exact Bool.eq_false_iff.1 (hlast _ (getLast?_eq_some_getLast hne))

theorem exists_strip (p : α → Bool) (s : List α) :
    ∃ l r, (∀ c ∈ l, p c = true) ∧ (∀ c ∈ r, p c = true) ∧ s = l ++ strip p s ++ r := by
  refine ⟨s.takeWhile p, (s.dropWhile p).rtakeWhile p, fun c hc => mem_takeWhile_imp hc,
    fun c hc => mem_rtakeWhile_imp hc, ?_⟩
  rw [strip, append_assoc, rdropWhile_append_rtakeWhile, takeWhile_append_dropWhile]

theorem exists_strip_cons {l : List α} (s : List α) (hl : ∀ c ∈ l, p c = true) (hc : p c = false) :
    ∃ m, strip p (l ++ c :: s) = c :: m := by
  have hc' : ¬ p c = true := Bool.eq_false_iff.1 hc
  rw [strip, dropWhile_append_of_pos hl, dropWhile_cons_of_neg hc']
  cases hm : (c :: s).rdropWhile p with
  | nil => exact absurd (rdropWhile_eq_nil_iff.1 hm c mem_cons_self) hc'
  | cons b m =>
    have hb := rdropWhile_prefix p (l := c :: s)
    rw [hm, cons_prefix_cons] at hb
    exact ⟨m, by rw [hb.1]⟩

theorem strip_head {m : List α} (h : strip p s = c :: m) : p c = false := by
  have hpre := rdropWhile_prefix p (l := s.dropWhile p)
  change strip p s <+: _ at hpre
  rw [h] at hpre
  obtain ⟨t, ht⟩ := hpre
  have hne : s.dropWhile p ≠ [] := by simp [← ht]
  have hhead := head_dropWhile_not p hne
  simpa only [← ht, cons_append, head_cons] using hhead

@[simp]
theorem words_nil : words p [] = [] := rfl

theorem words_append_cons (s t : List α) (hc : p c = true) :
    words p (s ++ c :: t) = words p s ++ words p t := by
  rw [words, splitOnP_append_cons _ _ hc, filter_append]
  rfl

theorem words_append_of_all {w : List α} (s : List α) (hw : ∀ c ∈ w, p c = true) :
    words p (w ++ s) = words p s := by
  induction w with
  | nil => rfl
  | cons c w ih =>
    have h := words_append_cons [] (w ++ s) (hw c mem_cons_self)
    rw [nil_append, words_nil, nil_append] at h
    rw [cons_append, h]
    exact ih fun c hc => hw c (mem_cons_of_mem _ hc)

theorem words_eq_nil {w : List α} (hw : ∀ c ∈ w, p c = true) : words p w = [] := by
  have h := words_append_of_all [] hw
  rwa [append_nil] at h

theorem words_append_right {w : List α} (s : List α) (hw : ∀ c ∈ w, p c = true) :
    words p (s ++ w) = words p s := by
  cases w with
  | nil => rw [append_nil]
  | cons c =>
    rw [words_append_cons _ _ (hw c mem_cons_self),
      words_eq_nil fun c hc => hw c (mem_cons_of_mem _ hc), append_nil]

theorem words_singleton {w : List α} (hne : w ≠ []) (hw : ∀ c ∈ w, p c = false) :
    words p w = [w] := by
  rw [words, splitOnP_eq_singleton fun c hc => hw c hc]
  simp [hne]

theorem words_cons_ne_nil (hc : p c = false) (s : List α) : words p (c :: s) ≠ [] := by
  have hcut := takeWhile_append_dropWhile (p := (!p ·)) (l := c :: s)
  have hw : words p ((c :: s).takeWhile (!p ·)) ≠ [] := by
    rw [words_singleton]
    · exact cons_ne_nil _ _
    · simp [hc]
    · intro b hb
      simpa using mem_takeWhile_imp hb
  rw [← hcut]
  cases hr : (c :: s).dropWhile (!p ·) with
  | nil => rwa [append_nil]
  | cons b r =>
    have hb : p b = true := by
      have hne : (c :: s).dropWhile (!p ·) ≠ [] := by simp [hr]
      simpa [hr] using head_dropWhile_not (!p ·) hne
    rw [words_append_cons _ _ hb]
    exact append_ne_nil_of_left_ne_nil hw _

@[simp]
theorem words_strip (s : List α) : words p (strip p s) = words p s := by
  obtain ⟨l, r, hl, hr, hs⟩ := exists_strip p s
  conv_rhs => rw [hs, words_append_right _ hr, words_append_of_all _ hl]

end Mdepx.Lib
