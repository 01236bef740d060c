import Mdepx.Lib.Ring

namespace Mdepx
open Lib List

/-! The intrusive lists of `sys/list.h`. -/

section
variable [DecidableEq α] {m : Links α}

def listInit (m : Links α) (e : α) : Links α := (m.setNext e e).setPrev e e

def listPrepend (m : Links α) (l e : α) : Links α :=
  let m := m.setNext e (m.next l)
  let m := m.setPrev e l
  let m := m.setPrev (m.next e) e
  m.setNext (m.prev e) e

def listInsert (m : Links α) (l e : α) : Links α :=
  let m := m.setNext e l
  let m := m.setPrev e (m.prev l)
  let m := m.setPrev (m.next e) e
  m.setNext (m.prev e) e

def listAppend (m : Links α) (l e : α) : Links α := listInsert m l e

def listRemove (m : Links α) (e : α) : Links α :=
  let m := m.setNext (m.prev e) (m.next e)
  let m := m.setPrev (m.next e) (m.prev e)
  listInit m e

def listEmpty (m : Links α) (l : α) : Bool := decide (m.next l = l)

section
variable (m : Links α)

theorem listInsert_next (x : α) (he : e ≠ l) :
    (listInsert m l e).next x =
      if x = m.prev l then e else if x = e then l else m.next x := by
  simp only [listInsert, Links.setNext_next, Links.setPrev_next, Links.setPrev_prev,
    Links.setNext_prev, if_true, if_neg he]

theorem listInsert_prev (l e x : α) :
    (listInsert m l e).prev x =
      if x = l then e else if x = e then m.prev l else m.prev x := by
  simp only [listInsert, Links.setNext_next, Links.setPrev_next, Links.setPrev_prev,
    Links.setNext_prev, if_true]

theorem listRemove_next (e x : α) :
    (listRemove m e).next x =
      if x = e then e else if x = m.prev e then m.next e else m.next x := by
  simp only [listRemove, listInit, Links.setNext_next, Links.setPrev_next, Links.setNext_prev]

theorem listRemove_prev (e x : α) :
    (listRemove m e).prev x =
      if x = e then e else if x = m.next e then m.prev e else m.prev x := by
  simp only [listRemove, listInit, Links.setNext_next, Links.setPrev_prev, Links.setNext_prev,
    ite_self]

end

theorem seg_listInsert (h : Seg m a xs b) (hn : (a :: xs).Nodup) (hb : b ∉ xs)
    (he : e ∉ a :: xs) (heb : e ≠ b) : Seg (listInsert m b e) a (xs ++ [e]) b := by
  obtain ⟨hw, -, hlast⟩ := seg_iff.1 h
  have hne : xs.getLastD a ≠ e := fun hc => he (hc ▸ getLastD_mem_cons)
  refine Seg.append_iff.2 ⟨seg_iff.2 ⟨hw.congr hn ?_ ?_, ?_, ?_⟩, ?_, ?_⟩
  · intro y hy hyl
    have hye : y ≠ e := fun hc => he (hc ▸ hy)
    rw [listInsert_next _ _ heb, hlast, if_neg hyl, if_neg hye]
  · intro y hy
    have hye : y ≠ e := fun hc => he (hc ▸ mem_cons_of_mem _ hy)
    have hyb : y ≠ b := fun hc => hb (hc ▸ hy)
    rw [listInsert_prev, if_neg hyb, if_neg hye]
  · rw [listInsert_next _ _ heb, hlast, if_pos rfl]
  · rw [listInsert_prev, if_neg heb, if_pos rfl, hlast]
  · rw [listInsert_next _ _ heb, hlast, if_neg hne.symm, if_pos rfl]
  · rw [listInsert_prev, if_pos rfl]

theorem ring_listAppend (hr : Ring m h xs) (he : e ∉ h :: xs) :
    Ring (listInsert m h e) h (xs ++ [e]) := by
  have hd : (h :: (xs ++ [e])).Nodup :=
    (List.Perm.cons h (perm_append_singleton e xs)).nodup_iff.2
      ((List.Perm.swap h e xs).nodup_iff.1 (nodup_cons.2 ⟨he, hr.nodup⟩))
  refine ⟨hd, seg_listInsert hr.seg hr.nodup hr.head_notMem he ?_⟩
  exact fun heh => he (heh ▸ mem_cons_self)

theorem ring_listInsert (hr : Ring m h (xs ++ ys)) (he : e ∉ h :: (xs ++ ys)) :
    Ring (listInsert m (ys.headD h) e) h (xs ++ e :: ys) := by
  cases ys with
  | nil =>
    rw [append_nil] at hr he
    exact ring_listAppend hr he
  | cons y ys =>
    -- At the back of the list as it is seen from `y`.
    have hr' := ring_listAppend (e := e) hr.rotate fun hm =>
      he ((perm_rotate h y xs ys).mem_iff.1 hm)
    rw [append_assoc, cons_append] at hr'
    rw [append_cons]
    exact hr'.rotate

theorem seg_listRemove (h1 : Seg m a xs e) (h2 : Seg m e [] b) (hn : (a :: (xs ++ [e])).Nodup)
    (hb : b ∉ xs ++ [e]) : Seg (listRemove m e) a xs b := by
  obtain ⟨hw, -, hlast⟩ := seg_iff.1 h1
  obtain ⟨hnext, -⟩ := h2
  rw [← cons_append, ← concat_eq_append, nodup_concat] at hn
  obtain ⟨he, hn⟩ := hn
  have hne : ∀ y ∈ a :: xs, y ≠ e := fun y hy hc => he (hc ▸ hy)
  have hbe : b ≠ e := fun hc => hb (hc ▸ mem_append_right _ mem_cons_self)
  refine seg_iff.2 ⟨hw.congr hn ?_ ?_, ?_, ?_⟩
  · intro y hy hyl
    rw [listRemove_next, if_neg (hne y hy), hlast, if_neg hyl]
  · intro y hy
    have hyb : y ≠ b := fun hc => hb (hc ▸ mem_append_left _ hy)
    rw [listRemove_prev, if_neg (hne y (mem_cons_of_mem _ hy)), hnext, if_neg hyb]
  · rw [listRemove_next, if_neg (hne _ (getLastD_mem_cons)), hlast, if_pos rfl, hnext]
  · rw [listRemove_prev, if_neg hbe, hnext, if_pos rfl, hlast]

theorem ring_listRemove_last (hr : Ring m h (xs ++ [e])) : Ring (listRemove m e) h xs := by
  obtain ⟨h1, h2⟩ := Seg.append_iff.1 hr.seg
  refine ⟨?_, seg_listRemove h1 h2 hr.nodup hr.head_notMem⟩
  exact hr.nodup.sublist ((sublist_append_left xs [e]).cons_cons h)

theorem ring_listRemove (hr : Ring m h (xs ++ e :: ys)) :
    Ring (listRemove m e) h (xs ++ ys) := by
  cases ys with
  | nil =>
    rw [append_nil]
    exact ring_listRemove_last hr
  | cons =>
    rw [append_cons] at hr
    have hr' := hr.rotate
    rw [← cons_append, ← append_assoc] at hr'
    exact (ring_listRemove_last hr').rotate

section
variable (hr : Ring m h xs)
include hr

theorem listInsert_other (hl : l ∈ h :: xs) (he : e ≠ l) (hy : y ∉ e :: h :: xs) :
    (listInsert m l e).next y = m.next y ∧ (listInsert m l e).prev y = m.prev y := by
  obtain ⟨hye, hyx⟩ := not_or.1 (mt mem_cons.2 hy)
  have hp : y ≠ m.prev l := fun hc => hyx (hc ▸ hr.prev_mem hl)
  have hyl : y ≠ l := fun hc => hyx (hc ▸ hl)
  constructor
  · rw [listInsert_next _ _ he, if_neg hp, if_neg hye]
  · rw [listInsert_prev, if_neg hyl, if_neg hye]

theorem ring_listInsert_other (hr' : Ring m h' ys) (hl : l ∈ h :: xs)
    (hd : ∀ y ∈ h' :: ys, y ∉ e :: h :: xs) (he : e ∉ h :: xs) : Ring (listInsert m l e) h' ys := by
  have hel : e ≠ l := fun hc => he (hc ▸ hl)
  apply hr'.congr
  · exact fun y hy => (listInsert_other hr hl hel (hd y hy)).1
  · exact fun y hy => (listInsert_other hr hl hel (hd y hy)).2

theorem listRemove_other (he : e ∈ h :: xs) (hy : y ∉ h :: xs) :
    (listRemove m e).next y = m.next y ∧ (listRemove m e).prev y = m.prev y := by
  have hye : y ≠ e := fun hc => hy (hc ▸ he)
  have hp : y ≠ m.prev e := fun hc => hy (hc ▸ hr.prev_mem he)
  have hn : y ≠ m.next e := fun hc => hy (hc ▸ hr.next_mem he)
  constructor
  · rw [listRemove_next, if_neg hye, if_neg hp]
  · rw [listRemove_prev, if_neg hye, if_neg hn]

theorem ring_listRemove_other (hr' : Ring m h' ys) (he : e ∈ h :: xs)
    (hd : ∀ y ∈ h' :: ys, y ∉ h :: xs) : Ring (listRemove m e) h' ys := by
  apply hr'.congr
  · exact fun y hy => (listRemove_other hr he (hd y hy)).1
  · exact fun y hy => (listRemove_other hr he (hd y hy)).2

end

theorem ring_listInit (m : Links α) (h : α) : Ring (listInit m h) h [] := by
  refine ⟨by simp, ?_, ?_⟩
  · simp only [listInit, Links.setPrev_next, Links.setNext_next, if_true]
  · simp only [listInit, Links.setPrev_prev, if_true]

theorem ring_listRemove_self (m : Links α) (e : α) : Ring (listRemove m e) e [] :=
  ring_listInit _ e

theorem listInit_isolated (hr : Ring m e []) : listInit m e = m := by
  obtain ⟨hn, hp⟩ := hr.seg
  apply Links.ext
  · exact Function.update_eq_self_iff.2 hn.symm
  · exact Function.update_eq_self_iff.2 hp.symm

theorem listRemove_isolated (hr : Ring m e []) : listRemove m e = m := by
  obtain ⟨hn, hp⟩ := hr.seg
  apply Links.ext
  · funext x
    rw [listRemove_next, hp, hn]
    split
    · rename_i hx
      rw [hx, hn]
    · rfl
  · funext x
    rw [listRemove_prev, hp, hn]
    split
    · rename_i hx
      rw [hx, hp]
    · rfl

theorem listEmpty_iff (hr : Ring m h xs) : listEmpty m h = true ↔ xs = [] := by
  rw [listEmpty, decide_eq_true_iff, hr.empty_iff]

end
end Mdepx
