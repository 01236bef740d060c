import Mdepx.Lib.Ring

namespace Mdepx.Lib
open List

/-- Walking forward from `a` visits exactly `xs`, every step can be undone, and the last node's
`next` is `null`. -/
def Chain (m : Links α) (null a : α) : List α → Prop
  | [] => m.next a = null
  | x :: xs => (m.next a = x ∧ m.prev x = a) ∧ Chain m null x xs

variable {m m' : Links α} {null a x : α} {xs ys : List α}

theorem Chain.congr (h : Chain m null a xs) (hn : ∀ y ∈ a :: xs, m'.next y = m.next y)
    (hp : ∀ y ∈ xs, m'.prev y = m.prev y) : Chain m' null a xs := by
  induction xs generalizing a with
  | nil => exact (hn a mem_cons_self).trans h
  | cons x xs ih =>
    refine ⟨⟨?_, ?_⟩, ?_⟩
    · exact (hn a mem_cons_self).trans h.1.1
    · exact (hp x mem_cons_self).trans h.1.2
    · apply ih h.2
      · intro y hy
        exact hn y (mem_cons_of_mem _ hy)
      · intro y hy
        exact hp y (mem_cons_of_mem _ hy)

theorem chain_iff : Chain m null a xs ↔ Trail m a xs ∧ m.next (xs.getLastD a) = null := by
  induction xs generalizing a with
  | nil => simp only [Chain, Trail, getLastD_nil, true_and]
  | cons x xs ih => simp only [Chain, Trail, ih, getLastD_cons, and_assoc]

theorem chain_append_iff :
    Chain m null a (xs ++ x :: ys) ↔ Seg m a xs x ∧ Chain m null x ys := by
  induction xs generalizing a with
  | nil => exact Iff.rfl
  | cons y xs ih => simp only [cons_append, Chain, Seg, ih, and_assoc]

theorem Chain.drop (h : Chain m null a (xs ++ x :: ys)) :
    m.prev x = xs.getLastD a ∧ Chain m null x ys := by
  obtain ⟨hs, hc⟩ := chain_append_iff.1 h
  exact ⟨(seg_iff.1 hs).2.2, hc⟩

theorem Chain.trail (h : Chain m null a (xs ++ ys)) : Trail m a xs := by
  cases ys with
  | nil =>
    rw [append_nil] at h
    exact (chain_iff.1 h).1
  | cons => exact (seg_iff.1 (chain_append_iff.1 h).1).1

theorem Chain.next_start (h : Chain m null a xs) : m.next a = xs.headD null := by
  cases xs with
  | nil => exact h
  | cons => exact h.1.1

theorem Chain.next_mem (h : Chain m null a xs) (hy : y ∈ a :: xs) :
    m.next y = null ∨ m.next y ∈ xs := by
  induction xs generalizing a with
  | nil =>
    rw [mem_singleton.1 hy]
    exact .inl h
  | cons x xs ih =>
    rcases mem_cons.1 hy with rfl | hy
    · rw [h.1.1]
      exact .inr mem_cons_self
    · exact (ih h.2 hy).imp_right (mem_cons_of_mem _)

theorem getLastD_mem_append (a : α) (xs ys : List α) : xs.getLastD a ∈ a :: (xs ++ ys) := by
  rw [← cons_append]
  exact mem_append_left _ (getLastD_mem_cons)

theorem headD_mem_append (h : ys.headD null ≠ null) (xs : List α) :
    ys.headD null ∈ xs ++ ys :=
  mem_append_right _ ((mem_cons.1 (headD_mem null ys)).resolve_left h)

section
variable [DecidableEq α]

theorem Chain.remove (h : Chain m null a (xs ++ x :: ys)) (hnd : (a :: (xs ++ x :: ys)).Nodup)
    (hnull : null ∉ xs ++ x :: ys)
    (hn : ∀ y ∈ a :: (xs ++ ys), m'.next y = if y = m.prev x then m.next x else m.next y)
    (hp : ∀ y ∈ xs ++ ys, m'.prev y = if y = m.next x then m.prev x else m.prev y) :
    Chain m' null a (xs ++ ys) := by
  obtain ⟨hlast, hx⟩ := h.drop
  rw [← cons_append] at hnd hn
  obtain ⟨hnd₁, hnd₂, hdis⟩ := nodup_append.1 hnd
  have hend := hn _ (mem_append_left _ (getLastD_mem_cons))
  rw [if_pos hlast.symm] at hend
  have hw : Trail m' a xs := by
    apply h.trail.congr hnd₁
    · intro y hy hyl
      rw [hn y (mem_append_left _ hy), hlast, if_neg hyl]
    · intro y hy
      rw [hp y (mem_append_left _ hy), if_neg]
      rintro rfl
      rcases mem_cons.1 (hx.next_start ▸ headD_mem null ys) with hc | hc
      · exact hnull (hc ▸ mem_append_left _ hy)
      · exact hdis _ (mem_cons_of_mem _ hy) _ (mem_cons_of_mem _ hc) rfl
  cases ys with
  | nil =>
    rw [append_nil]
    exact chain_iff.2 ⟨hw, hend.trans hx⟩
  | cons y =>
    obtain ⟨⟨hny, -⟩, hy⟩ := hx
    refine chain_append_iff.2 ⟨seg_iff.2 ⟨hw, hend.trans hny, ?_⟩, hy.congr ?_ ?_⟩
    · rw [hp y (mem_append_right _ mem_cons_self), if_pos hny.symm, hlast]
    · intro z hz
      rw [hn z (mem_append_right _ hz), hlast, if_neg]
      exact fun hc => hdis _ (getLastD_mem_cons) z (mem_cons_of_mem _ hz) hc.symm
    · intro z hz
      rw [hp z (mem_append_right _ (mem_cons_of_mem _ hz)), hny, if_neg]
      rintro rfl
      exact (nodup_cons.1 (nodup_cons.1 hnd₂).2).1 hz

theorem Chain.insert (h : Chain m null a (xs ++ ys)) (hnd : (a :: (xs ++ x :: ys)).Nodup)
    (hnull : null ∉ xs ++ x :: ys)
    (hn : ∀ y ∈ a :: (xs ++ x :: ys), m'.next y =
      if y = xs.getLastD a then x else if y = x then ys.headD null else m.next y)
    (hp : ∀ y ∈ xs ++ x :: ys, m'.prev y =
      if y = x then xs.getLastD a else if y = ys.headD null then x else m.prev y) :
    Chain m' null a (xs ++ x :: ys) := by
  rw [← cons_append] at hnd hn
  obtain ⟨hnd₁, hnd₂, hdis⟩ := nodup_append.1 hnd
  have hw : Trail m' a xs := by
    apply h.trail.congr hnd₁
    · intro y hy hyl
      rw [hn y (mem_append_left _ hy), if_neg hyl, if_neg (hdis y hy x mem_cons_self)]
    · intro y hy
      have hy' := mem_cons_of_mem a hy
      rw [hp y (mem_append_left _ hy), if_neg (hdis y hy' x mem_cons_self), if_neg]
      rintro rfl
      rcases mem_cons.1 (headD_mem null ys) with hc | hc
      · exact hnull (hc ▸ mem_append_left _ hy)
      · exact hdis _ hy' _ (mem_cons_of_mem _ hc) rfl
  have hend := hn _ (mem_append_left _ (getLastD_mem_cons))
  rw [if_pos rfl] at hend
  have hlast := hdis _ (getLastD_mem_cons)
  have hpx := hp x (mem_append_right _ mem_cons_self)
  rw [if_pos rfl] at hpx
  have hnx := hn x (mem_append_right _ mem_cons_self)
  rw [if_neg (hlast x mem_cons_self).symm, if_pos rfl] at hnx
  refine chain_append_iff.2 ⟨seg_iff.2 ⟨hw, hend, hpx⟩, ?_⟩
  cases ys with
  | nil => exact hnx
  | cons y ys =>
    obtain ⟨hx, hnd₃⟩ := nodup_cons.1 hnd₂
    have hne : ∀ z ∈ y :: ys, z ≠ x := fun z hz hc => hx (hc ▸ hz)
    refine ⟨⟨hnx, ?_⟩, (chain_append_iff.1 h).2.congr ?_ ?_⟩
    · rw [hp y (mem_append_right _ (mem_cons_of_mem _ mem_cons_self)),
        if_neg (hne y mem_cons_self)]
      exact if_pos rfl
    · intro z hz
      have hz' := mem_cons_of_mem x hz
      rw [hn z (mem_append_right _ hz'), if_neg (hlast z hz').symm, if_neg (hne z hz)]
    · intro z hz
      have hz' := mem_cons_of_mem y hz
      rw [hp z (mem_append_right _ (mem_cons_of_mem _ hz')), if_neg (hne z hz'), if_neg]
      rintro rfl
      exact (nodup_cons.1 hnd₃).1 hz

end
end Mdepx.Lib
