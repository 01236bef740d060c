import Mdepx.Parser.Document

namespace Mdepx.Parser
open Lib Function List

/-! What the parser does to the tree of a document is the tree of more items. -/

variable {A B : Document}

theorem merge_cons_new (h : a.lookup key = none) :
    merge a ((key, v) :: b) = merge (assign a key v) b := by
  rw [merge, h]

theorem merge_cons_old (h : a.lookup key = some u) (hm : mergeEntry u v = .ok w) :
    merge a ((key, v) :: b) = merge (assign a key w) b := by
  rw [merge, h]
  dsimp only
  rw [hm]
  rfl

theorem merge_table {ks ls : List Str} {f g h : Str → Value} (hks : ks.Nodup) (hls : ls.Nodup)
    (hboth : ∀ k ∈ ls, k ∈ ks → mergeEntry (f k) (g k) = .ok (h k))
    (hnew : ∀ k ∈ ls, k ∉ ks → g k = h k) (hold : ∀ k ∈ ks, k ∉ ls → f k = h k) :
    merge (table ks f) (table ls g) = .ok (table (ks ++ ls.filter (· ∉ ks)) h) := by
  induction ls generalizing ks f with
  | nil =>
    have he : table ks f = table ks h := table_congr fun k hk => hold k hk not_mem_nil
    rw [he, filter_nil, append_nil]
    exact merge.eq_1 _
  | cons l ls ih =>
    obtain ⟨hl, hls⟩ := nodup_cons.1 hls
    have hstep : merge (table ks f) (table (l :: ls) g) =
        merge (assign (table ks f) l (h l)) (table ls g) := by
      by_cases hmem : l ∈ ks
      · apply merge_cons_old
        · rw [lookup_table, if_pos hmem]
        · exact hboth l mem_cons_self hmem
      · rw [← hnew l mem_cons_self hmem]
        apply merge_cons_new
        rw [lookup_table, if_neg hmem]
    have hne {k : Str} (hk : k ∈ ls) : k ≠ l := fun he => hl (he ▸ hk)
    rw [hstep, assign_table hks, ← addKey_append_filter hl]
    apply ih (addKey_nodup hks l) hls
    · intro k hk hmem
      rw [update_of_ne (hne hk)]
      apply hboth k (mem_cons_of_mem _ hk)
      exact (mem_addKey.1 hmem).resolve_right (hne hk)
    · intro k hk hmem
      exact hnew k (mem_cons_of_mem _ hk) fun h => hmem (mem_addKey.2 (.inl h))
    · intro k hk hmem
      by_cases he : k = l
      · rw [he, update_self]
      · rw [update_of_ne he]
        apply hold k ((mem_addKey.1 hk).resolve_right he)
        exact fun h => hmem ((mem_cons.1 h).resolve_left he)

section
variable (h : Consistent (A ++ B))
include h

theorem Consistent.left : Consistent A :=
  h.mono (subset_append_left A B)

theorem Consistent.right : Consistent B :=
  h.mono (subset_append_right A B)

theorem Consistent.opens_both (hA : key ∈ keys A) (hB : key ∈ keys B) :
    opens A key = opens B key := by
  obtain ⟨i, hi, rfl⟩ := mem_keys.1 hA
  obtain ⟨j, hj, hij⟩ := mem_keys.1 hB
  rw [h.left.opens_eq hi, ← h.opens_eq (mem_append_left B hi), ← hij,
    h.opens_eq (mem_append_right A hj), h.right.opens_eq hj]

theorem merge_tree : merge (tree A) (tree B) = .ok (tree (A ++ B)) := by
  induction hn : depth B using Nat.strongRecOn generalizing A B with
  | ind n ih =>
    rw [tree_eq A, tree_eq B, tree_eq (A ++ B), keys_append]
    apply merge_table (keys_nodup A) (keys_nodup B)
    · intro k hB hA
      have hboth := h.opens_both hA hB
      have happ : opens (A ++ B) k = opens B k := by rw [opens_append, hboth, Bool.or_self]
      cases hopens : opens B k with
      | false =>
        rw [hopens] at hboth happ
        rw [entry_of_not_opens hboth, entry_of_not_opens hopens, entry_of_not_opens happ,
          strings_append, mergeEntry]
      | true =>
        have hlt : depth (context B k) < n := hn ▸ depth_context_lt hopens
        have hc := h.context k
        rw [context_append] at hc
        have hm := ih _ hlt hc rfl
        rw [hopens] at hboth happ
        rw [entry_of_opens hboth, entry_of_opens hopens, entry_of_opens happ, mergeEntry, hm,
          context_append]
        rfl
    · intro k hB hA
      rw [entry_absent_append hA]
    · intro k hA hB
      rw [entry_append_absent hB]

end

theorem place_tree (h : Consistent (A ++ [.block k body])) :
    place k.text (tree A) (tree body) = .ok (tree (A ++ [.block k body])) := by
  have hitems : context [.block k body] k.text = body := by
    change (if k.text = k.text then body else []) ++ [] = body
    rw [if_pos rfl, append_nil]
  have hnew : opens (A ++ [.block k body]) k.text = true :=
    opens_iff.2 ⟨k, body, by simp, rfl⟩
  rw [tree_concat, place, lookup_tree]
  change _ = Except.ok (assign (tree A) k.text (entry (A ++ [.block k body]) k.text))
  rw [entry_of_opens hnew, context_append, hitems]
  by_cases hk : k.text ∈ keys A
  · have hopens : opens A k.text = true := by
      rw [h.opens_both hk (mem_keys.2 ⟨_, mem_singleton_self _, rfl⟩)]
      exact opens_iff.2 ⟨k, body, mem_singleton_self _, rfl⟩
    have hc := h.context k.text
    rw [context_append, hitems] at hc
    rw [if_pos hk, entry_of_opens hopens]
    dsimp only
    rw [mergeInto, merge_tree hc]
    rfl
  · rw [if_neg hk, context_of_absent hk]
    rfl

def Holds (d : Dict) (k : Str) (ss : List Str) : Prop :=
  d.lookup k = some (.list ss) ∨ d.lookup k = none ∧ ss = []

theorem append_of_holds (h : Holds d k ss) (s : Str) :
    append k d s = .ok (assign d k (.list (ss ++ [s]))) := by
  rcases h with h | ⟨h, rfl⟩
  · rw [append, h]
  · rw [append, h]
    rfl

theorem foldlM_append (h : Holds d k ss) (ts : List Str) (t : Str) :
    (t :: ts).foldlM (append k) d = .ok (assign d k (.list (ss ++ t :: ts))) := by
  induction ts generalizing d ss t with
  | nil =>
    rw [foldlM_cons, append_of_holds h]
    rfl
  | cons u ts ih =>
    have hnext : Holds (assign d k (.list (ss ++ [t]))) k (ss ++ [t]) := .inl (lookup_assign _ _ _)
    rw [foldlM_cons, append_of_holds h]
    change (u :: ts).foldlM (append k) (assign d k (.list (ss ++ [t]))) = _
    rw [ih hnext, assign_assign, append_assoc]
    rfl

theorem append_tree (h : Consistent (A ++ [.tokens k ts])) :
    ((Item.tokens k ts).strings k.text).foldlM (append k.text) (tree A) =
      .ok (tree (A ++ [.tokens k ts])) := by
  have hnew : opens (A ++ [.tokens k ts]) k.text = false := by
    have hk := h.opens_eq (i := .tokens k ts) (by simp)
    exact hk
  have hopens : opens A k.text = false := by
    rw [opens_append, Bool.or_eq_false_iff] at hnew
    exact hnew.1
  have hholds : Holds (tree A) k.text (strings A k.text) := by
    rw [Holds, lookup_tree]
    by_cases hk : k.text ∈ keys A
    · rw [if_pos hk, entry_of_not_opens hopens]
      exact .inl rfl
    · rw [if_neg hk, strings_of_absent hk]
      exact .inr ⟨rfl, rfl⟩
  have hstrings : strings [.tokens k ts] k.text = (Item.tokens k ts).strings k.text :=
    append_nil _
  rw [tree_concat]
  change _ = Except.ok (assign (tree A) k.text (entry (A ++ [.tokens k ts]) k.text))
  rw [entry_of_not_opens hnew, strings_append, hstrings, Item.strings, if_pos rfl]
  cases ts with
  | nil => exact foldlM_append hholds [] []
  | cons => exact foldlM_append hholds _ _

end Mdepx.Parser
