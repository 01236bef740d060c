import Mathlib.Data.Fintype.Basic
import Mdepx.List

namespace Mdepx.Rings
open Lib Function List

/-! Any number of lists of `sys/list.h`, and nodes that are initialised but on none of them. -/

/-- The sequence of each list under its head. An unlinked node is the head of an empty one. -/
abbrev Family (α : Type) := α → Option (List α)

def members (F : Family α) (h : α) : List α := ((F h).map (h :: ·)).getD []

structure Represents (m : Links α) (F : Family α) : Prop where
  ring : ∀ h xs, F h = some xs → Ring m h xs
  disjoint : ∀ h h' y, y ∈ members F h → y ∈ members F h' → h = h'

/-- The node is not initialised, or it is linked to itself. -/
def Unlinked (F : Family α) (e : α) : Prop := ∀ h, e ∈ members F h → h = e ∧ F e = some []

inductive Op (α : Type) where
  | init (e : α)
  | prepend (l e : α)
  | insert (l e : α)
  | append (l e : α)
  | remove (e : α)

def Op.node : Op α → α
  | .init e | .prepend _ e | .insert _ e | .append _ e | .remove e => e

def Op.names : Op α → List α
  | .init e | .remove e => [e]
  | .prepend l e | .insert l e | .append l e => [l, e]

def Op.own : Op α → Option (List α)
  | .init _ | .remove _ => some []
  | .prepend _ _ | .insert _ _ | .append _ _ => none

section
variable {m m' : Links α} {F F' : Family α} {h h' e y : α} {xs : List α}

theorem members_of (hF : F h = some xs) : members F h = h :: xs := by
  rw [members, hF]
  rfl

theorem mem_members : y ∈ members F h ↔ ∃ xs, F h = some xs ∧ y ∈ h :: xs := by
  rw [members]
  cases F h with
  | none => exact iff_of_false not_mem_nil nofun
  | some xs => exact ⟨fun hy => ⟨xs, rfl, hy⟩, fun ⟨_, hF, hy⟩ => Option.some.inj hF ▸ hy⟩

theorem Unlinked.own (he : Unlinked F e) (hy : y ∈ members F e) : y = e := by
  obtain ⟨xs, hF, hy⟩ := mem_members.1 hy
  cases hF.symm.trans (he e (mem_members.2 ⟨xs, hF, mem_cons_self⟩)).2
  exact mem_singleton.1 hy

theorem headD_mem_append (h : α) (xs ys : List α) : ys.headD h ∈ h :: (xs ++ ys) := by
  rcases mem_cons.1 (headD_mem h ys) with hm | hm
  · exact mem_cons.2 (.inl hm)
  · exact mem_cons_of_mem _ (mem_append_right _ hm)

/-- Between two families the node `e` has moved to the list of `h`, and no other has moved. -/
structure Moves (F F' : Family α) (e h : α) : Prop where
  here : ∀ h', e ∈ members F' h' ↔ h' = h
  others : ∀ h' y, y ≠ e → (y ∈ members F' h' ↔ y ∈ members F h')

theorem Moves.disjoint (hm : Moves F F' e h)
    (hd : ∀ h h' y, y ∈ members F h → y ∈ members F h' → h = h') (h₁ h₂ y : α)
    (hy : y ∈ members F' h₁) (hy' : y ∈ members F' h₂) : h₁ = h₂ := by
  by_cases hye : y = e
  · subst hye
    exact ((hm.here h₁).1 hy).trans ((hm.here h₂).1 hy').symm
  · exact hd h₁ h₂ y ((hm.others h₁ y hye).1 hy) ((hm.others h₂ y hye).1 hy')

theorem Moves.known (hm : Moves F F' e h) (hy : (∃ h, y ∈ members F h) ∨ y = e) :
    ∃ h, y ∈ members F' h := by
  by_cases hye : y = e
  · subst hye
    exact ⟨h, (hm.here h).2 rfl⟩
  · obtain ⟨h', hy⟩ := hy.resolve_right hye
    exact ⟨h', (hm.others h' y hye).2 hy⟩

end

section
variable [DecidableEq α]

def exec (m : Links α) : Op α → Links α
  | .init e => listInit m e
  | .prepend l e => listPrepend m l e
  | .insert l e => listInsert m l e
  | .append l e => listAppend m l e
  | .remove e => listRemove m e

def insertBefore (l e : α) : List α → List α
  | [] => []
  | x :: xs => if x = l then e :: x :: xs else x :: insertBefore l e xs

/-- What becomes of the sequence of the list of `h`. Before the head is at the back. -/
def edit (h : α) (xs : List α) : Op α → List α
  | .init _ => xs
  | .prepend l e => if h = l then e :: xs else xs
  | .insert l e => if h = l then xs ++ [e] else insertBefore l e xs
  | .append l e => if h = l then xs ++ [e] else xs
  | .remove e => xs.erase e

def apply (F : Family α) (op : Op α) : Family α :=
  update (fun h => (F h).map fun xs => edit h xs op) op.node op.own

def Permitted (F : Family α) : Op α → Prop
  | .init e => Unlinked F e
  | .prepend l e | .append l e => (F l).isSome ∧ l ≠ e ∧ Unlinked F e
  | .insert l e => (∃ h, l ∈ members F h) ∧ l ≠ e ∧ Unlinked F e
  | .remove e => F e = some [] ∨ ∃ h, h ≠ e ∧ e ∈ members F h

def Permits : Family α → List (Op α) → Prop
  | _, [] => True
  | F, op :: ops => Permitted F op ∧ Permits (apply F op) ops

/-- A walk from `x` to the head `l`, of `n` steps at most. -/
def traverse (m : Links α) (l : α) : Nat → α → Option (List α)
  | 0, _ => none
  | n + 1, x => if x = l then some [] else (traverse m l n (m.next x)).map (x :: ·)

/-- What users of the lists rely on. -/
structure Intact (m : Links α) (F : Family α) : Prop where
  inverse : ∀ h y, y ∈ members F h → m.prev (m.next y) = y ∧ m.next (m.prev y) = y
  traversal : ∀ h xs, F h = some xs → ∀ n, xs.length < n → traverse m h n (m.next h) = some xs
  empty : ∀ h xs, F h = some xs → (listEmpty m h = true ↔ xs = [])
  removed : ∀ e, F e = some [] → listRemove m e = m ∧ apply F (.remove e) = F

/-- The lists without a node that is named keep their sequence and every link. -/
def Frame (m : Links α) (F : Family α) (op : Op α) : Prop :=
  ∀ h xs, F h = some xs → (∀ x ∈ op.names, x ∉ h :: xs) → apply F op h = some xs ∧
    ∀ y ∈ h :: xs, (exec m op).next y = m.next y ∧ (exec m op).prev y = m.prev y

inductive Effect (m : Links α) (F : Family α) (e : α) : α → Links α → Family α → Prop where
  | init : Unlinked F e → Effect m F e e (listInit m e) (update F e (some []))
  | add : F h = some (xs ++ ys) → h ≠ e → Unlinked F e →
    Effect m F e h (listInsert m (ys.headD h) e) (update (update F e none) h (some (xs ++ e :: ys)))
  | remove : F h = some (xs ++ e :: ys) → h ≠ e →
    Effect m F e h (listRemove m e) (update (update F e (some [])) h (some (xs ++ ys)))

variable {m m' : Links α} {F F' : Family α} {h h' l e y : α} {xs ys zs : List α} {op : Op α}

theorem members_update (F : Family α) (h h' : α) (v : Option (List α)) :
    members (update F h v) h' = if h' = h then (v.map (h :: ·)).getD [] else members F h' := by
  by_cases hh : h' = h
  · rw [if_pos hh, members, hh, update_self]
  · rw [if_neg hh, members, update_of_ne hh, members]

theorem update_cases {v : Option (List α)} (hF : update F h v h' = some xs) :
    h' = h ∧ v = some xs ∨ h' ≠ h ∧ F h' = some xs := by
  by_cases hh : h' = h
  · rw [hh, update_self] at hF
    exact .inl ⟨hh, hF⟩
  · rw [update_of_ne hh] at hF
    exact .inr ⟨hh, hF⟩

section
variable (hs : Represents m F) (hx : Effect m F e h m' F')
include hs hx

theorem Represents.place :
    (∀ h', h' ≠ h → h' ≠ e → e ∉ members F h') ∧ ∀ y, y ∈ members F e → y = e := by
  cases hx with
  | init hu | add _ _ hu => exact ⟨fun h' _ he hm => he (hu h' hm).1, fun y => hu.own⟩
  | @remove h xs ys hF hne =>
    have hmem : e ∈ members F h := by
      rw [members_of hF]
      exact mem_cons_of_mem _ (mem_append_right _ mem_cons_self)
    refine ⟨fun h' hh _ hm => hh (hs.disjoint h' h e hm hmem), fun y hy => ?_⟩
    obtain ⟨zs, hF', -⟩ := mem_members.1 hy
    exact absurd (hs.disjoint h e e hmem (mem_members.2 ⟨zs, hF', mem_cons_self⟩)) hne

theorem Represents.moves : ∃ h₀, Moves F F' e h₀ := by
  obtain ⟨hout, hown⟩ := hs.place hx
  cases hx with
  | init =>
    refine ⟨h, fun h' => ?_, fun h' y hy => ?_⟩
    · rw [members_update]
      grind
    · rw [members_update]
      grind
  | @add h xs ys hF hne hu =>
    have hmem := members_of hF
    refine ⟨h, fun h' => ?_, fun h' y hy => ?_⟩
    · rw [members_update, members_update]
      grind
    · rw [members_update, members_update]
      grind
  | @remove h xs ys hF hne =>
    have hmem := members_of hF
    have hn := nodup_middle.1 (hs.ring h _ hF).nodup_nodes
    refine ⟨e, fun h' => ?_, fun h' y hy => ?_⟩
    · rw [members_update, members_update]
      grind
    · rw [members_update, members_update]
      grind

theorem Represents.frame (hF : F h' = some zs) (hh : h' ≠ h) (he : e ∉ h' :: zs) : F' h' = some zs ∧
      ∀ y ∈ h' :: zs, m'.next y = m.next y ∧ m'.prev y = m.prev y := by
  have hhe : h' ≠ e := fun hhe => he (hhe ▸ mem_cons_self)
  have hye (y) (hy : y ∈ h' :: zs) : y ≠ e := fun hye => he (hye ▸ hy)
  have hout {xs y} (hF' : F h = some xs) (hy : y ∈ h' :: zs) : y ∉ h :: xs := fun hm =>
    hh (hs.disjoint _ _ y (mem_members.2 ⟨_, hF, hy⟩) (mem_members.2 ⟨_, hF', hm⟩))
  cases hx with
  | init =>
    rw [update_of_ne hhe]
    refine ⟨hF, fun y hy => ⟨?_, ?_⟩⟩
    · rw [listInit, Links.setPrev_next, Links.setNext_next, if_neg (hye y hy)]
    · rw [listInit, Links.setPrev_prev, if_neg (hye y hy), Links.setNext_prev]
  | @add h xs ys hF' hne hu =>
    have hl := headD_mem_append h xs ys
    have hnew : e ∉ h :: (xs ++ ys) := fun hm => hne (hu h (mem_members.2 ⟨_, hF', hm⟩)).1
    rw [update_of_ne hh, update_of_ne hhe]
    refine ⟨hF, fun y hy => listInsert_other (hs.ring h _ hF') hl (fun hel => hnew (hel ▸ hl)) ?_⟩
    rw [mem_cons, not_or]
    exact ⟨hye y hy, hout hF' hy⟩
  | remove hF' =>
    rw [update_of_ne hh, update_of_ne hhe]
    refine ⟨hF, fun y hy => listRemove_other (hs.ring _ _ hF') ?_ (hout hF' hy)⟩
    exact mem_cons_of_mem _ (mem_append_right _ mem_cons_self)

theorem Represents.effect : Represents m' F' := by
  obtain ⟨h₀, hm⟩ := hs.moves hx
  refine ⟨fun h' zs hF' => ?_, hm.disjoint hs.disjoint⟩
  -- A list is one of those that the operation changes, or framed.
  have hother (hh : h' ≠ h) (he : h' ≠ e) (hF : F h' = some zs) : Ring m' h' zs := by
    have hout := (hs.place hx).1 h' hh he
    rw [members_of hF] at hout
    have hlinks := (hs.frame hx hF hh hout).2
    exact (hs.ring h' zs hF).congr (fun y hy => (hlinks y hy).1) fun y hy => (hlinks y hy).2
  cases hx with
  | init =>
    rcases update_cases hF' with ⟨rfl, hz⟩ | ⟨hh, hF⟩
    · cases hz
      exact ring_listInit m h'
    · exact hother hh hh hF
  | add hF hne hu =>
    rcases update_cases hF' with ⟨rfl, hz⟩ | ⟨hh, hF'⟩
    · cases hz
      apply ring_listInsert (hs.ring h' _ hF)
      exact fun hm => hne (hu h' (mem_members.2 ⟨_, hF, hm⟩)).1
    · rcases update_cases hF' with ⟨-, hz⟩ | ⟨he, hF⟩
      · cases hz
      · exact hother hh he hF
  | remove hF =>
    rcases update_cases hF' with ⟨rfl, hz⟩ | ⟨hh, hF'⟩
    · cases hz
      exact ring_listRemove (hs.ring h' _ hF)
    · rcases update_cases hF' with ⟨rfl, hz⟩ | ⟨he, hF⟩
      · cases hz
        exact ring_listRemove_self m h'
      · exact hother hh he hF

end

theorem insertBefore_of_notMem (hl : l ∉ xs) : insertBefore l e xs = xs := by
  induction xs with
  | nil => rfl
  | cons x xs ih =>
    obtain ⟨hx, hxs⟩ := not_or.1 (mt mem_cons.2 hl)
    rw [insertBefore, if_neg (Ne.symm hx), ih hxs]

theorem insertBefore_append (hl : l ∉ xs) :
    insertBefore l e (xs ++ l :: ys) = xs ++ e :: l :: ys := by
  induction xs with
  | nil => exact if_pos rfl
  | cons x xs ih =>
    obtain ⟨hx, hxs⟩ := not_or.1 (mt mem_cons.2 hl)
    rw [cons_append, insertBefore, if_neg (Ne.symm hx), ih hxs, cons_append]

theorem edit_of_notMem (hout : ∀ x ∈ op.names, x ∉ h :: xs) : edit h xs op = xs := by
  have hne (x) (hx : x ∈ op.names) : h ≠ x := fun hc => hout x hx (hc ▸ mem_cons_self)
  have hnot (x) (hx : x ∈ op.names) : x ∉ xs := fun hm => hout x hx (mem_cons_of_mem _ hm)
  cases op with
  | init => rfl
  | prepend l | append l => exact if_neg (hne l mem_cons_self)
  | insert l =>
    rw [edit, if_neg (hne l mem_cons_self), insertBefore_of_notMem (hnot l mem_cons_self)]
  | remove e => exact erase_of_not_mem (hnot e mem_cons_self)

theorem apply_other (hh : h ≠ op.node)
    (hout : ∀ xs, F h = some xs → ∀ x ∈ op.names, x ∉ h :: xs) : apply F op h = F h := by
  rw [apply, update_of_ne hh]
  cases hF : F h with
  | none => rfl
  | some xs => exact congrArg some (edit_of_notMem (hout xs hF))

theorem apply_own (op : Op α)
    (hout : ∀ h xs, h ≠ op.node → F h = some xs → ∀ x ∈ op.names, x ∉ h :: xs) :
    apply F op = update F op.node op.own := by
  funext h
  by_cases hh : h = op.node
  · rw [hh, apply, update_self, update_self]
  · rw [update_of_ne hh, apply_other hh fun xs => hout h xs hh]

theorem apply_eq (op : Op α) (hF : F h = some xs) (hne : h ≠ op.node)
    (hout : ∀ h' zs, h' ≠ h → h' ≠ op.node → F h' = some zs → ∀ x ∈ op.names, x ∉ h' :: zs) :
    apply F op = update (update F op.node op.own) h (some (edit h xs op)) := by
  funext h'
  by_cases hh : h' = h
  · rw [hh, update_self, apply, update_of_ne hne, hF]
    rfl
  · rw [update_of_ne hh]
    by_cases he : h' = op.node
    · rw [he, apply, update_self, update_self]
    · rw [update_of_ne he, apply_other he fun zs => hout h' zs hh he]

theorem listPrepend_eq (hr : Ring m l xs) (e : α) :
    listPrepend m l e = listInsert m (xs.headD l) e := by
  have hp := (hr.inverse mem_cons_self).1
  rw [← hr.next_head]
  simp only [listPrepend, listInsert, Links.setNext_prev, hp]

theorem Represents.adds (hs : Represents m F) (op : Op α) (xs ys : List α)
    (hu : Unlinked F op.node) (hop : op.own = none ∧ op.names = [l, op.node]) (hl : l ≠ op.node)
    (hF : F h = some (xs ++ ys)) (hm : l ∈ h :: (xs ++ ys))
    (hexec : exec m op = listInsert m (ys.headD h) op.node)
    (hedit : edit h (xs ++ ys) op = xs ++ op.node :: ys) :
    Effect m F op.node h (exec m op) (apply F op) := by
  have hmem : l ∈ members F h := mem_members.2 ⟨_, hF, hm⟩
  have hne : h ≠ op.node := by
    intro hh
    rw [hh] at hmem
    exact hl (hu.own hmem)
  rw [hexec, apply_eq op hF hne, hop.1, hedit]
  · exact .add hF hne hu
  · intro h' zs hh he hF' x hx hz
    rw [hop.2] at hx
    have hz : x ∈ members F h' := mem_members.2 ⟨zs, hF', hz⟩
    rcases mem_cons.1 hx with rfl | hx
    · exact hh (hs.disjoint h' h x hz hmem)
    · rw [mem_singleton.1 hx] at hz
      exact he (hu h' hz).1

omit [DecidableEq α] in
theorem Represents.unlinked (hs : Represents m F) (hF : F e = some []) : Unlinked F e :=
  fun h hm => ⟨hs.disjoint h e e hm (mem_members.2 ⟨[], hF, mem_cons_self⟩), hF⟩

theorem Represents.removed (hs : Represents m F) (hF : F e = some []) :
    listRemove m e = m ∧ apply F (.remove e) = F := by
  refine ⟨listRemove_isolated (hs.ring e [] hF), ?_⟩
  rw [apply_own (.remove e)]
  · exact update_eq_self_iff.2 hF.symm
  · intro h xs hh hF' x hx hm
    cases mem_singleton.1 hx
    exact hh (hs.unlinked hF h (mem_members.2 ⟨xs, hF', hm⟩)).1

theorem Represents.cases (hs : Represents m F) (hp : Permitted F op) :
    ∃ h, Effect m F op.node h (exec m op) (apply F op) ∧
      (h = op.node ∨ ∃ x ∈ op.names, x ∈ members F h) := by
  cases op with
  | init e =>
    refine ⟨e, ?_, .inl rfl⟩
    rw [exec, apply_own (.init e)]
    · exact .init hp
    · intro h xs hh hF x hx hm
      cases mem_singleton.1 hx
      exact hh (hp h (mem_members.2 ⟨xs, hF, hm⟩)).1
  | prepend l e =>
    obtain ⟨hl, hne, hu⟩ := hp
    obtain ⟨xs, hF⟩ := Option.isSome_iff_exists.1 hl
    refine ⟨l, ?_, .inr ⟨l, mem_cons_self, mem_members.2 ⟨xs, hF, mem_cons_self⟩⟩⟩
    apply hs.adds (.prepend l e) [] xs hu ⟨rfl, rfl⟩ hne hF mem_cons_self
    · exact listPrepend_eq (hs.ring l xs hF) e
    · exact if_pos rfl
  | append l e =>
    obtain ⟨hl, hne, hu⟩ := hp
    obtain ⟨xs, hF⟩ := Option.isSome_iff_exists.1 hl
    refine ⟨l, ?_, .inr ⟨l, mem_cons_self, mem_members.2 ⟨xs, hF, mem_cons_self⟩⟩⟩
    rw [← append_nil xs] at hF
    apply hs.adds (.append l e) xs [] hu ⟨rfl, rfl⟩ hne hF mem_cons_self rfl
    rw [append_nil]
    exact if_pos rfl
  | insert l e =>
    obtain ⟨⟨h, hm⟩, hne, hu⟩ := hp
    refine ⟨h, ?_, .inr ⟨l, mem_cons_self, hm⟩⟩
    obtain ⟨zs, hF, hl⟩ := mem_members.1 hm
    by_cases hh : h = l
    · subst hh
      rw [← append_nil zs] at hF
      apply hs.adds (.insert h e) zs [] hu ⟨rfl, rfl⟩ hne hF mem_cons_self rfl
      rw [append_nil]
      exact if_pos rfl
    · obtain ⟨xs, ys, rfl, hx⟩ := eq_append_cons_of_mem ((mem_cons.1 hl).resolve_left (Ne.symm hh))
      apply hs.adds (.insert l e) xs (l :: ys) hu ⟨rfl, rfl⟩ hne hF hl rfl
      rw [edit, if_neg hh, insertBefore_append hx]
      rfl
  | remove e =>
    rcases hp with hF | ⟨h, hne, hm⟩
    · refine ⟨e, ?_, .inl rfl⟩
      have hx := Effect.init (m := m) (hs.unlinked hF)
      rw [listInit_isolated (hs.ring e [] hF), ← hF, update_eq_self] at hx
      rw [exec, (hs.removed hF).1, (hs.removed hF).2]
      exact hx
    · obtain ⟨zs, hF, hz⟩ := mem_members.1 hm
      obtain ⟨xs, ys, rfl, hx⟩ := eq_append_cons_of_mem ((mem_cons.1 hz).resolve_left hne.symm)
      refine ⟨h, ?_, .inr ⟨e, mem_cons_self, hm⟩⟩
      rw [exec, apply_eq (.remove e) hF hne, edit, erase_append_right _ hx, erase_cons_head]
      · exact .remove hF hne
      · intro h' zs hh _ hF' x hx hz
        cases mem_singleton.1 hx
        exact hh (hs.disjoint h' h e (mem_members.2 ⟨zs, hF', hz⟩) hm)

theorem traverse_seg (hs : Seg m h xs l) (hl : l ∉ xs) (hn : xs.length < n) :
    traverse m l n (m.next h) = some xs := by
  induction xs generalizing h n with
  | nil =>
    obtain ⟨n, rfl⟩ := Nat.exists_eq_succ_of_ne_zero (ne_of_gt hn)
    rw [hs.1, traverse, if_pos rfl]
  | cons x xs ih =>
    obtain ⟨n, rfl⟩ := Nat.exists_eq_succ_of_ne_zero (Nat.ne_zero_of_lt hn)
    obtain ⟨hx, hxs⟩ := not_or.1 (mt mem_cons.2 hl)
    rw [hs.1.1, traverse, if_neg (Ne.symm hx), ih hs.2 hxs (Nat.lt_of_succ_lt_succ hn)]
    rfl

theorem Represents.intact (hs : Represents m F) : Intact m F where
  inverse := by
    intro h y hy
    obtain ⟨xs, hF, hy⟩ := mem_members.1 hy
    exact (hs.ring h xs hF).inverse hy
  traversal := by
    intro h xs hF n hn
    exact traverse_seg (hs.ring h xs hF).seg (hs.ring h xs hF).head_notMem hn
  empty := fun h xs hF => listEmpty_iff (hs.ring h xs hF)
  removed := fun e => hs.removed

theorem Represents.permits (hs : Represents m F) (hp : Permits F ops) :
    Represents (ops.foldl exec m) (ops.foldl apply F) ∧
      ∀ y, (∃ h, y ∈ members F h) ∨ (∃ op ∈ ops, op.node = y) →
        ∃ h, y ∈ members (ops.foldl apply F) h := by
  induction ops generalizing m F with
  | nil => exact ⟨hs, fun y hy => hy.resolve_right nofun⟩
  | cons op ops ih =>
    obtain ⟨h, hx, -⟩ := hs.cases hp.1
    obtain ⟨h₀, hm⟩ := hs.moves hx
    obtain ⟨hs', hknown⟩ := ih (hs.effect hx) hp.2
    refine ⟨hs', fun y hy => hknown y ?_⟩
    rcases hy with hy | ⟨op', hop, rfl⟩
    · exact .inl (hm.known (.inl hy))
    · rcases mem_cons.1 hop with rfl | hop
      · exact .inl (hm.known (.inr rfl))
      · exact .inr ⟨op', hop, rfl⟩

theorem Represents.frames (hs : Represents m F) (hp : Permitted F op) : Frame m F op := by
  intro h' zs hF hout
  obtain ⟨h, hx, hh⟩ := hs.cases hp
  have hnode : op.node ∉ h' :: zs := by
    cases op <;> exact hout _ (by simp [Op.names, Op.node])
  apply hs.frame hx hF _ hnode
  rintro rfl
  rcases hh with hh | ⟨x, hxn, hxm⟩
  · exact hnode (hh ▸ mem_cons_self)
  · rw [members_of hF] at hxm
    exact hout x hxn hxm

/-- After any sequence of operations that only add nodes that are unlinked: the lists are intact and
are those of the sequences, every node is in one of them, and a further operation changes no other
list than the one it is on. -/
theorem lists_represent (hs : Represents m F) (hp : Permits F ops) :
    Intact (ops.foldl exec m) (ops.foldl apply F) ∧
      (∀ y, (∃ h, y ∈ members F h) ∨ (∃ op ∈ ops, op.node = y) →
        ∃! h, y ∈ members (ops.foldl apply F) h) ∧
      ∀ op, Permitted (ops.foldl apply F) op → Frame (ops.foldl exec m) (ops.foldl apply F) op := by
  obtain ⟨hs', hknown⟩ := hs.permits hp
  refine ⟨hs'.intact, fun y hy => ?_, fun op => hs'.frames⟩
  obtain ⟨h, hy⟩ := hknown y hy
  exact ⟨h, hy, fun h' hy' => hs'.disjoint h' h y hy' hy⟩

instance [Fintype α] (F : Family α) (e : α) : Decidable (Unlinked F e) :=
  inferInstanceAs (Decidable (∀ h, e ∈ members F h → h = e ∧ F e = some []))

instance [Fintype α] (F : Family α) : (op : Op α) → Decidable (Permitted F op)
  | .init e => inferInstanceAs (Decidable (Unlinked F e))
  | .prepend _ _ | .append _ _ | .insert _ _ => inferInstanceAs (Decidable (_ ∧ _))
  | .remove _ => inferInstanceAs (Decidable (_ ∨ _))

instance decidablePermits [Fintype α] :
    (F : Family α) → (ops : List (Op α)) → Decidable (Permits F ops)
  | _, [] => .isTrue trivial
  | F, op :: ops =>
    have := decidablePermits (apply F op) ops
    inferInstanceAs (Decidable (_ ∧ _))

def sampleOps : List (Op (Fin 5)) :=
  [.init 0, .init 1, .append 0 2, .prepend 0 3, .insert 2 4, .remove 2, .remove 2, .append 1 2]

def sampleLinks : Links (Fin 5) := ⟨fun _ => 0, fun _ => 0⟩

theorem lists_represent_five :
    Intact (sampleOps.foldl exec sampleLinks) (sampleOps.foldl apply fun _ => none) :=
  (lists_represent ⟨nofun, nofun⟩ (by decide +kernel)).1

end
end Mdepx.Rings
