import Mdepx.Parser.Comments

namespace Mdepx.Parser
open Lib List Option

/-! The texts on which the parser does not raise an exception. -/

/-- Why the loop of `to_json` leaves a text before its end: a character behind a closing brace that
has no counterpart, a comment that is not ended, or a block nested too deep. -/
inductive Ending where
  | overrun
  | unended
  | nested
  deriving DecidableEq

/-- What is found in a text, with the text of its blocks. -/
inductive Part where
  | strings (key : Str)
  | block (key : Str) (inner : List Part)
  | stop (e : Ending)

section

variable (part : Str → Str → Part)

mutual

def pieces (s : Scan) : Str → List Part
  | [] => []
  | c :: data =>
    if s.depth < 0 then [.stop .overrun]
    else if c = '#' ∧ s.depth = 0 then commentPieces s data
    else if (c = ';' ∨ data = []) ∧ s.depth = 0 then
      if s.close.key = [] then pieces s.close data
      else part s.close.key s.close.val :: pieces { s.close with key := [], val := [] } data
    else if c = '=' ∧ strip isSpace s.tmp = [] then pieces s data
    else pieces (s.push c) data

def commentPieces (s : Scan) : Str → List Part
  | [] => [.stop .unended]
  | c :: data => if c = '\n' then pieces s data else commentPieces s data

end

end

def partOf (outline : Str → List Part) (key val : Str) : Part :=
  if (strip isSpace val).head? = some '{' then
    .block (strip isSpace key) (outline (strip isBrace (strip isSpace val)))
  else .strings (strip isSpace key)

def outline : Nat → Str → List Part
  | 0, _ => [.stop .nested]
  | limit + 1, text => pieces (partOf (outline limit)) .start text

/-- Says for every path of keys whether strings or a block are found there. -/
abbrev Kinds := List Str → Option Kind

namespace Kinds

def sub (κ : Kinds) (k : Str) : Kinds := fun path => κ (k :: path)

def absent : Kinds := fun _ => none

def leaf : Kinds
  | [] => some .tokens
  | _ :: _ => none

def under (k : Str) (κ : Kinds) : Kinds
  | [] => some .block
  | l :: path => if l = k then κ path else none

/-- What is there stays, and blocks get what they do not have. -/
def overlay (κ φ : Kinds) : Kinds
  | [] => (κ []).or (φ [])
  | k :: path =>
    match κ [] with
    | none => φ (k :: path)
    | some .tokens => none
    | some .block => overlay (κ.sub k) (φ.sub k) path

/-- Strings are given for a path at which there is a block. -/
def Clash (κ φ : Kinds) : Prop := ∃ path, κ path = some .block ∧ φ path = some .tokens

end Kinds

open Kinds

def Value.kinds : Value → Kinds
  | .list _, [] => some .tokens
  | .list _, _ :: _ => none
  | .dict _, [] => some .block
  | .dict d, k :: path =>
    match d.lookup k with
    | none => none
    | some v => v.kinds path

def Dict.kinds (d : Dict) : Kinds := (Value.dict d).kinds

mutual

def Part.kinds : Part → Kinds
  | .strings k => under k leaf
  | .block k inner => under k (kindsAfter (Dict.kinds []) inner)
  | .stop _ => Dict.kinds []

def kindsAfter (κ : Kinds) : List Part → Kinds
  | [] => κ
  | e :: es => kindsAfter (κ.overlay e.kinds) es

end

mutual

/-- A closing brace too much is found in it. -/
def Part.Fails : Part → Prop
  | .strings _ => False
  | .block _ inner => Fails inner
  | .stop e => e = .overrun

def Fails : List Part → Prop
  | [] => False
  | e :: es => e.Fails ∨ Fails es

end

mutual

def Part.Sound (κ : Kinds) : Part → Prop
  | .strings k => ¬Clash κ (under k leaf)
  | .block k inner =>
    Sound (Dict.kinds []) inner ∧ (¬Fails inner →
      ¬Clash κ (under k (kindsAfter (Dict.kinds []) inner)) ∧ (κ [k] = some .tokens → inner = []))
  | .stop e => e = .overrun

/-- Up to the first closing brace too much every comment is ended and blocks are not nested too
deep, no strings are given where there is a block, and no block that is not empty is given for a
key that has strings in the same text. -/
def Sound (κ : Kinds) : List Part → Prop
  | [] => True
  | e :: es => e.Sound κ ∧ (¬e.Fails → Sound (κ.overlay e.kinds) es)

end

/-- The braces outside comments are balanced. -/
def paired (n : Int) (comment : Bool) : Str → Bool
  | [] => n = 0
  | c :: s =>
    if comment then paired n (c ≠ '\n') s
    else if c = '#' then paired n true s
    else 0 ≤ n + brace c && paired (n + brace c) false s

theorem overlay_absent (φ : Kinds) : absent.overlay φ = φ := by
  funext path
  cases path <;> rfl

theorem kinds_list (ss : List Str) : (Value.list ss).kinds = leaf := by
  funext path
  cases path <;> rw [Value.kinds, leaf]

theorem overlay_leaf (φ : Kinds) : leaf.overlay φ = leaf := by
  funext path
  cases path <;> rfl

def kindsOf : Option Value → Kinds
  | none => absent
  | some v => v.kinds

theorem kinds_cons (d : Dict) (k : Str) (path : List Str) :
    d.kinds (k :: path) = kindsOf (d.lookup k) path := by
  rw [Dict.kinds, Value.kinds]
  cases d.lookup k <;> rfl

theorem sub_kinds (d : Dict) (k : Str) : d.kinds.sub k = kindsOf (d.lookup k) :=
  funext fun path => kinds_cons d k path

theorem kinds_nil (d : Dict) : d.kinds [] = some .block := by
  rw [Dict.kinds, Value.kinds]

theorem kinds_overlay_cons (d : Dict) (φ : Kinds) (k : Str) (path : List Str) :
    d.kinds.overlay φ (k :: path) = (kindsOf (d.lookup k)).overlay (φ.sub k) path := by
  rw [overlay, kinds_nil, ← sub_kinds]

theorem kinds_eq_overlay {d e : Dict} {φ : Kinds}
    (h : ∀ k, kindsOf (e.lookup k) = (kindsOf (d.lookup k)).overlay (φ.sub k)) :
    e.kinds = d.kinds.overlay φ := by
  funext path
  cases path with
  | nil => rw [overlay, kinds_nil, kinds_nil, some_or]
  | cons k path => rw [kinds_overlay_cons, kinds_cons, h]

theorem overlay_absent_right (u : Option Value) : (kindsOf u).overlay absent = kindsOf u := by
  funext path
  induction path generalizing u with
  | nil =>
    rw [overlay]
    exact or_none
  | cons k path ih =>
    rcases u with - | (ss | d)
    · rfl
    · change (Value.list ss).kinds.overlay absent (k :: path) = (Value.list ss).kinds (k :: path)
      rw [kinds_list, overlay_leaf]
    · change (Dict.kinds d).overlay absent (k :: path) = Dict.kinds d (k :: path)
      rw [kinds_overlay_cons, kinds_cons]
      exact ih _

theorem kinds_assign_over {d : Dict} {v : Value} {φ : Kinds}
    (h : v.kinds = (kindsOf (d.lookup k)).overlay φ) :
    Dict.kinds (assign d k v) = d.kinds.overlay (under k φ) := by
  apply kinds_eq_overlay
  intro l
  by_cases hl : l = k
  · subst l
    have hsub : (under k φ).sub k = φ := funext fun _ => if_pos rfl
    rw [lookup_assign, hsub]
    exact h
  · have hsub : (under k φ).sub l = absent := funext fun _ => if_neg hl
    rw [lookup_assign_of_ne _ hl, hsub, overlay_absent_right]

theorem not_clash_leaf (φ : Kinds) : ¬Clash leaf φ := by
  rintro ⟨path, h, -⟩
  cases path <;> cases h

theorem not_clash_absent (φ : Kinds) : ¬Clash absent φ := by
  rintro ⟨path, h, -⟩
  cases h

theorem clash_under {d : Dict} : Clash d.kinds (under k φ) ↔ Clash (kindsOf (d.lookup k)) φ := by
  constructor
  · rintro ⟨path, h, hφ⟩
    cases path with
    | nil => cases hφ
    | cons l path =>
      by_cases hl : l = k
      · subst l
        rw [kinds_cons] at h
        exact ⟨path, h, (if_pos rfl).symm.trans hφ⟩
      · cases (if_neg hl).symm.trans hφ
  · rintro ⟨path, h, hφ⟩
    exact ⟨k :: path, (kinds_cons d k path).trans h, (if_pos rfl).trans hφ⟩

theorem clash_kinds {d e : Dict} :
    Clash d.kinds e.kinds ↔ ∃ k, Clash (kindsOf (d.lookup k)) (kindsOf (e.lookup k)) := by
  constructor
  · rintro ⟨path, h, he⟩
    cases path with
    | nil =>
      rw [kinds_nil] at he
      cases he
    | cons k path =>
      rw [kinds_cons] at h he
      exact ⟨k, path, h, he⟩
  · rintro ⟨k, path, h, he⟩
    exact ⟨k :: path, (kinds_cons d k path).trans h, (kinds_cons e k path).trans he⟩

mutual

def Value.Proper : Value → Prop
  | .list _ => True
  | .dict d => Dict.Proper d

def Dict.Proper : Dict → Prop
  | [] => True
  | (k, v) :: d => d.lookup k = none ∧ v.Proper ∧ Dict.Proper d

end

theorem Dict.Proper.lookup {d : Dict} (h : d.Proper) (hk : d.lookup k = some v) : v.Proper := by
  induction d with
  | nil => cases hk
  | cons e d ih =>
    obtain ⟨l, u⟩ := e
    rw [lookup_cons] at hk
    split at hk
    · cases hk
      exact h.2.1
    · exact ih h.2.2 hk

theorem Dict.Proper.assign {d : Dict} {v : Value} (h : d.Proper) (hv : v.Proper) :
    Dict.Proper (assign d k v) := by
  induction d with
  | nil => exact ⟨rfl, hv, trivial⟩
  | cons e d ih =>
    obtain ⟨l, u⟩ := e
    rw [Lib.assign]
    split
    · rename_i hl
      exact ⟨eq_of_beq hl ▸ h.1, hv, h.2.2⟩
    · rename_i hl
      have hne : l ≠ k := fun he => hl (he ▸ beq_self_eq_true l)
      exact ⟨(lookup_assign_of_ne d hne v).trans h.1, h.2.1, ih h.2.2⟩

/-- Adding `φ` to `κ` raises an exception if they clash, and else leaves a value with both. -/
def Adds (κ φ : Kinds) (kinds : α → Kinds) (proper : α → Prop) (r : Except Exn α) : Prop :=
  Clash κ φ ∧ (∃ x, r = .error x) ∨ ¬Clash κ φ ∧ ∃ c, r = .ok c ∧ kinds c = κ.overlay φ ∧ proper c

theorem lookup_cons_ne (h : l ≠ k) (v : Value) (d : Dict) :
    lookup l ((k, v) :: d) = d.lookup l := by
  rw [lookup_cons, beq_false_of_ne h]

section
variable {a b : Dict} {v w : Value} (hk : b.lookup key = none)
  (hw : w.kinds = (kindsOf (a.lookup key)).overlay v.kinds)
include hk

theorem clash_assign (hc : ¬Clash (kindsOf (a.lookup key)) v.kinds) :
    Clash (Dict.kinds (assign a key w)) b.kinds ↔ Clash a.kinds (Dict.kinds ((key, v) :: b)) := by
  rw [clash_kinds, clash_kinds]
  apply exists_congr
  intro l
  by_cases hl : l = key
  · subst l
    rw [hk, lookup_cons_self]
    apply iff_of_false _ hc
    rintro ⟨path, -, h⟩
    cases h
  · rw [lookup_assign_of_ne _ hl, lookup_cons_ne hl]

include hw

theorem overlay_assign : (Dict.kinds (assign a key w)).overlay b.kinds =
    a.kinds.overlay (Dict.kinds ((key, v) :: b)) := by
  funext path
  cases path with
  | nil => simp only [overlay, kinds_nil, some_or]
  | cons l path =>
    rw [kinds_overlay_cons, kinds_overlay_cons, sub_kinds, sub_kinds]
    by_cases hl : l = key
    · subst l
      rw [hk, lookup_assign, lookup_cons_self]
      change (kindsOf (some w)).overlay absent path = _
      rw [overlay_absent_right]
      exact congrFun hw path
    · rw [lookup_assign_of_ne _ hl, lookup_cons_ne hl]

theorem Adds.cons (hc : ¬Clash (kindsOf (a.lookup key)) v.kinds) (hp : a.Proper → w.Proper)
    (h : Adds (Dict.kinds (assign a key w)) b.kinds Dict.kinds
      (fun c => Dict.Proper (assign a key w) → c.Proper) r) :
    Adds a.kinds (Dict.kinds ((key, v) :: b)) Dict.kinds (fun c => a.Proper → c.Proper) r := by
  rw [Adds, clash_assign hk hc, overlay_assign hk hw] at h
  refine h.imp_right fun ⟨hclash, c, hr, hkinds, hproper⟩ => ?_
  exact ⟨hclash, c, hr, hkinds, fun ha => hproper (ha.assign (hp ha))⟩

end

mutual

theorem merge_adds : ∀ {a b : Dict}, b.Proper →
    Adds a.kinds b.kinds Dict.kinds (fun c => a.Proper → c.Proper) (merge a b)
  | a, [], _ => by
    refine .inr ⟨?_, a, merge.eq_1 a, ?_, id⟩
    · rw [clash_kinds]
      rintro ⟨k, path, -, h⟩
      cases h
    · apply kinds_eq_overlay
      intro k
      rw [sub_kinds]
      exact (overlay_absent_right _).symm
  | a, (key, v) :: b, ⟨hk, hv, hb⟩ => by
    rcases hu : a.lookup key with - | u
    · rw [merge_cons_new hu]
      refine (merge_adds hb).cons hk ?_ ?_ fun _ => hv
      · rw [hu]
        exact (overlay_absent _).symm
      · rw [hu]
        exact not_clash_absent _
    · rcases mergeEntry_adds (u := u) hv with ⟨hc, x, hx⟩ | ⟨hc, w, hx, hw, hp⟩
      · refine .inl ⟨clash_kinds.2 ⟨key, ?_⟩, x, ?_⟩
        · rw [hu, lookup_cons_self]
          exact hc
        · rw [merge, hu]
          dsimp only
          rw [hx]
          rfl
      · rw [merge_cons_old hu hx]
        refine (merge_adds hb).cons hk ?_ ?_ fun ha => hp (ha.lookup hu)
        · rw [hu]
          exact hw
        · rw [hu]
          exact hc

theorem mergeEntry_adds : ∀ {u v : Value}, v.Proper →
    Adds u.kinds v.kinds Value.kinds (fun w => u.Proper → w.Proper) (mergeEntry u v)
  | .list xs, v, _ => by
    have hr : ∃ zs, mergeEntry (.list xs) v = .ok (.list zs) := by
      cases v with
      | list ys => exact ⟨_, mergeEntry.eq_2 xs ys⟩
      | dict b => exact ⟨_, mergeEntry.eq_3 xs b⟩
    obtain ⟨zs, hr⟩ := hr
    rw [Adds, kinds_list, overlay_leaf]
    exact .inr ⟨not_clash_leaf _, .list zs, hr, kinds_list zs, fun _ => trivial⟩
  | .dict a, .list ys, _ => by
    refine .inl ⟨⟨[], kinds_nil a, ?_⟩, .typeError, mergeEntry.eq_4 a ys⟩
    rw [kinds_list, leaf]
  | .dict a, .dict b, hb => by
    rw [mergeEntry]
    rcases merge_adds (a := a) (b := b) hb with ⟨hc, x, hx⟩ | ⟨hc, c, hx, hkinds, hp⟩
    · exact .inl ⟨hc, x, by rw [hx]; rfl⟩
    · exact .inr ⟨hc, .dict c, by rw [hx]; rfl, hkinds, hp⟩

end

theorem append_adds (k : Str) (d : Dict) (t : Str) (ts : List Str) :
    Adds d.kinds (under k leaf) Dict.kinds (fun c => d.Proper → c.Proper)
      ((t :: ts).foldlM (append k) d) := by
  have hassign {ss : List Str} (h : Holds d k ss) (hc : ¬Clash (kindsOf (d.lookup k)) leaf)
      (hk : (kindsOf (d.lookup k)).overlay leaf = leaf) :
      Adds d.kinds (under k leaf) Dict.kinds (fun c => d.Proper → c.Proper)
        ((t :: ts).foldlM (append k) d) := by
    refine .inr ⟨mt clash_under.1 hc, _, foldlM_append h ts t, kinds_assign_over ?_,
      fun h => h.assign trivial⟩
    rw [hk, kinds_list]
  rcases hu : d.lookup k with - | (ss | e)
  · apply hassign (.inr ⟨hu, rfl⟩) <;> rw [hu]
    · exact not_clash_absent _
    · exact overlay_absent _
  · have hleaf : kindsOf (some (.list ss)) = leaf := kinds_list ss
    apply hassign (.inl hu) <;> rw [hu, hleaf]
    · exact not_clash_leaf _
    · exact overlay_leaf _
  · refine .inl ⟨clash_under.2 ⟨[], ?_, rfl⟩, .attributeError, ?_⟩
    · rw [hu]
      exact kinds_nil e
    · rw [foldlM_cons, append, hu]
      rfl

def Outcome (κ : Kinds) (es : List Part) (d : Dict) (r : Except Exn (Bool × Dict)) : Prop :=
  Sound κ es ∧ (∃ b d', r = .ok (b, d') ∧ (b = false ↔ Fails es) ∧
    (b = true → Dict.kinds d' = kindsAfter κ es ∧ (d.Proper → Dict.Proper d'))) ∨
  ¬Sound κ es ∧ ∃ x, r = .error x

theorem kindsAfter_single (κ : Kinds) (e : Part) : kindsAfter κ [e] = κ.overlay e.kinds := by
  rw [kindsAfter, kindsAfter]

theorem sound_single : Sound κ [e] ↔ e.Sound κ := by
  rw [Sound, Sound]
  exact ⟨And.left, fun h => ⟨h, fun _ => trivial⟩⟩

theorem fails_single : Fails [e] ↔ e.Fails := by
  rw [Fails, Fails, or_false]

theorem processKv_strings (read : Dict → Str → Except Exn (Bool × Dict)) (d : Dict) (key : Str)
    (hv : (strip isSpace val).head? ≠ some '{') : ∃ t ts, processKv read d key val =
      ((t :: ts).foldlM (append (strip isSpace key)) d >>= fun d => pure (true, d)) := by
  rcases hm : strip isSpace val with - | ⟨c, m⟩
  · refine ⟨[], [], ?_⟩
    rw [processKv, hm, foldlM_cons]
    change (append _ d [] >>= _) = _
    rcases append (strip isSpace key) d [] with e | e <;> rfl
  · rw [hm, head?_cons] at hv
    by_cases hc : c = '\''
    · refine ⟨strip (· == '\'') (c :: m), [], ?_⟩
      rw [processKv, hm, hc, foldlM_cons]
      change (append _ d _ >>= _) = _
      rcases append (strip isSpace key) d _ with e | e <;> rfl
    · obtain ⟨t, ts, hw⟩ := exists_cons_of_ne_nil (words_cons_ne_nil (strip_head hm) m)
      refine ⟨t, ts, ?_⟩
      rw [← hw]
      exact processKv_words read hm (fun h => hv (h ▸ rfl)) hc

theorem processKv_of_block (read : Dict → Str → Except Exn (Bool × Dict))
    (hv : (strip isSpace val).head? = some '{') : processKv read d key val =
      (read [] (strip isBrace (strip isSpace val)) >>= fun (success, f) =>
        if success then place (strip isSpace key) d f >>= fun d => pure (true, d)
        else pure (false, d)) := by
  obtain ⟨m, hm⟩ := head?_eq_some_iff.1 hv
  rw [processKv, hm]
  rfl

theorem overlay_nil {κ : Kinds} (h : κ [] = some .block) (φ : Kinds) :
    κ.overlay φ [] = some .block := by
  rw [overlay, h, some_or]

theorem kindsAfter_nil (h : κ [] = some .block) : kindsAfter κ es [] = some .block := by
  induction es generalizing κ with
  | nil => rwa [kindsAfter]
  | cons e es ih =>
    rw [kindsAfter]
    exact ih (overlay_nil h _)

theorem kinds_of_kindsAfter (hb : κ [] = some .block) (h : kindsAfter κ es [k] = none) :
    κ [k] = none := by
  induction es generalizing κ with
  | nil => rwa [kindsAfter] at h
  | cons e es ih =>
    rw [kindsAfter] at h
    have hkey := ih (overlay_nil hb _) h
    rw [overlay, hb] at hkey
    exact (or_eq_none_iff.1 hkey).1

theorem eq_nil_iff_of_kindsAfter {f : Dict} {inner : List Part}
    (hs : Sound (Dict.kinds []) inner) (hf : ¬Fails inner)
    (hk : f.kinds = kindsAfter (Dict.kinds []) inner) : f = [] ↔ inner = [] := by
  constructor
  · rintro rfl
    cases inner with
    | nil => rfl
    | cons e es =>
      rw [Fails, not_or] at hf
      rw [Sound] at hs
      rw [kindsAfter] at hk
      have hnone (k : Str) : e.kinds [k] = none := by
        have hkey : (Dict.kinds []).overlay e.kinds [k] = none := by
          have hafter : kindsAfter ((Dict.kinds []).overlay e.kinds) es [k] = none := by
            rw [← hk, kinds_cons]
            rfl
          exact kinds_of_kindsAfter (overlay_nil (kinds_nil []) _) hafter
        rw [kinds_overlay_cons] at hkey
        exact hkey
      cases e with
      | strings k =>
        have hkey := hnone k
        rw [Part.kinds, under, if_pos rfl] at hkey
        cases hkey
      | block k body =>
        have hkey := hnone k
        rw [Part.kinds, under, if_pos rfl] at hkey
        cases (kindsAfter_nil (kinds_nil [])).symm.trans hkey
      | stop e => exact absurd (Part.Sound.eq_3 (Dict.kinds []) e ▸ hs.1) (Part.Fails.eq_3 e ▸ hf.1)
  · rintro rfl
    rw [kindsAfter] at hk
    cases f with
    | nil => rfl
    | cons e f =>
      have hkey := congrFun hk [e.1]
      rw [kinds_cons, kinds_cons, lookup_cons_self] at hkey
      cases e with
      | mk k v => cases v <;> cases hkey

theorem place_adds {d f : Dict} (hf : f.Proper) (k : Str) :
    (Clash d.kinds (under k f.kinds) ∨ d.kinds [k] = some .tokens ∧ f ≠ []) ∧
        (∃ x, place k d f = .error x) ∨
      ¬(Clash d.kinds (under k f.kinds) ∨ d.kinds [k] = some .tokens ∧ f ≠ []) ∧
        ∃ c, place k d f = .ok c ∧ Dict.kinds c = d.kinds.overlay (under k f.kinds) ∧
          (d.Proper → Dict.Proper c) := by
  rw [clash_under, kinds_cons, place]
  rcases hu : d.lookup k with - | (ss | e)
  · refine .inr ⟨?_, _, rfl, kinds_assign_over ?_, fun h => h.assign hf⟩
    · rintro (h | ⟨h, -⟩)
      · exact not_clash_absent _ h
      · cases h
    · rw [hu]
      exact (overlay_absent _).symm
  · have hleaf : kindsOf (some (.list ss)) = leaf := kinds_list ss
    rw [hleaf]
    cases f with
    | nil =>
      refine .inr ⟨?_, _, rfl, ?_, ?_⟩
      · rintro (h | ⟨-, h⟩)
        · exact not_clash_leaf _ h
        · exact h rfl
      · apply kinds_assign_over
        rw [hu, hleaf, overlay_leaf, kinds_list]
      · exact fun h => h.assign trivial
    | cons => exact .inl ⟨.inr ⟨rfl, cons_ne_nil _ _⟩, _, rfl⟩
  · dsimp only
    rw [mergeInto]
    have hblock : ¬(kindsOf (some (.dict e)) [] = some .tokens ∧ f ≠ []) := by
      rintro ⟨h, -⟩
      cases (kinds_nil e).symm.trans h
    rw [or_iff_left hblock]
    rcases merge_adds (a := e) hf with ⟨hc, x, hx⟩ | ⟨hc, c, hx, hkinds, hp⟩
    · exact .inl ⟨hc, x, by rw [hx]; rfl⟩
    · refine .inr ⟨hc, assign d k (.dict c), by rw [hx]; rfl, kinds_assign_over ?_, ?_⟩
      · rw [hu]
        exact hkinds
      · exact fun h => h.assign (hp (h.lookup hu))

theorem processKv_outcome {read : Dict → Str → Except Exn (Bool × Dict)} {inner : Str → List Part}
    (hread : ∀ text, Outcome (Dict.kinds []) (inner text) [] (read [] text)) (d : Dict)
    (key val : Str) :
    Outcome d.kinds [partOf inner key val] d (processKv read d key val) := by
  rw [Outcome, sound_single, fails_single, kindsAfter_single, partOf]
  split
  · rename_i hv
    rw [processKv_of_block read hv, Part.Sound, Part.Fails, Part.kinds]
    rcases hread (strip isBrace (strip isSpace val)) with ⟨hs, b, f, hr, hb, hf⟩ | ⟨hs, x, hr⟩
    · rw [hr]
      cases b with
      | false =>
        have hfails := hb.1 rfl
        exact .inl ⟨⟨hs, fun h => absurd hfails h⟩, false, d, rfl, hb, fun h => by cases h⟩
      | true =>
        have hfails : ¬Fails _ := mt hb.2 Bool.noConfusion
        obtain ⟨hkinds, hproper⟩ := hf rfl
        have hempty := eq_nil_iff_of_kindsAfter hs hfails hkinds
        rw [← hkinds, ← hempty]
        rcases place_adds (d := d) (hproper trivial) (strip isSpace key) with
          ⟨hc, x, hx⟩ | ⟨hc, c, hx, hover, hp⟩
        · refine .inr ⟨fun h => ?_, x, ?_⟩
          · obtain ⟨hclash, hnil⟩ := h.2 hfails
            rcases hc with hc | ⟨htokens, hne⟩
            · exact hclash hc
            · exact hne (hnil htokens)
          · change (place _ d f >>= _) = _
            rw [hx]
            rfl
        · rw [not_or, not_and, not_not] at hc
          refine .inl ⟨⟨hs, fun _ => hc⟩, true, c, ?_, hb, fun _ => ⟨hover, hp⟩⟩
          change (place _ d f >>= _) = _
          rw [hx]
          rfl
    · rw [hr]
      exact .inr ⟨fun h => hs h.1, x, rfl⟩
  · rename_i hv
    obtain ⟨t, ts, hr⟩ := processKv_strings read d key hv
    rw [hr, Part.Sound, Part.Fails, Part.kinds]
    rcases append_adds (strip isSpace key) d t ts with ⟨hc, x, hx⟩ | ⟨hc, c, hx, hkinds, hp⟩
    · rw [hx]
      exact .inr ⟨not_not.2 hc, x, rfl⟩
    · rw [hx]
      exact .inl ⟨hc, true, c, rfl, by simp, fun _ => ⟨hkinds, hp⟩⟩

theorem Outcome.cons {next : Dict → Except Exn (Bool × Dict)} (h : Outcome κ [e] d r)
    (hnext : ∀ d' : Dict, d'.kinds = κ.overlay e.kinds → Outcome d'.kinds es d' (next d')) :
    Outcome κ (e :: es) d (r >>= fun (success, d) =>
      if success then next d else pure (false, d)) := by
  rw [Outcome, sound_single, fails_single, kindsAfter_single] at h
  rw [Outcome, Sound, Fails, kindsAfter]
  rcases h with ⟨hs, b, d', rfl, hb, hd⟩ | ⟨hs, x, rfl⟩
  · cases b with
    | false =>
      have hfails := hb.1 rfl
      exact .inl ⟨⟨hs, fun h => absurd hfails h⟩, false, d', rfl, by simp [hfails], nofun⟩
    | true =>
      have hfails : ¬e.Fails := mt hb.2 Bool.noConfusion
      obtain ⟨hkinds, hproper⟩ := hd rfl
      have hrest := hnext d' hkinds
      rw [hkinds] at hrest
      rcases hrest with ⟨hs', b, d'', hr, hb', hd'⟩ | ⟨hs', hr⟩
      · refine .inl ⟨⟨hs, fun _ => hs'⟩, b, d'', hr, by simp [hfails, hb'], fun h => ?_⟩
        exact ⟨(hd' h).1, fun hp => (hd' h).2 (hproper hp)⟩
      · exact .inr ⟨fun h => hs' (h.2 hfails), hr⟩
  · exact .inr ⟨fun h => hs h.1, x, rfl⟩

theorem scan_outcome {process : Dict → Str → Str → Except Exn (Bool × Dict)}
    {part : Str → Str → Part}
    (hp : ∀ (d : Dict) key val, Outcome d.kinds [part key val] d (process d key val)) (data : Str) :
    (∀ (s : Scan) (d : Dict), Outcome d.kinds (pieces part s data) d (scan process d s data)) ∧
    ∀ (s : Scan) (d : Dict),
      Outcome d.kinds (commentPieces part s data) d (comment process d s data) := by
  induction data with
  | nil =>
    constructor
    · intro s d
      rw [pieces, scan]
      refine .inl ⟨by rw [Sound]; trivial, true, d, rfl, by rw [Fails]; simp, fun _ => ?_⟩
      rw [kindsAfter]
      exact ⟨rfl, id⟩
    · intro s d
      rw [commentPieces, comment]
      refine .inr ⟨?_, .indexError, rfl⟩
      rw [sound_single, Part.Sound]
      exact Ending.noConfusion
  | cons c data ih =>
    constructor
    · intro s d
      rw [pieces, scan]
      split
      · refine .inl ⟨?_, false, d, rfl, ?_, fun h => absurd h Bool.false_ne_true⟩
        · rw [sound_single, Part.Sound]
        · rw [fails_single, Part.Fails]
          exact iff_of_true rfl rfl
      split
      · exact ih.2 s d
      split
      · split
        · exact ih.1 s.close d
        · exact (hp d _ _).cons fun d' _ => ih.1 _ d'
      split
      · exact ih.1 s d
      · exact ih.1 (s.push c) d
    · intro s d
      rw [commentPieces, comment]
      split
      · exact ih.1 s d
      · exact ih.2 s d

theorem toJson_outcome (limit : Nat) (d : Dict) (text : Str) :
    Outcome d.kinds (outline limit text) d (toJson limit d text) := by
  induction limit generalizing d text with
  | zero =>
    refine .inr ⟨?_, .recursionError, rfl⟩
    rw [outline, sound_single, Part.Sound]
    exact Ending.noConfusion
  | succ limit ih => exact (scan_outcome (processKv_outcome (ih [])) text).1 .start d

/-- `to_json` returns without an exception exactly if what it finds is sound, and a text whose
braces are not balanced is refused exactly if a closing brace too much is found. -/
theorem toJson_total (limit : Nat) (d : Dict) (text : Str) :
    (∃ b d', toJson limit d text = .ok (b, d') ∧ (paired 0 false text = false → b = false)) ↔
      Sound d.kinds (outline limit text) ∧
        (paired 0 false text = false → Fails (outline limit text)) := by
  rcases toJson_outcome limit d text with ⟨hs, b, d', hr, hb, -⟩ | ⟨hs, x, hr⟩
  · rw [hr, ← hb]
    constructor
    · rintro ⟨b, d', he, hfalse⟩
      cases he
      exact ⟨hs, hfalse⟩
    · exact fun h => ⟨b, d', rfl, h.2⟩
  · rw [hr]
    constructor
    · rintro ⟨b, d', he, -⟩
      cases he
    · exact fun h => absurd h.1 hs

theorem toJson_total_sample :
    Sound (Dict.kinds []) (outline 9 "a b; a \x7b \x7d; \x7d f".toList) ∧
      Fails (outline 9 "a b; a \x7b \x7d; \x7d f".toList) := by
  obtain ⟨hs, hf⟩ := (toJson_total 9 [] "a b; a \x7b \x7d; \x7d f".toList).1
    ⟨false, [(['a'], .list [['b']])], by decide +kernel, fun _ => rfl⟩
  exact ⟨hs, hf (by decide +kernel)⟩

/-- The end of the text in a comment and a key of two kinds raise exceptions, and a block that is
not closed is not found. -/
theorem toJson_raises :
    toJson 9 [] "#".toList = .error .indexError ∧
      toJson 9 [] "a b; a \x7b c d; \x7d;".toList = .error .typeError ∧
      toJson 9 [] "a \x7b c d; \x7d; a b;".toList = .error .attributeError ∧
      toJson 9 [] "a \x7b c d;".toList = .ok (true, []) := by
  refine ⟨?_, ?_, ?_, ?_⟩ <;> decide +kernel

end Mdepx.Parser
