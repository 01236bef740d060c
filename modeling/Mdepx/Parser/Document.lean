import Mdepx.Parser.Basic

namespace Mdepx.Parser
open Lib List

/-! Configuration documents and the trees they stand for. -/

def isPlain (c : Char) : Bool :=
  !isSpace c && !([';', '{', '}', '#', '=', '\'', '"'].contains c)

theorem isPlain_iff : isPlain c = true ↔ isSpace c = false ∧ c ≠ ';' ∧ c ≠ '{' ∧ c ≠ '}' ∧
    c ≠ '#' ∧ c ≠ '=' ∧ c ≠ '\'' ∧ c ≠ '"' := by
  simp [isPlain]

theorem isSpace_of_isPlain (h : isPlain c = true) : isSpace c = false :=
  (isPlain_iff.1 h).1

structure Word where
  text : Str
  ne_nil : text ≠ []
  plain : ∀ c ∈ text, isPlain c = true

inductive Item where
  | tokens (key : Word) (ts : List Word)
  | block (key : Word) (body : List Item)

abbrev Document := List Item

inductive Kind where
  | tokens
  | block
  deriving DecidableEq

def Item.key : Item → Str
  | .tokens k _ => k.text
  | .block k _ => k.text

def Item.kind : Item → Kind
  | .tokens _ _ => .tokens
  | .block _ _ => .block

mutual

def Item.depth : Item → Nat
  | .tokens _ _ => 0
  | .block _ body => depth body + 1

def depth : Document → Nat
  | [] => 0
  | i :: doc => max i.depth (depth doc)

end

def Item.strings (key : Str) : Item → List Str
  | .tokens k ts =>
    if k.text = key then if ts.isEmpty then [[]] else ts.map Word.text else []
  | .block _ _ => []

def Item.items (key : Str) : Item → Document
  | .tokens _ _ => []
  | .block k body => if k.text = key then body else []

def keys (doc : Document) : List Str :=
  (doc.map Item.key).eraseDups

def strings (doc : Document) (key : Str) : List Str :=
  doc.flatMap (Item.strings key)

def context (doc : Document) (key : Str) : Document :=
  doc.flatMap (Item.items key)

def opens (doc : Document) (key : Str) : Bool :=
  doc.any fun i => i.kind = .block && i.key = key

theorem depth_le_iff : depth doc ≤ n ↔ ∀ i ∈ doc, i.depth ≤ n := by
  induction doc with
  | nil => simp [depth]
  | cons i doc ih => rw [depth, Nat.max_le, ih, forall_mem_cons]

theorem depth_mono (h : A ⊆ B) : depth A ≤ depth B :=
  depth_le_iff.2 fun i hi => depth_le_iff.1 (le_refl (depth B)) i (h hi)

theorem opens_iff : opens doc key = true ↔ ∃ k body, .block k body ∈ doc ∧ k.text = key := by
  rw [opens, any_eq_true]
  constructor
  · intro h
    obtain ⟨i, hi, hk⟩ := h
    cases i with
    | tokens => simp [Item.kind] at hk
    | block k body =>
      have he : Item.key (.block k body) = key := by simpa [Item.kind] using hk
      exact ⟨k, body, hi, he⟩
  · intro h
    obtain ⟨k, body, hi, hk⟩ := h
    exact ⟨.block k body, hi, by simp [Item.kind, Item.key, hk]⟩

theorem mem_context :
    i ∈ context doc key ↔ ∃ k body, .block k body ∈ doc ∧ k.text = key ∧ i ∈ body := by
  rw [context, mem_flatMap]
  constructor
  · intro h
    obtain ⟨j, hj, hi⟩ := h
    cases j with
    | tokens => exact absurd hi not_mem_nil
    | block k body =>
      rw [Item.items] at hi
      split at hi
      · rename_i hk
        exact ⟨k, body, hj, hk, hi⟩
      · exact absurd hi not_mem_nil
  · intro h
    obtain ⟨k, body, hj, hk, hi⟩ := h
    refine ⟨.block k body, hj, ?_⟩
    rw [Item.items, if_pos hk]
    exact hi

theorem depth_body_lt (h : .block k body ∈ doc) : depth body < depth doc :=
  depth_le_iff.1 (le_refl (depth doc)) _ h

theorem depth_context_lt (h : opens doc key = true) : depth (context doc key) < depth doc := by
  obtain ⟨k, body, hb, -⟩ := opens_iff.1 h
  have hpos := depth_body_lt hb
  have hle : depth (context doc key) ≤ depth doc - 1 := by
    apply depth_le_iff.2
    intro i hi
    obtain ⟨k, body, hb, -, hi⟩ := mem_context.1 hi
    have hlt := depth_body_lt hb
    have hd := depth_le_iff.1 (le_refl (depth body)) i hi
    omega
  omega

/-- The dictionary that a document stands for: a key has the strings of all its items one after
the other, or the tree of all the items in its blocks. -/
def tree (doc : Document) : Dict :=
  table (keys doc) fun key =>
    if _ : opens doc key = true then .dict (tree (context doc key)) else .list (strings doc key)
termination_by depth doc
decreasing_by exact depth_context_lt ‹_›

def entry (doc : Document) (key : Str) : Value :=
  if opens doc key then .dict (tree (context doc key)) else .list (strings doc key)

theorem entry_of_opens (h : opens doc key = true) :
    entry doc key = .dict (tree (context doc key)) :=
  if_pos h

theorem entry_of_not_opens (h : opens doc key = false) : entry doc key = .list (strings doc key) :=
  if_neg (Bool.eq_false_iff.1 h)

theorem tree_eq (doc : Document) : tree doc = table (keys doc) (entry doc) := by
  rw [tree]
  rfl

theorem mem_keys : key ∈ keys doc ↔ ∃ i ∈ doc, i.key = key := by
  rw [keys, mem_eraseDups, mem_map]

theorem keys_nodup (doc : Document) : (keys doc).Nodup :=
  eraseDups_nodup _

theorem lookup_tree (doc : Document) (key : Str) :
    (tree doc).lookup key = if key ∈ keys doc then some (entry doc key) else none := by
  rw [tree_eq, lookup_table]

section
variable (A B : Document) (key : Str)

theorem strings_append : strings (A ++ B) key = strings A key ++ strings B key :=
  flatMap_append

theorem context_append : context (A ++ B) key = context A key ++ context B key :=
  flatMap_append

theorem opens_append : opens (A ++ B) key = (opens A key || opens B key) :=
  any_append

end

theorem keys_append (A B : Document) :
    keys (A ++ B) = keys A ++ (keys B).filter (· ∉ keys A) := by
  rw [keys, map_append, eraseDups_append_eq]
  rfl

theorem keys_concat (A : Document) (i : Item) : keys (A ++ [i]) = addKey (keys A) i.key := by
  rw [keys, map_append]
  exact eraseDups_concat _ _

section absent

variable (h : key ∉ keys doc)
include h

theorem opens_of_absent : opens doc key = false := by
  rw [Bool.eq_false_iff]
  intro ho
  obtain ⟨k, body, hb, hk⟩ := opens_iff.1 ho
  exact h (mem_keys.2 ⟨_, hb, hk⟩)

theorem strings_of_absent : strings doc key = [] := by
  rw [strings, flatMap_eq_nil_iff]
  intro i hi
  cases i with
  | tokens => exact if_neg fun hk => h (mem_keys.2 ⟨_, hi, hk⟩)
  | block => rfl

theorem context_of_absent : context doc key = [] := by
  rw [context, flatMap_eq_nil_iff]
  intro i hi
  cases i with
  | tokens => rfl
  | block => exact if_neg fun hk => h (mem_keys.2 ⟨_, hi, hk⟩)

theorem entry_append_absent (A : Document) : entry (A ++ doc) key = entry A key := by
  rw [entry, opens_append, context_append, strings_append, opens_of_absent h,
    strings_of_absent h, context_of_absent h, Bool.or_false, append_nil, append_nil]
  rfl

theorem entry_absent_append (B : Document) : entry (doc ++ B) key = entry B key := by
  rw [entry, opens_append, context_append, strings_append, opens_of_absent h,
    strings_of_absent h, context_of_absent h, Bool.false_or]
  rfl

end absent

theorem tree_concat (A : Document) (i : Item) :
    tree (A ++ [i]) = assign (tree A) i.key (entry (A ++ [i]) i.key) := by
  rw [tree_eq, tree_eq, assign_table (keys_nodup A), keys_concat]
  apply table_congr
  intro key hkey
  by_cases hk : key = i.key
  · rw [hk, Function.update_self]
  · rw [Function.update_of_ne hk]
    apply entry_append_absent
    intro h
    obtain ⟨j, hj, he⟩ := mem_keys.1 h
    rw [mem_singleton.1 hj] at he
    exact hk he.symm

inductive Occurs (kind : Kind) : List Str → Document → Prop
  | here (h : i ∈ doc) (hk : i.kind = kind) : Occurs kind [i.key] doc
  | inside (h : .block k body ∈ doc) (ho : Occurs kind path body) :
      Occurs kind (k.text :: path) doc

/-- No key is used with tokens and with a block in one context, where the blocks of one key are
one context. -/
def Consistent (doc : Document) : Prop :=
  ∀ path, ¬ (Occurs .tokens path doc ∧ Occurs .block path doc)

theorem Occurs.mono (h : Occurs kind path A) (hs : A ⊆ B) : Occurs kind path B := by
  cases h with
  | here h hk => exact .here (hs h) hk
  | inside h ho => exact .inside (hs h) ho

theorem Occurs.of_context (h : Occurs kind path (context doc key)) :
    Occurs kind (key :: path) doc := by
  cases h with
  | here h hk =>
    obtain ⟨k, body, hb, rfl, hi⟩ := mem_context.1 h
    exact .inside hb (.here hi hk)
  | inside h ho =>
    obtain ⟨k, body, hb, rfl, hi⟩ := mem_context.1 h
    exact .inside hb (.inside hi ho)

theorem Consistent.mono (h : Consistent B) (hs : A ⊆ B) : Consistent A := by
  intro path ho
  exact h path ⟨ho.1.mono hs, ho.2.mono hs⟩

theorem Consistent.context (h : Consistent doc) (key : Str) : Consistent (context doc key) := by
  intro path ho
  exact h (key :: path) ⟨ho.1.of_context, ho.2.of_context⟩

theorem Consistent.opens_eq (h : Consistent doc) (hi : i ∈ doc) :
    opens doc i.key = decide (i.kind = .block) := by
  cases i with
  | tokens k =>
    rw [decide_eq_false (by nofun), Bool.eq_false_iff]
    intro ho
    obtain ⟨l, body, hb, hl⟩ := opens_iff.1 ho
    have hblock : Occurs .block [k.text] doc := by
      rw [← show l.text = k.text from hl]
      exact .here hb rfl
    exact h _ ⟨.here hi rfl, hblock⟩
  | block k body =>
    rw [decide_eq_true (show Item.kind (.block k body) = .block from rfl)]
    exact opens_iff.2 ⟨k, body, hi, rfl⟩

end Mdepx.Parser
