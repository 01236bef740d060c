import Mdepx.Parser.Document

namespace Mdepx.Parser
open Lib
open List hiding tail

/-! The texts of a document. -/

abbrev Blank (w : Str) : Prop := ∀ c ∈ w, isSpace c = true

def isTab (c : Char) : Bool := c = ' ' || c = '\t'

structure Gap (w : Str) : Prop where
  blank : Blank w
  tab : ∃ c ∈ w, isTab c = true

inductive Tokens : List Word → Str → Prop
  | nil : Tokens [] []
  | cons (t : Word) (hw : Blank w) (hsep : ts ≠ [] → w ≠ []) (h : Tokens ts s) :
      Tokens (t :: ts) (t.text ++ w ++ s)

inductive Writes : Document → Str → Prop
  | nil (hw : Blank w) : Writes [] w
  | tokens (k : Word) (hlead : Blank lead) (hgap : Gap gap) (hts : Tokens ts s)
      (h : Writes doc text) :
      Writes (.tokens k ts :: doc) (lead ++ k.text ++ gap ++ s ++ ';' :: text)
  | block (k : Word) (hlead : Blank lead) (hgap : Gap gap) (hbody : Writes body within)
      (htail : Blank tail) (h : Writes doc text) :
      Writes (.block k body :: doc)
        (lead ++ k.text ++ gap ++ '{' :: within ++ '}' :: tail ++ ';' :: text)

theorem blank_nil : Blank [] := forall_mem_nil _

theorem blank_space : Blank [' '] := forall_mem_singleton.2 rfl

theorem gap_space : Gap [' '] := ⟨blank_space, ' ', mem_singleton_self _, rfl⟩

theorem Blank.append (hv : Blank v) (hw : Blank w) : Blank (v ++ w) := by
  intro c hc
  rcases mem_append.1 hc with hc | hc
  · exact hv c hc
  · exact hw c hc

theorem Writes.blank_append (hw : Blank w) (h : Writes doc text) : Writes doc (w ++ text) := by
  cases h with
  | nil h => exact .nil (hw.append h)
  | tokens k hlead hgap hts h =>
    have hwrites := Writes.tokens k (hw.append hlead) hgap hts h
    simpa only [append_assoc] using hwrites
  | block k hlead hgap hbody htail h =>
    have hwrites := Writes.block k (hw.append hlead) hgap hbody htail h
    simpa only [append_assoc] using hwrites

theorem Writes.append (hA : Writes A s) (hB : Writes B t) : Writes (A ++ B) (s ++ t) := by
  induction hA with
  | nil hw => exact hB.blank_append hw
  | tokens k hlead hgap hts h ih =>
    have hwrites := Writes.tokens k hlead hgap hts ih
    simpa only [append_assoc, cons_append] using hwrites
  | block k hlead hgap hbody htail h ihbody ih =>
    have hwrites := Writes.block k hlead hgap hbody htail ih
    simpa only [append_assoc, cons_append] using hwrites

/-- The characters that the loop of `to_json` only collects, but for a blank after the key. -/
def isText (c : Char) : Bool :=
  !(['#', ';', '=', '{', '}'].contains c)

theorem isText_iff : isText c = true ↔ c ≠ '#' ∧ c ≠ ';' ∧ c ≠ '=' ∧ c ≠ '{' ∧ c ≠ '}' := by
  simp [isText]

theorem isText_of_isPlain (h : isPlain c = true) : isText c = true := by
  obtain ⟨-, hsemi, hopen, hclose, hhash, heq, -⟩ := isPlain_iff.1 h
  exact isText_iff.2 ⟨hhash, hsemi, heq, hopen, hclose⟩

theorem isText_of_isSpace (h : isSpace c = true) : isText c = true := by
  have hspecial : ∀ c ∈ ['#', ';', '=', '{', '}'], isSpace c = false := by
    simp only [forall_mem_cons]
    exact ⟨rfl, rfl, rfl, rfl, rfl, forall_mem_nil _⟩
  rw [isText, Bool.not_eq_true', Bool.eq_false_iff]
  intro hc
  rw [hspecial c (contains_iff_mem.1 hc)] at h
  exact Bool.false_ne_true h

theorem isSpace_of_isTab (h : isTab c = true) : isSpace c = true := by
  rw [isTab, Bool.or_eq_true, decide_eq_true_iff, decide_eq_true_iff] at h
  rcases h with rfl | rfl <;> rfl

theorem Word.isText (k : Word) : ∀ c ∈ k.text, isText c = true :=
  fun c hc => isText_of_isPlain (k.plain c hc)

theorem Blank.isText (h : Blank w) : ∀ c ∈ w, isText c = true :=
  fun c hc => isText_of_isSpace (h c hc)

theorem Tokens.isText (h : Tokens ts s) : ∀ c ∈ s, isText c = true := by
  induction h with
  | nil => exact fun c hc => absurd hc not_mem_nil
  | cons t hw hsep h ih =>
    rw [forall_mem_append, forall_mem_append]
    exact ⟨⟨t.isText, hw.isText⟩, ih⟩

def isBrace (c : Char) : Bool := c == '{' || c == '}'

theorem isBrace_of_isText (h : isText c = true) : isBrace c = false := by
  obtain ⟨-, -, -, hopen, hclose⟩ := isText_iff.1 h
  rw [isBrace, beq_false_of_ne hopen, beq_false_of_ne hclose]
  rfl

theorem head_item (k : Word) (hlead : Blank lead) (hc : (lead ++ k.text ++ s).head? = some c) :
    isText c = true := by
  have hne : lead ++ k.text ≠ [] := by simp [k.ne_nil]
  rw [head?_append_of_ne_nil _ hne] at hc
  rcases mem_append.1 (mem_of_head? hc) with hmem | hmem
  · exact hlead.isText c hmem
  · exact k.isText c hmem

theorem last_item (ih : text.getLast? = some c → isBrace c = false)
    (hc : (s ++ ';' :: text).getLast? = some c) : isBrace c = false := by
  rw [getLast?_append_of_ne_nil _ (cons_ne_nil _ _)] at hc
  cases text with
  | nil =>
    cases hc
    rfl
  | cons => exact ih hc

theorem Writes.head_text (h : Writes doc text) (hc : text.head? = some c) : isText c = true := by
  cases h with
  | nil hw => exact hw.isText c (mem_of_head? hc)
  | tokens k hlead =>
    rw [append_assoc, append_assoc] at hc
    exact head_item k hlead hc
  | block k hlead =>
    rw [append_assoc, append_assoc, append_assoc] at hc
    exact head_item k hlead hc

theorem Writes.last_text (h : Writes doc text) (hc : text.getLast? = some c) :
    isBrace c = false := by
  induction h with
  | nil hw => exact isBrace_of_isText (hw.isText c (mem_of_getLast? hc))
  | tokens _ _ _ _ _ ih | block _ _ _ _ _ _ _ ih => exact last_item ih hc

end Mdepx.Parser
