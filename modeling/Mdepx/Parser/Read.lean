import Mdepx.Parser.Merge
import Mdepx.Parser.Scan

namespace Mdepx.Parser
open Lib
open List hiding tail

/-! Reading a text of a document gives the tree of the document. -/

theorem strip_key (k : Word) (hlead : Blank lead) (hl : Blank l) :
    strip isSpace (lead ++ k.text ++ l) = k.text := by
  apply strip_between hlead hl
  · exact fun c hc => isSpace_of_isPlain (k.plain c (mem_of_head? hc))
  · exact fun c hc => isSpace_of_isPlain (k.plain c (mem_of_getLast? hc))

theorem words_word (t : Word) : words isSpace t.text = [t.text] :=
  words_singleton t.ne_nil fun c hc => isSpace_of_isPlain (t.plain c hc)

theorem Tokens.words_eq (h : Tokens ts s) : words isSpace s = ts.map Word.text := by
  induction h with
  | nil => rfl
  | @cons w ts s t hw hsep h ih =>
    cases w with
    | nil =>
      have hts : ts = [] := by
        by_contra hne
        exact hsep hne rfl
      subst ts
      cases h
      rw [append_nil, append_nil]
      exact words_word t
    | cons =>
      obtain ⟨hc, hw⟩ := forall_mem_cons.1 hw
      rw [append_assoc, cons_append, words_append_cons _ _ hc, words_word,
        words_append_of_all _ hw, ih]
      rfl

variable (read : Dict → Str → Except Exn (Bool × Dict))

theorem processKv_words (hv : strip isSpace val = c :: m) (hopen : c ≠ '{') (hquote : c ≠ '\'') :
    processKv read d key val =
      (words isSpace (c :: m)).foldlM (append (strip isSpace key)) d >>=
        fun d => pure (true, d) := by
  rw [processKv, hv]
  dsimp only
  split
  · rename_i he
    exact absurd (cons.inj he).1 hopen
  · rename_i he
    exact absurd (cons.inj he).1 hquote
  · rfl
  · contradiction

theorem processKv_tokens (k : Word) (hlead : Blank lead) (hl : Blank l) (hr : Blank r)
    (hts : Tokens ts s)
    (hd : ((Item.tokens k ts).strings k.text).foldlM (append k.text) d = .ok d') :
    processKv read d (lead ++ k.text ++ l) (r ++ s) = .ok (true, d') := by
  have hkey := strip_key k hlead hl
  rw [Item.strings, if_pos rfl] at hd
  cases hts with
  | nil =>
    have hval : strip isSpace (r ++ []) = [] := by
      rw [append_nil]
      exact strip_eq_nil_iff.2 hr
    have happ : append k.text d [] = .ok d' := by
      rw [← bind_pure (append k.text d [])]
      exact hd
    rw [processKv, hkey, hval]
    change (append k.text d [] >>= fun d => pure (true, d)) = _
    rw [happ]
    rfl
  | @cons w ts s t hw hsep h =>
    have hwords : words isSpace (strip isSpace (r ++ (t.text ++ w ++ s))) =
        (t :: ts).map Word.text := by
      rw [words_strip, words_append_of_all _ hr]
      exact (Tokens.cons t hw hsep h).words_eq
    obtain ⟨c, m, ht⟩ := exists_cons_of_ne_nil t.ne_nil
    have hc : isPlain c = true := t.plain c (ht ▸ mem_cons_self)
    obtain ⟨n, hval⟩ := exists_strip_cons (p := isSpace) (m ++ w ++ s) hr (isSpace_of_isPlain hc)
    obtain ⟨-, -, hopen, -, -, -, hquote, -⟩ := isPlain_iff.1 hc
    rw [ht, cons_append, cons_append, hval] at hwords
    rw [ht, cons_append, cons_append, processKv_words read hval hopen hquote, hkey,
      hwords]
    change foldlM (append k.text) d ((t :: ts).map Word.text) = _ at hd
    rw [hd]
    rfl

theorem processKv_braces (d : Dict) (k : Word)
    (hlead : Blank lead) (hl : Blank l) (hr : Blank r) (htail : Blank tail)
    (hhead : ∀ c, within.head? = some c → isBrace c = false)
    (hlast : ∀ c, within.getLast? = some c → isBrace c = false) :
    processKv read d (lead ++ k.text ++ l) (r ++ ('{' :: within ++ ['}']) ++ tail) =
      (read [] within >>= fun (success, f) =>
        if success then place k.text d f >>= fun d => pure (true, d) else pure (false, d)) := by
  have hkey := strip_key k hlead hl
  have hval : strip isSpace (r ++ ('{' :: within ++ ['}']) ++ tail) = '{' :: within ++ ['}'] := by
    apply strip_between hr htail
    · intro c hc
      cases hc
      rfl
    · intro c hc
      rw [getLast?_concat] at hc
      cases hc
      rfl
  have hwithin : strip (fun c => c == '{' || c == '}') ('{' :: within ++ ['}']) = within := by
    apply strip_between (l := ['{']) (r := ['}'])
    · exact forall_mem_singleton.2 rfl
    · exact forall_mem_singleton.2 rfl
    · exact hhead
    · exact hlast
  rw [processKv, hkey, hval]
  change (read [] (strip (fun c => c == '{' || c == '}') ('{' :: within ++ ['}'])) >>=
    fun (success, f) =>
      if success then place k.text d f >>= fun d => pure (true, d) else pure (false, d)) = _
  rw [hwithin]

theorem processKv_block (k : Word)
    (hlead : Blank lead) (hl : Blank l) (hr : Blank r) (hbody : Writes body within)
    (htail : Blank tail) (hf : read [] within = .ok (true, f)) (hd : place k.text d f = .ok d') :
    processKv read d (lead ++ k.text ++ l) (r ++ ('{' :: within ++ ['}']) ++ tail) =
      .ok (true, d') := by
  rw [processKv_braces read d k hlead hl hr htail
    (fun c hc => isBrace_of_isText (hbody.head_text hc)) (fun c hc => hbody.last_text hc), hf]
  change (place k.text d f >>= fun d => pure (true, d)) = _
  rw [hd]
  rfl

theorem Consistent.of_block (h : Consistent (A ++ .block k body :: doc)) : Consistent body := by
  intro path ho
  have hmem : Item.block k body ∈ A ++ .block k body :: doc := by simp
  exact h (k.text :: path) ⟨.inside hmem ho.1, .inside hmem ho.2⟩

theorem tree_nil : tree [] = [] := by
  rw [tree_eq]
  rfl

theorem scan_entry {k : Word} (hlead : Blank lead) (hgap : Gap gap)
    (hv : ∀ r key, key ≠ [] → scan process d ⟨r, key, [], 0⟩ (v ++ ';' :: text) =
      scan process d ⟨r ++ v, key, [], 0⟩ (';' :: text))
    (hp : ∀ l r, Blank l → Blank r → process d (lead ++ k.text ++ l) (r ++ v) = .ok (true, d')) :
    scan process d .start (lead ++ k.text ++ gap ++ (v ++ ';' :: text)) =
      scan process d' .start text := by
  obtain ⟨l, r, hl, hr, hhead⟩ := scan_head process d k hlead hgap
    (show v ++ ';' :: text ≠ [] by simp)
  have hkey : lead ++ k.text ++ l ≠ [] := by simp [k.ne_nil]
  rw [hhead, hv r _ hkey, scan_semicolon hkey (hp l r hl hr)]

theorem scan_tokens (hlead : Blank lead) (hgap : Gap gap) (hts : Tokens ts s)
    (hc : Consistent (A ++ [.tokens k ts])) (text : Str) :
    scan (processKv read) (tree A) .start (lead ++ k.text ++ gap ++ s ++ ';' :: text) =
      scan (processKv read) (tree (A ++ [.tokens k ts])) .start text := by
  rw [append_assoc _ s]
  apply scan_entry hlead hgap
  · intro r key hkey
    exact scan_text _ _ hts.isText (Int.le_refl 0) (.inl (cons_ne_nil _ _)) (.inl hkey)
  · intro l r hl hr
    exact processKv_tokens read k hlead hl hr hts (append_tree hc)

theorem scan_block (hlead : Blank lead) (hgap : Gap gap) (hbody : Writes body within)
    (htail : Blank tail)
    (hread : read [] within = .ok (true, tree body)) (hc : Consistent (A ++ [.block k body]))
    (text : Str) :
    scan (processKv read) (tree A) .start
        (lead ++ k.text ++ gap ++ '{' :: within ++ '}' :: tail ++ ';' :: text) =
      scan (processKv read) (tree (A ++ [.block k body])) .start text := by
  have hassoc : lead ++ k.text ++ gap ++ '{' :: within ++ '}' :: tail ++ ';' :: text =
      lead ++ k.text ++ gap ++ ('{' :: within ++ '}' :: tail ++ ';' :: text) := by
    simp only [append_assoc, cons_append]
  have hvalue (r : Str) : r ++ ('{' :: within ++ ['}']) ++ tail =
      r ++ ('{' :: within ++ '}' :: tail) := by
    simp only [append_assoc, cons_append, nil_append]
  rw [hassoc]
  apply scan_entry hlead hgap
  · intro r key hkey
    have hbraces : scan (processKv read) (tree A) ⟨r, key, [], 0⟩
        ('{' :: within ++ '}' :: (tail ++ ';' :: text)) = _ :=
      scan_braces hbody.passes hkey (Int.le_refl 0) _
    rw [append_assoc, ← hvalue]
    apply hbraces.trans
    exact scan_text _ _ htail.isText (Int.le_refl 0) (.inl (cons_ne_nil _ _)) (.inl hkey)
  · intro l r hl hr
    rw [← hvalue]
    exact processKv_block read k hlead hl hr hbody htail hread (place_tree hc)

theorem toJson_tree (h : Writes doc text) (hc : Consistent (A ++ doc))
    (hlimit : depth doc < limit) : toJson limit (tree A) text = .ok (true, tree (A ++ doc)) := by
  induction h generalizing A limit with
  | nil hw =>
    obtain ⟨n, rfl⟩ := Nat.exists_eq_add_one_of_ne_zero (Nat.ne_zero_of_lt hlimit)
    rw [toJson, Scan.start, scan_blank blank_nil hw, append_nil]
  | @tokens lead gap ts s doc text k hlead hgap hts h ih =>
    obtain ⟨n, rfl⟩ := Nat.exists_eq_add_one_of_ne_zero (Nat.ne_zero_of_lt hlimit)
    have hsplit : A ++ .tokens k ts :: doc = A ++ [.tokens k ts] ++ doc := append_cons _ _ _
    rw [hsplit] at hc ⊢
    have hnext := ih hc (lt_of_le_of_lt (le_max_right _ _) hlimit)
    rw [toJson] at hnext ⊢
    rw [scan_tokens (toJson n) hlead hgap hts hc.left, hnext]
  | @block lead gap body within tail doc text k hlead hgap hbody htail h ihbody ih =>
    obtain ⟨n, rfl⟩ := Nat.exists_eq_add_one_of_ne_zero (Nat.ne_zero_of_lt hlimit)
    have hsplit : A ++ .block k body :: doc = A ++ [.block k body] ++ doc := append_cons _ _ _
    have hdepth : depth body < n :=
      Nat.lt_of_succ_lt_succ (lt_of_le_of_lt (le_max_left _ _) hlimit)
    have hread : toJson n [] within = .ok (true, tree body) := by
      have hbody' := ihbody (A := []) hc.of_block hdepth
      rwa [tree_nil] at hbody'
    rw [hsplit] at hc ⊢
    have hnext := ih hc (lt_of_le_of_lt (le_max_right _ _) hlimit)
    rw [toJson] at hnext ⊢
    rw [scan_block (toJson n) hlead hgap hbody htail hread hc.left, hnext]

/-- `to_json` reads any text of a document into its tree, and a second document into the tree of
the first as if the texts had been one. -/
theorem toJson_document :
    (∀ doc text limit, Writes doc text → Consistent doc → depth doc < limit →
      toJson limit [] text = .ok (true, tree doc)) ∧
    ∀ A s B t limit, Writes A s → Writes B t → Consistent (A ++ B) → depth (A ++ B) < limit →
      (toJson limit [] s >>= fun r => toJson limit r.2 t) = toJson limit [] (s ++ t) := by
  have hfirst {doc : Document} {text : Str} {limit : Nat} (h : Writes doc text)
      (hc : Consistent doc) (hlimit : depth doc < limit) :
      toJson limit [] text = .ok (true, tree doc) := by
    have htree := toJson_tree (A := []) h hc hlimit
    rwa [tree_nil] at htree
  refine ⟨fun doc text limit h hc hlimit => hfirst h hc hlimit, ?_⟩
  intro A s B t limit hA hB hc hlimit
  have hdA : depth A < limit :=
    lt_of_le_of_lt (depth_mono (subset_append_left A B)) hlimit
  have hdB : depth B < limit :=
    lt_of_le_of_lt (depth_mono (subset_append_right A B)) hlimit
  rw [hfirst hA hc.left hdA, hfirst (hA.append hB) hc hlimit]
  exact toJson_tree hB hc hdB

def sampleKey : Word := ⟨['k'], cons_ne_nil _ _, forall_mem_singleton.2 rfl⟩

def sampleContext : Word := ⟨['c'], cons_ne_nil _ _, forall_mem_singleton.2 rfl⟩

def sampleBlock : Item := .block sampleContext [.tokens sampleKey []]

theorem sampleBlock_writes : Writes [sampleBlock] "c { k ; };".toList := by
  have hwithin : Writes [.tokens sampleKey []] ([' '] ++ ['k'] ++ [' '] ++ [] ++ ';' :: [' ']) :=
    .tokens sampleKey blank_space gap_space .nil (.nil blank_space)
  have hblock : Writes [sampleBlock]
      ([] ++ ['c'] ++ [' '] ++ '{' :: ([' '] ++ ['k'] ++ [' '] ++ [] ++ ';' :: [' ']) ++
        '}' :: [] ++ ';' :: []) :=
    .block sampleContext blank_nil gap_space hwithin blank_nil (.nil blank_nil)
  have htext : "c { k ; };".toList =
      [] ++ ['c'] ++ [' '] ++ '{' :: ([' '] ++ ['k'] ++ [' '] ++ [] ++ ';' :: [' ']) ++
        '}' :: [] ++ ';' :: [] := by
    decide +kernel
  rw [htext]
  exact hblock

theorem sampleBlock_consistent : Consistent ([sampleBlock] ++ [sampleBlock]) := by
  have hmem {k : Word} {body : Document} (h : .block k body ∈ [sampleBlock] ++ [sampleBlock]) :
      body = [.tokens sampleKey []] := by
    simp [sampleBlock] at h
    exact h.2
  intro path ⟨ht, hb⟩
  have htokens : path.length = 2 := by
    cases ht with
    | here => simp_all [sampleBlock, Item.kind]
    | inside h ho =>
      rw [hmem h] at ho
      cases ho with
      | here => rfl
      | inside h => simp at h
  have hblock : path.length = 1 := by
    cases hb with
    | here => rfl
    | inside h ho =>
      rw [hmem h] at ho
      cases ho with
      | here h hk =>
        rw [mem_singleton.1 h] at hk
        cases hk
      | inside h => simp at h
  omega

theorem toJson_sample :
    toJson 2 [] "c { k ; };".toList = .ok (true, [(['c'], .dict [(['k'], .list [[]])])]) ∧
    (toJson 2 [] "c { k ; };".toList >>= fun r => toJson 2 r.2 "c { k ; };".toList) =
      toJson 2 [] ("c { k ; };".toList ++ "c { k ; };".toList) := by
  have htree : tree [sampleBlock] = [(['c'], .dict [(['k'], .list [[]])])] := by decide +kernel
  rw [← htree]
  exact ⟨toJson_document.1 _ _ 2 sampleBlock_writes sampleBlock_consistent.left (by decide),
    toJson_document.2 _ _ _ _ 2 sampleBlock_writes sampleBlock_writes sampleBlock_consistent
      (by decide)⟩

end Mdepx.Parser
