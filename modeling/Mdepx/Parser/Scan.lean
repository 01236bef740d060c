import Mdepx.Parser.Grammar

namespace Mdepx.Parser
open Lib List Bool

/-! What the loop of `to_json` does on the parts of a text. -/

variable (process : Dict → Str → Str → Except Exn (Bool × Dict)) (d : Dict)

theorem scan_push {s : Scan} (hd : 0 ≤ s.depth) (hc : c ≠ '#' ∧ c ≠ ';' ∧ data ≠ [] ∨ s.depth ≠ 0)
    (heq : c ≠ '=') : scan process d s (c :: data) = scan process d (s.push c) data := by
  rw [scan, if_neg (Int.not_lt.2 hd), if_neg, if_neg, if_neg]
  · exact fun h => heq h.1
  · rintro ⟨h, hz⟩
    rcases hc with ⟨-, hsemi, hdata⟩ | hc
    · exact h.elim hsemi hdata
    · exact hc hz
  · rintro ⟨h, hz⟩
    rcases hc with ⟨hhash, -⟩ | hc
    · exact hhash h
    · exact hc hz

def Scan.collect (s : Scan) (l : Str) : Scan := { s with tmp := s.tmp ++ l }

theorem collect_collect (s : Scan) (l m : Str) : (s.collect l).collect m = s.collect (l ++ m) := by
  rw [Scan.collect, Scan.collect, Scan.collect, append_assoc]

theorem push_text {s : Scan} (hc : isText c = true)
    (hs : s.key ≠ [] ∨ Blank s.tmp ∨ isTab c = false) : s.push c = s.collect [c] := by
  obtain ⟨-, -, -, hopen, hclose⟩ := isText_iff.1 hc
  rw [Scan.push]
  by_cases htab : c = ' ' ∨ c = '\t'
  · rw [if_pos htab, if_neg]
    · rfl
    · rintro ⟨hk, ht⟩
      rcases hs with hs | hs | hs
      · exact hs hk
      · exact ht (strip_eq_nil_iff.2 hs)
      · rw [isTab, ← decide_or, decide_eq_false_iff_not] at hs
        exact hs htab
  · rw [if_neg htab, if_neg hopen, if_neg hclose]
    rfl

theorem scan_text {s : Scan} {l : Str} (hl : ∀ c ∈ l, isText c = true) (hd : 0 ≤ s.depth)
    (hdata : data ≠ [] ∨ s.depth ≠ 0)
    (hs : s.key ≠ [] ∨ Blank (s.tmp ++ l) ∨ ∀ c ∈ l, isTab c = false) :
    scan process d s (l ++ data) = scan process d (s.collect l) data := by
  induction l generalizing s with
  | nil => rw [Scan.collect, append_nil, nil_append]
  | cons c l ih =>
    obtain ⟨hc, hl⟩ := forall_mem_cons.1 hl
    have hpush : s.push c = s.collect [c] := by
      apply push_text hc
      rcases hs with hs | hs | hs
      · exact .inl hs
      · exact .inr (.inl fun b hb => hs b (mem_append_left _ hb))
      · exact .inr (.inr (hs c mem_cons_self))
    have hone : scan process d s (c :: (l ++ data)) = scan process d (s.push c) (l ++ data) := by
      obtain ⟨hhash, hsemi, heq, -⟩ := isText_iff.1 hc
      apply scan_push process d hd _ heq
      rcases hdata with hdata | hdata
      · exact .inl ⟨hhash, hsemi, fun h => hdata (append_eq_nil_iff.1 h).2⟩
      · exact .inr hdata
    have hrest : (s.collect [c]).key ≠ [] ∨ Blank ((s.collect [c]).tmp ++ l) ∨
        ∀ c ∈ l, isTab c = false := by
      rcases hs with hs | hs | hs
      · exact .inl hs
      · refine .inr (.inl ?_)
        rw [Scan.collect, append_assoc]
        exact hs
      · exact .inr (.inr fun b hb => hs b (mem_cons_of_mem _ hb))
    rw [cons_append, hone, hpush, ih (s := s.collect [c]) hl hd hdata hrest,
      collect_collect]
    rfl

/-- A text that is collected as a whole inside a block, braces included. -/
def Passes (text : Str) : Prop :=
  ∀ (s : Scan) (data : Str), s.key ≠ [] → 0 < s.depth →
    scan process d s (text ++ data) = scan process d (s.collect text) data

variable {process d}

theorem Passes.append (hs : Passes process d s) (ht : Passes process d t) :
    Passes process d (s ++ t) := by
  intro v data hk hd
  rw [append_assoc, hs v _ hk hd, ht (v.collect s) data hk hd, collect_collect]

theorem passes_text (h : ∀ c ∈ l, isText c = true) : Passes process d l := by
  intro s data hk hd
  exact scan_text process d h (Int.le_of_lt hd) (.inr (Int.ne_of_gt hd)) (.inl hk)

theorem passes_semicolon : Passes process d [';'] := by
  intro s data hk hd
  exact scan_push process d (Int.le_of_lt hd) (.inr (Int.ne_of_gt hd)) (by decide)

theorem scan_braces {s : Scan} (h : Passes process d within) (hk : s.key ≠ []) (hd : 0 ≤ s.depth)
    (data : Str) : scan process d s ('{' :: within ++ '}' :: data) =
      scan process d (s.collect ('{' :: within ++ ['}'])) data := by
  have hpos : 0 < s.depth + 1 := Int.lt_add_one_of_le hd
  have hopen : scan process d s ('{' :: (within ++ '}' :: data)) =
      scan process d (s.push '{') (within ++ '}' :: data) := by
    apply scan_push process d hd _ (by decide)
    exact .inl ⟨by decide, by decide, by simp⟩
  have hclose : scan process d ((s.push '{').collect within) ('}' :: data) =
      scan process d (((s.push '{').collect within).push '}') data :=
    scan_push process d (Int.le_of_lt hpos) (.inr (Int.ne_of_gt hpos)) (by decide)
  have hstate : ((s.push '{').collect within).push '}' = s.collect ('{' :: within ++ ['}']) := by
    simp [Scan.push, Scan.collect]
  rw [cons_append, hopen, h (s.push '{') _ hk hpos, hclose, hstate]

theorem passes_braces (h : Passes process d within) :
    Passes process d ('{' :: within ++ ['}']) := by
  intro s data hk hd
  rw [append_assoc]
  exact scan_braces h hk (Int.le_of_lt hd) data

theorem Writes.passes (h : Writes doc text) : Passes process d text := by
  induction h with
  | nil hw => exact passes_text hw.isText
  | @tokens lead gap ts s doc text k hlead hgap hts h ih =>
    have hpass := ((passes_text hlead.isText).append (passes_text k.isText)).append
      ((passes_text hgap.blank.isText).append
        ((passes_text hts.isText).append (passes_semicolon.append ih)))
    simpa only [append_assoc, cons_append, nil_append] using hpass
  | block k hlead hgap hbody htail h ihbody ih =>
    have hpass := ((passes_text hlead.isText).append (passes_text k.isText)).append
      ((passes_text hgap.blank.isText).append
        ((passes_braces ihbody).append
          ((passes_text htail.isText).append (passes_semicolon.append ih))))
    simpa only [append_assoc, cons_append, nil_append] using hpass

variable (process d) in
theorem scan_head (k : Word) (hlead : Blank lead) (hgap : Gap gap) (hdata : data ≠ []) :
    ∃ l r, Blank l ∧ Blank r ∧ scan process d .start (lead ++ k.text ++ gap ++ data) =
      scan process d ⟨r, lead ++ k.text ++ l, [], 0⟩ data := by
  obtain ⟨b, hb, htab⟩ := hgap.tab
  obtain ⟨c, hfind⟩ := Option.isSome_iff_exists.1 (find?_isSome.2 ⟨b, hb, htab⟩)
  obtain ⟨hc, l, r, rfl, hl⟩ := find?_eq_some_iff_append.1 hfind
  have hblank := hgap.blank
  refine ⟨l, c :: r, fun c hc => hblank c (mem_append_left _ hc),
    fun c hc => hblank c (mem_append_right _ hc), ?_⟩
  have hlead' : scan process d .start (lead ++ (k.text ++ l ++ c :: (r ++ data))) =
      scan process d ⟨lead, [], [], 0⟩ (k.text ++ l ++ c :: (r ++ data)) :=
    scan_text process d hlead.isText (Int.le_refl 0) (.inl (by simp)) (.inr (.inl hlead))
  have hkey : scan process d ⟨lead, [], [], 0⟩ (k.text ++ l ++ c :: (r ++ data)) =
      scan process d ⟨lead ++ (k.text ++ l), [], [], 0⟩ (c :: (r ++ data)) := by
    apply scan_text process d _ (Int.le_refl 0) (.inl (cons_ne_nil _ _))
    · refine .inr (.inr (forall_mem_append.2 ⟨?_, ?_⟩))
      · intro b hb
        rw [Bool.eq_false_iff]
        intro htab
        have hspace := isSpace_of_isTab htab
        rw [isSpace_of_isPlain (k.plain b hb)] at hspace
        exact false_ne_true hspace
      · intro b hb
        exact not_eq_true' _ ▸ hl b hb
    · refine forall_mem_append.2 ⟨k.isText, ?_⟩
      intro b hb
      exact isText_of_isSpace (hblank b (mem_append_left _ hb))
  have hpush : (⟨lead ++ (k.text ++ l), [], [], 0⟩ : Scan).push c =
      ⟨[c], lead ++ (k.text ++ l), [], 0⟩ := by
    have htmp : strip isSpace (lead ++ (k.text ++ l)) ≠ [] := by
      intro h
      apply Bool.false_ne_true
      rw [← isSpace_of_isPlain (k.plain _ (head_mem k.ne_nil))]
      exact strip_eq_nil_iff.1 h _ (by simp)
    rw [isTab, ← Bool.decide_or, decide_eq_true_iff] at hc
    rw [Scan.push, if_pos hc, if_pos ⟨rfl, htmp⟩]
  have hc' : scan process d ⟨lead ++ (k.text ++ l), [], [], 0⟩ (c :: (r ++ data)) =
      scan process d ⟨[c], lead ++ (k.text ++ l), [], 0⟩ (r ++ data) := by
    obtain ⟨hhash, hsemi, heq, -⟩ := isText_iff.1 (isText_of_isSpace (isSpace_of_isTab hc))
    rw [scan_push process d (Int.le_refl 0) _ heq, hpush]
    exact .inl ⟨hhash, hsemi, fun h => hdata (append_eq_nil_iff.1 h).2⟩
  have hr : scan process d ⟨[c], lead ++ (k.text ++ l), [], 0⟩ (r ++ data) =
      scan process d ⟨c :: r, lead ++ (k.text ++ l), [], 0⟩ data := by
    apply scan_text process d _ (Int.le_refl 0) (.inl hdata) (.inl (by simp [k.ne_nil]))
    intro b hb
    exact isText_of_isSpace (hblank b (by simp [hb]))
  rw [hc', hr] at hkey
  rw [hkey] at hlead'
  simpa only [append_assoc, cons_append] using hlead'

theorem scan_semicolon (hk : key ≠ []) (hp : process d key tmp = .ok (true, d')) (data : Str) :
    scan process d ⟨tmp, key, [], 0⟩ (';' :: data) = scan process d' .start data := by
  have hclose : (⟨tmp, key, [], 0⟩ : Scan).close = ⟨[], key, tmp, 0⟩ := by
    rw [Scan.close, if_neg hk, if_pos rfl]
  rw [scan, if_neg (Int.lt_irrefl 0), if_neg (fun h => absurd h.1 (by decide)),
    if_pos ⟨.inl rfl, rfl⟩, hclose, if_neg hk, hp]
  rfl

theorem scan_blank (ht : Blank t) (hw : Blank w) :
    scan process d ⟨t, [], [], 0⟩ w = .ok (true, d) := by
  induction w using reverseRecOn with
  | nil => rw [scan]
  | append_singleton l c =>
    have hl : Blank (t ++ l) := ht.append fun b hb => hw b (mem_append_left _ hb)
    have hc : c ≠ '#' := (isText_iff.1 (hw.isText c (by simp))).1
    have htext : scan process d ⟨t, [], [], 0⟩ (l ++ [c]) =
        scan process d ⟨t ++ l, [], [], 0⟩ [c] :=
      scan_text process d (fun b hb => hw.isText b (mem_append_left _ hb)) (Int.le_refl 0)
        (.inl (cons_ne_nil _ _)) (.inr (.inl hl))
    have hclose : (⟨t ++ l, [], [], 0⟩ : Scan).close = ⟨t ++ l, [], [], 0⟩ := by
      rw [Scan.close, if_pos rfl, if_pos (strip_eq_nil_iff.2 hl)]
    rw [htext, scan, if_neg (Int.lt_irrefl 0), if_neg fun h => hc h.1, if_pos ⟨.inr rfl, rfl⟩,
      hclose, if_pos rfl, scan]

end Mdepx.Parser
