import Mdepx.Parser.Read

namespace Mdepx.Parser
open Lib
open List hiding tail

/-! Texts with and without comments. -/

inductive Pad : Str → Prop
  | blank (hw : Blank w) : Pad w
  | comment (hw : Blank w) (ht : '\n' ∉ t) (h : Pad p) : Pad (w ++ '#' :: t ++ '\n' :: p)

def brace (c : Char) : Int := if c = '{' then 1 else if c = '}' then -1 else 0

def balance : Str → Int
  | [] => 0
  | c :: s => brace c + balance s

def Deep : Int → Str → Prop
  | n, [] => 0 < n
  | n, c :: s => 0 < n ∧ Deep (n + brace c) s

structure Balanced (s : Str) : Prop where
  total : balance s = 0
  deep : Deep 1 s

/-- From the depth `n` a text leads to the depth 1, and where the block around it seems to have
ended it has neither a semicolon nor a comment nor another closing brace. -/
def Closed : Int → Str → Prop
  | n, [] => n = 1
  | n, c :: s => 0 ≤ n ∧ (n = 0 → c ≠ '#' ∧ c ≠ ';') ∧ Closed (n + brace c) s

/-- The characters of an item that is not a block: also quotes, and what separates a key from its
value. -/
def isItem (c : Char) : Bool := !(['#', ';', '{', '}'].contains c)

/-- The second text is the first one with comments between its items, at any depth. What a block
contains then has to be closed, comments included. -/
inductive Commented : Str → Str → Prop
  | nil (hw : Blank w) (hp : Pad p) : Commented w p
  | item (hw : Blank w) (hp : Pad p) (hs : ∀ c ∈ s, isItem c = true) (h : Commented text text') :
      Commented (w ++ s ++ ';' :: text) (p ++ s ++ ';' :: text')
  | block (k : Word) (hw : Blank w) (hp : Pad p) (hgap : Gap gap) (hbody : Commented within within')
      (hb : Closed 1 within') (htail : Blank tail) (h : Commented text text') :
      Commented (w ++ k.text ++ gap ++ '{' :: within ++ '}' :: tail ++ ';' :: text)
        (p ++ k.text ++ gap ++ '{' :: within' ++ '}' :: tail ++ ';' :: text')

theorem isItem_iff : isItem c = true ↔ c ≠ '#' ∧ c ≠ ';' ∧ c ≠ '{' ∧ c ≠ '}' := by
  simp [isItem]

theorem isBrace_of_isItem (h : isItem c = true) : isBrace c = false := by
  obtain ⟨-, -, hopen, hclose⟩ := isItem_iff.1 h
  rw [isBrace, beq_false_of_ne hopen, beq_false_of_ne hclose]
  rfl

theorem brace_of_isBrace (h : isBrace c = false) : brace c = 0 := by
  rw [isBrace, Bool.or_eq_false_iff, beq_eq_false_iff_ne, beq_eq_false_iff_ne] at h
  rw [brace, if_neg h.1, if_neg h.2]

@[simp]
theorem balance_append (s t : Str) : balance (s ++ t) = balance s + balance t := by
  induction s with
  | nil => rw [nil_append, balance, Int.zero_add]
  | cons c s ih => rw [cons_append, balance, balance, ih, Int.add_assoc]

theorem Deep.mono (h : Deep n s) (hn : n ≤ m) : Deep m s := by
  induction s generalizing n m with
  | nil => exact Int.lt_of_lt_of_le h hn
  | cons c s ih => exact ⟨Int.lt_of_lt_of_le h.1 hn, ih h.2 (Int.add_le_add_right hn _)⟩

theorem Deep.append (hs : Deep n s) (ht : Deep (n + balance s) t) : Deep n (s ++ t) := by
  induction s generalizing n with
  | nil =>
    rw [balance, Int.add_zero] at ht
    exact ht
  | cons c s ih =>
    rw [balance, ← Int.add_assoc] at ht
    exact ⟨hs.1, ih hs.2 ht⟩

theorem Deep.closed (h : Deep n s) (hn : n + balance s = 1) : Closed n s := by
  induction s generalizing n with
  | nil => rwa [balance, Int.add_zero] at hn
  | cons c s ih =>
    rw [balance, ← Int.add_assoc] at hn
    exact ⟨Int.le_of_lt h.1, fun hz => absurd hz (Int.ne_of_gt h.1), ih h.2 hn⟩

theorem Balanced.closed (h : Balanced s) : Closed 1 s :=
  h.deep.closed (by rw [h.total]; rfl)

theorem Balanced.append (hs : Balanced s) (ht : Balanced t) : Balanced (s ++ t) where
  total := by rw [balance_append, hs.total, ht.total, Int.zero_add]
  deep := by
    apply hs.deep.append
    rw [hs.total, Int.add_zero]
    exact ht.deep

theorem balanced_of_flat (h : ∀ c ∈ s, isBrace c = false) : Balanced s := by
  induction s with
  | nil => exact ⟨rfl, Int.one_pos⟩
  | cons c s ih =>
    obtain ⟨hc, hs⟩ := forall_mem_cons.1 h
    have hb := brace_of_isBrace hc
    have ih := ih hs
    constructor
    · rw [balance, hb, ih.total, Int.zero_add]
    · refine ⟨Int.one_pos, ?_⟩
      rw [hb, Int.add_zero]
      exact ih.deep

theorem Balanced.braces (h : Balanced s) : Balanced ('{' :: s ++ ['}']) where
  total := by
    rw [balance_append, balance, h.total]
    rfl
  deep := by
    refine ⟨Int.one_pos, (h.deep.mono (by decide)).append ?_⟩
    rw [h.total]
    have hend : (0 : Int) < 1 + brace '{' + 0 + brace '}' := by decide
    exact ⟨by decide, hend⟩

theorem Balanced.cons (h : Balanced s) (hc : isBrace c = false) : Balanced (c :: s) := by
  have hone : Balanced [c] := balanced_of_flat (forall_mem_singleton.2 hc)
  exact hone.append h

theorem Blank.balanced (h : Blank w) : Balanced w :=
  balanced_of_flat fun c hc => isBrace_of_isText (h.isText c hc)

theorem Commented.balanced (h : Commented text text') : Balanced text := by
  induction h with
  | nil hw => exact hw.balanced
  | item hw hp hs h ih =>
    have hflat := balanced_of_flat fun c hc => isBrace_of_isItem (hs c hc)
    exact (hw.balanced.append hflat).append (ih.cons rfl)
  | block k hw hp hgap hbody hb htail h ihbody ih =>
    have hkey : Balanced k.text := balanced_of_flat fun c hc => isBrace_of_isText (k.isText c hc)
    have hall := ((hw.balanced.append hkey).append hgap.blank.balanced).append
      (ihbody.braces.append (htail.balanced.append (ih.cons (c := ';') rfl)))
    simpa only [append_assoc, cons_append, nil_append] using hall

theorem Pad.head_not_brace (h : Pad p) (hc : p.head? = some c) : isBrace c = false := by
  cases h with
  | blank hw => exact isBrace_of_isText (hw.isText c (mem_of_head? hc))
  | @comment w t p hw ht h =>
    cases w with
    | nil =>
      cases hc
      rfl
    | cons =>
      cases hc
      exact isBrace_of_isText (hw.isText _ mem_cons_self)

theorem Pad.last_not_brace (h : Pad p) (hc : p.getLast? = some c) : isBrace c = false := by
  induction h with
  | blank hw => exact isBrace_of_isText (hw.isText c (mem_of_getLast? hc))
  | @comment w t p hw ht h ih =>
    rw [getLast?_append_of_ne_nil _ (cons_ne_nil _ _)] at hc
    cases p with
    | nil =>
      cases hc
      rfl
    | cons => exact ih hc

theorem head_append {s t : Str} (hs : ∀ c, s.head? = some c → isBrace c = false)
    (ht : ∀ c, t.head? = some c → isBrace c = false) (hc : (s ++ t).head? = some c) :
    isBrace c = false := by
  cases s with
  | nil => exact ht c hc
  | cons => exact hs c hc

theorem Commented.head_not_brace (h : Commented text text') :
    (∀ c, text.head? = some c → isBrace c = false) ∧
      ∀ c, text'.head? = some c → isBrace c = false := by
  have hblank {w : Str} (hw : Blank w) (c : Char) (hc : w.head? = some c) : isBrace c = false :=
    (Pad.blank hw).head_not_brace hc
  cases h with
  | nil hw hp => exact ⟨hblank hw, fun c hc => hp.head_not_brace hc⟩
  | @item w p s text text' hw hp hs h =>
    have hitem {text : Str} (c : Char) (hc : (s ++ ';' :: text).head? = some c) :
        isBrace c = false := by
      apply head_append _ _ hc
      · exact fun c hc => isBrace_of_isItem (hs c (mem_of_head? hc))
      · intro c hc
        cases hc
        rfl
    rw [append_assoc, append_assoc]
    exact ⟨fun c hc => head_append (hblank hw) hitem hc,
      fun c hc => head_append (fun c hc => hp.head_not_brace hc) hitem hc⟩
  | block k hw hp =>
    have hkey {text : Str} (c : Char) (hc : (k.text ++ text).head? = some c) :
        isBrace c = false := by
      rw [head?_append_of_ne_nil _ k.ne_nil] at hc
      exact isBrace_of_isText (k.isText c (mem_of_head? hc))
    simp only [append_assoc]
    exact ⟨fun c hc => head_append (hblank hw) hkey hc,
      fun c hc => head_append (fun c hc => hp.head_not_brace hc) hkey hc⟩

theorem Commented.last_not_brace (h : Commented text text') :
    (∀ c, text.getLast? = some c → isBrace c = false) ∧
      ∀ c, text'.getLast? = some c → isBrace c = false := by
  induction h with
  | nil hw hp =>
    exact ⟨fun c hc => (Pad.blank hw).last_not_brace hc, fun c hc => hp.last_not_brace hc⟩
  | item _ _ _ _ ih | block _ _ _ _ _ _ _ _ _ ih =>
    exact ⟨fun c hc => last_item (ih.1 c) hc, fun c hc => last_item (ih.2 c) hc⟩

section
variable (process : Dict → Str → Str → Except Exn (Bool × Dict)) (d : Dict)

theorem push_of_key {s : Scan} (hk : s.key ≠ []) :
    s.push c = ⟨s.tmp ++ [c], s.key, s.val, s.depth + brace c⟩ := by
  by_cases htab : c = ' ' ∨ c = '\t'
  · have hb : brace c = 0 := by rcases htab with rfl | rfl <;> rfl
    rw [Scan.push, if_pos htab, if_neg fun h => hk h.1, hb, Int.add_zero]
  · rw [Scan.push, if_neg htab, brace]
    split
    · rfl
    · split
      · rfl
      · rw [Int.add_zero]

theorem strip_append_ne_nil {s : Str} (h : strip isSpace s ≠ []) (t : Str) :
    strip isSpace (s ++ t) ≠ [] := fun hst =>
  h (strip_eq_nil_iff.2 fun c hc => strip_eq_nil_iff.1 hst c (mem_append_left _ hc))

theorem scan_closed {s : Scan} (hk : s.key ≠ []) (ht : strip isSpace s.tmp ≠ [])
    (hu : Closed s.depth u) (hdata : data ≠ []) :
    scan process d s (u ++ data) = scan process d ⟨s.tmp ++ u, s.key, s.val, 1⟩ data := by
  induction u generalizing s with
  | nil =>
    rw [nil_append, append_nil]
    exact congrArg (fun n => scan process d ⟨s.tmp, s.key, s.val, n⟩ data) hu
  | cons c u ih =>
    obtain ⟨hd, hend, hu⟩ := hu
    have hne : u ++ data ≠ [] := fun h => hdata (append_eq_nil_iff.1 h).2
    rw [cons_append, scan, if_neg (Int.not_lt.2 hd), if_neg fun h => (hend h.2).1 h.1,
      if_neg fun h => h.1.elim (hend h.2).2 hne, if_neg fun h => ht h.2, push_of_key hk,
      ih (s := ⟨s.tmp ++ [c], s.key, s.val, s.depth + brace c⟩) hk (strip_append_ne_nil ht _) hu,
      append_assoc]
    rfl

theorem strip_open (r : Str) : strip isSpace (r ++ ['{']) ≠ [] := fun h =>
  Bool.false_ne_true (strip_eq_nil_iff.1 h '{' (by simp))

theorem scan_open (key r data : Str) (hdata : data ≠ []) :
    scan process d ⟨r, key, [], 0⟩ ('{' :: data) =
      scan process d ⟨r ++ ['{'], key, [], 1⟩ data :=
  scan_push process d (Int.le_refl 0) (.inl ⟨by decide, by decide, hdata⟩) (by decide)

theorem scan_within (r : Str) (hk : key ≠ []) (hb : Closed 1 within) (htail : Blank tail)
    (data : Str) :
    scan process d ⟨r, key, [], 0⟩ ('{' :: within ++ '}' :: tail ++ ';' :: data) =
      scan process d ⟨r ++ ('{' :: within ++ ['}']) ++ tail, key, [], 0⟩ (';' :: data) := by
  have hopen := scan_open process d key r (within ++ '}' :: (tail ++ ';' :: data))
    (by simp)
  have hwithin := scan_closed process d (s := ⟨r ++ ['{'], key, [], 1⟩) hk (strip_open r) hb
    (cons_ne_nil '}' (tail ++ ';' :: data))
  have hclose : scan process d ⟨r ++ ['{'] ++ within, key, [], 1⟩ ('}' :: (tail ++ ';' :: data)) =
      scan process d ⟨r ++ ['{'] ++ within ++ ['}'], key, [], 0⟩ (tail ++ ';' :: data) :=
    scan_push process d Int.one_nonneg (.inr Int.one_ne_zero) (by decide)
  have hend : scan process d ⟨r ++ ['{'] ++ within ++ ['}'], key, [], 0⟩ (tail ++ ';' :: data) =
      scan process d ⟨r ++ ['{'] ++ within ++ ['}'] ++ tail, key, [], 0⟩ (';' :: data) :=
    scan_text process d htail.isText (Int.le_refl 0) (.inl (cons_ne_nil _ _)) (.inl hk)
  rw [hclose, hend] at hwithin
  rw [hwithin] at hopen
  simpa only [append_assoc, cons_append, nil_append] using hopen

theorem scan_comment {s : Scan} (hs : s.depth = 0) (hu : '\n' ∉ u) (data : Str) :
    scan process d s ('#' :: u ++ '\n' :: data) = scan process d s data := by
  have hrest : comment process d s (u ++ '\n' :: data) = scan process d s data := by
    induction u with
    | nil => rw [nil_append, comment, if_pos rfl]
    | cons c u ih =>
      obtain ⟨hc, hu⟩ := not_or.1 (mt mem_cons.2 hu)
      rw [cons_append, comment, if_neg (Ne.symm hc), ih hu]
  rw [cons_append, scan, if_neg (by omega), if_pos ⟨rfl, hs⟩, hrest]

theorem scan_pad_comment (ht : Blank t) (hw : Blank w) (hu : '\n' ∉ u) (data : Str) :
    scan process d ⟨t, [], [], 0⟩ (w ++ '#' :: u ++ '\n' :: data) =
      scan process d ⟨t ++ w, [], [], 0⟩ data := by
  have hlead : scan process d ⟨t, [], [], 0⟩ (w ++ ('#' :: u ++ '\n' :: data)) =
      scan process d ⟨t ++ w, [], [], 0⟩ ('#' :: u ++ '\n' :: data) :=
    scan_text process d hw.isText (Int.le_refl 0) (.inl (by simp)) (.inr (.inl (ht.append hw)))
  rw [append_assoc, hlead, scan_comment process d rfl hu]

theorem scan_pad (h : Pad p) (ht : Blank t) (hdata : data ≠ []) :
    ∃ w, Blank w ∧ scan process d ⟨t, [], [], 0⟩ (p ++ data) =
      scan process d ⟨w, [], [], 0⟩ data := by
  induction h generalizing t with
  | @blank w hw =>
    refine ⟨t ++ w, ht.append hw, ?_⟩
    exact scan_text process d hw.isText (Int.le_refl 0) (.inl hdata) (.inr (.inl (ht.append hw)))
  | @comment w u p hw hu h ih =>
    obtain ⟨v, hv, he⟩ := ih (ht.append hw)
    refine ⟨v, hv, ?_⟩
    rw [append_assoc, cons_append, scan_pad_comment process d ht hw hu, he]

theorem scan_pad_end (h : Pad p) (ht : Blank t) :
    scan process d ⟨t, [], [], 0⟩ p = .ok (true, d) := by
  induction h generalizing t with
  | blank hw => exact scan_blank ht hw
  | @comment w u p hw hu h ih =>
    rw [scan_pad_comment process d ht hw hu, ih (ht.append hw)]

def Scan.take (s : Scan) (c : Char) : Scan :=
  if c = '=' ∧ strip isSpace s.tmp = [] then s else s.push c

theorem take_depth (s : Scan) (hc : isItem c = true) : (s.take c).depth = s.depth := by
  obtain ⟨-, -, hopen, hclose⟩ := isItem_iff.1 hc
  rw [Scan.take]
  split
  · rfl
  · rw [Scan.push, if_neg hopen, if_neg hclose]
    split
    · split
      · rfl
      · rfl
    · rfl

theorem scan_item {s : Scan} (hs : s.depth = 0) (hu : ∀ c ∈ u, isItem c = true)
    (hdata : data ≠ []) :
    scan process d s (u ++ data) = scan process d (u.foldl Scan.take s) data := by
  induction u generalizing s with
  | nil => rfl
  | cons c u ih =>
    obtain ⟨hc, hu⟩ := forall_mem_cons.1 hu
    obtain ⟨hhash, hsemi, -, -⟩ := isItem_iff.1 hc
    have hne : u ++ data ≠ [] := fun h => hdata (append_eq_nil_iff.1 h).2
    have hone : scan process d s (c :: (u ++ data)) = scan process d (s.take c) (u ++ data) := by
      rw [scan, if_neg (by omega), if_neg fun h => hhash h.1,
        if_neg fun h => h.1.elim hsemi hne, Scan.take]
      split
      · rfl
      · rfl
    rw [cons_append, hone, ih ((take_depth s hc).trans hs) hu]
    rfl

end

inductive Alike : Scan → Scan → Prop
  | before (hv : Blank v) (hw : Blank w) : Alike ⟨v ++ x, [], [], 0⟩ ⟨w ++ x, [], [], 0⟩
  | after (hv : Blank v) (hw : Blank w) (hx : ¬Blank x) :
      Alike ⟨t, v ++ x, [], 0⟩ ⟨t, w ++ x, [], 0⟩

theorem strip_blank_append (hw : Blank w) (x : Str) : strip isSpace (w ++ x) = strip isSpace x := by
  rw [strip, strip, dropWhile_append_of_pos hw]

theorem append_ne_nil (w : Str) (hx : ¬Blank x) : w ++ x ≠ [] := by
  intro h
  obtain ⟨-, rfl⟩ := append_eq_nil_iff.1 h
  exact hx blank_nil

theorem Alike.take (h : Alike s s') (hc : isItem c = true) : Alike (s.take c) (s'.take c) := by
  obtain ⟨-, -, hopen, hclose⟩ := isItem_iff.1 hc
  cases h with
  | @before v w x hv hw =>
    simp only [Scan.take, Scan.push, strip_blank_append hv, strip_blank_append hw, if_neg hopen,
      if_neg hclose, true_and]
    split
    · exact .before hv hw
    · split
      · split
        · rename_i hx
          exact .after hv hw fun hb => hx (strip_eq_nil_iff.2 hb)
        · rw [append_assoc, append_assoc]
          exact .before hv hw
      · rw [append_assoc, append_assoc]
        exact .before hv hw
  | @after v w x t hv hw hx =>
    simp only [Scan.take, Scan.push, if_neg hopen, if_neg hclose, append_ne_nil v hx,
      append_ne_nil w hx, false_and, if_false, ite_self]
    split
    · exact .after hv hw hx
    · exact .after hv hw hx

theorem Alike.foldl {u : Str} (h : Alike s s') (hu : ∀ c ∈ u, isItem c = true) :
    Alike (u.foldl Scan.take s) (u.foldl Scan.take s') := by
  induction u generalizing s s' with
  | nil => exact h
  | cons c u ih =>
    obtain ⟨hc, hu⟩ := forall_mem_cons.1 hu
    exact ih (h.take hc) hu

def Equivalent (process : Dict → Str → Str → Except Exn (Bool × Dict)) (text text' : Str) : Prop :=
  ∀ d v w, Blank v → Blank w →
    scan process d ⟨v, [], [], 0⟩ text = scan process d ⟨w, [], [], 0⟩ text'

variable {read : Dict → Str → Except Exn (Bool × Dict)}

theorem processKv_blank (hv : Blank v) (hw : Blank w) (x val : Str) :
    processKv read d (v ++ x) val = processKv read d (w ++ x) val := by
  rw [processKv, processKv, strip_blank_append hv, strip_blank_append hw]

theorem scan_close {s : Scan} (hs : s.depth = 0) (data : Str) :
    scan process d s (';' :: data) =
      if s.close.key = [] then scan process d s.close data
      else process d s.close.key s.close.val >>= fun (success, d) =>
        if success then scan process d { s.close with key := [], val := [] } data
        else pure (false, d) := by
  rw [scan, if_neg (by omega), if_neg fun h => absurd h.1 (by decide), if_pos ⟨.inl rfl, hs⟩]

theorem scan_next (hp : process d key val = process d key' val')
    (h : Equivalent process text text') (hv : Blank v) (hw : Blank w) :
    (process d key val >>= fun (success, d) =>
      if success then scan process d ⟨v, [], [], 0⟩ text else pure (false, d)) =
    (process d key' val' >>= fun (success, d) =>
      if success then scan process d ⟨w, [], [], 0⟩ text' else pure (false, d)) := by
  rw [hp]
  congr 1
  funext r
  obtain ⟨success, d'⟩ := r
  cases success with
  | true => exact h d' v w hv hw
  | false => rfl

theorem Alike.close (ha : Alike s s') (h : Equivalent (processKv read) text text') (d : Dict) :
    scan (processKv read) d s (';' :: text) = scan (processKv read) d s' (';' :: text') := by
  cases ha with
  | @before v w x hv hw =>
    rw [scan_close rfl, scan_close rfl]
    by_cases hx : strip isSpace x = []
    · have hb := strip_eq_nil_iff.1 hx
      simp only [Scan.close, strip_blank_append hv, strip_blank_append hw, hx, if_true]
      exact h d _ _ (hv.append hb) (hw.append hb)
    · have hx' : ¬Blank x := fun hb => hx (strip_eq_nil_iff.2 hb)
      simp only [Scan.close, strip_blank_append hv, strip_blank_append hw, if_neg hx, if_true,
        if_neg (append_ne_nil v hx'), if_neg (append_ne_nil w hx')]
      exact scan_next (processKv_blank hv hw x []) h blank_nil blank_nil
  | @after v w x t hv hw hx =>
    rw [scan_close rfl, scan_close rfl]
    simp only [Scan.close, if_neg (append_ne_nil v hx), if_neg (append_ne_nil w hx), if_true]
    exact scan_next (processKv_blank hv hw x t) h blank_nil blank_nil

theorem scan_key (process : Dict → Str → Str → Except Exn (Bool × Dict)) (d : Dict) (k : Word)
    (hv : Blank v) (hp : Pad p) (hgap : Gap gap) (hdata : data ≠ []) :
    ∃ lead l r, Blank lead ∧ Blank l ∧ Blank r ∧
      scan process d ⟨v, [], [], 0⟩ (p ++ k.text ++ gap ++ data) =
        scan process d ⟨r, lead ++ k.text ++ l, [], 0⟩ data := by
  have hne : k.text ++ gap ++ data ≠ [] := by simp [k.ne_nil]
  obtain ⟨w, hw, hpad⟩ := scan_pad process d hp hv hne
  obtain ⟨l, r, hl, hr, hhead⟩ := scan_head process d k hw hgap hdata
  have hstart : scan process d .start (w ++ (k.text ++ gap ++ data)) =
      scan process d ⟨w, [], [], 0⟩ (k.text ++ gap ++ data) :=
    scan_text process d hw.isText (Int.le_refl 0) (.inl hne) (.inr (.inl hw))
  refine ⟨w, l, r, hw, hl, hr, ?_⟩
  rw [← hstart] at hpad
  simp only [append_assoc] at hpad hhead ⊢
  exact hpad.trans hhead

theorem scan_block_end (k : Word) (hlead : Blank lead) (hlead' : Blank lead') (hl : Blank l)
    (hl' : Blank l') (hr : Blank r) (hr' : Blank r') (htail : Blank tail)
    (hbody : Commented within within') (hread : read [] within = read [] within')
    (h : Equivalent (processKv read) text text') (d : Dict) :
    scan (processKv read) d ⟨r ++ ('{' :: within ++ ['}']) ++ tail, lead ++ k.text ++ l, [], 0⟩
        (';' :: text) =
      scan (processKv read) d
        ⟨r' ++ ('{' :: within' ++ ['}']) ++ tail, lead' ++ k.text ++ l', [], 0⟩ (';' :: text') := by
  have hkey (lead l : Str) : lead ++ k.text ++ l ≠ [] := by simp [k.ne_nil]
  obtain ⟨hhead, hhead'⟩ := hbody.head_not_brace
  obtain ⟨hlast, hlast'⟩ := hbody.last_not_brace
  rw [scan_close rfl, scan_close rfl]
  simp only [Scan.close, if_neg (hkey lead l), if_neg (hkey lead' l'), if_true]
  apply scan_next _ h blank_nil blank_nil
  rw [processKv_braces read d k hlead hl hr htail hhead hlast,
    processKv_braces read d k hlead' hl' hr' htail hhead' hlast', hread]

theorem Commented.equivalent (h : Commented text text') (limit : Nat) :
    Equivalent (processKv (toJson limit)) text text' := by
  induction h generalizing limit with
  | nil hw hp =>
    intro d v w hv hw'
    rw [scan_blank hv hw, scan_pad_end _ _ hp hw']
  | @item w p s text text' hw hp hs h ih =>
    intro d v v' hv hv'
    have hne (text : Str) : s ++ ';' :: text ≠ [] := by simp
    obtain ⟨u, hu, hscan⟩ := scan_pad (processKv (toJson limit)) d (.blank hw) hv (hne text)
    obtain ⟨u', hu', hscan'⟩ := scan_pad (processKv (toJson limit)) d hp hv' (hne text')
    have halike : Alike ⟨u, [], [], 0⟩ ⟨u', [], [], 0⟩ := by
      have hbefore := Alike.before (x := []) hu hu'
      rwa [append_nil, append_nil] at hbefore
    rw [append_assoc, append_assoc, hscan, hscan',
      scan_item _ _ rfl hs (cons_ne_nil _ _), scan_item _ _ rfl hs (cons_ne_nil _ _)]
    exact (halike.foldl hs).close (ih limit) d
  | @block w p gap within within' tail text text' k hw hp hgap hbody hb htail h ihbody ih =>
    intro d v v' hv hv'
    have hread : toJson limit [] within = toJson limit [] within' := by
      cases limit with
      | zero => rfl
      | succ n =>
        rw [toJson, toJson]
        exact ihbody n [] [] [] blank_nil blank_nil
    have hne (within text : Str) : '{' :: within ++ '}' :: tail ++ ';' :: text ≠ [] := by simp
    have hkey (lead l : Str) : lead ++ k.text ++ l ≠ [] := by simp [k.ne_nil]
    obtain ⟨lead, l, r, hlead, hl, hr, hscan⟩ :=
      scan_key (processKv (toJson limit)) d k hv (.blank hw) hgap (hne within text)
    obtain ⟨lead', l', r', hlead', hl', hr', hscan'⟩ :=
      scan_key (processKv (toJson limit)) d k hv' hp hgap (hne within' text')
    rw [scan_within _ _ r (hkey lead l) hbody.balanced.closed htail] at hscan
    rw [scan_within _ _ r' (hkey lead' l') hb htail] at hscan'
    have hend := scan_block_end k hlead hlead' hl hl' hr hr' htail hbody hread (ih limit) d
    simp only [append_assoc, cons_append] at hscan hscan' hend ⊢
    rw [hscan, hscan']
    exact hend

/-- Takes values of one length only, and says so. -/
def accept (n : Nat) (_ : Dict) (key val : Str) : Except Exn (Bool × Dict) :=
  if val.length = n then .ok (false, [(key, .list [])]) else .error .typeError

theorem scan_short (hk : key ≠ []) (data : Str) :
    (∀ tmp m, tmp.length + data.length ≤ n →
      scan (accept n) [] ⟨tmp, key, [], m⟩ data ≠ .ok (false, [(key, .list [])])) ∧
    ∀ tmp m, tmp.length + data.length ≤ n →
      comment (accept n) [] ⟨tmp, key, [], m⟩ data ≠ .ok (false, [(key, .list [])]) := by
  induction data with
  | nil =>
    refine ⟨fun tmp m _ => ?_, fun tmp m _ => ?_⟩
    · rw [scan]
      simp
    · rw [comment]
      simp
  | cons c data ih =>
    refine ⟨fun tmp m h => ?_, fun tmp m h => ?_⟩ <;> rw [length_cons] at h
    · rw [scan]
      split
      · simp
      split
      · exact ih.2 tmp m (by omega)
      split
      · have hlt : tmp.length ≠ n := by omega
        simp only [Scan.close, if_neg hk, if_true, accept, if_neg hlt]
        simp [bind, Except.bind]
      split
      · exact ih.1 tmp m (by omega)
      · rw [push_of_key hk]
        apply ih.1
        dsimp only
        rw [length_append, length_singleton]
        omega
    · rw [comment]
      split
      · exact ih.1 tmp m (by omega)
      · exact ih.2 tmp m (by omega)

theorem closed_of_scan (hk : key ≠ []) (ht : strip isSpace tmp ≠ []) (htail : Blank tail)
    (hlen : tmp.length + (within ++ '}' :: tail).length = n)
    (h : scan (accept n) [] ⟨tmp, key, [], m⟩ (within ++ '}' :: tail ++ [';']) =
      .ok (false, [(key, .list [])])) : Closed m within := by
  induction within generalizing tmp m with
  | nil =>
    have hlast : tail ++ [';'] ≠ [] := by simp
    rw [nil_append, cons_append, scan] at h
    split at h
    · cases h
    rename_i hneg
    rw [if_neg fun h => absurd h.1 (by decide), if_neg fun h => h.1.elim (by decide) hlast,
      if_neg fun h => ht h.2, push_of_key hk] at h
    have hb : m + brace '}' = m - 1 := rfl
    dsimp only at hneg h
    rw [hb] at h
    by_contra hne
    by_cases hz : m = 0
    · obtain ⟨c, data, hc⟩ := exists_cons_of_ne_nil hlast
      rw [hc, scan, if_pos (show m - 1 < 0 by omega)] at h
      cases h
    · have hpos : 0 < m - 1 := by
        rw [Closed] at hne
        omega
      rw [scan_text _ _ htail.isText (Int.le_of_lt hpos) (.inl (cons_ne_nil _ _)) (.inl hk),
        scan_push _ _ (Int.le_of_lt hpos) (.inr (Int.ne_of_gt hpos)) (by decide), scan] at h
      cases h
  | cons c within ih =>
    rw [cons_append, length_cons] at hlen
    have hne : within ++ '}' :: tail ++ [';'] ≠ [] := by simp
    have hshort : tmp.length + (within ++ '}' :: tail ++ [';']).length ≤ n := by
      rw [length_append, length_singleton]
      omega
    rw [cons_append, cons_append, scan] at h
    split at h
    · cases h
    rename_i hneg
    split at h
    · exact absurd h ((scan_short hk _).2 tmp m hshort)
    rename_i hhash
    split at h
    · have hlt : tmp.length ≠ n := by omega
      simp only [Scan.close, if_neg hk, if_true, accept, if_neg hlt] at h
      cases h
    rename_i hsemi
    rw [if_neg fun h => ht h.2, push_of_key hk] at h
    refine ⟨Int.not_lt.1 hneg, fun hz => ⟨fun hc => hhash ⟨hc, hz⟩, fun hc => hsemi ⟨.inl hc, hz⟩⟩,
      ih (strip_append_ne_nil ht [c]) ?_ h⟩
    rw [length_append, length_singleton]
    omega

/-- Comments between the items of a text change nothing of what is read if the text of each block is
closed, comments included, which is so exactly if the scan around it takes it as a whole. -/
theorem toJson_commented (text text' key within tail : Str) (hk : key ≠ []) (htail : Blank tail) :
    (Commented text text' → ∀ limit d, toJson limit d text' = toJson limit d text) ∧
    ((∀ process d r data,
      scan process d ⟨r, key, [], 0⟩ ('{' :: within ++ '}' :: tail ++ ';' :: data) =
        scan process d ⟨r ++ ('{' :: within ++ ['}']) ++ tail, key, [], 0⟩ (';' :: data)) ↔
      Closed 1 within) := by
  constructor
  · intro h limit d
    cases limit with
    | zero => rfl
    | succ n => exact (h.equivalent n d [] [] blank_nil blank_nil).symm
  · refine ⟨fun h => ?_, fun hb process d r data => scan_within process d r hk hb htail data⟩
    have hscan := h (accept ('{' :: within ++ '}' :: tail).length) [] [] []
    rw [scan_close rfl] at hscan
    simp only [Scan.close, if_neg hk, if_true, nil_append, append_assoc, cons_append,
      accept] at hscan
    rw [scan_open _ _ key [] _ (by simp)] at hscan
    apply closed_of_scan hk (strip_open []) htail (n := ('{' :: within ++ '}' :: tail).length)
    · simp [Nat.add_comm]
    · simp only [append_assoc, cons_append]
      exact hscan

theorem sample_closed : Closed 1 "# \x7d \x7b\n k ; ".toList := by
  simp [Closed, brace]

theorem sample_commented :
    Commented "c { k ; };".toList "# \x7d\nc \x7b# \x7d \x7b\n k ; \x7d;".toList := by
  have hnote {t w : Str} (ht : '\n' ∉ t) (hw : Blank w) : Pad ([] ++ '#' :: t ++ '\n' :: w) :=
    .comment blank_nil ht (.blank hw)
  have hwithin : Commented ([' '] ++ ['k', ' '] ++ ';' :: [' '])
      (([] ++ '#' :: " \x7d \x7b".toList ++ '\n' :: [' ']) ++ ['k', ' '] ++ ';' :: [' ']) :=
    .item blank_space (hnote (by decide) blank_space) (by simp [isItem])
      (.nil blank_space (.blank blank_space))
  exact .block sampleContext (w := []) blank_nil (hnote (t := [' ', '}']) (by decide) blank_nil)
    gap_space hwithin sample_closed blank_nil (.nil blank_nil (.blank blank_nil))

theorem toJson_commented_sample :
    toJson 2 [] "# \x7d\nc \x7b# \x7d \x7b\n k ; \x7d;".toList =
        toJson 2 [] "c { k ; };".toList ∧
      scan (accept 0) [] ⟨[], ['c'], [], 0⟩ ("\x7b# \x7d \x7b\n k ; \x7d;".toList) =
        scan (accept 0) [] ⟨"\x7b# \x7d \x7b\n k ; \x7d".toList, ['c'], [], 0⟩ [';'] :=
  have h := toJson_commented _ _ ['c'] _ [] (cons_ne_nil _ _) blank_nil
  ⟨h.1 sample_commented 2 [], h.2.2 sample_closed _ _ [] []⟩

/-- A closing brace in a comment inside a block ends the block for the scan around it. -/
theorem toJson_comment_brace :
    toJson 9 [] "a \x7b\n b c; \x7d;".toList =
        .ok (true, [(['a'], .dict [(['b'], .list [['c']])])]) ∧
      toJson 9 [] "a \x7b\n# \x7d\n b c; \x7d;".toList =
        .ok (false, [(['a'], .dict [(['b'], .list [[]])])]) := by
  decide +kernel

end Mdepx.Parser
