import Mathlib.Data.List.Induction
import Mathlib.Data.Nat.Bitwise

namespace Mdepx.Font
open Function List Option

/-! The fonts of `lib/libfont/libfont.c`. An access outside of `charmap` gives no result. -/

def maxchar : Nat := 2048

structure FontInfo where
  charmap : Fin maxchar → UInt16
  metricsData : Nat
  metricsCount : UInt16
  bitmapData : Nat
  offsetsData : Nat
  encodingsData : Nat

def FontInfo.charmapAt (font : FontInfo) (i : Nat) : Option UInt16 :=
  if h : i < maxchar then some (font.charmap ⟨i, h⟩) else none

def FontInfo.setCharmap (font : FontInfo) (i : Nat) (v : UInt16) : Option FontInfo :=
  if h : i < maxchar then some { font with charmap := Function.update font.charmap ⟨i, h⟩ v }
  else none

structure CharInfo where
  left : UInt8
  right : UInt8
  width : UInt8
  ascent : UInt8
  descent : UInt8
  xsize : UInt32
  ysize : UInt32
deriving DecidableEq

structure Pixel where
  x : Nat
  y : Nat
  bit : Bool
deriving DecidableEq

section
variable (bigEndian : Bool) (m : Nat → UInt8)

def be16At (a : Nat) : UInt16 := UInt16.ofNat ((m a).toNat * 256 + (m (a + 1)).toNat)

def u32At (a : Nat) : UInt32 :=
  let b := fun i => (m (a + i)).toNat
  if bigEndian then UInt32.ofNat (b 0 * 2 ^ 24 + b 1 * 2 ^ 16 + b 2 * 2 ^ 8 + b 3)
  else UInt32.ofNat (b 3 * 2 ^ 24 + b 2 * 2 ^ 16 + b 1 * 2 ^ 8 + b 0)

def be16toh (v : UInt16) : UInt16 := if bigEndian then v else v <<< 8 ||| v >>> 8

def be32toh (v : UInt32) : UInt32 :=
  if bigEndian then v
  else v <<< 24 ||| (v &&& (0xff00 : UInt32)) <<< 8 ||| (v >>> 8 &&& (0xff00 : UInt32)) ||| v >>> 24

def getCharInfo (font : FontInfo) (c : UInt16) : Option CharInfo := do
  let i ← font.charmapAt c.toNat
  let ptr := font.metricsData + i.toNat * 5
  let left := m ptr - 128
  let right := m (ptr + 1) - 128
  let width := m (ptr + 2) - 128
  let ascent := m (ptr + 3) - 128
  let descent := m (ptr + 4) - 128
  return ⟨left, right, width, ascent, descent, right.toUInt32 - left.toUInt32,
    ascent.toUInt32 + descent.toUInt32⟩

/-- The pixels in the order they are drawn. A shift is by its distance modulo 32. -/
def drawChar (font : FontInfo) (c : UInt16) : Option (List Pixel) := do
  let i ← font.charmapAt c.toNat
  let offs := be32toh bigEndian (u32At bigEndian m (font.offsetsData + 4 * i.toNat))
  let glyph := font.bitmapData + offs.toNat
  let ci ← getCharInfo m font c
  return (range ci.ysize.toNat).flatMap fun p =>
    let d := (be16toh bigEndian (u32At bigEndian m (glyph + 4 * p)).toUInt16).toUInt32
    (range ci.xsize.toNat).map fun bit =>
      ⟨bit, p, d &&& (1 <<< (16 - UInt32.ofNat bit)) ≠ 0⟩

def firstCol (ptr : Nat) : UInt16 := be16At m (ptr + 4)
def lastCol (ptr : Nat) : UInt16 := be16At m (ptr + 6)
def firstRow (ptr : Nat) : UInt16 := be16At m (ptr + 8)
def lastRow (ptr : Nat) : UInt16 := be16At m (ptr + 10)

def nencoding (ptr : Nat) : UInt32 :=
  ((lastCol m ptr).toUInt32 - (firstCol m ptr).toUInt32 + 1) *
    ((lastRow m ptr).toUInt32 - (firstRow m ptr).toUInt32 + 1)

def encodingsLoop (first : Nat) (n : Nat) : Nat → Nat → FontInfo → Option FontInfo
  | 0, _, font => some font
  | left + 1, ptr, font =>
    let i := maxchar - (left + 1)
    if i < n then do
      let offs := be16At m ptr
      let font ← if offs ≠ 0xffff then font.setCharmap (i + first) offs else some font
      encodingsLoop first n left (ptr + 2) font
    else some font

def encodings (font : FontInfo) (ptr : Nat) : Option FontInfo :=
  encodingsLoop m (firstCol m ptr).toNat (nencoding m ptr).toNat maxchar (ptr + 14)
    { font with encodingsData := ptr + 14 }

def metrics (font : FontInfo) (ptr : Nat) : FontInfo :=
  let format := u32At bigEndian m ptr
  let font :=
    if format &&& 0xff00 = 0x100 then { font with metricsCount := be16At m (ptr + 4) } else font
  { font with metricsData := ptr + 6 }

def bitmaps (font : FontInfo) (ptr : Nat) : FontInfo :=
  let format := u32At bigEndian m ptr
  let tmp := u32At bigEndian m (ptr + 4)
  let glyphCount := if format &&& 4 ≠ 0 then be32toh bigEndian tmp else tmp
  { font with
    offsetsData := ptr + 8
    bitmapData := ptr + 8 + (4 * glyphCount).toNat + 16 }

def pcfMetrics : UInt32 := (1 : UInt32) <<< 2
def pcfBitmaps : UInt32 := (1 : UInt32) <<< 3
def pcfBdfEncodings : UInt32 := (1 : UInt32) <<< 5

def entryType (header i : Nat) : UInt32 := u32At bigEndian m (header + 8 + i * 16)

def entryTable (header i : Nat) : Nat :=
  header + (u32At bigEndian m (header + 8 + i * 16 + 12)).toNat

/-- One round of the loop of `font_init`. The accelerators are not used. -/
def initEntry (header i : Nat) (font : FontInfo) : Option FontInfo :=
  let type := entryType bigEndian m header i
  let addr := entryTable bigEndian m header i
  if type = pcfMetrics then some (metrics bigEndian m font addr)
  else if type = pcfBitmaps then some (bitmaps bigEndian m font addr)
  else if type = pcfBdfEncodings then encodings m font addr
  else some font

def tableCount (header : Nat) : Nat := (u32At bigEndian m (header + 4)).toNat

def fontInit (font : FontInfo) (header : Nat) : Option (Int × FontInfo) :=
  if m header ≠ 1 ∨ m (header + 1) ≠ 0x66 ∨ m (header + 2) ≠ 0x63 ∨ m (header + 3) ≠ 0x70 then
    some (-1, font)
  else do
    let font ← (range (tableCount bigEndian m header)).foldlM
      (fun font i => initEntry bigEndian m header i font) font
    return (0, font)

end

section
variable {m : Nat → UInt8} {first n ptr i : Nat}

theorem FontInfo.setCharmap_of_lt (font : FontInfo) (h : i < maxchar) (v : UInt16) :
    font.setCharmap i v = some { font with charmap := update font.charmap ⟨i, h⟩ v } :=
  dif_pos h

def filled (m : Nat → UInt8) (first n ptr i : Nat) (charmap : Fin maxchar → UInt16)
    (j : Fin maxchar) : UInt16 :=
  let offs := be16At m (ptr + 2 * (j.val - first))
  if first + i ≤ j.val ∧ j.val < first + n ∧ offs ≠ 0xffff then offs else charmap j

theorem filled_of_ne {charmap charmap' : Fin maxchar → UInt16} (hj : j.val ≠ i + first)
    (he : charmap' j = charmap j) :
    filled m first n ptr (i + 1) charmap' j = filled m first n ptr i charmap j := by
  have hle : first + (i + 1) ≤ j.val ↔ first + i ≤ j.val := by omega
  unfold filled
  simp only [he, hle]

theorem filled_update (hi : i < n) (hin : i + first < maxchar)
    (hoffs : be16At m (ptr + 2 * i) ≠ 0xffff) :
    filled m first n ptr (i + 1) (update charmap ⟨i + first, hin⟩ (be16At m (ptr + 2 * i))) =
      filled m first n ptr i charmap := by
  funext j
  by_cases hj : j.val = i + first
  · have hself : j = ⟨i + first, hin⟩ := Fin.ext hj
    have hptr : j.val - first = i := by omega
    unfold filled
    dsimp only
    rw [hptr, if_neg (by omega), if_pos ⟨by omega, by omega, hoffs⟩, hself, update_self]
  · have hne : j ≠ ⟨i + first, hin⟩ := fun h => hj (congrArg Fin.val h)
    exact filled_of_ne hj (update_of_ne hne _ _)

theorem filled_skip (hoffs : be16At m (ptr + 2 * i) = 0xffff) :
    filled m first n ptr (i + 1) charmap = filled m first n ptr i charmap := by
  funext j
  by_cases hj : j.val = i + first
  · have hptr : j.val - first = i := by omega
    unfold filled
    dsimp only
    rw [hptr, if_neg fun h => by omega, if_neg fun h => h.2.2 hoffs]
  · exact filled_of_ne hj rfl

theorem filled_end (hi : n ≤ i ∨ maxchar ≤ i) : filled m first n ptr i charmap = charmap := by
  funext j
  have hj := j.isLt
  unfold filled
  rw [if_neg fun h => by omega]

def InsideFrom (m : Nat → UInt8) (first n ptr i : Nat) : Prop :=
  ∀ j, i ≤ j → j < n → j < maxchar → be16At m (ptr + 2 * j) ≠ 0xffff → j + first < maxchar

theorem insideFrom_succ (h : i < n → i < maxchar → be16At m (ptr + 2 * i) ≠ 0xffff →
      i + first < maxchar) :
    InsideFrom m first n ptr i ↔ InsideFrom m first n ptr (i + 1) := by
  refine ⟨fun hall j hj => hall j (Nat.le_of_succ_le hj), fun hall j hj => ?_⟩
  rcases Nat.eq_or_lt_of_le hj with rfl | hlt
  · exact h
  · exact hall j hlt

theorem encodingsLoop_eq_some (left i : Nat) (hleft : i + left = maxchar) (font font' : FontInfo) :
    encodingsLoop m first n left (ptr + 2 * i) font = some font' ↔
      InsideFrom m first n ptr i ∧
        font' = { font with charmap := filled m first n ptr i font.charmap } := by
  induction left generalizing i font with
  | zero =>
    have hnone : InsideFrom m first n ptr i := fun j hij _ hj => by omega
    rw [encodingsLoop, filled_end (.inr (by omega)), some_inj, eq_comm]
    exact (and_iff_right hnone).symm
  | succ left ih =>
    have hcount : maxchar - (left + 1) = i := by omega
    have hnext : ptr + 2 * i + 2 = ptr + 2 * (i + 1) := by omega
    unfold encodingsLoop
    dsimp only
    rw [hcount, hnext]
    by_cases hi : i < n
    · rw [if_pos hi]
      by_cases hoffs : be16At m (ptr + 2 * i) = 0xffff
      · rw [if_neg (not_not.2 hoffs), bind_eq_bind, bind_some, ih _ (by omega),
          filled_skip hoffs, insideFrom_succ fun _ _ h => absurd hoffs h]
      · rw [if_pos hoffs, bind_eq_bind]
        by_cases hlt : i + first < maxchar
        · rw [FontInfo.setCharmap_of_lt font hlt, bind_some, ih _ (by omega),
            filled_update hi hlt hoffs, insideFrom_succ fun _ _ _ => hlt]
        · have hout : font.setCharmap (i + first) (be16At m (ptr + 2 * i)) = none := dif_neg hlt
          rw [hout, bind_none]
          exact iff_of_false nofun fun h => hlt (h.1 i (le_refl i) hi (by omega) hoffs)
    · have hnone : InsideFrom m first n ptr i := fun j hij hj _ => by omega
      rw [if_neg hi, filled_end (.inl (Nat.not_lt.1 hi)), some_inj, eq_comm]
      exact (and_iff_right hnone).symm

end

section
variable (m : Nat → UInt8)

def tableEntry (ptr row col : Nat) : UInt16 :=
  be16At m (ptr + 14 + 2 * ((row - (firstRow m ptr).toNat) *
    ((lastCol m ptr).toNat - (firstCol m ptr).toNat + 1) + (col - (firstCol m ptr).toNat)))

def InTable (ptr row col : Nat) : Prop :=
  ((firstRow m ptr).toNat ≤ row ∧ row ≤ (lastRow m ptr).toNat) ∧
    (firstCol m ptr).toNat ≤ col ∧ col ≤ (lastCol m ptr).toNat

def Mapped (ptr : Nat) (font : FontInfo) : Prop :=
  ∀ row col, InTable m ptr row col → (hcode : row <<< 8 ||| col < maxchar) →
    tableEntry m ptr row col ≠ 0xffff →
    font.charmap ⟨row <<< 8 ||| col, hcode⟩ = tableEntry m ptr row col

/-- The glyph of a table that stands as many places behind its first one as `code` is above the
first column: the rows are not told apart. -/
def glyphAt (ptr code : Nat) : Option UInt16 :=
  let offs := be16At m (ptr + 14 + 2 * (code - (firstCol m ptr).toNat))
  if (firstCol m ptr).toNat ≤ code ∧ code < (firstCol m ptr).toNat + (nencoding m ptr).toNat ∧
    offs ≠ 0xffff then some offs else none

def lastGlyphAt (ptrs : List Nat) (code : Nat) : Option UInt16 :=
  ptrs.foldl (fun glyph ptr => (glyphAt m ptr code).or glyph) none

/-- No glyph stands so far behind that its place is outside of the array. -/
def Inside (ptr : Nat) : Prop :=
  InsideFrom m (firstCol m ptr).toNat (nencoding m ptr).toNat (ptr + 14) 0

/-- Every code has its own entry at the place where the rows are not told apart. -/
def InPlace (ptrs : List Nat) (ptr : Nat) : Prop :=
  ∀ row col, InTable m ptr row col → row <<< 8 ||| col < maxchar →
    tableEntry m ptr row col ≠ 0xffff →
    lastGlyphAt m ptrs (row <<< 8 ||| col) = some (tableEntry m ptr row col)

end

section
variable {m : Nat → UInt8} {ptr row col : Nat}

theorem encodings_inside (font font' : FontInfo) (h : encodings m font ptr = some font') :
    Inside m ptr ∧ ∀ j, font'.charmap j = (glyphAt m ptr j.val).getD (font.charmap j) := by
  obtain ⟨hin, rfl⟩ := (encodingsLoop_eq_some maxchar 0 (zero_add _) _ _).1 h
  refine ⟨hin, fun j => ?_⟩
  dsimp only
  unfold filled glyphAt
  dsimp only
  rw [add_zero]
  split <;> rfl

theorem lastGlyphAt_concat (ptrs : List Nat) (ptr code : Nat) :
    lastGlyphAt m (ptrs ++ [ptr]) code = (glyphAt m ptr code).or (lastGlyphAt m ptrs code) :=
  foldl_append

theorem Inside.encodings (h : Inside m ptr) (font : FontInfo) :
    ∃ font', encodings m font ptr = some font' :=
  ⟨_, (encodingsLoop_eq_some maxchar 0 (zero_add _) _ _).2 ⟨h, rfl⟩⟩

variable (bigEndian : Bool) (m : Nat → UInt8) (header : Nat)

def encodingTablesOf (is : List Nat) : List Nat :=
  (is.filter fun i => entryType bigEndian m header i = pcfBdfEncodings).map
    (entryTable bigEndian m header)

def encodingTables : List Nat :=
  encodingTablesOf bigEndian m header (range (tableCount bigEndian m header))

variable {bigEndian m header}

theorem encodingTablesOf_concat (is : List Nat) (i : Nat) :
    encodingTablesOf bigEndian m header (is ++ [i]) = encodingTablesOf bigEndian m header is ++
      if entryType bigEndian m header i = pcfBdfEncodings then [entryTable bigEndian m header i]
      else [] := by
  unfold encodingTablesOf
  rw [filter_append, map_append]
  split <;> simp [*]

theorem initEntry_other (h : entryType bigEndian m header i ≠ pcfBdfEncodings) (font : FontInfo) :
    ∃ font', initEntry bigEndian m header i font = some font' ∧ font'.charmap = font.charmap := by
  unfold initEntry
  dsimp only
  by_cases hmetrics : entryType bigEndian m header i = pcfMetrics
  · rw [if_pos hmetrics]
    refine ⟨_, rfl, ?_⟩
    unfold metrics
    dsimp only
    split <;> rfl
  · rw [if_neg hmetrics]
    by_cases hbitmaps : entryType bigEndian m header i = pcfBitmaps
    · rw [if_pos hbitmaps]
      exact ⟨_, rfl, rfl⟩
    · rw [if_neg hbitmaps, if_neg h]
      exact ⟨_, rfl, rfl⟩

theorem initEntry_encodings (h : entryType bigEndian m header i = pcfBdfEncodings)
    (font : FontInfo) : initEntry bigEndian m header i font =
      encodings m font (entryTable bigEndian m header i) := by
  unfold initEntry
  rw [h]
  rfl

theorem initEntries_charmap (is : List Nat) (font font' : FontInfo)
    (h : is.foldlM (fun font i => initEntry bigEndian m header i font) font = some font') :
    (∀ ptr ∈ encodingTablesOf bigEndian m header is, Inside m ptr) ∧
      ∀ j, font'.charmap j =
        (lastGlyphAt m (encodingTablesOf bigEndian m header is) j.val).getD (font.charmap j) := by
  induction is using reverseRecOn generalizing font' with
  | nil =>
    cases h
    exact ⟨nofun, fun _ => rfl⟩
  | append_singleton is i ih =>
    rw [foldlM_append, bind_eq_bind, bind_eq_some_iff] at h
    obtain ⟨font₁, hfold, hlast⟩ := h
    simp only [foldlM_cons, foldlM_nil, bind_pure] at hlast
    obtain ⟨hall, hmap⟩ := ih font₁ hfold
    rw [encodingTablesOf_concat]
    by_cases htype : entryType bigEndian m header i = pcfBdfEncodings
    · rw [initEntry_encodings htype] at hlast
      obtain ⟨hin, hnew⟩ := encodings_inside _ _ hlast
      rw [if_pos htype]
      refine ⟨forall_mem_append.2 ⟨hall, forall_mem_singleton.2 hin⟩, fun j => ?_⟩
      rw [hnew, hmap, lastGlyphAt_concat]
      cases glyphAt m (entryTable bigEndian m header i) j.val with
      | none | some => rfl
    · obtain ⟨font₂, hother, hsame⟩ := initEntry_other htype font₁
      obtain rfl : font₂ = font' := Option.some.inj (hother.symm.trans hlast)
      rw [if_neg htype, append_nil, hsame]
      exact ⟨hall, hmap⟩

theorem initEntries_some (is : List Nat) (font : FontInfo)
    (hall : ∀ ptr ∈ encodingTablesOf bigEndian m header is, Inside m ptr) :
    ∃ font', is.foldlM (fun font i => initEntry bigEndian m header i font) font = some font' := by
  induction is using reverseRecOn with
  | nil => exact ⟨font, rfl⟩
  | append_singleton is i ih =>
    rw [encodingTablesOf_concat] at hall
    obtain ⟨his, hi⟩ := forall_mem_append.1 hall
    obtain ⟨font₁, hfold⟩ := ih his
    rw [foldlM_append, hfold, bind_eq_bind, bind_some]
    simp only [foldlM_cons, foldlM_nil, bind_pure]
    by_cases htype : entryType bigEndian m header i = pcfBdfEncodings
    · rw [if_pos htype] at hi
      rw [initEntry_encodings htype]
      exact (hi _ (mem_singleton_self _)).encodings font₁
    · obtain ⟨font', hother, -⟩ := initEntry_other htype font₁
      exact ⟨font', hother⟩

theorem mapped_iff {ptrs : List Nat} {after : FontInfo → FontInfo}
    (h : ∀ font j, (after font).charmap j = (lastGlyphAt m ptrs j.val).getD (font.charmap j)) :
    (∀ font, Mapped m ptr (after font)) ↔ InPlace m ptrs ptr := by
  constructor
  · intro hmapped row col hin hcode hentry
    have hother := hmapped ⟨fun _ => tableEntry m ptr row col + 1, 0, 0, 0, 0, 0⟩ row col hin hcode
      hentry
    rw [h] at hother
    cases hglyph : lastGlyphAt m ptrs (row <<< 8 ||| col) with
    | none =>
      rw [hglyph, Option.getD_none] at hother
      exact absurd hother (by simp)
    | some =>
      rw [hglyph] at hother
      exact congrArg some hother
  · intro hplace font row col hin hcode hentry
    rw [h, hplace row col hin hcode hentry, Option.getD_some]

theorem charmapAt_isSome (font : FontInfo) (i : Nat) :
    (font.charmapAt i).isSome ↔ i < maxchar := by
  unfold FontInfo.charmapAt
  split
  · exact iff_of_true rfl ‹_›
  · exact iff_of_false Bool.false_ne_true ‹_›

theorem getCharInfo_isSome (m : Nat → UInt8) (font : FontInfo) (c : UInt16) :
    (getCharInfo m font c).isSome ↔ c.toNat < maxchar := by
  rw [← charmapAt_isSome font, getCharInfo]
  cases font.charmapAt c.toNat with
  | none | some => rfl

theorem drawChar_isSome (bigEndian : Bool) (m : Nat → UInt8) (font : FontInfo) (c : UInt16) :
    (drawChar bigEndian m font c).isSome ↔ c.toNat < maxchar := by
  rw [← getCharInfo_isSome m font c, drawChar]
  unfold getCharInfo
  cases font.charmapAt c.toNat with
  | none | some => rfl

def IsPcf (m : Nat → UInt8) (header : Nat) : Prop :=
  ¬(m header ≠ 1 ∨ m (header + 1) ≠ 0x66 ∨ m (header + 2) ≠ 0x63 ∨ m (header + 3) ≠ 0x70)

theorem fontInit_of_isPcf (h : IsPcf m header) (font : FontInfo) :
    fontInit bigEndian m font header = (((range (tableCount bigEndian m header)).foldlM
      (fun font i => initEntry bigEndian m header i font) font).map fun font => (0, font)) := by
  rw [fontInit, if_neg h]
  exact map_eq_bind.symm

/-- Whatever the array has before, a font is read without leaving it, and it then has the last of
the encodings tables, exactly if no glyph of a table is put outside of it and each code of the last
table finds its entry as if there were no rows; a character is looked up inside the array exactly if
it is below `MAXCHAR`. -/
theorem fontInit_charmap (bigEndian : Bool) (m : Nat → UInt8) (header : Nat) :
    ((∀ font, ∃ error font', fontInit bigEndian m font header = some (error, font') ∧
        (error = 0 → ∀ ptr, (encodingTables bigEndian m header).getLast? = some ptr →
          Mapped m ptr font')) ↔
      (IsPcf m header → (∀ ptr ∈ encodingTables bigEndian m header, Inside m ptr) ∧
        ∀ ptr, (encodingTables bigEndian m header).getLast? = some ptr →
          InPlace m (encodingTables bigEndian m header) ptr)) ∧
    ∀ font' c, ((getCharInfo m font' c).isSome ↔ c.toNat < maxchar) ∧
      ((drawChar bigEndian m font' c).isSome ↔ c.toNat < maxchar) := by
  refine ⟨?_, fun font' c => ⟨getCharInfo_isSome m font' c, drawChar_isSome bigEndian m font' c⟩⟩
  by_cases hpcf : IsPcf m header
  · constructor
    · intro h _
      choose error after hinit hmapped using h
      simp only [fontInit_of_isPcf hpcf, map_eq_some_iff, Prod.mk.injEq] at hinit
      choose _ hfold hzero heq using hinit
      obtain rfl := funext heq
      have hread := fun font => initEntries_charmap _ font _ (hfold font)
      refine ⟨(hread ⟨fun _ => 0, 0, 0, 0, 0, 0⟩).1, fun ptr hlast => ?_⟩
      refine (mapped_iff fun font => (hread font).2).1 fun font => ?_
      exact hmapped font (hzero font).symm ptr hlast
    · intro h font
      obtain ⟨hinside, hplace⟩ := h hpcf
      choose after hfold using fun font => initEntries_some _ font hinside
      refine ⟨0, after font, ?_, fun _ ptr hlast => ?_⟩
      · rw [fontInit_of_isPcf hpcf, hfold, map_some]
      · exact (mapped_iff fun font => (initEntries_charmap _ font _ (hfold font)).2).2
          (hplace ptr hlast) font
  · refine iff_of_true (fun font => ⟨-1, font, ?_, nofun⟩) fun h => absurd h hpcf
    rw [fontInit, if_pos (not_not.1 hpcf)]

end

def pcfFont (firstCol lastCol row : UInt8 × UInt8) (offs : List UInt8) (a : Nat) : UInt8 :=
  ([1, 0x66, 0x63, 0x70, 1, 0, 0, 0, 0x20, 0, 0, 0, 0, 0, 0, 0, 18, 0, 0, 0, 24, 0, 0, 0,
    0, 0, 0, 0, firstCol.1, firstCol.2, lastCol.1, lastCol.2, row.1, row.2, row.1, row.2,
    0, 0] ++ offs).getD a 0

def noFont : FontInfo := ⟨fun _ => 0, 0, 0, 0, 0, 0⟩

def letters : Nat → UInt8 := pcfFont (0, 0x41) (0, 0x42) (0, 0) [0, 6, 0, 7]

def cyrillic : Nat → UInt8 := pcfFont (0, 0x10) (0, 0x10) (0, 4) [0, 7]

theorem fontInit_charmap_letters :
    ∃ font', fontInit false letters noFont 0 = some (0, font') ∧
      font'.charmap ⟨0x42, by decide⟩ = 7 := by
  have htables : encodingTables false letters 0 = [24] := by decide +kernel
  have hpcf : IsPcf letters 0 := by
    unfold IsPcf
    decide
  have hinside : Inside letters 24 := fun j _ hj _ _ => by
    have htwo : j < 2 := hj
    change j + 0x41 < 2048
    omega
  have hplace : InPlace letters [24] 24 := by
    intro row col hin _ _
    obtain ⟨⟨-, hrow⟩, hfirst, hlast⟩ := hin
    obtain rfl : row = 0 := Nat.le_zero.1 hrow
    have hcols : 0x41 ≤ col ∧ col ≤ 0x42 := ⟨hfirst, hlast⟩
    obtain rfl | rfl : col = 0x41 ∨ col = 0x42 := by omega
    · decide
    · decide
  have hall := (fontInit_charmap false letters 0).1.2
  rw [htables] at hall
  obtain ⟨error, font', hinit, hmapped⟩ := hall (fun _ => ⟨forall_mem_singleton.2 hinside,
    fun ptr hptr => Option.some.inj hptr ▸ hplace⟩) noFont
  have herror := hinit
  rw [fontInit_of_isPcf hpcf, map_eq_some_iff] at herror
  obtain ⟨_, -, hzero⟩ := herror
  obtain ⟨rfl, -⟩ := Prod.mk.inj hzero
  have hin : InTable letters 24 0 0x42 := by
    unfold InTable
    decide
  have hentry : tableEntry letters 24 0 0x42 = 7 := by decide
  have hmap := hmapped rfl 24 rfl 0 0x42 hin (by decide) (by decide)
  exact ⟨font', hinit, hmap.trans hentry⟩

/-- The entry of the character 0x410 is put to the place of 0x10; one of a table from column 2047 on
is put behind the array; and a character above all is looked up there. -/
theorem fontInit_misplaced :
    (tableEntry cyrillic 24 4 0x10 = 7 ∧
      (fontInit false cyrillic noFont 0).map (fun r => (r.2.charmap ⟨0x410, by decide⟩,
        r.2.charmap ⟨0x10, by decide⟩)) = some (0, 7)) ∧
    (fontInit false (pcfFont (7, 0xff) (8, 0) (0, 0) [0, 6, 0, 7]) noFont 0).isNone ∧
    getCharInfo (fun _ => 0) noFont 0x800 = none := by
  decide +kernel

end Mdepx.Font
