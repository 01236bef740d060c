import Mdepx.Lib.Utf8

namespace Mdepx.Font
open Lib List Option

/-! `utf8_to_ucs2` of `lib/libfont/libfont.c`. -/

/-- What is returned, and how far `*end_ptr` is behind `input`. There is no result if a byte behind
the end of the buffer is read. -/
def utf8ToUcs2 (input : List UInt8) : Option (Int × Nat) := do
  let b₀ ← input[0]?
  if b₀ = 0 then return (-1, 0)
  else if b₀ < 0x80 then return (b₀.toNat, 1)
  else if b₀ &&& 0xe0 = 0xe0 then
    let b₁ ← input[1]?
    if b₁ = 0 then return (-1, 0)
    else
      let b₂ ← input[2]?
      if b₂ = 0 then return (-1, 0)
      else return (((b₀ &&& 0x0f).toNat <<< 12 ||| (b₁ &&& 0x3f).toNat <<< 6 |||
        (b₂ &&& 0x3f).toNat : Nat), 3)
  else if b₀ &&& 0xc0 = 0xc0 then
    let b₁ ← input[1]?
    if b₁ = 0 then return (-1, 0)
    else return (((b₀ &&& 0x1f).toNat <<< 6 ||| (b₁ &&& 0x3f).toNat : Nat), 2)
  else return (-1, 0)

def decodeAll : Nat → List UInt8 → Option (List Int)
  | 0, _ => none
  | fuel + 1, input => do
    let (c, n) ← utf8ToUcs2 input
    if c < 0 then return []
    else return c :: (← decodeAll fuel (input.drop n))

section
variable {b b₁ b₂ : UInt8} {t : List UInt8}

theorem utf8ToUcs2_one (h0 : b ≠ 0) (h : b.toNat < 0x80) :
    utf8ToUcs2 (b :: t) = some ((b.toNat : Int), 1) := by
  have hlt : b < 0x80 := UInt8.lt_iff_toNat_lt.2 h
  simp [utf8ToUcs2, h0, hlt]

theorem utf8ToUcs2_tail (h : Utf8.Tail b) : utf8ToUcs2 (b :: t) = some (-1, 0) := by
  have h0 : b ≠ 0 := by
    rintro rfl
    exact absurd h.1 (by decide)
  have hlt : ¬b < 0x80 := fun hb => Nat.not_lt.2 h.1 (UInt8.lt_iff_toNat_lt.1 hb)
  have he0 : b &&& 0xe0 ≠ 0xe0 := fun hb => absurd ((Utf8.and_e0_eq b).1 hb) (by have := h.2; omega)
  have hc0 : b &&& 0xc0 ≠ 0xc0 := fun hb => absurd ((Utf8.and_c0_eq b).1 hb) (by have := h.2; omega)
  simp [utf8ToUcs2, h0, hlt, he0, hc0]

theorem lead_ne (h : 0xc0 ≤ b.toNat) : b ≠ 0 ∧ ¬b < 0x80 := by
  constructor
  · rintro rfl
    exact absurd h (by decide)
  · intro hb
    have hlt : b.toNat < 0x80 := UInt8.lt_iff_toNat_lt.1 hb
    omega

theorem utf8ToUcs2_two (h : 0xc0 ≤ b.toNat) (h' : b.toNat < 0xe0) :
    utf8ToUcs2 (b :: b₁ :: t) =
      if b₁ = 0 then some (-1, 0)
      else some (((b.toNat % 32 * 64 + b₁.toNat % 64 : Nat) : Int), 2) := by
  obtain ⟨h0, hlt⟩ := lead_ne h
  have he0 : b &&& 0xe0 ≠ 0xe0 := fun hb => absurd ((Utf8.and_e0_eq b).1 hb) (by omega)
  have hc0 : b &&& 0xc0 = 0xc0 := (Utf8.and_c0_eq b).2 h
  have hvalue : (b &&& 0x1f).toNat <<< 6 ||| (b₁ &&& 0x3f).toNat =
      b.toNat % 32 * 64 + b₁.toNat % 64 := by
    rw [Utf8.toNat_and_mask b 0x1f 5 rfl, Utf8.toNat_and_mask b₁ 0x3f 6 rfl]
    exact Utf8.shiftLeft_or _ (Nat.mod_lt _ (by decide))
  simp only [utf8ToUcs2, getElem?_cons_zero, getElem?_cons_succ, bind_eq_bind,
    bind_some, if_neg h0, if_neg hlt, if_neg he0, if_pos hc0, hvalue]
  rfl

theorem utf8ToUcs2_three (h : 0xe0 ≤ b.toNat) (h₁ : b₁ ≠ 0) :
    utf8ToUcs2 (b :: b₁ :: b₂ :: t) =
      if b₂ = 0 then some (-1, 0)
      else some (((b.toNat % 16 * 4096 + b₁.toNat % 64 * 64 + b₂.toNat % 64 : Nat) : Int), 3) := by
  obtain ⟨h0, hlt⟩ := lead_ne (le_trans (by decide) h)
  have he0 : b &&& 0xe0 = 0xe0 := (Utf8.and_e0_eq b).2 h
  have hvalue : (b &&& 0x0f).toNat <<< 12 ||| (b₁ &&& 0x3f).toNat <<< 6 ||| (b₂ &&& 0x3f).toNat =
      b.toNat % 16 * 4096 + b₁.toNat % 64 * 64 + b₂.toNat % 64 := by
    rw [Utf8.toNat_and_mask b 0x0f 4 rfl, Utf8.toNat_and_mask b₁ 0x3f 6 rfl,
      Utf8.toNat_and_mask b₂ 0x3f 6 rfl]
    exact Utf8.shiftLeft_or_or _ (Nat.mod_lt _ (by decide)) (Nat.mod_lt _ (by decide))
  simp only [utf8ToUcs2, getElem?_cons_zero, getElem?_cons_succ, bind_eq_bind,
    bind_some, if_neg h0, if_neg hlt, if_pos he0, if_neg h₁, hvalue]
  rfl

theorem utf8ToUcs2_cut (h : 0xc0 ≤ b.toNat) : utf8ToUcs2 (b :: 0 :: t) = some (-1, 0) := by
  by_cases h' : b.toNat < 0xe0
  · rw [utf8ToUcs2_two h h', if_pos rfl]
  · obtain ⟨h0, hlt⟩ := lead_ne h
    simp [utf8ToUcs2, h0, hlt]

structure Begins (s : List UInt8) (c : Nat) : Prop where
  pos : 0 < c
  lt : c < 0x10000
  isPrefix : Utf8.encode c <+: s

theorem toNat_ofNat_of_lt (h : n < 256) : (UInt8.ofNat n).toNat = n := by
  rw [UInt8.toNat_ofNat']
  exact Nat.mod_eq_of_lt h

theorem ofNat_ne_zero (h : n < 256) (h0 : 0 < n) : UInt8.ofNat n ≠ 0 := by
  intro hn
  have hz := congrArg UInt8.toNat hn
  rw [toNat_ofNat_of_lt h] at hz
  exact absurd hz (ne_of_gt h0)

theorem utf8ToUcs2_encode (h0 : 0 < c) (hc : c < 0x10000) (t : List UInt8) :
    utf8ToUcs2 (Utf8.encode c ++ t) = some ((c : Int), (Utf8.encode c).length) := by
  unfold Utf8.encode
  by_cases h1 : c < 0x80
  · have hb := toNat_ofNat_of_lt (show c < 256 by omega)
    rw [if_pos h1, singleton_append, utf8ToUcs2_one (ofNat_ne_zero (by omega) h0) (by omega), hb]
    rfl
  · rw [if_neg h1]
    by_cases h2 : c < 0x800
    · have hb := toNat_ofNat_of_lt (show 0xc0 + c / 64 < 256 by omega)
      have hb₁ := toNat_ofNat_of_lt (show 0x80 + c % 64 < 256 by omega)
      have hvalue : (0xc0 + c / 64) % 32 * 64 + (0x80 + c % 64) % 64 = c := by omega
      rw [if_pos h2, cons_append, singleton_append, utf8ToUcs2_two (by omega) (by omega),
        if_neg (ofNat_ne_zero (by omega) (by omega)), hb, hb₁, hvalue]
      rfl
    · have hb := toNat_ofNat_of_lt (show 0xe0 + c / 4096 < 256 by omega)
      have hb₁ := toNat_ofNat_of_lt (show 0x80 + c / 64 % 64 < 256 by omega)
      have hb₂ := toNat_ofNat_of_lt (show 0x80 + c % 64 < 256 by omega)
      have hvalue : (0xe0 + c / 4096) % 16 * 4096 + (0x80 + c / 64 % 64) % 64 * 64 +
          (0x80 + c % 64) % 64 = c := by omega
      rw [if_neg h2, cons_append, cons_append, singleton_append,
        utf8ToUcs2_three (by omega) (ofNat_ne_zero (by omega) (by omega)),
        if_neg (ofNat_ne_zero (by omega) (by omega)), hb, hb₁, hb₂, hvalue]
      rfl

theorem Begins.decoded (h : Begins s c) (t : List UInt8) :
    utf8ToUcs2 (s ++ t) = some ((c : Int), (Utf8.encode c).length) := by
  obtain ⟨r, rfl⟩ := h.isPrefix
  rw [append_assoc]
  exact utf8ToUcs2_encode h.pos h.lt _

/-- What is refused: an empty string, one that begins inside a character, and one that ends inside
its first one. -/
def Refused : List UInt8 → Prop
  | [] => True
  | b :: t => Utf8.Tail b ∨ 0xc0 ≤ b.toNat ∧ t = [] ∨ 0xe0 ≤ b.toNat ∧ t.length < 2

theorem utf8ToUcs2_refuses (hs : 0 ∉ s) : utf8ToUcs2 (s ++ [0]) = some (-1, 0) ↔ Refused s := by
  have hpos : ∀ {n k : Nat}, some ((n : Int), k) ≠ some (-1, 0) := by
    intro n k h
    have hn := congrArg Prod.fst (Option.some.inj h)
    exact absurd hn (by omega)
  cases s with
  | nil => exact iff_of_true rfl trivial
  | cons b t =>
    obtain ⟨h0, ht⟩ := not_or.1 (mt mem_cons.2 hs)
    rw [cons_append, Refused]
    by_cases h1 : b.toNat < 0x80
    · rw [utf8ToUcs2_one (Ne.symm h0) h1]
      refine iff_of_false hpos ?_
      rintro (h | ⟨h, -⟩ | ⟨h, -⟩)
      · exact Nat.not_lt.2 h.1 h1
      · omega
      · omega
    by_cases h2 : b.toNat < 0xc0
    · have htail : Utf8.Tail b := ⟨Nat.not_lt.1 h1, h2⟩
      exact iff_of_true (utf8ToUcs2_tail htail) (.inl htail)
    have hlead : 0xc0 ≤ b.toNat := Nat.not_lt.1 h2
    have hnot : ¬Utf8.Tail b := fun h => h2 h.2
    cases t with
    | nil => exact iff_of_true (utf8ToUcs2_cut hlead) (.inr (.inl ⟨hlead, rfl⟩))
    | cons b₁ t =>
      obtain ⟨h₁, ht⟩ := not_or.1 (mt mem_cons.2 ht)
      by_cases h3 : b.toNat < 0xe0
      · rw [cons_append, utf8ToUcs2_two hlead h3, if_neg (Ne.symm h₁)]
        refine iff_of_false hpos ?_
        rintro (h | ⟨-, h⟩ | ⟨h, -⟩)
        · exact hnot h
        · cases h
        · exact Nat.not_lt.2 h h3
      cases t with
      | nil =>
        rw [cons_append, nil_append, utf8ToUcs2_three (Nat.not_lt.1 h3) (Ne.symm h₁),
          if_pos rfl]
        exact iff_of_true rfl (.inr (.inr ⟨Nat.not_lt.1 h3, Nat.lt_succ_self 1⟩))
      | cons b₂ t =>
        obtain ⟨h₂, -⟩ := not_or.1 (mt mem_cons.2 ht)
        rw [cons_append, cons_append,
          utf8ToUcs2_three (Nat.not_lt.1 h3) (Ne.symm h₁), if_neg (Ne.symm h₂)]
        refine iff_of_false hpos ?_
        rintro (h | ⟨-, h⟩ | ⟨-, h⟩)
        · exact hnot h
        · cases h
        · exact absurd h (Nat.not_lt.2 (Nat.le_add_left 2 t.length))

theorem decodeAll_encode (cs : List Nat) (hcs : ∀ c ∈ cs, 0 < c ∧ c < 0x10000) :
    decodeAll (cs.length + 1) (cs.flatMap Utf8.encode ++ [0]) = some (cs.map Int.ofNat) := by
  induction cs with
  | nil => rfl
  | cons c cs ih =>
    obtain ⟨hc, hcs⟩ := forall_mem_cons.1 hcs
    rw [flatMap_cons, append_assoc, length_cons, decodeAll,
      utf8ToUcs2_encode hc.1 hc.2, bind_eq_bind, bind_some]
    dsimp only
    rw [if_neg (Int.not_lt.2 (Int.natCast_nonneg c)), drop_left, ih hcs]
    rfl

/-- The decoding is as it should be: a character below `0x10000` is taken for what it is, and
whatever is no such character is refused. -/
def Exact (s : List UInt8) : Prop :=
  (∀ c, Begins s c → utf8ToUcs2 (s ++ [0]) = some ((c : Int), (Utf8.encode c).length)) ∧
  ((∀ c, ¬Begins s c) → utf8ToUcs2 (s ++ [0]) = some (-1, 0))

/-- The decoder takes every character below `0x10000` for what it is, and a string of them for
all of them. Beyond that it is exact only on the strings it refuses. -/
theorem utf8ToUcs2_exact (s : List UInt8) (hs : 0 ∉ s) (cs : List Nat)
    (hcs : ∀ c ∈ cs, 0 < c ∧ c < 0x10000) :
    (Exact s ↔ (∃ c, Begins s c) ∨ Refused s) ∧
      decodeAll (cs.length + 1) (cs.flatMap Utf8.encode ++ [0]) = some (cs.map Int.ofNat) := by
  refine ⟨⟨fun h => ?_, fun h => ⟨fun c hc => hc.decoded [0], fun hnone => ?_⟩⟩,
    decodeAll_encode cs hcs⟩
  · by_cases hc : ∃ c, Begins s c
    · exact .inl hc
    · exact .inr ((utf8ToUcs2_refuses hs).1 (h.2 (not_exists.1 hc)))
  · rcases h with ⟨c, hc⟩ | h
    · exact absurd hc (hnone c)
    · exact (utf8ToUcs2_refuses hs).2 h

theorem utf8ToUcs2_exact_euro : Exact [0xe2, 0x82, 0xac] ∧
    decodeAll 3 ([0x20ac, 0x41].flatMap Utf8.encode ++ [0]) = some [0x20ac, 0x41] := by
  have hbegins : Begins [0xe2, 0x82, 0xac] 0x20ac := ⟨by decide, by decide, by decide⟩
  obtain ⟨hexact, hall⟩ :=
    utf8ToUcs2_exact [0xe2, 0x82, 0xac] (by decide) [0x20ac, 0x41] (by decide)
  exact ⟨hexact.2 (.inl ⟨_, hbegins⟩), hall⟩

theorem not_begins_of_decoded {c : Nat} (h : utf8ToUcs2 (s ++ [0]) = some ((c : Int), n))
    (hp : ¬Utf8.encode c <+: s) (c' : Nat) : ¬Begins s c' := by
  intro hb
  have hc := congrArg Prod.fst (Option.some.inj ((hb.decoded [0]).symm.trans h))
  rw [← Int.ofNat.inj hc] at hp
  exact hp hb.isPrefix

/-- A byte that does not go on with the character, a form that is too long, and the first three
bytes of a character of four. -/
theorem utf8ToUcs2_lax :
    (utf8ToUcs2 [0xc3, 0x28, 0] = some (0xe8, 2) ∧ ∀ c, ¬Begins [0xc3, 0x28] c) ∧
    (utf8ToUcs2 [0xc1, 0x81, 0] = some (0x41, 2) ∧ ∀ c, ¬Begins [0xc1, 0x81] c) ∧
    (utf8ToUcs2 [0xf0, 0x9f, 0x98, 0x80, 0] = some (0x7d8, 3) ∧
      ∀ c, ¬Begins [0xf0, 0x9f, 0x98, 0x80] c) := by
  refine ⟨⟨rfl, ?_⟩, ⟨rfl, ?_⟩, ⟨rfl, ?_⟩⟩
  · exact not_begins_of_decoded (c := 0xe8) rfl (by decide)
  · exact not_begins_of_decoded (c := 0x41) rfl (by decide)
  · exact not_begins_of_decoded (c := 0x7d8) rfl (by decide)

end

end Mdepx.Font
