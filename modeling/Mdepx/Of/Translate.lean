import Mdepx.Lib.BigEndian
import Mdepx.Of.Reg

namespace Mdepx.Of
open Lib List Option BitVec

/-! The address of a register by the rules for device trees, and when `mdx_of_get_reg` gives it. -/

def cellsValue (cells : List UInt32) : Nat := cells.foldl (fun v c => v * 2 ^ 32 + c.toNat) 0

structure Range where
  child : Nat
  parent : Nat
  size : Nat
deriving DecidableEq

def Range.Covers (e : Range) (addr : Nat) : Prop := e.child ≤ addr ∧ addr < e.child + e.size

instance (e : Range) (addr : Nat) : Decidable (e.Covers addr) := inferInstanceAs (Decidable (_ ∧ _))

def Range.move (e : Range) (addr : Nat) : Nat := addr - e.child + e.parent

namespace Node

def naddr (n : Node) : Nat := (n.addressCells.getD 0).toNat

def nsize (n : Node) : Nat := (n.sizeCells.getD 0).toNat

def OneOrTwo (n : Node) : Prop :=
  (n.addressCells = some 1 ∨ n.addressCells = some 2) ∧
    (n.sizeCells = some 1 ∨ n.sizeCells = some 2)

instance (n : Node) : Decidable n.OneOrTwo := inferInstanceAs (Decidable (_ ∧ _))

def regEntry (n bus : Node) (index : Nat) : Option (Nat × Nat) :=
  let r := (n.reg.getD []).drop (index * (bus.naddr + bus.nsize))
  if bus.naddr + bus.nsize ≤ r.length then
    some (cellsValue (r.take bus.naddr), cellsValue ((r.drop bus.naddr).take bus.nsize))
  else none

end Node

def rangeOf (naddr bNaddr nsize : Nat) (r : List UInt32) : Range :=
  ⟨cellsValue (r.take naddr), cellsValue ((r.drop naddr).take bNaddr),
    cellsValue ((r.drop (naddr + bNaddr)).take nsize)⟩

def rangesOf (naddr bNaddr nsize : Nat) : Nat → List UInt32 → List Range
  | 0, _ => []
  | n + 1, r =>
    rangeOf naddr bNaddr nsize r ::
      rangesOf naddr bNaddr nsize n (r.drop (naddr + bNaddr + nsize))

def Node.rangeList (bus parent : Node) (r : List UInt32) : List Range :=
  rangesOf bus.naddr parent.naddr bus.nsize (r.length / (bus.naddr + parent.naddr + bus.nsize)) r

/-- One level up: by the first tuple that covers the address, or as it is if there are to be none.
Without the property there is no way up. -/
def Node.up (bus parent : Node) (addr : Nat) : Option Nat :=
  match bus.ranges with
  | none => none
  | some [] => some addr
  | some (c :: r) =>
    ((bus.rangeList parent (c :: r)).find? fun e => e.Covers addr).map fun e => e.move addr

def toRoot : List Node → Nat → Option Nat
  | bus :: parent :: above, addr => (bus.up parent addr).bind (toRoot (parent :: above))
  | _, addr => some addr

inductive Path (fdt : Fdt) : Int → List Node → Prop
  | root : fdt.node 0 = some n → Path fdt 0 [n]
  | under : fdt.node offset = some n → offset ≠ 0 → Path fdt n.parent above →
      Path fdt offset (n :: above)

/-- What the code makes of an address with one tuple, in 64 bits and then in those of a `size_t`. -/
def Range.carry (w : Nat) (addr : Nat) (e : Range) : Nat :=
  if e.child ≤ addr ∧ addr < (e.child + e.size) % 2 ^ 64 then e.move addr % 2 ^ w else addr

/-- And with all of them one after the other, up to the bus just below the root, whose `ranges` it
leaves out. The tuples are read with the cells of `dev`, the bus of the device, at every level. -/
def carry (w : Nat) (dev : Node) : List Node → Nat → Nat
  | bus :: parent :: next :: above, addr =>
    match bus.ranges with
    | none => addr
    | some r =>
      carry w dev (parent :: next :: above) ((dev.rangeList parent r).foldl (Range.carry w) addr)
  | _, addr => addr

/-- The first entry of `reg` has the size of the one asked for, and its address is carried to where
the rules translate that one's. -/
def Carried (w : Nat) (dev bus : Node) (above : List Node) (index : Nat) : Prop :=
  ∃ first entry, dev.regEntry bus 0 = some first ∧ dev.regEntry bus index = some entry ∧
    first.2 % 2 ^ w = entry.2 ∧
    toRoot (bus :: above) entry.1 = some (carry w bus (bus :: above) (first.1 % 2 ^ w))

/-- At most one tuple applies also if each is tried on what the others have made of the address, and
no number is too large. -/
def Once (w : Nat) : List Range → Nat → Prop
  | [], _ => True
  | e :: es, addr =>
    e.child + e.size < 2 ^ 64 ∧
      if e.Covers addr then
        e.move addr < 2 ^ w ∧
          ∀ e' ∈ es, e'.child + e'.size < 2 ^ 64 ∧ ¬e'.Covers (e.move addr)
      else Once w es addr

instance decidableOnce : (w : Nat) → (es : List Range) → (addr : Nat) → Decidable (Once w es addr)
  | _, [], _ => isTrue trivial
  | w, e :: es, addr =>
    have := decidableOnce w es addr
    inferInstanceAs (Decidable (e.child + e.size < 2 ^ 64 ∧
      if e.Covers addr then
        e.move addr < 2 ^ w ∧
          ∀ e' ∈ es, e'.child + e'.size < 2 ^ 64 ∧ ¬e'.Covers (e.move addr)
      else Once w es addr))

/-- The bus just below the root keeps the address. Each other one does, or it has the cells of the
device's bus and its `ranges` apply once. -/
def Straight (w : Nat) (dev : Node) : List Node → Nat → Prop
  | bus :: parent :: [], addr => bus.up parent addr = some addr
  | bus :: parent :: next :: above, addr =>
    (bus.ranges = some [] ∨ bus.naddr = dev.naddr ∧ bus.nsize = dev.nsize ∧
      Once w (bus.rangeList parent (bus.ranges.getD [])) addr) ∧
    ∃ addr', bus.up parent addr = some addr' ∧ Straight w dev (parent :: next :: above) addr'
  | _, _ => True

section
variable {w : Nat} {e : Range} {es : List Range} {addr : Nat}

theorem Range.carry_lt (e : Range) (h : addr < 2 ^ w) : e.carry w addr < 2 ^ w := by
  unfold Range.carry
  split
  · exact Nat.mod_lt _ (Nat.two_pow_pos w)
  · exact h

theorem foldl_carry_lt (es : List Range) (h : addr < 2 ^ w) :
    es.foldl (Range.carry w) addr < 2 ^ w := by
  induction es generalizing addr with
  | nil => exact h
  | cons e es ih => exact ih (e.carry_lt h)

theorem carry_of_not_covers (hend : e.child + e.size < 2 ^ 64) (h : ¬e.Covers addr) :
    e.carry w addr = addr := by
  unfold Range.carry
  rw [Nat.mod_eq_of_lt hend]
  exact if_neg h

theorem carry_of_covers (hend : e.child + e.size < 2 ^ 64) (h : e.Covers addr)
    (hlt : e.move addr < 2 ^ w) : e.carry w addr = e.move addr := by
  unfold Range.carry
  rw [Nat.mod_eq_of_lt hend, Nat.mod_eq_of_lt hlt]
  exact if_pos h

theorem foldl_carry_none (h : ∀ e ∈ es, e.child + e.size < 2 ^ 64 ∧ ¬e.Covers addr) :
    es.foldl (Range.carry w) addr = addr := by
  induction es with
  | nil => rfl
  | cons e es ih =>
    obtain ⟨he, hes⟩ := forall_mem_cons.1 h
    rw [foldl_cons, carry_of_not_covers he.1 he.2, ih hes]

theorem Once.foldl_carry (h : Once w es addr)
    (hfind : (es.find? fun e => e.Covers addr) = some e) :
    es.foldl (Range.carry w) addr = e.move addr := by
  induction es with
  | nil => exact nomatch hfind
  | cons e' es ih =>
    obtain ⟨hend, h⟩ := h
    rw [List.find?_cons] at hfind
    by_cases hc : e'.Covers addr
    · rw [if_pos hc] at h
      simp only [hc, decide_true, Option.some.injEq] at hfind
      subst hfind
      rw [foldl_cons, carry_of_covers hend hc h.1, foldl_carry_none h.2]
    · rw [if_neg hc] at h
      simp only [hc, decide_false] at hfind
      rw [foldl_cons, carry_of_not_covers hend hc, ih h hfind]

end

theorem Straight.toRoot_eq {dev : Node} {path : List Node} (h : Straight w dev path addr) :
    toRoot path addr = some (carry w dev path addr) := by
  induction path generalizing addr with
  | nil => rfl
  | cons bus path ih =>
    match path, h with
    | [], _ => rfl
    | [parent], h =>
      rw [toRoot, h]
      rfl
    | parent :: next :: above, ⟨hlevel, addr', hup, h⟩ =>
      rw [toRoot, hup, bind_some, ih h, carry]
      unfold Node.up at hup
      rcases hr : bus.ranges with _ | _ | ⟨c, r⟩
      · rw [hr] at hup
        cases hup
      · rw [hr] at hup
        cases hup
        simp [Node.rangeList, rangesOf]
      · rw [hr] at hup hlevel
        obtain ⟨e, hfind, rfl⟩ := map_eq_some_iff.1 hup
        obtain ⟨hna, hns, honce⟩ := hlevel.resolve_left nofun
        rw [Option.getD_some] at honce
        have hlist : dev.rangeList parent (c :: r) = bus.rangeList parent (c :: r) := by
          rw [Node.rangeList, Node.rangeList, hna, hns]
        simp only [hlist, honce.foldl_carry hfind]

theorem foldl_cells_mod (w : Nat) (cells : List UInt32) (u v : Nat)
    (h : u % 2 ^ w = v % 2 ^ w) :
    cells.foldl (fun v c => v * 2 ^ 32 + c.toNat) u % 2 ^ w =
      cells.foldl (fun v c => v * 2 ^ 32 + c.toNat) v % 2 ^ w := by
  induction cells generalizing u v with
  | nil => exact h
  | cons c cells ih =>
    apply ih
    rw [Nat.add_mod, Nat.mul_mod, h, ← Nat.mul_mod, ← Nat.add_mod]

theorem cells_lt (cells : List UInt32) (h : cells.length ≤ 2) : cellsValue cells < 2 ^ 64 := by
  match cells, h with
  | [], _ => decide
  | [c], _ =>
    have hc := c.toNat_lt
    simp only [cellsValue, foldl_cons, foldl_nil]
    omega
  | [c, d], _ =>
    have hc := c.toNat_lt
    have hd := d.toNat_lt
    simp only [cellsValue, foldl_cons, foldl_nil]
    omega

theorem shift_cell (hw : w ≤ 64) (v : BitVec w) (c : UInt32) :
    (v.setWidth 64 <<< 32 ||| c.toBitVec.setWidth 64).setWidth w =
      BitVec.ofNat w (v.toNat * 2 ^ 32 + c.toNat) := by
  have hv : v.toNat < 2 ^ 64 := lt_of_lt_of_le v.isLt (Nat.pow_le_pow_right (by decide) hw)
  have hc : c.toNat < 2 ^ 32 := c.toNat_lt
  have hdvd : 2 ^ w ∣ 2 ^ 64 := Nat.pow_dvd_pow 2 hw
  apply eq_of_toNat_eq
  rw [toNat_setWidth, toNat_or, toNat_shiftLeft, toNat_setWidth,
    toNat_setWidth, Nat.mod_eq_of_lt hv, toNat_ofNat]
  have hcell : c.toBitVec.toNat % 2 ^ 64 = c.toNat := Nat.mod_eq_of_lt (by omega)
  have hshift : (v.toNat <<< 32) % 2 ^ 64 ||| c.toNat = (v.toNat * 2 ^ 32 + c.toNat) % 2 ^ 64 := by
    have heq : shiftIn 64 v.toNat 32 c.toNat = _ := shiftIn_eq (by decide) hc
    rw [shiftIn] at heq
    omega
  rw [hcell, hshift, Nat.mod_mod_of_dvd _ hdvd]

theorem loadCells_foldl (hw : w ≤ 64) (n : Nat) (v : BitVec w) (cells : List UInt32)
    (h : n ≤ cells.length) :
    loadCells w n v cells =
      some (BitVec.ofNat w ((cells.take n).foldl (fun v c => v * 2 ^ 32 + c.toNat) v.toNat),
        cells.drop n) := by
  induction n generalizing v cells with
  | zero => simp [loadCells]
  | succ n ih =>
    cases cells with
    | nil => exact absurd h (Nat.not_succ_le_zero n)
    | cons =>
      rw [loadCells, shift_cell hw, ih _ _ (Nat.le_of_succ_le_succ h), take_succ_cons,
        foldl_cons, drop_succ_cons]
      congr 2
      apply eq_of_toNat_eq
      rw [toNat_ofNat, toNat_ofNat, toNat_ofNat]
      exact foldl_cells_mod w _ _ _ (Nat.mod_mod _ _)

theorem loadCells_eq (hw : w ≤ 64) (h : n ≤ cells.length) :
    loadCells w n 0 cells = some (BitVec.ofNat w (cellsValue (cells.take n)), cells.drop n) := by
  have hzero : (0 : BitVec w).toNat = 0 := by simp
  rw [loadCells_foldl hw n 0 cells h, hzero]
  rfl

theorem covers_iff (hw : w ≤ 64) (ha : addr < 2 ^ w) (hchild : c < 2 ^ 64) :
    (BitVec.ofNat w addr).setWidth 64 < BitVec.ofNat 64 c ∨
        BitVec.ofNat 64 c + BitVec.ofNat 64 z ≤ (BitVec.ofNat w addr).setWidth 64 ↔
      ¬(c ≤ addr ∧ addr < (c + z) % 2 ^ 64) := by
  have ha64 : addr < 2 ^ 64 := lt_of_lt_of_le ha (Nat.pow_le_pow_right (by decide) hw)
  rw [← ofNat_add, lt_def, le_def, toNat_setWidth,
    toNat_ofNat, toNat_ofNat, toNat_ofNat, Nat.mod_eq_of_lt ha,
    Nat.mod_eq_of_lt ha64, Nat.mod_eq_of_lt hchild]
  omega

theorem move_ofNat (hw : w ≤ 64) (ha : addr < 2 ^ w) (hchild : c ≤ addr) :
    ((BitVec.ofNat w addr).setWidth 64 - BitVec.ofNat 64 c + BitVec.ofNat 64 p).setWidth w =
      BitVec.ofNat w (addr - c + p) := by
  have hdvd : 2 ^ w ∣ 2 ^ 64 := Nat.pow_dvd_pow 2 hw
  have ha64 : addr < 2 ^ 64 := lt_of_lt_of_le ha (Nat.pow_le_pow_right (by decide) hw)
  have hsub : (BitVec.ofNat w addr).setWidth 64 - BitVec.ofNat 64 c =
      BitVec.ofNat 64 (addr - c) := by
    apply eq_of_toNat_eq
    rw [toNat_sub, toNat_setWidth, toNat_ofNat, toNat_ofNat,
      toNat_ofNat, Nat.mod_eq_of_lt ha, Nat.mod_eq_of_lt ha64,
      Nat.mod_eq_of_lt (lt_of_le_of_lt hchild ha64)]
    omega
  apply eq_of_toNat_eq
  rw [hsub, ← ofNat_add, toNat_setWidth, toNat_ofNat, toNat_ofNat,
    Nat.mod_mod_of_dvd _ hdvd]

theorem ofNat_mod (w n : Nat) : BitVec.ofNat w (n % 2 ^ w) = BitVec.ofNat w n := by
  apply eq_of_toNat_eq
  rw [toNat_ofNat, toNat_ofNat, Nat.mod_mod]

section
variable {w naddr bNaddr nsize : Nat} {r : List UInt32}

theorem applyRanges_succ (hw : w ≤ 64) (hna : naddr ≤ 2) (h : naddr + bNaddr + nsize ≤ r.length)
    (ha : addr < 2 ^ w) :
    applyRanges w naddr bNaddr nsize (n + 1) r (BitVec.ofNat w addr) =
      applyRanges w naddr bNaddr nsize n (r.drop (naddr + bNaddr + nsize))
        (BitVec.ofNat w ((rangeOf naddr bNaddr nsize r).carry w addr)) := by
  have hchild : (rangeOf naddr bNaddr nsize r).child < 2 ^ 64 :=
    cells_lt _ (by rw [length_take]; omega)
  have hcovers := covers_iff (z := (rangeOf naddr bNaddr nsize r).size) hw ha hchild
  have hfirst := loadCells_eq (w := 64) (by decide) (show naddr ≤ r.length by omega)
  have hsecond := loadCells_eq (w := 64) (by decide)
    (show bNaddr ≤ (r.drop naddr).length by rw [length_drop]; omega)
  have hthird := loadCells_eq (w := 64) (by decide)
    (show nsize ≤ ((r.drop naddr).drop bNaddr).length by
      rw [length_drop, length_drop]; omega)
  rw [drop_drop] at hsecond hthird
  rw [drop_drop] at hthird
  simp only [applyRanges, hfirst, hsecond, hthird, bind_eq_bind, bind_some]
  by_cases hc : (rangeOf naddr bNaddr nsize r).child ≤ addr ∧
      addr < ((rangeOf naddr bNaddr nsize r).child + (rangeOf naddr bNaddr nsize r).size) % 2 ^ 64
  · have hin := mt hcovers.1 (not_not.2 hc)
    have hmove := move_ofNat (p := (rangeOf naddr bNaddr nsize r).parent) hw ha hc.1
    rw [Range.carry, if_pos hc, Range.move, ofNat_mod, ← hmove]
    exact if_neg hin
  · rw [Range.carry, if_neg hc]
    exact if_pos (hcovers.2 hc)

theorem applyRanges_eq (hw : w ≤ 64) (hna : naddr ≤ 2) (n : Nat)
    (h : n * (naddr + bNaddr + nsize) ≤ r.length) (ha : addr < 2 ^ w) :
    applyRanges w naddr bNaddr nsize n r (BitVec.ofNat w addr) =
      some (BitVec.ofNat w ((rangesOf naddr bNaddr nsize n r).foldl (Range.carry w) addr)) := by
  induction n generalizing r addr with
  | zero => rfl
  | succ n ih =>
    rw [Nat.succ_mul] at h
    rw [applyRanges_succ hw hna (by omega) ha, rangesOf, foldl_cons]
    exact ih (by rw [length_drop]; omega) (Range.carry_lt _ ha)

end

section
variable {fdt : Fdt} {dev n parent : Node} {w : Nat}

theorem mdxOfGetCells_eq (hn : fdt.node offset = some n) (hcells : n.OneOrTwo) :
    mdxOfGetCells fdt offset = .ok (n.addressCells.getD 0, n.sizeCells.getD 0) := by
  obtain ⟨ha, hs⟩ := hcells
  rcases ha with ha | ha <;> rcases hs with hs | hs <;> simp [mdxOfGetCells, hn, ha, hs]

theorem Node.OneOrTwo.naddr_le {n : Node} (h : n.OneOrTwo) : n.naddr ≤ 2 := by
  rcases h.1 with ha | ha <;> simp [Node.naddr, ha]

theorem cells_sum {dev bus : Node} (hdev : dev.OneOrTwo) (hbus : bus.OneOrTwo) :
    dev.addressCells.getD 0 + bus.addressCells.getD 0 + dev.sizeCells.getD 0 ≠ 0 ∧
      (dev.addressCells.getD 0 + bus.addressCells.getD 0 + dev.sizeCells.getD 0).toNat =
        dev.naddr + bus.naddr + dev.nsize := by
  obtain ⟨ha, hs⟩ := hdev
  unfold Node.naddr Node.nsize
  rcases ha with ha | ha <;> rcases hs with hs | hs <;> rcases hbus.1 with hb | hb <;>
    rw [ha, hs, hb] <;> decide

section
variable (h : Path fdt offset path)
include h

theorem Path.ne_nil : path ≠ [] := by
  cases h with
  | root | under => exact cons_ne_nil _ _

theorem Path.head (hp : path = n :: above) : fdt.node offset = some n := by
  cases h with
  | root hn | under hn =>
    cases hp
    exact hn

theorem Path.inv :
    (offset = 0 ∧ ∃ n, path = [n]) ∨
      (offset ≠ 0 ∧ ∃ n m more, path = n :: m :: more ∧ fdt.node offset = some n) := by
  cases h with
  | root => exact .inl ⟨rfl, _, rfl⟩
  | under hn hne h =>
    obtain ⟨m, more, rfl⟩ := exists_cons_of_ne_nil h.ne_nil
    exact .inr ⟨hne, _, m, more, rfl, hn⟩

end

theorem fdtParentOffset_node (hn : fdt.node offset = some n) :
    fdtParentOffset fdt offset = n.parent := by
  rw [fdtParentOffset, hn]

theorem walk_up (hw : w ≤ 64) (hdev : dev.OneOrTwo) (hn : fdt.node offset = some n)
    (hp : fdt.node n.parent = some parent) (hpos : 0 < n.parent) (hparent : parent.OneOrTwo)
    (hr : n.ranges = some r) (ha : addr < 2 ^ w) :
    walk w fdt (dev.addressCells.getD 0) (dev.sizeCells.getD 0) offset (BitVec.ofNat w addr) =
      walk w fdt (dev.addressCells.getD 0) (dev.sizeCells.getD 0) n.parent
        (BitVec.ofNat w ((dev.rangeList parent r).foldl (Range.carry w) addr)) := by
  have hbind : (fdt.node offset).bind Node.ranges = n.ranges := by rw [hn, bind_some]
  rw [walk]
  simp only [fdtParentOffset_node hn, mdxOfGetCells_eq hp hparent, hbind, hr]
  rw [dif_pos hpos]
  cases r with
  | nil => simp [Node.rangeList, rangesOf]
  | cons c r =>
    obtain ⟨hne, hsum⟩ := cells_sum hdev hparent
    have hle := Nat.div_mul_le_self (c :: r).length (dev.naddr + parent.naddr + dev.nsize)
    have happly := applyRanges_eq hw hdev.naddr_le _ hle ha
    simp only [if_neg hne, hsum]
    simp only [Node.rangeList, Node.naddr, Node.nsize] at happly ⊢
    rw [happly]

theorem walk_carry (hw : w ≤ 64) (hdev : dev.OneOrTwo) (hpath : Path fdt offset path)
    (hcells : ∀ m ∈ path, m.OneOrTwo) (ha : addr < 2 ^ w) :
    walk w fdt (dev.addressCells.getD 0) (dev.sizeCells.getD 0) offset (BitVec.ofNat w addr) =
      some (.ok (BitVec.ofNat w (carry w dev path addr))) ∧ carry w dev path addr < 2 ^ w := by
  induction hpath generalizing addr with
  | @root n hn =>
    obtain ⟨hmem, hoff⟩ := Fdt.node_eq_some hn
    have hneg := (fdt.under n hmem).2
    rw [if_pos hoff] at hneg
    rw [walk, dif_neg (by rw [fdtParentOffset_node hn]; omega)]
    exact ⟨rfl, ha⟩
  | @under offset n above hn hoff habove ih =>
    obtain ⟨hcell, hcells⟩ := forall_mem_cons.1 hcells
    rcases habove.inv with ⟨hzero, root, rfl⟩ | ⟨hne, parent, m, more, rfl, hp⟩
    · rw [walk, dif_neg (by rw [fdtParentOffset_node hn, hzero]; decide)]
      exact ⟨rfl, ha⟩
    · have hpos : 0 < n.parent := by
        have hle := (Fdt.node_offset_bounded hp).1
        omega
      have hparent := hcells parent mem_cons_self
      rw [carry]
      cases hr : n.ranges with
      | none =>
        rw [walk]
        simp only [fdtParentOffset_node hn, mdxOfGetCells_eq hp hparent, hn, bind_some, hr]
        exact ⟨dif_pos hpos, ha⟩
      | some r =>
        rw [walk_up hw hdev hn hp hpos hparent hr ha]
        exact ih hcells (foldl_carry_lt _ ha)

theorem Node.regEntry_zero {dev bus : Node} (h : dev.regEntry bus index = some entry) :
    ∃ first, dev.regEntry bus 0 = some first := by
  unfold Node.regEntry at *
  rw [Nat.zero_mul, drop_zero]
  dsimp only at *
  rw [length_drop] at h
  split at h
  · rw [if_pos (by omega)]
    exact ⟨_, rfl⟩
  · cases h

theorem mdxOfGetReg_carry (hw : w ≤ 64) (physToDmap : BitVec w → BitVec w)
    (hdev : fdt.node dev.offset = some dev) (hpath : Path fdt dev.parent (bus :: above))
    (hcells : ∀ m ∈ bus :: above, m.OneOrTwo) (hreg : dev.regEntry bus 0 = some first)
    (index : Int) :
    mdxOfGetReg w physToDmap fdt dev.offset index =
      some (.ok (physToDmap (BitVec.ofNat w (carry w bus (bus :: above) (first.1 % 2 ^ w))),
        BitVec.ofNat w first.2)) := by
  obtain ⟨hcell, -⟩ := forall_mem_cons.1 hcells
  have hbus := hpath.head rfl
  obtain ⟨hwalk, -⟩ := walk_carry hw hcell hpath hcells
    (Nat.mod_lt first.1 (Nat.two_pow_pos w))
  rw [ofNat_mod] at hwalk
  unfold Node.regEntry at hreg
  rw [Nat.zero_mul, drop_zero] at hreg
  dsimp only at hreg
  split at hreg
  · rename_i hlen
    cases hreg
    cases hr : dev.reg with
    | none =>
      rw [hr] at hlen
      have hna : 1 ≤ bus.naddr := by
        rcases hcell.1 with ha | ha <;> simp [Node.naddr, ha]
      simp only [Option.getD_none, length_nil] at hlen
      omega
    | some regp =>
      rw [hr, Option.getD_some] at hlen hwalk
      have hfirst := loadCells_eq hw (show bus.naddr ≤ regp.length by omega)
      have hsecond := loadCells_eq hw
        (show bus.nsize ≤ (regp.drop bus.naddr).length by rw [length_drop]; omega)
      unfold Node.naddr Node.nsize at *
      simp only [mdxOfGetReg, fdtParentOffset_node hdev, mdxOfGetCells_eq hbus hcell, hdev,
        bind_some, hr, bind_eq_bind, hfirst, hsecond, hwalk, Option.getD_some]
  · exact nomatch hreg

def rootNode : Node := ⟨0, -1, none, none, some 2, some 1, none, none⟩

def socNode : Node := ⟨4, 0, none, none, some 1, some 1, none, some []⟩

def busNode : Node := ⟨8, 4, none, none, some 1, some 1, none, some [0, 0x10000000, 0x1000]⟩

def uartNode : Node := ⟨12, 8, none, none, none, none, some [0x20, 8, 0x40, 8], none⟩

def board : Fdt where
  nodes := [rootNode, socNode, busNode, uartNode]
  ordered := by decide
  bounded := by decide
  under := by decide

def outerNode : Node := { socNode with ranges := some [0, 0, 0x10000000, 0x1000] }

def innerNode : Node := { busNode with ranges := some [] }

def swapped : Fdt where
  nodes := [rootNode, outerNode, innerNode, uartNode]
  ordered := by decide
  bounded := by decide
  under := by decide

end

end Mdepx.Of
