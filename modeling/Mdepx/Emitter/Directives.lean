import Mdepx.Emitter.Basic
import Mdepx.Lib.Fold

namespace Mdepx.Emitter
open Lib Mdepx.Parser List

/-! The flags and paths of objects, `tools/directives.py` and `tools/flags.py`. -/

inductive Item where
  | str (s : Str)
  | value (v : Value)
  deriving DecidableEq

abbrev Data := List (Str × List Item)

structure Result where
  resobj : List (Str × Data)
  flags : List (Str × Str)
  vars : List (Str × Item)
  deriving DecidableEq

/-- `x.split("-")`, if there is a dash: the first part, and the others joined again. -/
def command (x : Str) : Option (Str × Str) :=
  if '-' ∈ x then some (x.takeWhile (· != '-'), (x.dropWhile (· != '-')).tail) else none

def commands : List Str := ["set".toList, "append".toList, "prepend".toList]

def nestedKeys : List Str :=
  ["cflags".toList, "aflags".toList, "build-flags".toList, "search-path".toList]

def nested (x : Str) : Option (Str × Str) :=
  (command x).filter fun c => commands.contains c.1 && nestedKeys.contains c.2

def isDirective (x : Str) : Bool :=
  x = "root".toList || x = "objdir".toList || x = "prefix".toList || (nested x).isSome

def addTo (root cmd k : Str) (data : Data) (el : Str) : Data :=
  let v := Item.str (if k = "search-path".toList then join root el else el)
  let old := (data.lookup k).getD []
  assign data k (if cmd = "prepend".toList then v :: old else old ++ [v])

def collectEntry (root : Str) (data : Data) (e : Str × Value) : Data :=
  match nested e.1 with
  | none => data
  | some (cmd, k) =>
    let start := if data.lookup k = none ∨ cmd = "set".toList then assign data k [] else data
    (elements e.2).foldl (addTo root cmd k) start

/-- `objdir` and `prefix`, which replace those of the contexts around. -/
def collectPaths (root : Str) (context : Dict) (data : Data) : Data :=
  let data := match context.lookup "objdir".toList with
    | some v => assign data "objdir".toList ((elements v).map .str)
    | none => data
  match context.lookup "prefix".toList with
  | some v => assign data "prefix".toList [.str root, .value v]
  | none => data

def collectNestedDirectives (root : Str) (context : Dict) (data : Data) : Except Error Data := do
  let root ← rootOr root context
  return collectPaths root context (context.foldl (collectEntry root) data)

def collectFlag (m : Str) (flags : List (Str × Str)) (e : Str × Value) :
    Except Error (List (Str × Str)) :=
  if e.1 = "options".toList then
    return (elements e.2).foldl (fun flags opt => assign flags (m ++ '_' :: opt) []) flags
  else if e.1 ∈ ["objects".toList, "set-search-path".toList, "set-cflags".toList,
      "append-search-path".toList, "append-cflags".toList, "machine".toList, "ldscript".toList,
      "prefix".toList, "modules".toList] then return flags
  else match e.2 with
    | .list _ => return assign flags (m ++ '_' :: e.1) (← first e.2)
    | .dict _ => return flags

/-- `str.replace` for a text that is not empty, in as many steps at most. -/
def replaceFrom (old new : Str) : Nat → Str → Str
  | 0, s => s
  | _, [] => []
  | n + 1, c :: s =>
    if old.isPrefixOf (c :: s) then new ++ replaceFrom old new n ((c :: s).drop old.length)
    else c :: replaceFrom old new n s

def replace (old new s : Str) : Str :=
  if old = [] then new ++ s.flatMap fun c => c :: new else replaceFrom old new s.length s

def processPrefix (root : Str) (context : Dict) (data : Data) (r : Result) : Except Error Result :=
  match data.lookup "prefix".toList with
  | some [.str old, .value v] => do
    let l := (replace old (← first v) root).map fun c => if c = '/' then '_' else c
    return { r with flags := ← context.foldlM (collectFlag l) (assign r.flags l []) }
  | _ => return r

def record (data : Data) (resobj : List (Str × Data)) (o : Str) : List (Str × Data) :=
  assign resobj o (data.foldl (fun attrs e => assign attrs e.1 e.2) ((resobj.lookup o).getD []))

def processModule (find : Str → Value → Data → Result → Except Error Result) (root : Str)
    (context : Dict) (data : Data) (r : Result) (m : Str) : Except Error Result :=
  match context.lookup m with
  | none => .ok r
  | some (.dict node) => do find (join root (← rootOr m node)) (.dict node) data r
  | some (.list ss) =>
    -- `'root' in node` finds a string of the list, which has no string for an index.
    if "root".toList ∈ ss then .error (.raised .typeError) else find (join root m) (.list ss) data r

def processEntry (find : Str → Value → Data → Result → Except Error Result) (root : Str)
    (context : Dict) (data : Data) (r : Result) (e : Str × Value) : Except Error Result :=
  if e.1 = "link".toList then
    -- The module `sys` is not imported, so that `sys.exit` raises.
    if (elements e.2).length % 2 ≠ 0 then .error .nameError
    else return { r with vars := assign r.vars e.1 (.value e.2) }
  else if e.1 = "machine".toList then
    return { r with vars := assign r.vars e.1 (.str (join root (← first e.2))) }
  else if e.1 = "objects".toList then
    return { r with resobj := ((elements e.2).map (join root)).foldl (record data) r.resobj }
  else if e.1 = "modules".toList then (elements e.2).foldlM (processModule find root context data) r
  else return r

def processDirectives (find : Str → Value → Data → Result → Except Error Result) (root : Str)
    (context : Dict) (data : Data) (r : Result) : Except Error Result := do
  context.foldlM (processEntry find root context data) (← processPrefix root context data r)

/-- `find_directives`, where at most `limit` calls may be active at once. -/
def findDirectives : Nat → Str → Value → Data → Result → Except Error Result
  | 0, _, _, _, _ => .error (.raised .recursionError)
  | limit + 1, root, .dict context, data, r => do
    let data ← collectNestedDirectives root context data
    processDirectives (findDirectives limit) root context data r
  -- A list of strings in the place of a context: they are no indices of it, and `collect_flags`
  -- does not take it.
  | _ + 1, _, .list ss, data, r =>
    if ss.any isDirective then .error (.raised .typeError)
    else if (data.lookup "prefix".toList).isSome then .error (.exit 6)
    else if ss = [] then .ok r
    else .error (.raised .typeError)

def procDirectives (limit : Nat) (root : Str) (context : Dict) : Except Error Result :=
  findDirectives limit root (.dict context) [] ⟨[], [], []⟩

/-- The objects that are recorded, each with the names of the modules on the way to the context
that lists it. -/
def listings : Nat → Str → Dict → List (List Str × Str)
  | 0, _, _ => []
  | limit + 1, root, context =>
    context.flatMap fun e =>
      if e.1 = "objects".toList then (elements e.2).map fun obj => ([], join root obj)
      else if e.1 = "modules".toList then
        (elements e.2).flatMap fun m =>
          match context.lookup m with
          | some (.dict node) =>
            match rootOr m node with
            | .ok p => (listings limit (join root p) node).map fun q => (m :: q.1, q.2)
            | .error _ => []
          | _ => []
      else []

/-- The context at the end of the path lists the object, and no other one does. -/
def ListedBy (limit : Nat) (root : Str) (context : Dict) (path : List Str) (o : Str) : Prop :=
  (path, o) ∈ listings limit root context ∧
    ∀ q ∈ listings limit root context, q.2 = o → q.1 = path
  deriving Decidable

def directives (context : Dict) : Dict := context.filter fun e => isDirective e.1

/-- The directives of the contexts along a path, without those of the first one. -/
def along : Dict → List Str → Option (List (Str × Dict))
  | _, [] => some []
  | context, m :: path =>
    match context.lookup m with
    | some (.dict node) => (along node path).map ((m, directives node) :: ·)
    | _ => none

/-- What the directives of the contexts along a path come to, from the first one on. -/
def gather (root : Str) (data : Data) (ds : Dict) : List (Str × Dict) → Except Error Data
  | [] => collectNestedDirectives root ds data
  | (m, es) :: l => do
    let data ← collectNestedDirectives root ds data
    gather (join root (← rootOr m es)) data es l

theorem lookup_directives (h : isDirective k = true) :
    (directives context).lookup k = context.lookup k :=
  lookup_filter h

theorem rootOr_directives (p : Str) (context : Dict) :
    rootOr p (directives context) = rootOr p context := by
  rw [rootOr, rootOr, lookup_directives (by decide +kernel)]

theorem collectEntry_of_not (h : isDirective e.1 = false) (root : Str) (data : Data) :
    collectEntry root data e = data := by
  rw [isDirective, Bool.or_eq_false_iff, Option.isSome_eq_false_iff, Option.isNone_iff_eq_none] at h
  rw [collectEntry, h.2]

theorem foldl_collectEntry (root : Str) (context : Dict) (data : Data) :
    (directives context).foldl (collectEntry root) data =
      context.foldl (collectEntry root) data := by
  induction context generalizing data with
  | nil => rfl
  | cons e context ih =>
    rw [directives, filter_cons, foldl_cons]
    split
    · rw [foldl_cons]
      exact ih _
    · rename_i he
      rw [collectEntry_of_not (Bool.eq_false_iff.2 he)]
      exact ih data

theorem collectNestedDirectives_directives (root : Str) (context : Dict) (data : Data) :
    collectNestedDirectives root (directives context) data =
      collectNestedDirectives root context data := by
  simp only [collectNestedDirectives, rootOr_directives, foldl_collectEntry, collectPaths]
  rw [lookup_directives (by decide +kernel), lookup_directives (by decide +kernel)]

def Keyed (data : Data) : Prop := (data.map Prod.fst).Nodup

variable {data attrs : Data}

section
variable (h : Keyed data)
include h

theorem Keyed.assign (k : Str) (v : List Item) : Keyed (assign data k v) := by
  rw [Keyed, map_fst_assign]
  exact addKey_nodup h k

theorem Keyed.addTo (els : List Str) : Keyed (els.foldl (addTo root cmd k) data) := by
  induction els generalizing data with
  | nil => exact h
  | cons el els ih => exact ih (h.assign _ _)

theorem Keyed.collectEntry (e : Str × Value) : Keyed (collectEntry root data e) := by
  rw [Emitter.collectEntry]
  split
  · exact h
  · apply Keyed.addTo
    split
    · exact h.assign _ _
    · exact h

theorem Keyed.collectEntries (context : Dict) :
    Keyed (context.foldl (Emitter.collectEntry root) data) := by
  induction context generalizing data with
  | nil => exact h
  | cons e context ih => exact ih (h.collectEntry e)

theorem Keyed.collectPaths (root : Str) (context : Dict) :
    Keyed (collectPaths root context data) := by
  rw [Emitter.collectPaths]
  split
  · apply Keyed.assign
    split
    · exact h.assign _ _
    · exact h
  · split
    · exact h.assign _ _
    · exact h

theorem Keyed.collect (hd : collectNestedDirectives root context data = .ok D) : Keyed D := by
  obtain ⟨p, -, hp⟩ := bind_ok_iff.1 hd
  cases hp
  exact (h.collectEntries context).collectPaths p context

theorem Keyed.gather (hd : gather root data ds l = .ok D) : Keyed D := by
  induction l generalizing root data ds with
  | nil => exact h.collect hd
  | cons e l ih =>
    obtain ⟨data', hc, hd⟩ := bind_ok_iff.1 hd
    obtain ⟨p, -, hd⟩ := bind_ok_iff.1 hd
    exact ih (h.collect hc) hd

end

theorem foldl_assign (h : Keyed (attrs ++ data)) :
    data.foldl (fun attrs e => assign attrs e.1 e.2) attrs = attrs ++ data := by
  induction data generalizing attrs with
  | nil => exact (append_nil attrs).symm
  | cons e data ih =>
    have hk : e.1 ∉ attrs.map Prod.fst := by
      rw [Keyed, map_append, nodup_append] at h
      exact fun hm => h.2.2 _ hm _ mem_cons_self rfl
    rw [foldl_cons, assign_of_absent hk, ih, append_assoc]
    · rfl
    · rw [append_assoc]
      exact h

theorem foldl_assign_nil (h : Keyed data) :
    data.foldl (fun attrs e => assign attrs e.1 e.2) [] = data :=
  foldl_assign h

theorem foldl_assign_self (h : ∀ e ∈ data, attrs.lookup e.1 = some e.2) :
    data.foldl (fun attrs e => assign attrs e.1 e.2) attrs = attrs := by
  induction data with
  | nil => rfl
  | cons e data ih =>
    obtain ⟨he, hdata⟩ := forall_mem_cons.1 h
    rw [foldl_cons, assign_of_lookup he]
    exact ih hdata

theorem lookup_record (hd : Keyed data)
    (h : resobj.lookup o = none ∨ resobj.lookup o = some data) :
    (record data resobj o).lookup o = some data := by
  rw [record, lookup_assign]
  rcases h with h | h
  · rw [h, Option.getD_none, foldl_assign_nil hd]
  · rw [h, Option.getD_some, foldl_assign_self]
    intro e he
    exact lookup_of_mem hd he

theorem lookup_record_of_ne (h : o ≠ o') (data : Data) (resobj : List (Str × Data)) :
    (record data resobj o').lookup o = resobj.lookup o :=
  lookup_assign_of_ne _ h _

theorem processPrefix_resobj (h : processPrefix root context data r = .ok r') :
    r'.resobj = r.resobj := by
  rw [processPrefix] at h
  split at h
  · obtain ⟨new, -, h⟩ := bind_ok_iff.1 h
    obtain ⟨flags, -, h⟩ := bind_ok_iff.1 h
    cases h
    rfl
  · cases h
    rfl

theorem findDirectives_list (h : findDirectives limit root (.list ss) data r = .ok r') :
    r' = r := by
  cases limit with
  | zero => cases h
  | succ =>
    rw [findDirectives] at h
    split at h
    · cases h
    · split at h
      · cases h
      · split at h
        · cases h
          rfl
        · cases h

section
variable {find : Str → Value → Data → Result → Except Error Result} {P : List (Str × Data) → Prop}

theorem processEntry_objects (h : e.1 = "objects".toList) (r : Result) :
    processEntry find root context data r e =
      .ok { r with resobj := ((elements e.2).map (join root)).foldl (record data) r.resobj } := by
  rw [processEntry, if_neg (by rw [h]; decide +kernel), if_neg (by rw [h]; decide +kernel),
    if_pos h]
  rfl

theorem processEntry_modules (h : e.1 = "modules".toList) (r : Result) :
    processEntry find root context data r e =
      (elements e.2).foldlM (processModule find root context data) r := by
  rw [processEntry, if_neg (by rw [h]; decide +kernel), if_neg (by rw [h]; decide +kernel),
    if_neg (by rw [h]; decide +kernel), if_pos h]

theorem processEntry_other (ho : e.1 ≠ "objects".toList) (hm : e.1 ≠ "modules".toList)
    (h : processEntry find root context data r e = .ok r') : r'.resobj = r.resobj := by
  rw [processEntry, if_neg ho, if_neg hm] at h
  split at h
  · split at h
    · cases h
    · cases h
      rfl
  · split at h
    · obtain ⟨s, -, h⟩ := bind_ok_iff.1 h
      cases h
      rfl
    · cases h
      rfl

theorem processModule_keeps
    (hlist : ∀ p ss r r', find p (.list ss) data r = .ok r' → r' = r)
    (hnode : ∀ node p, context.lookup m = some (.dict node) → rootOr m node = .ok p → ∀ r r',
      find (join root p) (.dict node) data r = .ok r' → P r.resobj → P r'.resobj)
    (h : processModule find root context data r m = .ok r') (hr : P r.resobj) : P r'.resobj := by
  rw [processModule] at h
  split at h
  · cases h
    exact hr
  · obtain ⟨p, hp, h⟩ := bind_ok_iff.1 h
    exact hnode _ p ‹_› hp r r' h hr
  · split at h
    · cases h
    · rw [hlist _ _ _ _ h]
      exact hr

theorem foldl_record_keeps {os : List Str}
    (h : ∀ o ∈ os, ∀ resobj, P resobj → P (record data resobj o)) (hr : P resobj) :
    P (os.foldl (record data) resobj) := by
  induction os generalizing resobj with
  | nil => exact hr
  | cons o os ih =>
    obtain ⟨ho, hos⟩ := forall_mem_cons.1 h
    exact ih hos (ho resobj hr)

theorem processEntry_keeps
    (hobj : e.1 = "objects".toList → ∀ obj ∈ elements e.2, ∀ resobj, P resobj →
      P (record data resobj (join root obj)))
    (hlist : ∀ p ss r r', find p (.list ss) data r = .ok r' → r' = r)
    (hnode : e.1 = "modules".toList → ∀ m ∈ elements e.2, ∀ node p,
      context.lookup m = some (.dict node) → rootOr m node = .ok p → ∀ r r',
        find (join root p) (.dict node) data r = .ok r' → P r.resobj → P r'.resobj)
    (h : processEntry find root context data r e = .ok r') (hr : P r.resobj) : P r'.resobj := by
  by_cases ho : e.1 = "objects".toList
  · rw [processEntry_objects ho] at h
    cases h
    apply foldl_record_keeps _ hr
    intro o hmem
    obtain ⟨obj, hobj', rfl⟩ := mem_map.1 hmem
    exact hobj ho obj hobj'
  · by_cases hm : e.1 = "modules".toList
    · rw [processEntry_modules hm] at h
      apply foldlM_keeps (P := fun r => P r.resobj) _ h hr
      intro m hmem r r' h hr
      exact processModule_keeps hlist (hnode hm m hmem) h hr
    · rw [processEntry_other ho hm h]
      exact hr

end

theorem findDirectives_ok (h : findDirectives (limit + 1) root (.dict context) data r = .ok r') :
    ∃ D r₁, collectNestedDirectives root context data = .ok D ∧ r₁.resobj = r.resobj ∧
      context.foldlM (processEntry (findDirectives limit) root context D) r₁ = .ok r' := by
  obtain ⟨D, hD, h⟩ := bind_ok_iff.1 h
  obtain ⟨r₁, hr₁, h⟩ := bind_ok_iff.1 h
  exact ⟨D, r₁, hD, processPrefix_resobj hr₁, h⟩

theorem mem_listings : q ∈ listings (limit + 1) root context ↔ ∃ e ∈ context,
    (e.1 = "objects".toList ∧ ∃ obj ∈ elements e.2, q = ([], join root obj)) ∨
    e.1 = "modules".toList ∧ ∃ m ∈ elements e.2, ∃ node p, context.lookup m = some (.dict node) ∧
      rootOr m node = .ok p ∧ ∃ q' ∈ listings limit (join root p) node, q = (m :: q'.1, q'.2) := by
  rw [listings, mem_flatMap]
  refine exists_congr fun e => and_congr_right fun _ => ?_
  by_cases ho : e.1 = "objects".toList
  · rw [if_pos ho, mem_map]
    constructor
    · rintro ⟨obj, hobj, rfl⟩
      exact .inl ⟨ho, obj, hobj, rfl⟩
    · rintro (⟨-, obj, hobj, rfl⟩ | ⟨hm, -⟩)
      · exact ⟨obj, hobj, rfl⟩
      · exact absurd (ho.symm.trans hm) (by decide +kernel)
  rw [if_neg ho]
  by_cases hm : e.1 = "modules".toList
  · rw [if_pos hm, mem_flatMap]
    constructor
    · rintro ⟨m, hmem, hq⟩
      split at hq
      · rename_i node hnode
        split at hq
        · obtain ⟨q', hq', rfl⟩ := mem_map.1 hq
          exact .inr ⟨hm, m, hmem, node, _, hnode, ‹_›, q', hq', rfl⟩
        · cases hq
      · cases hq
    · rintro (⟨h, -⟩ | ⟨-, m, hmem, node, p, hnode, hp, q', hq', rfl⟩)
      · exact absurd h ho
      · refine ⟨m, hmem, ?_⟩
        simp only [hnode, hp]
        exact mem_map_of_mem hq'
  · rw [if_neg hm]
    constructor
    · exact nofun
    · rintro (⟨h, -⟩ | ⟨h, -⟩)
      · exact absurd h ho
      · exact absurd h hm

theorem findDirectives_keeps {P : List (Str × Data) → Prop}
    (hP : ∀ q ∈ listings limit root context, ∀ l D, along context q.1 = some l →
      gather root data (directives context) l = .ok D → ∀ resobj, P resobj →
        P (record D resobj q.2))
    (h : findDirectives limit root (.dict context) data r = .ok r') (hr : P r.resobj) :
    P r'.resobj := by
  induction limit generalizing root context data r r' with
  | zero => cases h
  | succ limit ih =>
    obtain ⟨D, r₁, hD, hr₁, h⟩ := findDirectives_ok h
    have hgather : collectNestedDirectives root (directives context) data = .ok D :=
      (collectNestedDirectives_directives root context data).trans hD
    apply foldlM_keeps (P := fun r => P r.resobj) _ h (hr₁.symm ▸ hr)
    intro e he r r' h hr
    refine processEntry_keeps ?_ (fun _ _ _ _ => findDirectives_list) ?_ h hr
    · intro ho obj hobj
      apply hP ([], join root obj) (mem_listings.2 ?_) [] D rfl hgather
      exact ⟨e, he, .inl ⟨ho, obj, hobj, rfl⟩⟩
    · intro hm m hmem node p hnode hp r r' h hr
      apply ih _ h hr
      intro q hq l D' hl hD'
      apply hP (m :: q.1, q.2) (mem_listings.2
        ⟨e, he, .inr ⟨hm, m, hmem, node, p, hnode, hp, q, hq, rfl⟩⟩) ((m, directives node) :: l) D'
      · simp only [along, hnode, hl, Option.map_some]
      · rw [gather, hgather]
        simp only [bind, Except.bind, rootOr_directives, hp]
        exact hD'

def Recorded (o : Str) (resobj : List (Str × Data)) : Prop := resobj.lookup o ≠ none

theorem recorded_self (data : Data) (resobj : List (Str × Data)) (o : Str) :
    Recorded o (record data resobj o) := by
  rw [Recorded, record, lookup_assign]
  exact Option.some_ne_none _

theorem Recorded.record (h : Recorded o resobj) (data : Data) (o' : Str) :
    Recorded o (record data resobj o') := by
  by_cases ho : o = o'
  · subst ho
    exact recorded_self data resobj o
  · rw [Recorded, lookup_record_of_ne ho]
    exact h

theorem foldl_record_mem {os : List Str} (h : o ∈ os) (resobj : List (Str × Data)) :
    Recorded o (os.foldl (record data) resobj) := by
  induction os generalizing resobj with
  | nil => cases h
  | cons o' os ih =>
    rcases mem_cons.1 h with rfl | h
    · rw [foldl_cons]
      exact foldl_record_keeps (fun _ _ _ h => h.record _ _) (recorded_self data resobj o)
    · exact ih h _

theorem findDirectives_recorded (h : findDirectives limit root (.dict context) data r = .ok r')
    (hr : Recorded o r.resobj) : Recorded o r'.resobj :=
  findDirectives_keeps (fun _ _ _ _ _ _ _ h => h.record _ _) h hr

theorem findDirectives_records (hq : (path, o) ∈ listings limit root context)
    (h : findDirectives limit root (.dict context) data r = .ok r') : Recorded o r'.resobj := by
  induction limit generalizing root context data r r' path with
  | zero => cases h
  | succ limit ih =>
    obtain ⟨D, r₁, -, -, h⟩ := findDirectives_ok h
    obtain ⟨e, he, hlist⟩ := mem_listings.1 hq
    apply foldlM_reaches (P := fun r => Recorded o r.resobj) he _ _ h
    · intro r r' h
      rcases hlist with ⟨ho, obj, hobj, ho'⟩ | ⟨hm, m, hmem, node, p, hnode, hp, q, hq', hpath⟩
      · cases ho'
        rw [processEntry_objects ho] at h
        cases h
        exact foldl_record_mem (mem_map_of_mem hobj) _
      · cases hpath
        rw [processEntry_modules hm] at h
        apply foldlM_reaches (P := fun r => Recorded q.2 r.resobj) hmem _ _ h
        · intro r r' h
          simp only [processModule, hnode, hp] at h
          exact ih hq' h
        · intro m _ r r' h
          exact processModule_keeps (P := Recorded q.2) (fun _ _ _ _ => findDirectives_list)
            (fun _ _ _ _ _ _ => findDirectives_recorded) h
    · intro e _ r r' h
      exact processEntry_keeps (P := Recorded o) (fun _ _ _ _ h => h.record _ _)
        (fun _ _ _ _ => findDirectives_list) (fun _ _ _ _ _ _ _ _ _ => findDirectives_recorded) h

theorem procDirectives_lookup (h : procDirectives limit root context = .ok r)
    (ho : ListedBy limit root context path o) (hl : along context path = some l) :
    ∃ data, gather root [] (directives context) l = .ok data ∧ r.resobj.lookup o = some data := by
  have hrec := findDirectives_records ho.1 h
  have hnil : Keyed [] := nodup_nil
  have hone : r.resobj.lookup o = none ∨
      ∃ data, gather root [] (directives context) l = .ok data ∧ r.resobj.lookup o = some data := by
    apply findDirectives_keeps (P := fun resobj => resobj.lookup o = none ∨
      ∃ data, gather root [] (directives context) l = .ok data ∧ resobj.lookup o = some data) _ h
      (.inl rfl)
    intro q hq l' D hl' hD resobj hres
    by_cases hqo : q.2 = o
    · rw [ho.2 q hq hqo, hl] at hl'
      cases hl'
      refine .inr ⟨D, hD, ?_⟩
      rw [hqo]
      apply lookup_record (hnil.gather hD)
      rcases hres with hres | ⟨data, hdata, hres⟩
      · exact .inl hres
      · rw [hdata] at hD
        cases hD
        exact .inr hres
    · rw [lookup_record_of_ne (Ne.symm hqo)]
      exact hres
  exact hone.resolve_left hrec

/-- Two configurations with the same directives along the path to the context that lists an object
record the same attributes for it, those that these directives come to from the root on. -/
theorem procDirectives_inherits (hl : along context path = some l)
    (hl' : along context' path = some l) (hd : directives context = directives context')
    (ho : ListedBy limit root context path o) (ho' : ListedBy limit' root context' path o)
    (h : procDirectives limit root context = .ok r)
    (h' : procDirectives limit' root context' = .ok r') :
    ∃ data, gather root [] (directives context) l = .ok data ∧ r.resobj.lookup o = some data ∧
      r'.resobj.lookup o = some data := by
  obtain ⟨data, hdata, hr⟩ := procDirectives_lookup h ho hl
  obtain ⟨data', hdata', hr'⟩ := procDirectives_lookup h' ho' hl'
  rw [← hd, hdata] at hdata'
  cases hdata'
  exact ⟨data, hdata, hr, hr'⟩

def sampleConfig (b : Dict) : Dict :=
  [("set-cflags".toList, .list ["-O".toList]), ("modules".toList, .list ["b".toList, "a".toList]),
    ("a".toList, .dict [("append-cflags".toList, .list ["-g".toList]),
      ("append-search-path".toList, .list ["inc".toList]),
      ("objects".toList, .list ["x.o".toList])]),
    ("b".toList, .dict b)]

def sampleModule : Dict :=
  [("prepend-cflags".toList, .list ["-Os".toList]), ("objects".toList, .list ["y.o".toList])]

theorem procDirectives_inherits_sample :
    ∃ data r r', procDirectives 9 [] (sampleConfig []) = .ok r ∧
      procDirectives 9 [] (sampleConfig sampleModule) = .ok r' ∧
      r.resobj.lookup "a/x.o".toList = some data ∧ r'.resobj.lookup "a/x.o".toList = some data := by
  obtain ⟨r, hr⟩ : ∃ r, procDirectives 9 [] (sampleConfig []) = .ok r := ⟨_, by rfl⟩
  obtain ⟨r', hr'⟩ : ∃ r, procDirectives 9 [] (sampleConfig sampleModule) = .ok r := ⟨_, by rfl⟩
  have hl (b : Dict) : along (sampleConfig b) ["a".toList] =
      some [("a".toList, [("append-cflags".toList, .list ["-g".toList]),
        ("append-search-path".toList, .list ["inc".toList])])] := by rfl
  have ho : ListedBy 9 [] (sampleConfig []) ["a".toList] "a/x.o".toList := by decide +kernel
  have ho' : ListedBy 9 [] (sampleConfig sampleModule) ["a".toList] "a/x.o".toList := by
    decide +kernel
  obtain ⟨data, -, ha, hb⟩ :=
    procDirectives_inherits (hl []) (hl sampleModule) (by rfl) ho ho' hr hr'
  exact ⟨data, r, r', hr, hr', ha, hb⟩

end Mdepx.Emitter
