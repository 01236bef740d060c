import Mdepx.Emitter.Directives
import Mdepx.Emitter.Options

namespace Mdepx.Emitter
open Lib Mdepx.Parser List

/-! The modules of a configuration, `open_modules` and the main program of `tools/emitter.py`. -/

inductive File where
  | missing
  | unreadable
  | text (data : Str)

/-- The files, the home directories, and the order in which `list(set(v))` has the elements. -/
structure System where
  file : Str → File
  expanduser : Str → Str
  unique : List Str → List Str
  mem_unique : ∀ v x, x ∈ unique v ↔ x ∈ v
  nodup_unique : ∀ v, (unique v).Nodup

/-- `process_kv` for a list in the place of a dictionary. It has no string for an index. -/
def processKvList (read : Dict → Str → Except Exn (Bool × Dict)) (d : Dict) (_key val : Str) :
    Except Exn (Bool × Dict) :=
  match strip isSpace val with
  | '{' :: v => do
    let (success, _) ← read [] (strip (fun c => c == '{' || c == '}') ('{' :: v))
    if success then .error .typeError else return (false, d)
  | _ => .error .typeError

/-- `to_json` for any value in the place of the dictionary. -/
def toJsonValue (limit : Nat) (v : Value) (data : Str) : Except Error (Bool × Value) :=
  match v with
  | .dict d => match toJson limit d data with
    | .ok (success, d) => .ok (success, .dict d)
    | .error e => .error (.raised e)
  | .list ss => match limit with
    | 0 => .error (.raised .recursionError)
    | limit + 1 => match scan (processKvList (toJson limit)) [] .start data with
      | .ok (success, _) => .ok (success, .list ss)
      | .error e => .error (.raised e)

def moduleRoot (context : Dict) (el : Str) : Except Error Str :=
  match context.lookup el with
  | none => .ok el
  | some (.dict d) => rootOr el d
  | some (.list ss) => if ss.contains "root".toList then .error (.raised .typeError) else .ok el

def moduleConf (sys : System) (root p : Str) : Str :=
  join (sys.expanduser (join root p)) "module.conf".toList

def openModule (sys : System) (limit : Nat) (root : Str) (context : Dict) (el : Str) :
    Except Error (Bool × Dict) := do
  let p ← moduleRoot context el
  match sys.file (moduleConf sys root p) with
  | .missing => return (true, context)
  | .unreadable => .error .osError
  | .text data =>
    let (success, v) ← toJsonValue limit ((context.lookup el).getD (.dict [])) data
    return (success, assign context el v)

def openEach (sys : System) (limit : Nat) (root : Str) : List Str → Dict →
    Except Error (Bool × Dict)
  | [], context => .ok (true, context)
  | el :: els, context => do
    let (success, context) ← openModule sys limit root context el
    if success then openEach sys limit root els context else return (false, context)

def modulesOf (context : Dict) : List Str :=
  ((context.lookup "modules".toList).map elements).getD []

/-- `open_modules`, where at most `limit` calls may be active at once. -/
def openModules (sys : System) : Nat → Str → Dict → Except Error (Bool × Dict)
  | 0, _, _ => .error (.raised .recursionError)
  | limit + 1, root, context => do
    let (success, context) ← openEach sys limit root (sys.unique (modulesOf context)) context
    if success then
      -- What the calls for the contexts inside return is not looked at.
      let context ← context.mapM fun e => match e.2 with
        | .dict d => do
          let (_, d) ← openModules sys limit (join root (← rootOr e.1 d)) d
          return (e.1, .dict d)
        | .list _ => return e
      return (true, context)
    else return (false, context)

/-- The main program up to the call of `proc_directives`. -/
def configure (sys : System) (limit : Nat) (conf : Str) : Except Error Dict :=
  match sys.file conf with
  | .missing => .error (.exit 2)
  | .unreadable => .error .osError
  | .text data => match toJson limit [] data with
    | .error e => .error (.raised e)
    | .ok (false, _) => .error (.exit 2)
    | .ok (true, config) => do
      let (_, config) ← openModules sys limit [] config
      expand limit config

/-- The main program up to the call of `build`. -/
def main (sys : System) (limit : Nat) (conf : Str) : Except Error Result := do
  procDirectives limit [] (← configure sys limit conf)

/-- `to_json` returns `False` on the `module.conf` of a module of the context. -/
def Broken (sys : System) (limit : Nat) (root : Str) (context : Dict) (el : Str) : Prop :=
  ∃ p data v, moduleRoot context el = .ok p ∧ sys.file (moduleConf sys root p) = .text data ∧
    toJsonValue limit ((context.lookup el).getD (.dict [])) data = .ok (false, v)

variable {sys : System} {limit : Nat} {root : Str} {context context' : Dict} {el : Str} {b : Bool}

theorem Broken.congr (h : Broken sys limit root context el)
    (hl : context'.lookup el = context.lookup el) : Broken sys limit root context' el := by
  obtain ⟨p, data, v, hp, hfile, hjson⟩ := h
  refine ⟨p, data, v, ?_, hfile, ?_⟩
  · rw [moduleRoot, hl]
    exact hp
  · rw [hl]
    exact hjson

theorem openModule_reports (h : openModule sys limit root context el = .ok (b, context')) :
    (b = false ↔ Broken sys limit root context el) ∧
      ∀ l, l ≠ el → context'.lookup l = context.lookup l := by
  obtain ⟨p, hp, h⟩ := bind_ok_iff.1 h
  cases hfile : sys.file (moduleConf sys root p) with
  | missing =>
    rw [hfile] at h
    cases h
    refine ⟨iff_of_false Bool.noConfusion ?_, fun _ _ => rfl⟩
    rintro ⟨q, data, v, hq, hdata, -⟩
    cases hp.symm.trans hq
    cases hfile.symm.trans hdata
  | unreadable =>
    rw [hfile] at h
    cases h
  | text data =>
    rw [hfile] at h
    obtain ⟨⟨success, v⟩, hjson, h⟩ := bind_ok_iff.1 h
    cases h
    refine ⟨⟨?_, ?_⟩, fun l hl => lookup_assign_of_ne _ hl _⟩
    · intro hb
      subst hb
      exact ⟨p, data, v, hp, hfile, hjson⟩
    · rintro ⟨q, data', v', hq, hdata, hjson'⟩
      cases hp.symm.trans hq
      cases hfile.symm.trans hdata
      cases hjson.symm.trans hjson'
      rfl

theorem openEach_reports (hn : els.Nodup)
    (h : openEach sys limit root els context = .ok (b, context')) :
    b = false ↔ ∃ el ∈ els, Broken sys limit root context el := by
  induction els generalizing context with
  | nil =>
    cases h
    exact iff_of_false Bool.noConfusion nofun
  | cons el els ih =>
    obtain ⟨hel, hn⟩ := nodup_cons.1 hn
    obtain ⟨⟨success, context₁⟩, hopen, h⟩ := bind_ok_iff.1 h
    obtain ⟨hreports, hothers⟩ := openModule_reports hopen
    cases success with
    | false =>
      cases h
      exact iff_of_true rfl ⟨el, mem_cons_self, hreports.1 rfl⟩
    | true =>
      have hel' : ¬Broken sys limit root context el := fun hb => Bool.noConfusion (hreports.2 hb)
      have hne (l) (hl : l ∈ els) : l ≠ el := fun he => hel (he ▸ hl)
      rw [ih hn h]
      constructor
      · rintro ⟨l, hl, hb⟩
        exact ⟨l, mem_cons_of_mem _ hl, hb.congr (hothers l (hne l hl)).symm⟩
      · rintro ⟨l, hl, hb⟩
        rcases mem_cons.1 hl with rfl | hl
        · exact absurd hb hel'
        · exact ⟨l, hl, hb.congr (hothers l (hne l hl))⟩

/-- A call of `open_modules` that returns reports the modules that the context itself lists, and no
others; the main program goes on whatever is reported. -/
theorem openModules_reports (h : openModules sys (limit + 1) root context = .ok (b, context')) :
    (b = false ↔ ∃ el ∈ modulesOf context, Broken sys limit root context el) ∧
      ∀ conf data, root = [] → sys.file conf = .text data →
        toJson (limit + 1) [] data = .ok (true, context) →
          configure sys (limit + 1) conf = expand (limit + 1) context' := by
  constructor
  · obtain ⟨⟨success, context₁⟩, hopen, h⟩ := bind_ok_iff.1 h
    have hreports := openEach_reports (sys.nodup_unique _) hopen
    simp only [sys.mem_unique] at hreports
    rw [← hreports]
    cases success with
    | false =>
      cases h
      exact Iff.rfl
    | true =>
      obtain ⟨context₂, -, h⟩ := bind_ok_iff.1 h
      cases h
      exact Iff.rfl
  · intro conf data hroot hfile hjson
    subst hroot
    simp only [configure, hfile, hjson]
    rw [h]
    rfl

def sampleSystem (a b : Str) : System where
  file p :=
    if p = "main.conf".toList then .text "objects x.o; modules a;".toList
    else if p = "a/module.conf".toList then .text a
    else if p = "a/b/module.conf".toList then .text b
    else .missing
  expanduser := id
  unique := eraseDups
  mem_unique := fun _ _ => mem_eraseDups
  nodup_unique := eraseDups_nodup

def sampleObjects : Str × Value := ("objects".toList, .list ["x.o".toList])

def sampleModules : Dict := [sampleObjects, ("modules".toList, .list ["a".toList])]

theorem openModules_reports_sample :
    ∃ el ∈ modulesOf sampleModules,
      Broken (sampleSystem "\x7d\x7d".toList []) 8 [] sampleModules el :=
  have h : openModules (sampleSystem "\x7d\x7d".toList []) (8 + 1) [] sampleModules =
      .ok (false, sampleModules ++ [("a".toList, .dict [])]) := by decide +kernel
  (openModules_reports h).1.1 rfl

/-- The module `b` of the module `a` cannot be read and `open_modules` returns `True`; `a` cannot be
read and it returns `False`. Each time the emitter goes on to compile `x.o`. -/
theorem openModules_ignored :
    toJson 9 [] "\x7d\x7d".toList = .ok (false, []) ∧
      ((openModules (sampleSystem "modules b;".toList "\x7d\x7d".toList) 9 [] sampleModules).map
          Prod.fst = .ok true ∧
        (main (sampleSystem "modules b;".toList "\x7d\x7d".toList) 9 "main.conf".toList).map
          (·.resobj.map Prod.fst) = .ok ["x.o".toList]) ∧
      (openModules (sampleSystem "\x7d\x7d".toList []) 9 [] sampleModules).map Prod.fst =
          .ok false ∧
        (main (sampleSystem "\x7d\x7d".toList []) 9 "main.conf".toList).map
          (·.resobj.map Prod.fst) = .ok ["x.o".toList] := by
  refine ⟨?_, ⟨?_, ?_⟩, ?_, ?_⟩ <;> decide +kernel

end Mdepx.Emitter
