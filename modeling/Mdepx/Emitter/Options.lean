import Mdepx.Emitter.Basic

namespace Mdepx.Emitter
open Mdepx.Parser Function

/-! The expansion of options, `handle_options` of `tools/emitter.py`. -/

/-- An object goes by the keys on the way to the place it was read from. -/
abbrev Ref := List Str

inductive Obj where
  | list (ss : List Str)
  | dict (es : List (Str × Ref))
  deriving DecidableEq

abbrev Heap := Ref → Obj

def Obj.entries : Obj → List (Str × Ref)
  | .list _ => []
  | .dict es => es

def Obj.elements : Obj → List Str
  | .list ss => ss
  | .dict es => es.map Prod.fst

/-- A round of `merge(a, b)`; `rec` is `merge` for the dictionaries inside. -/
def mergeKey (rec : Heap → Ref → Ref → Except Error Heap) (a b : Ref) (h : Heap) (key : Str) :
    Except Error Heap :=
  match (h a).entries.lookup key, (h b).entries.lookup key with
  | some x, some y =>
    match h x, h y with
    | .dict _, .dict _ => rec h x y
    -- The list is extended in place, wherever it is.
    | .list ss, o => .ok (update h x (.list (ss ++ o.elements)))
    | .dict _, .list _ => .error (.raised .typeError)
  | none, some y => .ok (update h a (.dict ((h a).entries ++ [(key, y)])))
  | _, none => .error .keyError

/-- A loop over a dictionary raises an exception once there are more keys. -/
def mergeRound (rec : Heap → Ref → Ref → Except Error Heap) (a b : Ref) (size : Nat) (h : Heap)
    (key : Str) : Except Error Heap := do
  let h ← mergeKey rec a b h key
  if (h b).entries.length = size then .ok h else .error .runtimeError

def mergeShared : Nat → Heap → Ref → Ref → Except Error Heap
  | 0, _, _, _ => .error .limit
  | n + 1, h, a, b =>
    ((h b).entries.map Prod.fst).foldlM (mergeRound (mergeShared n) a b (h b).entries.length) h

def enable (n : Nat) (c : Ref) (ky : List (Str × Ref)) (h : Heap) (opt : Str) :
    Except Error Heap :=
  match ky.lookup opt with
  | none => .ok h
  | some r =>
    match h r with
    | .dict _ => mergeShared n h c r
    | .list _ => .ok h

/-- `for opt in v`, from the place `i` on. A list may grow meanwhile. -/
def eachOption (n : Nat) (c : Ref) (ky : List (Str × Ref)) (v : Ref) :
    Nat → Nat → Heap → Except Error Heap
  | 0, _, _ => .error .limit
  | m + 1, i, h =>
    match (h v).elements[i]? with
    | none => .ok h
    | some opt => do
      let h' ← enable n c ky h opt
      if (h' v).entries.length = (h v).entries.length then eachOption n c ky v m (i + 1) h'
      else .error .runtimeError

def optionsKey : Str := "options".toList

/-- A round of `handle_options`; `ky` is the copy of the context. -/
def visit (rec : Heap → Ref → Except Error Heap) (n : Nat) (c : Ref) (ky : List (Str × Ref))
    (h : Heap) (e : Str × Ref) : Except Error Heap := do
  let h ← match h e.2 with
    | .dict _ => rec h e.2
    | .list _ => .ok h
  if e.1 = optionsKey then eachOption n c ky e.2 n 0 h else .ok h

def handleOptions : Nat → Heap → Ref → Except Error Heap
  | 0, _, _ => .error .limit
  | n + 1, h, c => (h c).entries.foldlM (visit (handleOptions n) n c (h c).entries) h

def valueAt : Value → Ref → Option Value
  | v, [] => some v
  | .dict d, k :: p => (d.lookup k).bind (valueAt · p)
  | .list _, _ :: _ => none

/-- The objects of a configuration that was read: nothing is shared. -/
def load (d : Dict) (r : Ref) : Obj :=
  match valueAt (.dict d) r with
  | some (.dict e) => .dict (e.map fun x => (x.1, r ++ [x.1]))
  | some (.list ss) => .list ss
  | none => .list []

def read : Nat → Heap → Ref → Option Value
  | 0, _, _ => none
  | n + 1, h, r =>
    match h r with
    | .list ss => some (.list ss)
    | .dict es => (es.mapM fun e => (read n h e.2).map (e.1, ·)).map .dict

def expand (limit : Nat) (d : Dict) : Except Error Dict := do
  let h ← handleOptions limit (load d) []
  match read limit h [] with
  | some (.dict e) => .ok e
  | _ => .error .limit

end Mdepx.Emitter
