import Mdepx.Lib.Table
import Mdepx.Lib.Text

namespace Mdepx.Parser
open Lib

/-! The reader of configuration files, `tools/parser.py`. -/

abbrev Str := List Char

inductive Value where
  | list (ss : List Str)
  | dict (d : List (Str × Value))

abbrev Dict := List (Str × Value)

mutual

def Value.decEq : (u v : Value) → Decidable (u = v)
  | .list xs, .list ys => decidable_of_iff (xs = ys) (by rw [Value.list.injEq])
  | .dict a, .dict b =>
    have := Dict.decEq a b
    decidable_of_iff (a = b) (by rw [Value.dict.injEq])
  | .list _, .dict _ => isFalse nofun
  | .dict _, .list _ => isFalse nofun

def Dict.decEq : (a b : Dict) → Decidable (a = b)
  | [], [] => isTrue rfl
  | (k, u) :: a, (l, v) :: b =>
    have := Value.decEq u v
    have := Dict.decEq a b
    decidable_of_iff ((k = l ∧ u = v) ∧ a = b) (by rw [List.cons.injEq, Prod.mk.injEq])
  | [], _ :: _ => isFalse nofun
  | _ :: _, [] => isFalse nofun

end

instance : DecidableEq Value := Value.decEq

inductive Exn where
  | indexError
  | typeError
  | attributeError
  | recursionError
  deriving DecidableEq

def isSpace (c : Char) : Bool :=
  let n := c.toNat
  (9 ≤ n && n ≤ 13) || (28 ≤ n && n ≤ 32) || n == 0x85 || n == 0xa0 || n == 0x1680 ||
    (0x2000 ≤ n && n ≤ 0x200a) || n == 0x2028 || n == 0x2029 || n == 0x202f || n == 0x205f ||
    n == 0x3000

mutual

def merge (a : Dict) : Dict → Except Exn Dict
  | [] => .ok a
  | (key, v) :: b => do
    match a.lookup key with
    | some u => merge (assign a key (← mergeEntry u v)) b
    | none => merge (assign a key v) b

/-- What `merge` makes of `a[key]` and `b[key]` if the key is in both. -/
def mergeEntry : Value → Value → Except Exn Value
  | .dict a, .dict b => do return .dict (← merge a b)
  | .list xs, .list ys => .ok (.list (xs ++ ys))
  -- A list is extended by what iterating over a dictionary yields, its keys.
  | .list xs, .dict b => .ok (.list (xs ++ b.map Prod.fst))
  | .dict _, .list _ => .error .typeError

end

def mergeInto : Value → Dict → Except Exn Value
  | .dict a, f => do return .dict (← merge a f)
  | .list xs, [] => .ok (.list xs)
  | .list _, _ :: _ => .error .typeError

def append (k : Str) (d : Dict) (s : Str) : Except Exn Dict :=
  match d.lookup k with
  | some (.list ss) => .ok (assign d k (.list (ss ++ [s])))
  | some (.dict _) => .error .attributeError
  | none => .ok (assign d k (.list [s]))

def place (k : Str) (d f : Dict) : Except Exn Dict :=
  match d.lookup k with
  | some u => do return assign d k (← mergeInto u f)
  | none => .ok (assign d k (.dict f))

/-- `process_kv`; the text of a block is read by `read`. -/
def processKv (read : Dict → Str → Except Exn (Bool × Dict)) (d : Dict) (key val : Str) :
    Except Exn (Bool × Dict) := do
  let k := strip isSpace key
  let v := strip isSpace val
  match v with
  | '{' :: _ =>
    let (success, f) ← read [] (strip (fun c => c == '{' || c == '}') v)
    if success then
      return (true, ← place k d f)
    else
      return (false, d)
  | '\'' :: _ => return (true, ← append k d (strip (· == '\'') v))
  | _ :: _ => return (true, ← (words isSpace v).foldlM (append k) d)
  | [] => return (true, ← append k d [])

structure Scan where
  tmp : Str
  key : Str
  val : Str
  depth : Int
  deriving DecidableEq

def Scan.start : Scan := ⟨[], [], [], 0⟩

def Scan.close (s : Scan) : Scan :=
  if s.key = [] then
    if strip isSpace s.tmp = [] then s else { s with key := s.tmp, tmp := [] }
  else if s.val = [] then { s with val := s.tmp, tmp := [] }
  else s

def Scan.push (s : Scan) (c : Char) : Scan :=
  if c = ' ' ∨ c = '\t' then
    if s.key = [] ∧ strip isSpace s.tmp ≠ [] then { s with key := s.tmp, tmp := [c] }
    else { s with tmp := s.tmp ++ [c] }
  else if c = '{' then { s with depth := s.depth + 1, tmp := s.tmp ++ [c] }
  else if c = '}' then { s with depth := s.depth - 1, tmp := s.tmp ++ [c] }
  else { s with tmp := s.tmp ++ [c] }

section

variable (process : Dict → Str → Str → Except Exn (Bool × Dict))

mutual

def scan (d : Dict) (s : Scan) : Str → Except Exn (Bool × Dict)
  | [] => .ok (true, d)
  | c :: data =>
    if s.depth < 0 then .ok (false, d)
    else if c = '#' ∧ s.depth = 0 then comment d s data
    else if (c = ';' ∨ data = []) ∧ s.depth = 0 then
      if s.close.key = [] then scan d s.close data
      else do
        let (success, d) ← process d s.close.key s.close.val
        if success then scan d { s.close with key := [], val := [] } data
        else return (false, d)
    else if c = '=' ∧ strip isSpace s.tmp = [] then scan d s data
    else scan d (s.push c) data

/-- The loop over the rest of a comment, which does not look for the end of the text. -/
def comment (d : Dict) (s : Scan) : Str → Except Exn (Bool × Dict)
  | [] => .error .indexError
  | c :: data => if c = '\n' then scan d s data else comment d s data

end

end

/-- `to_json`, where at most `limit` calls may be active at once. -/
def toJson : Nat → Dict → Str → Except Exn (Bool × Dict)
  | 0, _, _ => .error .recursionError
  | limit + 1, d, data => scan (processKv (toJson limit)) d .start data

end Mdepx.Parser
