import Mdepx.Parser.Basic

namespace Mdepx.Emitter
open Lib Mdepx.Parser

/-! What the modules of `tools/emitter.py` have in common. -/

inductive Error where
  | raised (e : Exn)
  | keyError
  | nameError
  | runtimeError
  | osError
  | exit (status : Nat)
  -- There is no result within the limit that is given for recursion and loops.
  | limit
  deriving DecidableEq

/-- `os.path.join`. -/
def join (a b : Str) : Str :=
  if b.head? = some '/' then b
  else if a = [] ∨ a.getLast? = some '/' then a ++ b
  else a ++ '/' :: b

def elements : Value → List Str
  | .list ss => ss
  | .dict d => d.map Prod.fst

def first : Value → Except Error Str
  | .list (s :: _) => .ok s
  | .list [] => .error (.raised .indexError)
  | .dict _ => .error .keyError

/-- `context['root'][0]` if there is a `root` in the context, or else what is given. -/
def rootOr (p : Str) (context : Dict) : Except Error Str :=
  match context.lookup "root".toList with
  | some v => first v
  | none => .ok p

end Mdepx.Emitter
