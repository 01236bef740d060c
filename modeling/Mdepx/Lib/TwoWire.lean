import Mathlib.Data.List.Basic

namespace Mdepx.Lib

/-! What is said on a bus of a clock and a data line, read off the levels that are driven. -/

namespace TwoWire

inductive Drive
  | scl (level : Bool)
  | sda (level : Bool)
deriving DecidableEq

/-- A data line that changes while the clock is high is a condition; one that does not is a bit. -/
inductive Symbol
  | start
  | bit (b : Bool)
  | stop
deriving DecidableEq

/-- The two levels, and whether the data line has changed since the clock went high. -/
structure Lines where
  scl : Bool
  sda : Bool
  moved : Bool
deriving DecidableEq

def Lines.step (l : Lines) : Drive → Lines × List Symbol
  | .scl level =>
    if level = l.scl then (l, [])
    else if level then ({ l with scl := true, moved := false }, [])
    else ({ l with scl := false }, if l.moved then [] else [.bit l.sda])
  | .sda level =>
    if level = l.sda then (l, [])
    else if l.scl then ({ l with sda := level, moved := true }, [if level then .stop else .start])
    else ({ l with sda := level }, [])

def watch (l : Lines) : List Drive → Lines × List Symbol
  | [] => (l, [])
  | d :: ds => ((watch (l.step d).1 ds).1, (l.step d).2 ++ (watch (l.step d).1 ds).2)

theorem watch_append (l : Lines) (ds ds' : List Drive) :
    watch l (ds ++ ds') =
      ((watch (watch l ds).1 ds').1, (watch l ds).2 ++ (watch (watch l ds).1 ds').2) := by
  induction ds generalizing l with
  | nil => rfl
  | cons d ds ih =>
    rw [List.cons_append, watch, ih, ← List.append_assoc]
    rfl

def Lines.Idle (l : Lines) : Prop := l.scl = true ∧ l.sda = true

def Lines.Low (l : Lines) : Prop := l.scl = false

def Lines.Held (sda : Bool) (l : Lines) : Prop := l.scl = false ∧ l.sda = sda

theorem Lines.Held.low {l : Lines} (h : l.Held b) : l.Low := h.1

theorem Lines.Held.not_idle {l : Lines} (h : l.Held b) : ¬l.Idle :=
  fun hi => Bool.false_ne_true (h.1.symm.trans hi.1)

def Lines.Ready (l : Lines) : Prop := l.Idle ∨ l.Held true

/-- From every state in `P` the levels say the symbols, and lead to a state in `Q`. -/
def Says (P : Lines → Prop) (ds : List Drive) (seen : List Symbol) (Q : Lines → Prop) : Prop :=
  ∀ l, P l → (watch l ds).2 = seen ∧ Q (watch l ds).1

variable {P P' Q R : Lines → Prop} {ds ds' : List Drive} {seen seen' : List Symbol}

theorem Says.nil (P : Lines → Prop) : Says P [] [] P := fun _ h => ⟨rfl, h⟩

theorem Says.append (h : Says P ds seen Q) (h' : Says Q ds' seen' R) :
    Says P (ds ++ ds') (seen ++ seen') R := by
  intro l hl
  obtain ⟨hseen, hq⟩ := h l hl
  obtain ⟨hseen', hr⟩ := h' _ hq
  rw [watch_append, hseen, hseen']
  exact ⟨rfl, hr⟩

theorem Says.mono (h : Says P ds seen Q) (hp : ∀ l, P' l → P l) (hq : ∀ l, Q l → R l) :
    Says P' ds seen R := fun l hl => ⟨(h l (hp l hl)).1, hq _ (h l (hp l hl)).2⟩

theorem says_bit (b : Bool) :
    Says Lines.Low [.sda b, .scl true, .scl false] [.bit b] (Lines.Held b) := by
  intro l h
  obtain ⟨c, d, m⟩ := l
  cases h
  cases d <;> cases b <;> exact ⟨rfl, rfl, rfl⟩

theorem says_start :
    Says Lines.Ready [.scl true, .sda true, .sda false, .scl false] [.start]
      (Lines.Held false) := by
  intro l h
  obtain ⟨c, d, m⟩ := l
  rcases h with ⟨hc, hd⟩ | ⟨hc, hd⟩
  · subst hc hd
    exact ⟨rfl, rfl, rfl⟩
  · subst hc hd
    exact ⟨rfl, rfl, rfl⟩

theorem says_stop : Says Lines.Low [.sda false, .scl true, .sda true] [.stop] Lines.Idle := by
  intro l h
  obtain ⟨c, d, m⟩ := l
  cases h
  cases d <;> exact ⟨rfl, rfl, rfl⟩

end TwoWire

end Mdepx.Lib
