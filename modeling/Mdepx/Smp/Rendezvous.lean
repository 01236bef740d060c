import Mathlib.Algebra.BigOperators.Fin
import Mdepx.Lib.Run

/-! `smp_rendezvous_cpus`. Every step is one access to a shared variable by one CPU. -/

namespace Mdepx.Smp
open Function

/-- A call of smp_rendezvous_cpus: its number in the order of the calls, the calling CPU and the
arguments. -/
structure Call (n : Nat) (φ α : Type) where
  no : Nat
  cpuid : Fin n
  cpus : Fin n → Bool
  fn : φ
  arg : α

def Call.ncpus (r : Call n φ α) : Nat := ∑ i, (r.cpus i).toNat

/-- What a CPU does in smp_rendezvous_cpus or in clint_intr_software, about to perform the step
that is named. -/
inductive Base (n : Nat) (φ α : Type) where
  | idle
  | software
  | trylock (r : Call n φ α)
  | poll (r : Call n φ α)
  | setFunc (r : Call n φ α)
  | setArg (r : Call n φ α)
  | setNcpus (r : Call n φ α)
  | clearLeft (r : Call n φ α)
  | clearEntered (r : Call n φ α)
  | sendIpi (r : Call n φ α) (ps : List (Fin n))
  | setSip (r : Call n φ α) (p : Fin n) (ps : List (Fin n))
  | own (r : Call n φ α)
  | collect (r : Call n φ α)
  | unlock (r : Call n φ α)

/-- What a CPU does in smp_rendezvous_action. -/
inductive Stage (φ : Type) where
  | enter
  | gather
  | loadFunc
  | loadArg (f : Nat × φ)
  | running (no : Nat)
  | leave
  deriving DecidableEq

/-- A CPU: smp_rendezvous_action runs on top of what the CPU was doing. -/
structure Cpu (n : Nat) (φ α : Type) where
  base : Base n φ α
  act : Option (Stage φ)

structure Ipis where
  ipi : Bool
  tryst : Bool
  deriving DecidableEq

inductive Event (n : Nat) (φ α : Type) where
  | entered (c : Fin n) (call : Option Nat)
  | started (c : Fin n) (call : Nat) (fn : φ) (arg : Option α)
  | finished (c : Fin n) (call : Nat)
  | returned (call : Nat)
  deriving DecidableEq

/-- The shared variables and the CPUs.  The lock and the function carry the number of the call
that wrote them; `calls` and `log`, newest first, are there for the specification only. -/
structure State (n : Nat) (φ α : Type) where
  pcpuAll : List (Fin n)
  lock : Option Nat
  func : Option (Nat × φ)
  arg : Option α
  ncpus : Nat
  room0 : Nat
  room1 : Nat
  pendingIpis : Fin n → Ipis
  sip : Fin n → Bool
  cpu : Fin n → Cpu n φ α
  calls : List (Call n φ α)
  log : List (Event n φ α)

/-- panic("smp_rendezvous_cpus with cpu mask == 0"), panic("lock is not taken"), a call through
a null pointer, and a step that the CPU does not take. -/
inductive Fault where
  | maskEmpty
  | notTaken
  | nullFunc
  | disabled
  deriving DecidableEq

def State.setCpu (s : State n φ α) (c : Fin n) (b : Base n φ α) (a : Option (Stage φ)) :
    State n φ α :=
  { s with cpu := update s.cpu c ⟨b, a⟩ }

def State.setIpis (s : State n φ α) (c : Fin n) (i : Ipis) : State n φ α :=
  { s with pendingIpis := update s.pendingIpis c i }

def State.note (s : State n φ α) (e : Event n φ α) : State n φ α :=
  { s with log := e :: s.log }

/-- Reads and clears the pending IPIs; IPI_IPI needs no action. -/
def ipiHandler (s : State n φ α) (c : Fin n) (b : Base n φ α) : State n φ α :=
  if (s.pendingIpis c).tryst then
    (s.setIpis c ⟨false, false⟩).setCpu c b (some .enter)
  else
    (s.setIpis c ⟨false, false⟩).setCpu c b none

def smpRendezvousAction (s : State n φ α) (c : Fin n) (b : Base n φ α) :
    Stage φ → Except Fault (State n φ α)
  | .enter =>
    .ok ({ s with room0 := s.room0 + 1 }.setCpu c b (some .gather) |>.note (.entered c s.lock))
  | .gather => if s.room0 < s.ncpus then .ok s else .ok (s.setCpu c b (some .loadFunc))
  | .loadFunc =>
    match s.func with
    | none => .error .nullFunc
    | some f => .ok (s.setCpu c b (some (.loadArg f)))
  | .loadArg f =>
    .ok (s.setCpu c b (some (.running f.1)) |>.note (.started c f.1 f.2 s.arg))
  | .running no => .ok (s.setCpu c b (some .leave) |>.note (.finished c no))
  | .leave => .ok ({ s with room1 := s.room1 + 1 }.setCpu c b none)

def smpRendezvousCpus (s : State n φ α) (c : Fin n) : Base n φ α → Except Fault (State n φ α)
  | .idle => .error .disabled
  | .software => .ok (ipiHandler s c .idle)
  | .trylock r =>
    match s.lock with
    | none => .ok ({ s with lock := some r.no }.setCpu c (.setFunc r) none)
    | some _ => .ok (s.setCpu c (.poll r) none)
  | .poll r => .ok (ipiHandler s c (.trylock r))
  | .setFunc r => .ok ({ s with func := some (r.no, r.fn) }.setCpu c (.setArg r) none)
  | .setArg r => .ok ({ s with arg := some r.arg }.setCpu c (.setNcpus r) none)
  | .setNcpus r => .ok ({ s with ncpus := r.ncpus }.setCpu c (.clearLeft r) none)
  | .clearLeft r => .ok ({ s with room1 := 0 }.setCpu c (.clearEntered r) none)
  | .clearEntered r => .ok ({ s with room0 := 0 }.setCpu c (.sendIpi r s.pcpuAll) none)
  | .sendIpi r [] => .ok (s.setCpu c (.own r) none)
  | .sendIpi r (p :: ps) =>
    if r.cpus p ∧ p ≠ c then
      .ok ((s.setIpis p { s.pendingIpis p with tryst := true }).setCpu c (.setSip r p ps) none)
    else
      .ok (s.setCpu c (.sendIpi r ps) none)
  | .setSip r p ps =>
    .ok ({ s with sip := update s.sip p true }.setCpu c (.sendIpi r ps) none)
  | .own r =>
    if r.cpus c then .ok (s.setCpu c (.collect r) (some .enter))
    else .ok (s.setCpu c (.collect r) none)
  | .collect r => if s.room1 < r.ncpus then .ok s else .ok (s.setCpu c (.unlock r) none)
  | .unlock r =>
    match s.lock with
    | none => .error .notTaken
    | some _ => .ok ({ s with lock := none }.setCpu c .idle none |>.note (.returned r.no))

/-- What can happen: a CPU calls smp_rendezvous_cpus, takes a software interrupt or goes on with
what it does; some other part of the kernel sends an IPI_IPI. -/
inductive Act (n : Nat) (φ α : Type) where
  | call (c : Fin n) (cpus : Fin n → Bool) (fn : φ) (arg : α)
  | intr (c : Fin n)
  | notify (c : Fin n)
  | step (c : Fin n)

def exec (s : State n φ α) : Act n φ α → Except Fault (State n φ α)
  | .call c cpus fn arg =>
    match s.cpu c with
    | ⟨.idle, none⟩ =>
      let r : Call n φ α := ⟨s.calls.length, c, cpus, fn, arg⟩
      if r.ncpus = 0 then .error .maskEmpty
      else .ok ({ s with calls := s.calls ++ [r] }.setCpu c (.trylock r) none)
    | _ => .error .disabled
  | .intr c =>
    match s.cpu c with
    | ⟨.idle, none⟩ =>
      if s.sip c then
        .ok ({ s with sip := update s.sip c false }.setCpu c .software none)
      else .error .disabled
    | _ => .error .disabled
  | .notify c =>
    .ok ({ s with sip := update s.sip c true }.setIpis c
      { s.pendingIpis c with ipi := true })
  | .step c =>
    match (s.cpu c).act with
    | some st => smpRendezvousAction s c (s.cpu c).base st
    | none => smpRendezvousCpus s c (s.cpu c).base

abbrev Next (s : State n φ α) (a : Act n φ α) (t : State n φ α) : Prop := exec s a = .ok t

def Online (s : State n φ α) : Act n φ α → Prop
  | .call _ cpus _ _ => ∀ c, cpus c → c ∈ s.pcpuAll
  | _ => True

instance (s : State n φ α) : DecidablePred (Online s)
  | .call _ cpus _ _ => inferInstanceAs (Decidable (∀ c, cpus c → c ∈ s.pcpuAll))
  | .intr _ | .notify _ | .step _ => inferInstanceAs (Decidable True)

def boot (φ α : Type) (pcpuAll : List (Fin n)) : State n φ α :=
  ⟨pcpuAll, none, none, none, 0, 0, 0, fun _ => ⟨false, false⟩, fun _ => false,
    fun _ => ⟨.idle, none⟩, [], []⟩

def starts (log : List (Event n φ α)) (c : Fin n) (no : Nat) : Nat :=
  log.countP fun
    | .started d i _ _ => d = c ∧ i = no
    | _ => false

end Mdepx.Smp
