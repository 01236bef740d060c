import Mdepx.Lib.History
import Mdepx.Lib.Total
import Mdepx.Smp.Rendezvous

namespace Mdepx.Smp
open Function (update update_self update_of_ne)
open List

def Base.call : Base n φ α → Option (Call n φ α)
  | .idle | .software => none
  | .trylock r | .poll r | .setFunc r | .setArg r | .setNcpus r | .clearLeft r | .clearEntered r
  | .sendIpi r _ | .setSip r _ _ | .own r | .collect r | .unlock r => some r

def Base.holds : Base n φ α → Option (Call n φ α)
  | .idle | .software | .trylock _ | .poll _ => none
  | .setFunc r | .setArg r | .setNcpus r | .clearLeft r | .clearEntered r
  | .sendIpi r _ | .setSip r _ _ | .own r | .collect r | .unlock r => some r

theorem Base.call_of_holds {b : Base n φ α} (h : b.holds = some r) : b.call = some r := by
  cases b <;> first | exact h | cases h

def Event.call : Event n φ α → Option Nat
  | .entered _ i => i
  | .started _ i _ _ | .finished _ i | .returned i => some i

def Event.cpu : Event n φ α → Option (Fin n)
  | .entered c _ | .started c _ _ _ | .finished c _ => some c
  | .returned _ => none

/-- How far a CPU is with a call: it is not in the mask, its IPI is yet to be sent or not yet
taken, it is in smp_rendezvous_action, or it has left it. -/
inductive Part (φ : Type) where
  | out
  | due
  | sent
  | on (st : Stage φ)
  | done

namespace Part

def member : Part φ → Bool
  | .out => false
  | _ => true

def entered : Part φ → Bool
  | .on .gather | .on .loadFunc | .on (.loadArg _) | .on (.running _) | .on .leave | .done => true
  | _ => false

def past : Part φ → Bool
  | .on .loadFunc | .on (.loadArg _) | .on (.running _) | .on .leave | .done => true
  | _ => false

def started : Part φ → Bool
  | .on (.running _) | .on .leave | .done => true
  | _ => false

def finished : Part φ → Bool
  | .on .leave | .done => true
  | _ => false

def left : Part φ → Bool
  | .done => true
  | _ => false

def called : Part φ → Bool
  | .sent => true
  | _ => false

def stage : Part φ → Option (Stage φ)
  | .on st => some st
  | _ => none

def busy : Part φ → Bool
  | .sent | .on _ => true
  | _ => false

def active : Part φ → Bool
  | .on _ | .done => true
  | _ => false

end Part

structure Fits (tryst : Bool) (act : Option (Stage φ)) (p : Part φ) : Prop where
  tryst : tryst = p.called
  act : act = p.stage

structure Tells (log : List (Event n φ α)) (r : Call n φ α) (c : Fin n) (p : Part φ) : Prop where
  member : p.member = r.cpus c
  entered : .entered c (some r.no) ∈ log ↔ p.entered
  started : starts log c r.no = p.started.toNat
  finished : .finished c r.no ∈ log ↔ p.finished
  values : ∀ fn arg, .started c r.no fn arg ∈ log → fn = r.fn ∧ arg = some r.arg

structure Open (s : State n φ α) (r : Call n φ α) (part : Fin n → Part φ) : Prop where
  func : s.func = some (r.no, r.fn)
  arg : s.arg = some r.arg
  ncpus : s.ncpus = r.ncpus
  room0 : s.room0 = ∑ c, (part c).entered.toNat
  room1 : s.room1 = ∑ c, (part c).left.toNat
  past : ∀ c, (part c).past → ∀ d, r.cpus d → (part d).entered
  loaded : ∀ c f, part c = .on (.loadArg f) → f = (r.no, r.fn)
  runs : ∀ c i, part c = .on (.running i) → i = r.no

def Unsent (part : Fin n → Part φ) : Prop := ∀ p, part p = .out ∨ part p = .due

structure Sending (part : Fin n → Part φ) (c : Fin n) (ps : List (Fin n)) : Prop where
  nodup : ps.Nodup
  caller : part c = .out ∨ part c = .due
  rest : ∀ p ∈ ps, p ≠ c → part p = .out ∨ part p = .due
  due : ∀ p, p ≠ c → part p = .due → p ∈ ps

/-- The state of the call in progress, by what its caller does. -/
def Session (s : State n φ α) (c : Fin n) (part : Fin n → Part φ) : Base n φ α → Prop
  | .idle | .software | .trylock _ | .poll _ => True
  | .setFunc _ => Unsent part
  | .setArg r => Unsent part ∧ s.func = some (r.no, r.fn)
  | .setNcpus r => Unsent part ∧ s.func = some (r.no, r.fn) ∧ s.arg = some r.arg
  | .clearLeft r =>
    Unsent part ∧ s.func = some (r.no, r.fn) ∧ s.arg = some r.arg ∧ s.ncpus = r.ncpus
  | .clearEntered r =>
    Unsent part ∧ s.func = some (r.no, r.fn) ∧ s.arg = some r.arg ∧ s.ncpus = r.ncpus ∧
      s.room1 = 0
  | .sendIpi r ps | .setSip r _ ps => Open s r part ∧ Sending part c ps
  | .own r => Open s r part ∧ Sending part c []
  | .collect r => Open s r part ∧ part c ≠ .sent ∧ ∀ p, part p ≠ .due
  | .unlock r => Open s r part ∧ ∀ p, part p = .out ∨ part p = .done

structure Booked (s : State n φ α) : Prop where
  nodup : s.pcpuAll.Nodup
  numbered : ∀ j (r : Call n φ α), s.calls[j]? = some r → r.no = j
  valid : ∀ r ∈ s.calls, 0 < r.ncpus ∧ ∀ c, r.cpus c → c ∈ s.pcpuAll
  begun : ∀ c (r : Call n φ α), (s.cpu c).base.call = some r →
    r ∈ s.calls ∧ r.cpuid = c ∧ .returned r.no ∉ s.log
  pending : ∀ r ∈ s.calls, .returned r.no ∈ s.log ∨ (s.cpu r.cpuid).base.call = some r
  held : ∀ c (r : Call n φ α), (s.cpu c).base.holds = some r → s.lock = some r.no
  holder : ∀ i, s.lock = some i →
    ∃ c, ∃ r : Call n φ α, (s.cpu c).base.holds = some r ∧ r.no = i
  known : ∀ e ∈ s.log, ∀ i, e.call = some i → i < s.calls.length

/-- What a call has to do with the log: no CPU starts before all have entered, and the caller
returns after all have finished. -/
def Timely (calls : List (Call n φ α)) (e : Event n φ α) (log : List (Event n φ α)) : Prop :=
  match e with
  | .started _ i _ _ => ∀ r ∈ calls, r.no = i → ∀ d, r.cpus d → .entered d (some i) ∈ log
  | .returned i => ∀ r ∈ calls, r.no = i → ∀ d, r.cpus d → .finished d i ∈ log
  | _ => True

def current (s : State n φ α) (parts : Nat → Fin n → Part φ) (c : Fin n) : Part φ :=
  match s.lock with
  | none => .out
  | some i => parts i c

/-- What holds in every state, `parts` being how far each CPU is with each call. -/
structure Inv (s : State n φ α) (parts : Nat → Fin n → Part φ) : Prop where
  booked : Booked s
  told : ∀ r ∈ s.calls, ∀ c, Tells s.log r c (parts r.no c)
  waiting : ∀ r ∈ s.calls, s.lock ≠ some r.no → .returned r.no ∉ s.log → Unsent (parts r.no)
  ended : ∀ r ∈ s.calls, .returned r.no ∈ s.log →
    ∀ p, parts r.no p = .out ∨ parts r.no p = .done
  fits : ∀ c, Fits (s.pendingIpis c).tryst (s.cpu c).act (current s parts c)
  session : ∀ c (r : Call n φ α), (s.cpu c).base.holds = some r →
    Session s c (parts r.no) (s.cpu c).base
  raised : ∀ p, (s.pendingIpis p).tryst → s.sip p = true ∨ (s.cpu p).base = .software ∨
    ∃ c r ps, (s.cpu c).base = .setSip r p ps
  ordered : Lib.Grown (Timely s.calls) s.log

variable {s t : State n φ α} {r r' : Call n φ α} {part : Fin n → Part φ} {c c' : Fin n}

theorem Booked.no_lt (h : Booked s) (hr : r ∈ s.calls) : r.no < s.calls.length := by
  obtain ⟨j, hj, rfl⟩ := mem_iff_getElem.1 hr
  rw [h.numbered j _ (getElem?_eq_getElem hj)]
  exact hj

theorem Booked.unique (h : Booked s) (hr : r ∈ s.calls) (hr' : r' ∈ s.calls)
    (hno : r.no = r'.no) : r = r' := by
  obtain ⟨j, hj, rfl⟩ := mem_iff_getElem.1 hr
  obtain ⟨j', hj', rfl⟩ := mem_iff_getElem.1 hr'
  have hjj : j = j' := by
    rw [← h.numbered j _ (getElem?_eq_getElem hj), hno]
    exact h.numbered j' _ (getElem?_eq_getElem hj')
  subst hjj
  rfl

theorem Booked.holder_mem (h : Booked s) (hh : (s.cpu c).base.holds = some r) : r ∈ s.calls :=
  (h.begun c r (Base.call_of_holds hh)).1

theorem Booked.holder_unique (h : Booked s) (hh : (s.cpu c).base.holds = some r)
    (hh' : (s.cpu c').base.holds = some r') : c' = c ∧ r' = r := by
  have hno : r'.no = r.no := Option.some.inj ((h.held c' r' hh').symm.trans (h.held c r hh))
  have hr := h.unique (h.holder_mem hh') (h.holder_mem hh) hno
  refine ⟨?_, hr⟩
  rw [← (h.begun c' r' (Base.call_of_holds hh')).2.1, hr]
  exact (h.begun c r (Base.call_of_holds hh)).2.1

structure Same (s t : State n φ α) : Prop where
  pcpuAll : t.pcpuAll = s.pcpuAll
  calls : t.calls = s.calls
  lock : t.lock = s.lock
  call : ∀ c, (t.cpu c).base.call = (s.cpu c).base.call
  holds : ∀ c, (t.cpu c).base.holds = (s.cpu c).base.holds

theorem Booked.same (h : Booked s) (hs : Same s t)
    (hret : ∀ i, .returned i ∈ t.log ↔ .returned i ∈ s.log)
    (hknown : ∀ e ∈ t.log, ∀ i, e.call = some i → i < s.calls.length) : Booked t where
  nodup := hs.pcpuAll ▸ h.nodup
  numbered := hs.calls ▸ h.numbered
  valid := by
    rw [hs.calls, hs.pcpuAll]
    exact h.valid
  begun := by
    intro c r hc
    rw [hs.calls, hret]
    exact h.begun c r (hs.call c ▸ hc)
  pending := by
    intro r hr
    rw [hret, hs.call]
    exact h.pending r (hs.calls ▸ hr)
  held := by
    intro c r hc
    rw [hs.lock]
    exact h.held c r (hs.holds c ▸ hc)
  holder := by
    intro i hi
    obtain ⟨c, r, hc, hr⟩ := h.holder i (hs.lock ▸ hi)
    exact ⟨c, r, (hs.holds c).trans hc, hr⟩
  known := by
    rw [hs.calls]
    exact hknown

theorem Same.setCpu (ha : t.pcpuAll = s.pcpuAll) (hc : t.calls = s.calls) (hl : t.lock = s.lock)
    (hcpu : t.cpu = update s.cpu c ⟨b, a⟩) (hb : b.call = (s.cpu c).base.call)
    (hh : b.holds = (s.cpu c).base.holds) : Same s t := by
  refine ⟨ha, hc, hl, ?_, ?_⟩
  all_goals
    intro d
    rw [hcpu]
    by_cases hd : d = c
    · subst hd
      rw [update_self]
      assumption
    · rw [update_of_ne hd]

theorem starts_cons_of_ne (h : e.call ≠ some i ∨ e.cpu ≠ some c) :
    starts (e :: log) c i = starts log c i := by
  apply countP_cons_of_neg
  cases e with
  | started =>
    simp only [decide_eq_true_eq, not_and]
    rintro rfl rfl
    rcases h with h | h <;> exact h rfl
  | _ => exact Bool.false_ne_true

theorem starts_cons_self : starts (.started c i fn arg :: log) c i = starts log c i + 1 :=
  countP_cons_of_pos (by simp only [and_self, decide_true])

theorem Tells.other (h : Tells log r c p) (he : e.call ≠ some r.no ∨ e.cpu ≠ some c) :
    Tells (e :: log) r c p where
  member := h.member
  entered := by
    rw [mem_cons, ← h.entered, or_iff_right]
    rintro rfl
    rcases he with he | he <;> exact he rfl
  started := (starts_cons_of_ne he).trans h.started
  finished := by
    rw [mem_cons, ← h.finished, or_iff_right]
    rintro rfl
    rcases he with he | he <;> exact he rfl
  values := by
    intro fn arg hm
    rcases mem_cons.1 hm with hm | hm
    · subst hm
      rcases he with he | he <;> exact absurd rfl he
    · exact h.values fn arg hm

theorem Tells.silent (h : Tells log r c p) (hm : q.member = p.member)
    (he : q.entered = p.entered) (hs : q.started = p.started)
    (hf : q.finished = p.finished) : Tells log r c q := by
  refine ⟨hm.trans h.member, ?_, ?_, ?_, h.values⟩
  · rw [he]
    exact h.entered
  · rw [hs]
    exact h.started
  · rw [hf]
    exact h.finished

theorem Tells.enter (h : Tells log r c (.on .enter)) :
    Tells (.entered c (some r.no) :: log) r c (.on .gather) where
  member := h.member
  entered := iff_of_true mem_cons_self rfl
  started := h.started
  finished := by
    rw [mem_cons, or_iff_right (by rintro ⟨⟩)]
    exact h.finished
  values := by
    intro fn arg hm
    rcases mem_cons.1 hm with hm | hm
    · cases hm
    · exact h.values fn arg hm

theorem Tells.start (h : Tells log r c (.on (.loadArg f))) :
    Tells (.started c r.no r.fn (some r.arg) :: log) r c (.on (.running r.no)) where
  member := h.member
  entered := by
    rw [mem_cons, or_iff_right (by rintro ⟨⟩)]
    exact h.entered
  started := by
    rw [starts_cons_self, h.started]
    rfl
  finished := by
    rw [mem_cons, or_iff_right (by rintro ⟨⟩)]
    exact h.finished
  values := by
    intro fn arg hm
    rcases mem_cons.1 hm with hm | hm
    · cases hm
      exact ⟨rfl, rfl⟩
    · exact h.values fn arg hm

theorem Tells.finish (h : Tells log r c (.on (.running i))) :
    Tells (.finished c r.no :: log) r c (.on .leave) where
  member := h.member
  entered := by
    rw [mem_cons, or_iff_right (by rintro ⟨⟩)]
    exact h.entered
  started := h.started
  finished := iff_of_true mem_cons_self rfl
  values := by
    intro fn arg hm
    rcases mem_cons.1 hm with hm | hm
    · cases hm
    · exact h.values fn arg hm

structure Carries (s t : State n φ α) (c : Fin n) (r : Call n φ α) (part : Fin n → Part φ) :
    Prop where
  same : Same s t
  log : t.log = s.log ∨ ∃ e, t.log = e :: s.log ∧ e.call = some r.no ∧ (∀ i, e ≠ .returned i) ∧
    Timely s.calls e s.log
  told : ∀ d, Tells t.log r d (part d)
  fits : ∀ d, Fits (t.pendingIpis d).tryst (t.cpu d).act (part d)
  session : Session t c part (t.cpu c).base
  raised : ∀ p, (t.pendingIpis p).tryst → t.sip p = true ∨ (t.cpu p).base = .software ∨
    ∃ c r ps, (t.cpu c).base = .setSip r p ps

theorem Carries.returned_iff (h : Carries s t c r part) (i : Nat) :
    .returned i ∈ t.log ↔ .returned i ∈ s.log := by
  rcases h.log with hl | ⟨e, hl, -, he, -⟩
  · rw [hl]
  · rw [hl, mem_cons, or_iff_right fun h => he i h.symm]

theorem Inv.fits_holder (h : Inv s parts) (hh : (s.cpu c).base.holds = some r) (d : Fin n) :
    Fits (s.pendingIpis d).tryst (s.cpu d).act (parts r.no d) := by
  have hfit := h.fits d
  simp only [current, h.booked.held c r hh] at hfit
  exact hfit

theorem Inv.carry (h : Inv s parts) (hh : (s.cpu c).base.holds = some r)
    (hc : Carries s t c r part) : Inv t (update parts r.no part) := by
  have hr := h.booked.holder_mem hh
  have hlock : t.lock = some r.no := hc.same.lock.trans (h.booked.held c r hh)
  refine ⟨?_, ?_, ?_, ?_, ?_, ?_, hc.raised, ?_⟩
  · apply h.booked.same hc.same hc.returned_iff
    intro e he i hi
    rcases hc.log with hl | ⟨e', hl, hno, -⟩
    · exact h.booked.known e (hl ▸ he) i hi
    · rw [hl] at he
      rcases mem_cons.1 he with he | he
      · subst he
        rw [hno] at hi
        cases hi
        exact h.booked.no_lt hr
      · exact h.booked.known e he i hi
  · intro r' hr' d
    rw [hc.same.calls] at hr'
    by_cases hno : r'.no = r.no
    · cases h.booked.unique hr' hr hno
      rw [update_self]
      exact hc.told d
    · rw [update_of_ne hno]
      rcases hc.log with hl | ⟨e, hl, he, -⟩
      · rw [hl]
        exact h.told r' hr' d
      · rw [hl]
        apply (h.told r' hr' d).other
        left
        rw [he]
        exact fun hx => hno (Option.some.inj hx).symm
  · intro r' hr' hl hn
    have hno : r'.no ≠ r.no := fun hno => hl (hno ▸ hlock)
    rw [update_of_ne hno]
    rw [hc.returned_iff] at hn
    exact h.waiting r' (hc.same.calls ▸ hr') (hc.same.lock ▸ hl) hn
  · intro r' hr' hret
    rw [hc.returned_iff] at hret
    have hno : r'.no ≠ r.no := fun hno =>
      (h.booked.begun c r (Base.call_of_holds hh)).2.2 (hno ▸ hret)
    rw [update_of_ne hno]
    exact h.ended r' (hc.same.calls ▸ hr') hret
  · intro d
    have hcur : current t (update parts r.no part) d = part d := by
      simp only [current, hlock, update_self]
    rw [hcur]
    exact hc.fits d
  · intro c' r' hh'
    rw [hc.same.holds] at hh'
    obtain ⟨rfl, rfl⟩ := h.booked.holder_unique hh hh'
    rw [update_self]
    exact hc.session
  · rw [hc.same.calls]
    rcases hc.log with hl | ⟨e, hl, -, -, ht⟩
    · rw [hl]
      exact h.ordered
    · rw [hl]
      exact .cons ht h.ordered

theorem Open.update (h : Open s r part) (hfunc : t.func = s.func) (harg : t.arg = s.arg)
    (hncpus : t.ncpus = s.ncpus)
    (h0 : t.room0 + (part d).entered.toNat = s.room0 + q.entered.toNat)
    (h1 : t.room1 + (part d).left.toNat = s.room1 + q.left.toNat)
    (hent : (part d).entered → q.entered)
    (hpast : q.past → ∀ e, r.cpus e → (part e).entered)
    (hload : ∀ f, q = .on (.loadArg f) → f = (r.no, r.fn))
    (hrun : ∀ i, q = .on (.running i) → i = r.no) :
    Open t r (Function.update part d q) where
  func := hfunc.trans h.func
  arg := harg.trans h.arg
  ncpus := hncpus.trans h.ncpus
  room0 := by
    have hsum := Lib.sum_update (fun p => (Part.entered p).toNat) part d q
    have := h.room0
    omega
  room1 := by
    have hsum := Lib.sum_update (fun p => (Part.left p).toNat) part d q
    have := h.room1
    omega
  past := by
    intro c hc e he
    have hold : (part e).entered := by
      by_cases hcd : c = d
      · rw [hcd, update_self] at hc
        exact hpast hc e he
      · rw [update_of_ne hcd] at hc
        exact h.past c hc e he
    by_cases hed : e = d
    · subst hed
      rw [update_self]
      exact hent hold
    · rw [update_of_ne hed]
      exact hold
  loaded := by
    intro c f hc
    by_cases hcd : c = d
    · rw [hcd, update_self] at hc
      exact hload f hc
    · rw [update_of_ne hcd] at hc
      exact h.loaded c f hc
  runs := by
    intro c i hc
    by_cases hcd : c = d
    · rw [hcd, update_self] at hc
      exact hrun i hc
    · rw [update_of_ne hcd] at hc
      exact h.runs c i hc

theorem Unsent.not_busy (h : Unsent part) (d : Fin n) : (part d).busy = false := by
  rcases h d with h | h <;> rw [h] <;> rfl

theorem Sending.advance (h : Sending part c ps) (hd : (part d).busy) (hp : q.active) :
    Sending (update part d q) c ps := by
  have hne {e : Fin n} (he : part e = .out ∨ part e = .due) : e ≠ d := by
    rintro rfl
    rcases he with he | he <;> rw [he] at hd <;> cases hd
  refine ⟨h.nodup, ?_, ?_, ?_⟩
  · rw [update_of_ne (hne h.caller)]
    exact h.caller
  · intro e he hec
    have hout := h.rest e he hec
    rw [update_of_ne (hne hout)]
    exact hout
  · intro e hec he
    by_cases hed : e = d
    · rw [hed, update_self] at he
      rw [he] at hp
      cases hp
    · rw [update_of_ne hed] at he
      exact h.due e hec he

theorem Session.open_ (h : Session s c part b) (hb : b.holds = some r) (hd : (part d).busy) :
    Open s r part := by
  have hno (hu : Unsent part) : False := by
    rw [hu.not_busy d] at hd
    cases hd
  cases b with
  | idle | software | trylock _ | poll _ => cases hb
  | setFunc => exact (hno h).elim
  | setArg _ | setNcpus _ | clearLeft _ | clearEntered _ => exact (hno h.1).elim
  | sendIpi _ _ | setSip _ _ _ | own _ | collect _ | unlock _ =>
    cases hb
    exact h.1

theorem Session.advance (h : Session s c part b) (hb : b.holds = some r) (hd : (part d).busy)
    (hp : q.active) (hopen : Open t r (update part d q)) :
    Session t c (update part d q) b := by
  have hno (hu : Unsent part) : False := by
    rw [hu.not_busy d] at hd
    cases hd
  have hkeep (p : Part φ) (hx : p.active = false) (e : Fin n) (he : part e ≠ p) :
      update part d q e ≠ p := by
    by_cases hed : e = d
    · rw [hed, update_self]
      rintro rfl
      rw [hx] at hp
      cases hp
    · rw [update_of_ne hed]
      exact he
  cases b with
  | idle | software | trylock _ | poll _ => trivial
  | setFunc => exact (hno h).elim
  | setArg _ | setNcpus _ | clearLeft _ | clearEntered _ => exact (hno h.1).elim
  | sendIpi _ _ | setSip _ _ _ | own _ =>
    cases hb
    exact ⟨hopen, h.2.advance hd hp⟩
  | collect =>
    cases hb
    exact ⟨hopen, hkeep .sent rfl c h.2.1, fun e => hkeep .due rfl e (h.2.2 e)⟩
  | unlock =>
    rcases h.2 d with he | he <;> rw [he] at hd <;> cases hd

section
variable (h : Inv s parts)
include h

theorem Inv.advance (hh : (s.cpu c).base.holds = some r) (hd : (parts r.no d).busy) (hp : q.active)
    (hsame : Same s t) (hcpu : t.cpu = update s.cpu d ⟨b, a⟩)
    (hb : b = (s.cpu d).base ∨ (s.cpu d).base.holds = none)
    (hpend : ∀ e, e ≠ d → t.pendingIpis e = s.pendingIpis e)
    (htryst : (t.pendingIpis d).tryst = false) (hsip : t.sip = s.sip) (hfit : Fits false a q)
    (hlog : t.log = s.log ∨ ∃ e, t.log = e :: s.log ∧ e.call = some r.no ∧ e.cpu = some d ∧
      Timely s.calls e s.log) (htold : Tells t.log r d q)
    (hopen : Open s r (parts r.no) → Open t r (update (parts r.no) d q)) :
    ∃ parts', Inv t parts' := by
  have hr := h.booked.holder_mem hh
  have hsess := h.session c r hh
  suffices hc : Carries s t c r (update (parts r.no) d q) from ⟨_, h.carry hh hc⟩
  refine ⟨hsame, ?_, ?_, ?_, ?_, ?_⟩
  · rcases hlog with hl | ⟨e, hl, hno, hec, ht⟩
    · exact .inl hl
    · refine .inr ⟨e, hl, hno, ?_, ht⟩
      rintro i rfl
      cases hec
  · intro e
    by_cases hed : e = d
    · rw [hed, update_self]
      exact htold
    · rw [update_of_ne hed]
      rcases hlog with hl | ⟨ev, hl, -, hec, -⟩
      · rw [hl]
        exact h.told r hr e
      · rw [hl]
        apply (h.told r hr e).other
        right
        rw [hec]
        exact fun hx => hed (Option.some.inj hx).symm
  · intro e
    rw [hcpu]
    by_cases hed : e = d
    · rw [hed, update_self, update_self, htryst]
      exact hfit
    · rw [update_of_ne hed, update_of_ne hed, hpend e hed]
      exact h.fits_holder hh e
  · have hbase : (t.cpu c).base = (s.cpu c).base := by
      rw [hcpu]
      by_cases hcd : c = d
      · subst hcd
        rw [update_self]
        rcases hb with hb | hb
        · exact hb
        · rw [hh] at hb
          cases hb
      · rw [update_of_ne hcd]
    rw [hbase]
    exact hsess.advance hh hd hp (hopen (hsess.open_ hh hd))
  · intro p ht
    have hpd : p ≠ d := by
      rintro rfl
      rw [htryst] at ht
      cases ht
    rw [hpend p hpd] at ht
    rw [hsip, hcpu, update_of_ne hpd]
    rcases h.raised p ht with hs | hs | ⟨c', r', ps, hs⟩
    · exact .inl hs
    · exact .inr (.inl hs)
    · refine .inr (.inr ⟨c', r', ps, ?_⟩)
      by_cases hcd : c' = d
      · subst hcd
        rw [update_self]
        rcases hb with hb | hb
        · rw [← hs]
          exact hb
        · rw [hs] at hb
          cases hb
      · rw [update_of_ne hcd]
        exact hs

theorem Inv.current_holder (hp : current s parts d = p) (hne : p ≠ .out) :
    ∃ c r, (s.cpu c).base.holds = some r ∧ parts r.no d = p := by
  cases hl : s.lock with
  | none =>
    rw [current, hl] at hp
    exact absurd hp.symm hne
  | some i =>
    obtain ⟨c, r, hh, rfl⟩ := h.booked.holder i hl
    rw [current, hl] at hp
    exact ⟨c, r, hh, hp⟩

theorem Inv.acting (hd : (s.cpu d).act = some st) :
    (s.pendingIpis d).tryst = false ∧
      ∃ c r, (s.cpu c).base.holds = some r ∧ parts r.no d = .on st := by
  have hfit := h.fits d
  rw [hd] at hfit
  have hcur : current s parts d = .on st := by
    cases hp : current s parts d with
    | out | due | done | sent =>
      rw [hp] at hfit
      cases hfit.act
    | on =>
      rw [hp] at hfit
      cases hfit.act
      rfl
  refine ⟨?_, h.current_holder hcur nofun⟩
  rw [hfit.tryst, hcur]
  rfl

theorem Inv.called (ht : (s.pendingIpis d).tryst = true) :
    ∃ c r, (s.cpu c).base.holds = some r ∧ parts r.no d = .sent := by
  have hfit := h.fits d
  rw [ht] at hfit
  have hcur : current s parts d = .sent := by
    cases hp : current s parts d with
    | out | due | done | on _ =>
      rw [hp] at hfit
      cases hfit.tryst
    | sent => rfl
  exact h.current_holder hcur nofun

end

theorem Open.full (h : Open s r part) (hm : ∀ c, Tells s.log r c (part c))
    (hroom : ¬s.room0 < s.ncpus) (d : Fin n) (hd : r.cpus d) : (part d).entered := by
  rw [h.ncpus, h.room0] at hroom
  apply Lib.all_of_sum_le _ (Nat.le_of_not_lt hroom) d hd
  intro c hc
  rw [← (hm c).member]
  cases hp : part c with
  | out =>
    rw [hp] at hc
    cases hc
  | _ => rfl

structure Moved (s t : State n φ α) (d : Fin n) (b : Base n φ α) (a : Option (Stage φ)) : Prop where
  pcpuAll : t.pcpuAll = s.pcpuAll
  calls : t.calls = s.calls
  lock : t.lock = s.lock
  func : t.func = s.func
  arg : t.arg = s.arg
  ncpus : t.ncpus = s.ncpus
  pendingIpis : t.pendingIpis = s.pendingIpis
  sip : t.sip = s.sip
  cpu : t.cpu = Function.update s.cpu d ⟨b, a⟩

section
variable (h : Inv s parts)
include h

theorem Inv.moved (hd : s.cpu d = ⟨b, some st⟩) (hm : Moved s t d b a) (hp : q.active)
    (hfit : Fits false a q) (h0 : t.room0 + (Part.on st).entered.toNat = s.room0 + q.entered.toNat)
    (h1 : t.room1 = s.room1 + q.left.toNat) (hent : (Part.on st).entered → q.entered)
    (hkeep : ∀ r ∈ s.calls, s.lock = some r.no → Open s r (parts r.no) →
      parts r.no d = .on st → Tells s.log r d (.on st) →
      (t.log = s.log ∨ ∃ e, t.log = e :: s.log ∧ e.call = some r.no ∧ e.cpu = some d ∧
        Timely s.calls e s.log) ∧
      Tells t.log r d q ∧
      (q.past → ∀ e, r.cpus e → (parts r.no e).entered) ∧
      (∀ f, q = .on (.loadArg f) → f = (r.no, r.fn)) ∧
      ∀ i, q = .on (.running i) → i = r.no) : ∃ parts', Inv t parts' := by
  obtain ⟨ht, c, r, hh, hpart⟩ := h.acting (congrArg Cpu.act hd)
  have hb : (s.cpu d).base = b := congrArg Cpu.base hd
  have hbusy : (parts r.no d).busy = true := by
    rw [hpart]
    rfl
  have hr := h.booked.holder_mem hh
  obtain ⟨hlog, htold, hpast, hload, hrun⟩ := hkeep r hr (h.booked.held c r hh)
    ((h.session c r hh).open_ hh hbusy) hpart (hpart ▸ h.told r hr d)
  refine h.advance hh hbusy hp (.setCpu hm.pcpuAll hm.calls hm.lock hm.cpu ?_ ?_) hm.cpu
    (.inl hb.symm) ?_ ?_ hm.sip hfit hlog htold ?_
  · rw [hb]
  · rw [hb]
  · intro e _
    rw [hm.pendingIpis]
  · rw [hm.pendingIpis]
    exact ht
  · intro ho
    refine ho.update hm.func hm.arg hm.ncpus ?_ ?_ ?_ hpast hload hrun
    · rw [hpart]
      exact h0
    · rw [hpart]
      exact h1
    · rw [hpart]
      exact hent

theorem Inv.enter (hd : s.cpu d = ⟨b, some .enter⟩) :
    ∃ parts', Inv ({ s with room0 := s.room0 + 1 }.setCpu d b (some .gather) |>.note
      (.entered d s.lock)) parts' := by
  refine h.moved (q := .on .gather) hd
    ⟨rfl, rfl, rfl, rfl, rfl, rfl, rfl, rfl, rfl⟩ rfl ⟨rfl, rfl⟩ rfl rfl
    (fun _ => rfl) ?_
  intro r _ hlock _ _ htold
  refine ⟨.inr ⟨.entered d s.lock, rfl, hlock, rfl, trivial⟩, ?_, ?_, ?_, ?_⟩
  · rw [hlock]
    exact htold.enter
  · rintro ⟨⟩
  · rintro f ⟨⟩
  · rintro i ⟨⟩

theorem Inv.gather (hd : s.cpu d = ⟨b, some .gather⟩) (hroom : ¬s.room0 < s.ncpus) :
    ∃ parts', Inv (s.setCpu d b (some .loadFunc)) parts' := by
  refine h.moved (q := .on .loadFunc) hd
    ⟨rfl, rfl, rfl, rfl, rfl, rfl, rfl, rfl, rfl⟩ rfl ⟨rfl, rfl⟩ rfl rfl
    (fun _ => rfl) ?_
  intro r hr _ ho hp htold
  refine ⟨.inl rfl, htold.silent rfl rfl rfl rfl, ?_, ?_, ?_⟩
  · exact fun _ => ho.full (h.told r hr) hroom
  · rintro f ⟨⟩
  · rintro i ⟨⟩

theorem Inv.loadFunc (hd : s.cpu d = ⟨b, some .loadFunc⟩) (hf : s.func = some f) :
    ∃ parts', Inv (s.setCpu d b (some (.loadArg f))) parts' := by
  refine h.moved (q := .on (.loadArg f)) hd
    ⟨rfl, rfl, rfl, rfl, rfl, rfl, rfl, rfl, rfl⟩ rfl ⟨rfl, rfl⟩ rfl rfl
    (fun _ => rfl) ?_
  intro r hr _ ho hp htold
  refine ⟨.inl rfl, htold.silent rfl rfl rfl rfl, ?_, ?_, ?_⟩
  · exact fun _ => ho.past d (by rw [hp]; rfl)
  · rintro f' ⟨⟩
    exact Option.some.inj (hf.symm.trans ho.func)
  · rintro i ⟨⟩

theorem Inv.loadArg (hd : s.cpu d = ⟨b, some (.loadArg f)⟩) :
    ∃ parts', Inv (s.setCpu d b (some (.running f.1)) |>.note
      (.started d f.1 f.2 s.arg)) parts' := by
  refine h.moved (q := .on (.running f.1)) hd
    ⟨rfl, rfl, rfl, rfl, rfl, rfl, rfl, rfl, rfl⟩ rfl ⟨rfl, rfl⟩ rfl rfl
    (fun _ => rfl) ?_
  intro r hr _ ho hp htold
  have hpast := ho.past d (by rw [hp]; rfl)
  have hf := ho.loaded d f hp
  subst hf
  refine ⟨.inr ⟨_, rfl, rfl, rfl, ?_⟩, ?_, ?_, ?_, ?_⟩
  · intro r' hr' hno e he
    cases h.booked.unique hr' hr hno
    exact (h.told r hr e).entered.2 (hpast e he)
  · rw [ho.arg]
    exact htold.start
  · exact fun _ => hpast
  · rintro f ⟨⟩
  · rintro i ⟨⟩
    rfl

theorem Inv.running (hd : s.cpu d = ⟨b, some (.running i)⟩) :
    ∃ parts', Inv (s.setCpu d b (some .leave) |>.note (.finished d i)) parts' := by
  refine h.moved (q := .on .leave) hd
    ⟨rfl, rfl, rfl, rfl, rfl, rfl, rfl, rfl, rfl⟩ rfl ⟨rfl, rfl⟩ rfl rfl
    (fun _ => rfl) ?_
  intro r hr _ ho hp htold
  have hi := ho.runs d i hp
  subst hi
  refine ⟨.inr ⟨_, rfl, rfl, rfl, trivial⟩, htold.finish, ?_, ?_, ?_⟩
  · exact fun _ => ho.past d (by rw [hp]; rfl)
  · rintro f ⟨⟩
  · rintro i ⟨⟩

theorem Inv.leave (hd : s.cpu d = ⟨b, some .leave⟩) :
    ∃ parts', Inv ({ s with room1 := s.room1 + 1 }.setCpu d b none) parts' := by
  refine h.moved (q := .done) hd
    ⟨rfl, rfl, rfl, rfl, rfl, rfl, rfl, rfl, rfl⟩ rfl ⟨rfl, rfl⟩ rfl rfl (fun _ => rfl) ?_
  intro r hr _ ho hp htold
  refine ⟨.inl rfl, htold.silent rfl rfl rfl rfl, ?_, ?_, ?_⟩
  · exact fun _ => ho.past d (by rw [hp]; rfl)
  · rintro f ⟨⟩
  · rintro i ⟨⟩

end

structure SameVars (s t : State n φ α) : Prop where
  func : t.func = s.func
  arg : t.arg = s.arg
  ncpus : t.ncpus = s.ncpus
  room0 : t.room0 = s.room0
  room1 : t.room1 = s.room1

theorem Open.vars (h : Open s r part) (hv : SameVars s t) : Open t r part :=
  ⟨hv.func.trans h.func, hv.arg.trans h.arg, hv.ncpus.trans h.ncpus, hv.room0.trans h.room0,
    hv.room1.trans h.room1, h.past, h.loaded, h.runs⟩

theorem Open.summon (h : Open s r part) (hv : SameVars s t) (hd : part d = .due ∨ part d = .sent)
    (hq : q = .sent ∨ q = .on .enter) : Open t r (Function.update part d q) := by
  have hold : (part d).entered = false ∧ (part d).left = false := by
    rcases hd with hd | hd <;> rw [hd] <;> exact ⟨rfl, rfl⟩
  have hnew : q.entered = false ∧ q.left = false ∧ q.past = false := by
    rcases hq with hq | hq <;> rw [hq] <;> exact ⟨rfl, rfl, rfl⟩
  apply h.update hv.func hv.arg hv.ncpus
  · rw [hold.1, hnew.1, hv.room0]
  · rw [hold.2, hnew.2.1, hv.room1]
  · rw [hold.1]
    rintro ⟨⟩
  · rw [hnew.2.2]
    rintro ⟨⟩
  · rintro f rfl
    rcases hq with hq | hq <;> cases hq
  · rintro i rfl
    rcases hq with hq | hq <;> cases hq

theorem Session.vars (h : Session s c part b) (hv : SameVars s t) : Session t c part b := by
  cases b with
  | idle | software | trylock _ | poll _ => trivial
  | setFunc => exact h
  | setArg => exact ⟨h.1, hv.func.trans h.2⟩
  | setNcpus => exact ⟨h.1, hv.func.trans h.2.1, hv.arg.trans h.2.2⟩
  | clearLeft =>
    exact ⟨h.1, hv.func.trans h.2.1, hv.arg.trans h.2.2.1, hv.ncpus.trans h.2.2.2⟩
  | clearEntered =>
    exact ⟨h.1, hv.func.trans h.2.1, hv.arg.trans h.2.2.1, hv.ncpus.trans h.2.2.2.1,
      hv.room1.trans h.2.2.2.2⟩
  | sendIpi _ _ | setSip _ _ _ | own _ | collect _ | unlock _ => exact ⟨h.1.vars hv, h.2⟩

theorem Same.current (h : Same s t) (parts : Nat → Fin n → Part φ) (d : Fin n) :
    Smp.current t parts d = Smp.current s parts d := by
  rw [Smp.current, Smp.current, h.lock]

theorem Inv.outside (h : Inv s parts) (hsame : Same s t) (hv : SameVars s t)
    (hlog : t.log = s.log)
    (hfits : ∀ d, Fits (t.pendingIpis d).tryst (t.cpu d).act (current s parts d))
    (hbase : ∀ d r, (s.cpu d).base.holds = some r → (t.cpu d).base = (s.cpu d).base)
    (hraised : ∀ p, (t.pendingIpis p).tryst → t.sip p = true ∨ (t.cpu p).base = .software ∨
      ∃ c r ps, (t.cpu c).base = .setSip r p ps) : Inv t parts := by
  refine ⟨?_, ?_, ?_, ?_, ?_, ?_, hraised, ?_⟩
  · apply h.booked.same hsame
    · rw [hlog]
      exact fun _ => Iff.rfl
    · rw [hlog]
      exact h.booked.known
  · rw [hlog, hsame.calls]
    exact h.told
  · rw [hlog, hsame.calls, hsame.lock]
    exact h.waiting
  · rw [hlog, hsame.calls]
    exact h.ended
  · intro d
    rw [hsame.current]
    exact hfits d
  · intro d r hh
    rw [hsame.holds] at hh
    rw [hbase d r hh]
    exact (h.session d r hh).vars hv
  · rw [hlog, hsame.calls]
    exact h.ordered

theorem Inv.handle (h : Inv s parts) (ha : (s.cpu d).act = none)
    (hcall : b.call = (s.cpu d).base.call) (hholds : b.holds = (s.cpu d).base.holds)
    (hb : b = (s.cpu d).base ∨ (s.cpu d).base.holds = none) :
    ∃ parts', Inv (ipiHandler s d b) parts' := by
  unfold ipiHandler
  split
  · rename_i ht
    obtain ⟨c, r, hh, hp⟩ := h.called ht
    have htold := h.told r (h.booked.holder_mem hh) d
    rw [hp] at htold
    refine h.advance (q := .on .enter) (b := b) (a := some .enter) hh (by rw [hp]; rfl) rfl
      (.setCpu rfl rfl rfl rfl hcall hholds) rfl hb ?_ ?_ rfl ⟨rfl, rfl⟩ (.inl rfl)
      (htold.silent rfl rfl rfl rfl) ?_
    · intro e he
      exact update_of_ne he _ _
    · show (update s.pendingIpis d ⟨false, false⟩ d).tryst = false
      rw [update_self]
    · intro ho
      exact ho.summon ⟨rfl, rfl, rfl, rfl, rfl⟩ (.inr hp) (.inr rfl)
  · rename_i ht
    have ht : (s.pendingIpis d).tryst = false := Bool.eq_false_iff.2 ht
    refine ⟨parts, h.outside (.setCpu rfl rfl rfl rfl hcall hholds) ⟨rfl, rfl, rfl, rfl, rfl⟩ rfl
      ?_ ?_ ?_⟩
    · intro e
      show Fits (update s.pendingIpis d ⟨false, false⟩ e).tryst
        (update s.cpu d ⟨b, none⟩ e).act _
      have hfit := h.fits e
      by_cases hed : e = d
      · subst hed
        rw [update_self, update_self]
        rw [ht, ha] at hfit
        exact hfit
      · rw [update_of_ne hed, update_of_ne hed]
        exact hfit
    · intro e r hh
      show (update s.cpu d ⟨b, none⟩ e).base = _
      by_cases hed : e = d
      · subst hed
        rw [update_self]
        rcases hb with hb | hb
        · exact hb
        · rw [hb] at hh
          cases hh
      · rw [update_of_ne hed]
    · intro p hp
      have hp : (update s.pendingIpis d ⟨false, false⟩ p).tryst = true := hp
      show s.sip p = true ∨ (update s.cpu d ⟨b, none⟩ p).base = .software ∨
        ∃ c r ps, (update s.cpu d ⟨b, none⟩ c).base = .setSip r p ps
      by_cases hpd : p = d
      · rw [hpd, update_self] at hp
        cases hp
      · rw [update_of_ne hpd] at hp ⊢
        rcases h.raised p hp with hs | hs | ⟨c, r, ps, hs⟩
        · exact .inl hs
        · exact .inr (.inl hs)
        · refine .inr (.inr ⟨c, r, ps, ?_⟩)
          by_cases hcd : c = d
          · subst hcd
            rw [update_self]
            rcases hb with hb | hb
            · exact hb.trans hs
            · rw [hs] at hb
              cases hb
          · rw [update_of_ne hcd]
            exact hs

end Mdepx.Smp
