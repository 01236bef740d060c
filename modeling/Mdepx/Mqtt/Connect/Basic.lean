import Mdepx.Mqtt.Acks

namespace Mdepx.Mqtt.Connect
open Lib Function List
open Acks (MQTT_ERR_OK MQTT_ERR_TIMEOUT)

/-! The calls of `mqtt_connect` by the threads of a client. -/

structure Call where
  number : Nat
  retval : Int
  deriving DecidableEq

/-- Where a thread is in its call: outside, in `mqtt_send`, before `mqtt_poll` and in
`mdx_sem_timedwait` in the loop, behind the loop, behind `list_remove` with its request as it was
then, before and behind `list_remove` after a failed send, and at its return. -/
inductive Stage where
  | out
  | sending (k : Call)
  | polling (k : Call) (timeout : Nat)
  | waiting (k : Call) (timeout : Nat)
  | leaving (k : Call)
  | removed (k : Call) (m : MqttRequest)
  | failing (k : Call)
  | failed (k : Call)
  | returning (k : Call) (ret : Int)
  deriving DecidableEq

/-- What an observer sees: a CONNACK is processed, with the calls whose requests are on `msg_list`
and the one whose request `handle_connack` finds; a call's packet could not be sent; a call has
raised the CONNECTED event, with the client's flag behind it; a call returns. -/
inductive Entry where
  | connack (code : Nat) (listed : List Call) (taken : Option Call)
  | sendFailed (k : Call)
  | connected (k : Call) (flag : Bool)
  | returned (k : Call) (ret : Int)
  deriving DecidableEq

/-- With `msg_list` as the requests and the calls of `mqtt_connect` that they belong to, if to any,
the number of calls so far and the log, the newest entry first. -/
structure State (τ : Type) where
  client : MqttClient
  msgList : List (Option Call × MqttRequest)
  stage : τ → Stage
  calls : Nat
  log : List Entry

inductive Op (τ : Type) where
  | call (td : τ) (r : MqttRequest) (retval : Int)
  | sent (td : τ) (err : Bool)
  | poll (td : τ) (stack : Nat → UInt8) (input : List Reply)
  | acquired (td : τ)
  | timedOut (td : τ)
  | remove (td : τ)
  | settle (td : τ)
  | ret (td : τ)
  | other (msgList : List (Option Call × MqttRequest))

def State.listed (s : State τ) : List Call := s.msgList.filterMap Prod.fst

def State.taken (s : State τ) : Option Call :=
  (s.msgList.find? fun e => e.2.state = .connect).bind Prod.fst

def own (q : List (Option Call × MqttRequest)) : List (Option Call × MqttRequest) :=
  q.filter fun e => e.1.isSome

def State.event (s : State τ) (ev : ConnectionEvent) : State τ :=
  { s with client := (mqttEvent (Poll.start s.client (fun _ => 0) []) ev).client }

/-- The codes of `enum connect_return_errno`. -/
def ERR_ACCEPTED : Nat := 0

def ERR_REFUSED_AUTHORIZATION : Nat := 5

/-- What the switch on `req.status` leaves in `retval`. Its default case does not assign to it. -/
def retvalOf (k : Call) (status : Nat) : Int :=
  if status = ERR_ACCEPTED then MQTT_ERR_OK
  else if status ≤ ERR_REFUSED_AUTHORIZATION then MQTT_ERR_UNKNOWN
  else k.retval

def State.poll (s : State τ) (stack : Nat → UInt8) (input : List Reply) : State τ :=
  let c := { s.client with msgList := s.msgList.map Prod.snd }
  let p := (mqttPoll (Poll.start c stack input)).2
  { s with
    client := p.client
    msgList := (s.msgList.map Prod.fst).zip p.client.msgList
    log :=
      match received input with
      | some (.connack code) => .connack code s.listed s.taken :: s.log
      | _ => s.log }

def State.take (s : State τ) (k : Call) : State τ :=
  { s with
    msgList := s.msgList.map fun e =>
      if e.1 = some k then (e.1, { e.2 with complete := e.2.complete - 1 }) else e }

def State.unlist (s : State τ) (k : Call) : State τ :=
  { s with msgList := s.msgList.filter fun e => e.1 ≠ some k }

section
variable [DecidableEq τ]

def State.note (s : State τ) (e : Entry) : State τ := { s with log := e :: s.log }

def State.enter (s : State τ) (td : τ) (k : Call) (r : MqttRequest) : State τ :=
  { s with
      calls := s.calls + 1, msgList := s.msgList ++ [(some k, r)]
      stage := update s.stage td (.sending k) }

def State.settle (s : State τ) (td : τ) (k : Call) (m : MqttRequest) : State τ :=
  if m.state = .connack then
    if m.status = ERR_ACCEPTED then
      { (s.event .connected).note (.connected k (s.event .connected).client.connected) with
          stage := update s.stage td (.returning k (retvalOf k m.status)) }
    else { s with stage := update s.stage td (.returning k (retvalOf k m.status)) }
  else { s with stage := update s.stage td (.returning k MQTT_ERR_TIMEOUT) }

/-- One step of a thread, or a change by other functions of their own requests. The fields of a
request that `mqtt_connect` does not set are those of `r`. -/
def exec (s : State τ) : Op τ → Option (State τ)
  | .call td r retval =>
    if s.stage td = .out then
      some (s.enter td ⟨s.calls, retval⟩ { r with state := .connect, complete := 0 })
    else none
  | .sent td err =>
    match s.stage td with
    | .sending k =>
      if err then some { s.note (.sendFailed k) with stage := update s.stage td (.failing k) }
      else some { s with stage := update s.stage td (.polling k 10) }
    | _ => none
  | .poll td stack input =>
    match s.stage td with
    | .out => some (s.poll stack input)
    | .polling k n => some { s.poll stack input with stage := update s.stage td (.waiting k n) }
    | _ => none
  | .acquired td =>
    match s.stage td with
    | .waiting k _ =>
      if ∃ e ∈ s.msgList, e.1 = some k ∧ 0 < e.2.complete then
        some { s.take k with stage := update s.stage td (.leaving k) }
      else none
    | _ => none
  | .timedOut td =>
    match s.stage td with
    | .waiting k 0 => some { s with stage := update s.stage td (.leaving k) }
    | .waiting k (n + 1) => some { s with stage := update s.stage td (.polling k n) }
    | _ => none
  | .remove td =>
    match s.stage td with
    | .leaving k =>
      (s.msgList.find? fun e => e.1 = some k).map fun e =>
        { s.unlist k with stage := update s.stage td (.removed k e.2) }
    | .failing k => some { s.unlist k with stage := update s.stage td (.failed k) }
    | _ => none
  | .settle td =>
    match s.stage td with
    | .removed k m => some (s.settle td k m)
    | .failed k => some { s.event .disconnected with
        stage := update s.stage td (.returning k MQTT_ERR_CONN) }
    | _ => none
  | .ret td =>
    match s.stage td with
    | .returning k ret => some { s.note (.returned k ret) with stage := update s.stage td .out }
    | _ => none
  | .other q =>
    if own q = own s.msgList ∧ ∀ e ∈ q, e.1 = none → e.2.state ≠ .connect then
      some { s with msgList := q }
    else none

end

def start (c : MqttClient) : State τ := ⟨c, [], fun _ => .out, 0, []⟩

def Entry.concerns : Entry → Call → Prop
  | .connack _ _ taken, k => taken = some k
  | .sendFailed k', k => k' = k
  | .connected k' _, k => k' = k
  | .returned _ _, _ => False

def Taken (log : List Entry) (k : Call) (code : Nat) : Prop :=
  ∃ listed, Entry.connack code listed (some k) ∈ log

def Justified (log : List Entry) (k : Call) (m : MqttRequest) : Prop :=
  (m.state = .connect ∧ ∀ code, ¬Taken log k code) ∨ (m.state = .connack ∧ Taken log k m.status)

/-- What a call returns, by what has happened during it. -/
inductive Outcome (log : List Entry) (k : Call) : Int → Prop where
  | notSent : .sendFailed k ∈ log → Outcome log k MQTT_ERR_CONN
  | timeout : .sendFailed k ∉ log → (∀ code, ¬Taken log k code) → Outcome log k MQTT_ERR_TIMEOUT
  | answered : .sendFailed k ∉ log → Taken log k code →
      (code = ERR_ACCEPTED → .connected k true ∈ log) → Outcome log k (retvalOf k code)

/-- A CONNACK goes to a call on the list that has got none yet, if there is one; the CONNECTED event
is raised for an answer with code 0; a call returns what its answer says. -/
def Honest : Entry → List Entry → Prop
  | .connack _ listed taken, log =>
    match taken with
    | some k => k ∈ listed ∧ ∀ code, ¬Taken log k code
    | none => ∀ k ∈ listed, ∃ code, Taken log k code
  | .connected k _, log => Taken log k ERR_ACCEPTED
  | .returned k ret, log => Outcome log k ret
  | .sendFailed _, _ => True

theorem taken_cons (he : ∀ code listed, e ≠ .connack code listed (some k)) :
    Taken (e :: log) k code ↔ Taken log k code := by
  constructor
  · rintro ⟨listed, h⟩
    rcases mem_cons.1 h with h | h
    · exact absurd h.symm (he code listed)
    · exact ⟨listed, h⟩
  · rintro ⟨listed, h⟩
    exact ⟨listed, mem_cons_of_mem _ h⟩

theorem Justified.cons (h : Justified log k m)
    (he : ∀ code listed, e ≠ .connack code listed (some k)) : Justified (e :: log) k m := by
  rcases h with ⟨hm, hn⟩ | ⟨hm, ht⟩
  · exact .inl ⟨hm, fun code hc => hn code ((taken_cons he).1 hc)⟩
  · exact .inr ⟨hm, (taken_cons he).2 ht⟩

theorem sendFailed_cons {log : List Entry} (he : e ≠ .sendFailed k) (h : .sendFailed k ∉ log) :
    .sendFailed k ∉ e :: log := by
  intro hm
  rcases mem_cons.1 hm with hm | hm
  · exact he hm.symm
  · exact h hm

theorem ne_of_not_concerns (he : ¬Entry.concerns e k) :
    e ≠ .sendFailed k ∧ ∀ code listed, e ≠ .connack code listed (some k) := by
  constructor
  · rintro rfl
    exact he rfl
  · rintro code listed rfl
    exact he rfl

theorem Outcome.cons (h : Outcome log k ret) (he : ¬Entry.concerns e k) :
    Outcome (e :: log) k ret := by
  obtain ⟨hs', ha⟩ := ne_of_not_concerns he
  cases h with
  | notSent hs => exact .notSent (mem_cons_of_mem _ hs)
  | timeout hs hn =>
    exact .timeout (sendFailed_cons hs' hs) fun code hc => hn code ((taken_cons ha).1 hc)
  | answered hs ht hc =>
    exact .answered (sendFailed_cons hs' hs) ((taken_cons ha).2 ht)
      fun h0 => mem_cons_of_mem _ (hc h0)

def Stage.call : Stage → Option Call
  | .out => none
  | .sending k | .polling k _ | .waiting k _ | .leaving k | .removed k _ | .failing k | .failed k
  | .returning k _ => some k

def Stage.off : Stage → Option Call
  | .removed k _ | .failed k | .returning k _ => some k
  | _ => none

theorem Stage.call_of_off {st : Stage} (h : st.off = some k) : st.call = some k := by
  cases st with
  | removed | failed | returning => exact h
  | _ => cases h

def Fits (log : List Entry) : Stage → Prop
  | .out => True
  | .sending k | .polling k _ | .waiting k _ | .leaving k => .sendFailed k ∉ log
  | .failing k | .failed k => .sendFailed k ∈ log
  | .removed k m => .sendFailed k ∉ log ∧ Justified log k m
  | .returning k ret => Outcome log k ret

theorem Fits.cons {st : Stage} (h : Fits log st)
    (hs : ∀ k, st.call = some k → e ≠ .sendFailed k)
    (hoff : ∀ k, st.off = some k → ¬Entry.concerns e k) : Fits (e :: log) st := by
  have hnot {k : Call} (hk : st.call = some k) (hn : .sendFailed k ∉ log) :
      .sendFailed k ∉ e :: log := sendFailed_cons (hs k hk) hn
  cases st with
  | out => trivial
  | sending | polling | waiting | leaving => exact hnot rfl h
  | failing | failed => exact mem_cons_of_mem _ h
  | removed k => exact ⟨hnot rfl h.1, h.2.cons (ne_of_not_concerns (hoff k rfl)).2⟩
  | returning k => exact Outcome.cons h (hoff k rfl)

end Mdepx.Mqtt.Connect
