import Mdepx.Lib.History
import Mdepx.Lib.Run
import Mdepx.Lib.Threads
import Mdepx.Mqtt.Encode
import Mdepx.Mqtt.Received

namespace Mdepx.Mqtt.Acks
open Lib Function List

/-! The requests of all threads of a client. `msg_mtx` makes each access to `msg_list` one step. -/

def MQTT_ERR_OK : Int := 0

def MQTT_ERR_TIMEOUT : Int := -2

inductive Kind where
  | publish (qos : Int)
  | subscribe
  | ping
  deriving DecidableEq

structure Call where
  number : Nat
  kind : Kind
  packetId : Nat
  deriving DecidableEq

/-- Where a thread is in its call: outside, in `mqtt_send`, before `mqtt_poll` and in
`mdx_sem_timedwait` in the loop, behind the loop, behind `list_remove` with its request as it was
then, and before and behind `list_remove` after a failed send. -/
inductive Stage where
  | out
  | sending (k : Call)
  | polling (k : Call) (timeout : Nat)
  | waiting (k : Call) (timeout : Nat)
  | leaving (k : Call)
  | removed (k : Call) (m : MqttRequest)
  | failing (k : Call)
  | failed (k : Call)
  deriving DecidableEq

/-- A packet was processed, or a call has returned; with the calls whose requests were on
`msg_list` then. -/
inductive Entry where
  | processed (packet : Packet) (listed : List Call)
  | returned (k : Call) (ret : Int) (listed : List Call)
  deriving DecidableEq

/-- With `msg_list` as the requests and their calls, the number of calls so far and the log, the
newest entry first. -/
structure State (τ : Type) where
  client : MqttClient
  msgList : List (Call × MqttRequest)
  stage : τ → Stage
  calls : Nat
  log : List Entry

inductive Op (τ : Type) where
  | publish (td : τ) (w : Nat) (stack : Nat → UInt8) (nextId : UInt16) (m : PublishRequest)
      (r : MqttRequest)
  | subscribe (td : τ) (w : Nat) (stack : Nat → UInt8) (nextId : UInt16) (s : SubscribeRequest)
      (r : MqttRequest)
  | ping (td : τ) (r : MqttRequest)
  | sent (td : τ) (err : Bool)
  | poll (td : τ) (stack : Nat → UInt8) (input : List Reply)
  | acquired (td : τ)
  | timedOut (td : τ)
  | remove (td : τ)
  | ret (td : τ)

def result : Kind → MqttRequest → Int
  | .publish _, m =>
    if m.state = .puback ∧ m.qos = 1 then 0
    else if m.state = .pubcomp ∧ m.qos = 2 then 0
    else -1
  | .subscribe, m =>
    if m.state = .suback then
      if m.error = 0 ∨ m.error = 1 ∨ m.error = 2 then MQTT_ERR_OK else MQTT_ERR_UNKNOWN
    else MQTT_ERR_TIMEOUT
  | .ping, m => if m.state = .pingresp then MQTT_ERR_OK else MQTT_ERR_TIMEOUT

def State.listed (s : State τ) : List Call := s.msgList.map Prod.fst

section
variable [DecidableEq τ]

def State.give (s : State τ) (td : τ) (k : Call) (ret : Int) : State τ :=
  { s with log := .returned k ret s.listed :: s.log, stage := update s.stage td .out }

def State.enter (s : State τ) (td : τ) (k : Call) (m : Option MqttRequest) : State τ :=
  { s with
    calls := s.calls + 1
    msgList := s.msgList ++ (m.map fun m => (k, m)).toList
    stage := update s.stage td (.sending k) }

def State.submit (s : State τ) (td : τ) (kind : Kind) (o : Except Int Outgoing)
    (request : Nat → MqttRequest) : State τ :=
  match o with
  | .error e => { s with calls := s.calls + 1 }.give td ⟨s.calls, kind, 0⟩ e
  | .ok o =>
    match o.packetId with
    | none => s.enter td ⟨s.calls, kind, 0⟩ none
    | some id => s.enter td ⟨s.calls, kind, id.toNat⟩ (some (request id.toNat))

def State.poll (s : State τ) (stack : Nat → UInt8) (input : List Reply) : State τ :=
  let c := { s.client with msgList := s.msgList.map Prod.snd }
  let p := (mqttPoll (Poll.start c stack input)).2
  { s with
    client := p.client
    msgList := s.listed.zip p.client.msgList
    log := ((received input).map fun k => .processed k s.listed).toList ++ s.log }

def State.take (s : State τ) (k : Call) : State τ :=
  { s with
    msgList := s.msgList.map fun e =>
      if e.1 = k then (k, { e.2 with complete := e.2.complete - 1 }) else e }

def State.unlist (s : State τ) (k : Call) : State τ :=
  { s with msgList := s.msgList.filter fun e => e.1 ≠ k }

/-- One step of a thread. The fields of a request that its function does not set are those of
`r`. -/
def exec (s : State τ) : Op τ → Option (State τ)
  | .publish td w stack nextId m r =>
    if s.stage td = .out then
      some (s.submit td (.publish m.qos) (mqttPublish w stack nextId m) fun id =>
        { r with packetId := id, state := .publish, qos := m.qos.toNat, complete := 0 })
    else none
  | .subscribe td w stack nextId q r =>
    if s.stage td = .out then
      some (s.submit td .subscribe (mqttSubscribe w stack nextId q) fun id =>
        { r with packetId := id, state := .subscribe, qos := q.qos.toNat, complete := 0 })
    else none
  | .ping td r =>
    if s.stage td = .out then
      some (s.enter td ⟨s.calls, .ping, r.packetId⟩
        (some { r with state := .pingreq, complete := 0 }))
    else none
  | .sent td err =>
    match s.stage td with
    | .sending k =>
      if k.kind = .publish 0 then some (s.give td k (if err then MQTT_ERR_CONN else 0))
      else some { s with stage := update s.stage td (if err then .failing k else .polling k 10) }
    | _ => none
  | .poll td stack input =>
    match s.stage td with
    | .out => some (s.poll stack input)
    | .polling k n => some { s.poll stack input with stage := update s.stage td (.waiting k n) }
    | _ => none
  | .acquired td =>
    match s.stage td with
    | .waiting k _ =>
      if ∃ e ∈ s.msgList, e.1 = k ∧ 0 < e.2.complete then
        some { s.take k with stage := update s.stage td (.leaving k) }
      else none
    | _ => none
  | .timedOut td =>
    match s.stage td with
    | .waiting k 0 => some { s with stage := update s.stage td (.leaving k) }
    | .waiting k (n + 1) => some { s with stage := update s.stage td (.polling k n) }
    | _ => none
  | .remove td =>
    match s.stage td with
    | .leaving k =>
      (s.msgList.find? fun e => e.1 = k).map fun e => { s.unlist k with
          stage := update s.stage td (.removed k e.2) }
    | .failing k => some { s.unlist k with stage := update s.stage td (.failed k) }
    | _ => none
  | .ret td =>
    match s.stage td with
    | .removed k m => some (s.give td k (result k.kind m))
    | .failed k => some (s.give td k MQTT_ERR_CONN)
    | _ => none

end

def start (c : MqttClient) : State τ := ⟨c, [], fun _ => .out, 0, []⟩

def Seen (log : List Entry) (k : Call) (packet : Packet) : Prop :=
  ∃ listed, Entry.processed packet listed ∈ log ∧ k ∈ listed

def SeenBefore (log : List Entry) (k : Call) (packet later : Packet) : Prop :=
  ∃ new old listed, log = new ++ Entry.processed later listed :: old ∧ k ∈ listed ∧
    Seen old k packet

def Acknowledged (log : List Entry) (k : Call) : Prop :=
  match k.kind with
  | .publish qos =>
    (qos = 1 → Seen log k (.puback k.packetId)) ∧
    (qos = 2 → SeenBefore log k (.pubrec k.packetId) (.pubcomp k.packetId))
  | .subscribe => ∃ code, code ≤ 2 ∧ Seen log k (.suback k.packetId code)
  | .ping => Seen log k .pingresp

/-- A call returns with its request off the list, and returns 0 only if it is acknowledged. -/
def Attributed : Entry → List Entry → Prop
  | .returned k ret listed, log => k ∉ listed ∧ (ret = 0 → Acknowledged log k)
  | .processed _ _, _ => True

variable {packet later : Packet}

theorem Seen.append (h : Seen log k packet) (new : List Entry) : Seen (new ++ log) k packet := by
  obtain ⟨listed, hmem, hk⟩ := h
  exact ⟨listed, mem_append_right _ hmem, hk⟩

theorem SeenBefore.append (h : SeenBefore log k packet later) (new : List Entry) :
    SeenBefore (new ++ log) k packet later := by
  obtain ⟨new', old, listed, rfl, hk, hs⟩ := h
  exact ⟨new ++ new', old, listed, (append_assoc ..).symm, hk, hs⟩

theorem seen_processed (h : k ∈ listed) (packet : Packet) (log : List Entry) :
    Seen (.processed packet listed :: log) k packet := ⟨listed, mem_cons_self, h⟩

def Told (log : List Entry) (k : Call) (m : MqttRequest) : Prop :=
  match m.state with
  | .puback => Seen log k (.puback k.packetId)
  | .pubrec => Seen log k (.pubrec k.packetId)
  | .pubcomp => SeenBefore log k (.pubrec k.packetId) (.pubcomp k.packetId)
  | .suback => Seen log k (.suback k.packetId m.error)
  | .pingresp => Seen log k .pingresp
  | _ => True

structure Justified (log : List Entry) (k : Call) (m : MqttRequest) : Prop where
  packetId : m.packetId = k.packetId
  qos : ∀ q, k.kind = .publish q → (m.qos : Int) = q
  told : Told log k m

theorem Told.append (h : Told log k m) (new : List Entry) : Told (new ++ log) k m := by
  unfold Told at h ⊢
  cases hm : m.state with
  | puback | pubrec | pubcomp | suback | pingresp =>
    rw [hm] at h
    exact h.append new
  | _ => trivial

section
variable (h : Justified log k m)
include h

theorem Justified.append (new : List Entry) :
    Justified (new ++ log) k m := ⟨h.packetId, h.qos, h.told.append new⟩

theorem Justified.seen (hk : k ∈ listed) (packet : Nat → Packet) :
    Seen (.processed (packet m.packetId) listed :: log) k (packet k.packetId) := by
  rw [← h.packetId]
  exact seen_processed hk _ _

theorem Justified.answer (hf : packet.found m = true) (hk : k ∈ listed) :
    Justified (.processed packet listed :: log) k (packet.answer m) := by
  have htold := h.told
  cases packet with
  | connack => exact ⟨h.packetId, h.qos, trivial⟩
  | pingresp => exact ⟨h.packetId, h.qos, seen_processed hk _ _⟩
  | suback packetId code =>
    obtain ⟨rfl, -⟩ := of_decide_eq_true hf
    exact ⟨h.packetId, h.qos, h.seen hk (fun i => .suback i code)⟩
  | puback =>
    obtain ⟨rfl, -⟩ := of_decide_eq_true hf
    exact ⟨h.packetId, h.qos, h.seen hk .puback⟩
  | pubrec =>
    obtain ⟨rfl, -⟩ := of_decide_eq_true hf
    exact ⟨h.packetId, h.qos, h.seen hk .pubrec⟩
  | pubcomp =>
    obtain ⟨rfl, hstate, -⟩ := of_decide_eq_true hf
    refine ⟨h.packetId, h.qos, [], log, listed, ?_, hk, ?_⟩
    · rw [h.packetId, nil_append]
    · rw [Told, hstate] at htold
      exact htold

theorem Justified.result (hr : result k.kind m = 0) : Acknowledged log k := by
  have htold := h.told
  unfold Acknowledged
  cases hk : k.kind with
  | publish q =>
    have hq := h.qos q hk
    rw [hk, Acks.result] at hr
    dsimp only
    split at hr
    · rename_i hm
      rw [Told, hm.1] at htold
      exact ⟨fun _ => htold, fun h2 => by omega⟩
    · split at hr
      · rename_i hm
        rw [Told, hm.1] at htold
        exact ⟨fun h1 => by omega, fun _ => htold⟩
      · cases hr
  | subscribe =>
    rw [hk, Acks.result] at hr
    split at hr
    · rename_i hm
      rw [Told, hm] at htold
      split at hr
      · rename_i he
        exact ⟨m.error, by omega, htold⟩
      · cases hr
    · cases hr
  | ping =>
    rw [hk, Acks.result] at hr
    split at hr
    · rename_i hm
      rw [Told, hm] at htold
      exact htold
    · cases hr

end

def Stage.call : Stage → Option Call
  | .out => none
  | .sending k | .polling k _ | .waiting k _ | .leaving k | .removed k _ | .failing k | .failed k =>
    some k

def Stage.off : Stage → Option Call
  | .sending k => if k.kind = .publish 0 then some k else none
  | .removed k _ | .failed k => some k
  | _ => none

theorem Stage.off_call {st : Stage} (h : st.off = some k) : st.call = some k := by
  cases st with
  | sending =>
    rw [Stage.off] at h
    split at h
    · exact h
    · cases h
  | removed | failed => exact h
  | out | polling | waiting | leaving | failing => cases h

structure Inv (s : State τ) : Prop where
  log : Grown Attributed s.log
  just : ∀ e ∈ s.msgList, Justified s.log e.1 e.2
  known : ∀ k ∈ s.listed, k.number < s.calls
  number : ∀ td k, (s.stage td).call = some k → k.number < s.calls
  removed : ∀ td k m, s.stage td = .removed k m → Justified s.log k m
  off : ∀ td k, (s.stage td).off = some k → k ∉ s.listed

section
variable [DecidableEq τ] {s s' : State τ} {td : τ}

omit [DecidableEq τ] in
theorem Inv.of_step (h : Inv s) (s' : State τ) (td : τ)
    (hothers : ∀ u, u ≠ td → s'.stage u = s.stage u) (hself : s'.stage td = st)
    (new : List Entry) (hnew : s'.log = new ++ s.log) (hlog : Grown Attributed s'.log)
    (hjust : ∀ e ∈ s'.msgList, Justified s'.log e.1 e.2) (hcalls : s.calls ≤ s'.calls)
    (hlisted : ∀ k ∈ s'.listed, k ∈ s.listed ∨ s.calls ≤ k.number ∧ k.number < s'.calls)
    (hnumber : ∀ k, st.call = some k → k.number < s'.calls)
    (hremoved : ∀ k m, st = .removed k m → Justified s'.log k m)
    (hoff : ∀ k, st.off = some k → k ∉ s'.listed) : Inv s' := by
  refine ⟨hlog, hjust, ?_, ?_, ?_, ?_⟩
  · intro k hk
    rcases hlisted k hk with hk | hk
    · have hlt := h.known k hk
      omega
    · exact hk.2
  · intro u k hu
    by_cases hut : u = td
    · subst hut
      rw [hself] at hu
      exact hnumber k hu
    · rw [hothers u hut] at hu
      have hlt := h.number u k hu
      omega
  · intro u k m hu
    by_cases hut : u = td
    · subst hut
      exact hremoved k m (hself.symm.trans hu)
    · rw [hothers u hut] at hu
      rw [hnew]
      exact (h.removed u k m hu).append new
  · intro u k hu
    by_cases hut : u = td
    · subst hut
      rw [hself] at hu
      exact hoff k hu
    · rw [hothers u hut] at hu
      have hlt := h.number u k (Stage.off_call hu)
      intro hk
      rcases hlisted k hk with hk | hk
      · exact h.off u k hu hk
      · omega

theorem Inv.move (h : Inv s) (hcall : st.call = (s.stage td).call) (hst : st.off = none) :
    Inv { s with stage := update s.stage td st } := by
  apply h.of_step { s with stage := update s.stage td st } td
    (fun u hu => update_of_ne hu _ _) (update_self ..) [] rfl h.log h.just le_rfl
    (fun k hk => .inl hk)
  · intro k hk
    exact h.number td k (hcall.symm.trans hk)
  · rintro k m rfl
    cases hst
  · intro k hk
    rw [hst] at hk
    cases hk

theorem Inv.give (h : Inv s) (hk : k ∉ s.listed) (hr : ret = 0 → Acknowledged s.log k) :
    Inv (s.give td k ret) := by
  apply h.of_step (s.give td k ret) td
    (fun u hu => update_of_ne hu _ _) (update_self ..) [.returned k ret s.listed] rfl
  · exact .cons ⟨hk, hr⟩ h.log
  · intro e he
    exact (h.just e he).append [_]
  · exact le_rfl
  · exact fun k hk => .inl hk
  · exact nofun
  · exact nofun
  · exact nofun

theorem Inv.enter (h : Inv s) (m : Option MqttRequest) (hn : k.number = s.calls)
    (hm : ∀ r ∈ m, Justified s.log k r) (hoff : k.kind = .publish 0 → m = none) :
    Inv (s.enter td k m) := by
  have hfresh : k ∉ s.listed := by
    intro hk
    have hlt := h.known k hk
    omega
  have hlt : k.number < s.calls + 1 := Nat.lt_succ_of_le (le_of_eq hn)
  apply h.of_step (s.enter td k m) td
    (fun u hu => update_of_ne hu _ _) (update_self ..) [] rfl h.log
  · intro e he
    rcases mem_append.1 he with he | he
    · exact h.just e he
    · cases m with
      | none => cases he
      | some r =>
        rw [mem_singleton.1 he]
        exact hm r rfl
  · exact Nat.le_succ _
  · intro k' hk
    rw [State.listed, State.enter, map_append, mem_append] at hk
    rcases hk with hk | hk
    · exact .inl hk
    · cases m with
      | none => cases hk
      | some =>
        rw [mem_singleton.1 hk]
        exact .inr ⟨le_of_eq hn.symm, hlt⟩
  · intro k' hk
    cases hk
    exact hlt
  · exact nofun
  · intro k' hk
    rw [Stage.off] at hk
    split at hk
    · rename_i hkind
      cases hk
      rw [hoff hkind]
      simp only [State.listed, State.enter, Option.map_none, Option.toList_none,
        append_nil]
      exact hfresh
    · cases hk

theorem Inv.submit (h : Inv s) (o : Except Int Outgoing) (request : Nat → MqttRequest)
    (he : ∀ e, o = .error e → e ≠ 0)
    (hok : ∀ o' id, o = .ok o' → o'.packetId = some id → kind ≠ .publish 0 ∧
      Justified s.log ⟨s.calls, kind, id.toNat⟩ (request id.toNat)) :
    Inv (s.submit td kind o request) := by
  unfold State.submit
  split
  · rename_i e
    have hs : Inv { s with calls := s.calls + 1 } :=
      h.of_step { s with calls := s.calls + 1 } td (fun _ _ => rfl) rfl [] rfl h.log h.just
        (Nat.le_succ _) (fun k hk => .inl hk) (fun k hk => Nat.lt_succ_of_lt (h.number td k hk))
        (h.removed td) (h.off td)
    apply hs.give
    · intro hk
      have hlt := h.known _ hk
      exact absurd hlt (lt_irrefl _)
    · intro hz
      exact absurd hz (he e rfl)
  · rename_i o'
    split
    · exact h.enter none rfl nofun fun _ => rfl
    · rename_i id hid
      obtain ⟨hkind, hjust⟩ := hok o' id rfl hid
      apply h.enter (some (request id.toNat)) rfl
      · intro r hr
        cases hr
        exact hjust
      · exact fun hk => absurd hk hkind

theorem mem_zip_updateFirst {q : List (Call × MqttRequest)} {found : MqttRequest → Bool}
    (h : e ∈ (q.map Prod.fst).zip (updateFirst found f (q.map Prod.snd))) :
    e ∈ q ∨ ∃ m, (e.1, m) ∈ q ∧ found m = true ∧ e.2 = f m := by
  rcases zip_updateFirst found f q with ⟨-, he⟩ | ⟨pre, t, m, post, hq, hm, -, he⟩
  · rw [he] at h
    exact .inl h
  · rw [he] at h
    rcases mem_append.1 h with h | h
    · rw [hq]
      exact .inl (mem_append_left _ h)
    · rcases mem_cons.1 h with rfl | h
      · refine .inr ⟨m, ?_, hm, rfl⟩
        rw [hq]
        exact mem_append_right _ mem_cons_self
      · rw [hq]
        exact .inl (mem_append_right _ (mem_cons_of_mem _ h))

theorem updateFirst_length (found : MqttRequest → Bool) (update : MqttRequest → MqttRequest)
    (ms : List MqttRequest) : (updateFirst found update ms).length = ms.length := by
  induction ms with
  | nil => rfl
  | cons m ms ih =>
    rw [updateFirst]
    split
    · rfl
    · rw [length_cons, ih, length_cons]

theorem process_length (packet : Option Packet) (ms : List MqttRequest) :
    (process packet ms).length = ms.length := by
  cases packet with
  | none => rfl
  | some => exact updateFirst_length _ _ _

omit [DecidableEq τ] in
theorem poll_msgList (s : State τ) (stack : Nat → UInt8) (input : List Reply) :
    (s.poll stack input).msgList =
      s.listed.zip (process (received input) (s.msgList.map Prod.snd)) := by
  simp only [State.poll, mqttPoll_process]

omit [DecidableEq τ] in
theorem poll_listed (s : State τ) (stack : Nat → UInt8) (input : List Reply) :
    (s.poll stack input).listed = s.listed := by
  rw [State.listed, poll_msgList, map_fst_zip]
  apply le_of_eq
  rw [process_length, State.listed, length_map, length_map]

omit [DecidableEq τ] in
theorem Inv.poll (h : Inv s) (td : τ) (stack : Nat → UInt8) (input : List Reply) :
    Inv (s.poll stack input) := by
  apply h.of_step (s.poll stack input) td (fun _ _ => rfl) rfl
    ((received input).map fun k => Entry.processed k s.listed).toList rfl
  · show Grown Attributed (_ ++ s.log)
    cases received input with
    | none => exact h.log
    | some => exact .cons trivial h.log
  · intro e he
    rw [poll_msgList] at he
    show Justified (_ ++ s.log) e.1 e.2
    cases hr : received input with
    | none =>
      rw [hr] at he
      have hz := zip_map_fst_snd s.msgList
      exact h.just e (hz ▸ he)
    | some =>
      rw [hr] at he
      rcases mem_zip_updateFirst he with he | ⟨m, hm, hf, hans⟩
      · exact (h.just e he).append [_]
      · rw [hans]
        exact (h.just _ hm).answer hf (mem_map_of_mem hm)
  · exact le_rfl
  · intro k hk
    rw [poll_listed] at hk
    exact .inl hk
  · exact h.number td
  · intro k m hk
    exact (h.removed td k m hk).append _
  · intro k hk
    rw [poll_listed]
    exact h.off td k hk

omit [DecidableEq τ] in
theorem take_listed (s : State τ) (k : Call) : (s.take k).listed = s.listed := by
  rw [State.listed, State.listed, State.take, map_map]
  apply map_congr_left
  intro e _
  rw [Function.comp_apply]
  split
  · rename_i hk
    exact hk.symm
  · rfl

omit [DecidableEq τ] in
theorem Inv.take (h : Inv s) (td : τ) (k : Call) : Inv (s.take k) := by
  apply h.of_step (s.take k) td (fun _ _ => rfl) rfl [] rfl h.log
  · intro e he
    obtain ⟨e', he', rfl⟩ := mem_map.1 he
    have hj := h.just e' he'
    split
    · rename_i hk
      rw [← hk]
      exact ⟨hj.packetId, hj.qos, hj.told⟩
    · exact hj
  · exact le_rfl
  · intro k' hk
    rw [take_listed] at hk
    exact .inl hk
  · exact h.number td
  · exact h.removed td
  · intro k' hk
    rw [take_listed]
    exact h.off td k' hk

omit [DecidableEq τ] in
theorem mem_unlist (s : State τ) (k k' : Call) :
    k' ∈ (s.unlist k).listed ↔ k' ∈ s.listed ∧ k' ≠ k := by
  simp only [State.listed, State.unlist, mem_map, mem_filter, decide_eq_true_iff]
  constructor
  · rintro ⟨e, ⟨he, hne⟩, rfl⟩
    exact ⟨⟨e, he, rfl⟩, hne⟩
  · rintro ⟨⟨e, he, rfl⟩, hne⟩
    exact ⟨e, ⟨he, hne⟩, rfl⟩

theorem Inv.unlist (h : Inv s) (hcall : (s.stage td).call = some k) (hst : st.call = some k)
    (hm : ∀ k' m, st = .removed k' m → Justified s.log k' m) :
    Inv { s.unlist k with stage := update s.stage td st } := by
  apply h.of_step { s.unlist k with stage := update s.stage td st } td
    (fun u hu => update_of_ne hu _ _) (update_self ..) [] rfl h.log
  · intro e he
    exact h.just e (mem_filter.1 he).1
  · exact le_rfl
  · intro k' hk
    exact .inl ((mem_unlist s k k').1 hk).1
  · intro k' hk
    exact h.number td k' (hcall.trans (hst.symm.trans hk))
  · exact hm
  · intro k' hk hmem
    have hkk := hst.symm.trans (Stage.off_call hk)
    cases hkk
    exact ((mem_unlist s k k).1 hmem).2 rfl

theorem mqttPublish_error (h : mqttPublish w stack nextId m = .error e) : e ≠ 0 := by
  unfold mqttPublish at h
  split at h
  · split at h
    · cases h
      decide
    · dsimp only at h
      split at h
      · cases h
      · split at h
        · cases h
        · cases h
          decide
  · cases h
    decide

theorem mqttPublish_packetId {id : UInt16} (h : mqttPublish w stack nextId m = .ok o)
    (hid : o.packetId = some id) : m.qos = 1 ∨ m.qos = 2 := by
  unfold mqttPublish at h
  split at h
  · split at h
    · cases h
    · dsimp only at h
      split at h
      · cases h
        cases hid
      · split at h
        · rename_i hq
          exact hq
        · cases h
  · cases h

theorem mqttSubscribe_error (h : mqttSubscribe w stack nextId q = .error e) : e ≠ 0 := by
  unfold mqttSubscribe at h
  split at h
  · cases h
    decide
  · cases h

section
variable (h : Inv s)
include h

theorem Inv.publish (hx : exec s (.publish td w stack nextId m r) = some s') : Inv s' := by
  simp only [exec] at hx
  split at hx
  · cases hx
    apply h.submit _ _ fun e he => mqttPublish_error he
    intro o id ho hid
    have hq := mqttPublish_packetId ho hid
    refine ⟨?_, rfl, ?_, trivial⟩
    · intro hk
      injection hk with hk
      omega
    · intro q hk
      injection hk with hk
      show ((m.qos.toNat : Nat) : Int) = q
      omega
  · cases hx

theorem Inv.subscribe (hx : exec s (.subscribe td w stack nextId q r) = some s') : Inv s' := by
  simp only [exec] at hx
  split at hx
  · cases hx
    apply h.submit _ _ fun e he => mqttSubscribe_error he
    intro o id ho hid
    exact ⟨nofun, rfl, nofun, trivial⟩
  · cases hx

theorem Inv.ping (hx : exec s (.ping td r) = some s') : Inv s' := by
  simp only [exec] at hx
  split at hx
  · cases hx
    apply h.enter _ rfl
    · intro m hm
      cases hm
      exact ⟨rfl, nofun, trivial⟩
    · exact nofun
  · cases hx

theorem Inv.sent (hx : exec s (.sent td err) = some s') : Inv s' := by
  simp only [exec] at hx
  split at hx
  · rename_i k ht
    split at hx
    · rename_i hk
      cases hx
      apply h.give
      · apply h.off td
        rw [ht, Stage.off, if_pos hk]
      · intro _
        rw [Acknowledged, hk]
        exact ⟨nofun, nofun⟩
    · cases hx
      apply h.move
      · rw [ht]
        cases err with
        | false | true => rfl
      · cases err with
        | false | true => rfl
  · cases hx

theorem Inv.polled (hx : exec s (.poll td stack input) = some s') : Inv s' := by
  simp only [exec] at hx
  split at hx
  · cases hx
    exact h.poll td stack input
  · rename_i k n ht
    cases hx
    apply (h.poll td stack input).move
    · show _ = (s.stage td).call
      rw [ht]
      rfl
    · rfl
  · cases hx

theorem Inv.acquired (hx : exec s (.acquired td) = some s') : Inv s' := by
  simp only [exec] at hx
  split at hx
  · rename_i k n ht
    split at hx
    · cases hx
      apply (h.take td k).move
      · show _ = (s.stage td).call
        rw [ht]
        rfl
      · rfl
    · cases hx
  · cases hx

theorem Inv.timedOut (hx : exec s (.timedOut td) = some s') : Inv s' := by
  simp only [exec] at hx
  split at hx
  · rename_i k ht
    cases hx
    apply h.move
    · rw [ht]
      rfl
    · rfl
  · rename_i k n ht
    cases hx
    apply h.move
    · rw [ht]
      rfl
    · rfl
  · cases hx

theorem Inv.remove (hx : exec s (.remove td) = some s') : Inv s' := by
  simp only [exec] at hx
  split at hx
  · rename_i k ht
    obtain ⟨e, he, rfl⟩ := Option.map_eq_some_iff.1 hx
    apply h.unlist
    · rw [ht]
      rfl
    · rfl
    · intro k' m hk
      cases hk
      have hek := find?_some he
      rw [← of_decide_eq_true hek]
      exact h.just e (mem_of_find?_eq_some he)
  · rename_i k ht
    cases hx
    apply h.unlist
    · rw [ht]
      rfl
    · rfl
    · exact nofun
  · cases hx

theorem Inv.ret (hx : exec s (.ret td) = some s') : Inv s' := by
  simp only [exec] at hx
  split at hx
  · rename_i k m ht
    cases hx
    apply h.give
    · apply h.off td
      rw [ht]
      rfl
    · exact (h.removed td k m ht).result
  · rename_i k ht
    cases hx
    apply h.give
    · apply h.off td
      rw [ht]
      rfl
    · intro hz
      exact absurd hz (by decide)
  · cases hx

theorem Inv.step (hx : exec s op = some s') : Inv s' := by
  cases op with
  | publish => exact h.publish hx
  | subscribe => exact h.subscribe hx
  | ping => exact h.ping hx
  | sent => exact h.sent hx
  | poll => exact h.polled hx
  | acquired => exact h.acquired hx
  | timedOut => exact h.timedOut hx
  | remove => exact h.remove hx
  | ret => exact h.ret hx

end

omit [DecidableEq τ] in
theorem start_inv (c : MqttClient) : Inv (start c : State τ) where
  log := .nil
  just := nofun
  known := nofun
  number := nofun
  removed := nofun
  off := nofun

theorem updateFirst_elsewhere (found : MqttRequest → Bool) (update : MqttRequest → MqttRequest)
    (ms : List MqttRequest) :
    ∃ n, ∀ i : Nat, i ≠ n → (updateFirst found update ms)[i]? = ms[i]? := by
  induction ms with
  | nil => exact ⟨0, fun _ _ => rfl⟩
  | cons m ms ih =>
    rw [updateFirst]
    split
    · refine ⟨0, ?_⟩
      intro i hi
      obtain ⟨j, rfl⟩ := Nat.exists_eq_succ_of_ne_zero hi
      rfl
    · obtain ⟨n, hn⟩ := ih
      refine ⟨n + 1, ?_⟩
      intro i hi
      cases i with
      | zero => rfl
      | succ i => exact hn i fun h => hi (congrArg Nat.succ h)

omit [DecidableEq τ] in
theorem poll_elsewhere (s : State τ) (stack : Nat → UInt8) (input : List Reply) :
    ∃ n, ∀ i : Nat, i ≠ n → (s.poll stack input).msgList[i]? = s.msgList[i]? := by
  obtain ⟨n, hn⟩ : ∃ n, ∀ i : Nat, i ≠ n →
      (process (received input) (s.msgList.map Prod.snd))[i]? = (s.msgList.map Prod.snd)[i]? := by
    cases received input with
    | none => exact ⟨0, fun _ _ => rfl⟩
    | some => exact updateFirst_elsewhere _ _ _
  refine ⟨n, ?_⟩
  intro i hi
  have hz : s.listed.zip (s.msgList.map Prod.snd) = s.msgList := zip_map_fst_snd s.msgList
  rw [poll_msgList, zip, getElem?_zipWith, hn i hi, ← getElem?_zipWith]
  exact congrArg (·[i]?) hz

theorem poll_eq (hx : exec s (.poll td stack input) = some s') :
    s'.msgList = (s.poll stack input).msgList := by
  simp only [exec] at hx
  split at hx
  · cases hx
    rfl
  · cases hx
    rfl
  · cases hx

/-- Every call returns with its request off the list and returns 0 only if the broker has
acknowledged it while it was there; and a packet changes one of the requests on the list at
most. -/
theorem acknowledgements_attributed (h : Run (Steps exec) (fun _ _ => True) (start c : State τ) s) :
    Grown Attributed s.log ∧
    ∀ td stack input s', exec s (.poll td stack input) = some s' →
      s'.listed = s.listed ∧
      ∀ i j : Nat, s'.msgList[i]? ≠ s.msgList[i]? → s'.msgList[j]? ≠ s.msgList[j]? → i = j := by
  constructor
  · have hs : Inv s := by
      apply h.invariant Inv (start_inv c)
      intro t op u ht _ hx
      exact ht.step hx
    exact hs.log
  · intro td stack input s' hx
    obtain ⟨n, hn⟩ := poll_elsewhere s stack input
    rw [State.listed, poll_eq hx]
    refine ⟨poll_listed s stack input, ?_⟩
    intro i j hi hj
    have hin : i = n := by
      by_contra hne
      exact hi (hn i hne)
    have hjn : j = n := by
      by_contra hne
      exact hj (hn j hne)
    rw [hin, hjn]

end

def unset : MqttRequest := ⟨9, .connect, 9, 9, 9, 9⟩

theorem acknowledgements_attributed_crossed :
    ∃ s : State Bool, Run (Steps exec) (fun _ _ => True) (start ⟨[], true, false, false⟩) s ∧
      s.log = [.returned ⟨0, .publish 1, 7⟩ 0 [⟨1, .ping, 9⟩],
        .processed (.puback 7) [⟨0, .publish 1, 7⟩, ⟨1, .ping, 9⟩]] ∧
      Grown Attributed s.log := by
  obtain ⟨s, hs, hlog⟩ := Run.of_checked exec (fun _ _ => True)
    (start ⟨[], true, false, false⟩ : State Bool)
    [.publish true 32 (fun _ => 0) 7 (sampleRequest 1) unset, .ping false unset, .sent true false,
      .sent false false, .poll false (fun _ => 0) [⟨[0x40], false⟩, ⟨[2], false⟩, ⟨[0, 7], false⟩],
      .poll true (fun _ => 0) [⟨[], true⟩], .acquired true, .remove true, .ret true]
    (fun s => s.log = [.returned ⟨0, .publish 1, 7⟩ 0 [⟨1, .ping, 9⟩],
      .processed (.puback 7) [⟨0, .publish 1, 7⟩, ⟨1, .ping, 9⟩]]) (by decide +kernel)
  exact ⟨s, hs, hlog, (acknowledgements_attributed hs).1⟩

end Mdepx.Mqtt.Acks
