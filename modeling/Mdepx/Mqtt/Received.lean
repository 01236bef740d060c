import Mathlib.Data.List.GetD
import Mdepx.Mqtt.Bounds

namespace Mdepx.Mqtt
open Lib List

/-! The acknowledgements that `mqtt_poll` receives, and what they do to the queued requests. -/

inductive Packet where
  | connack (code : Nat)
  | pingresp
  | suback (packetId code : Nat)
  | puback (packetId : Nat)
  | pubrec (packetId : Nat)
  | pubcomp (packetId : Nat)
  deriving DecidableEq

def Reply.byte? (r : Reply) : Option UInt8 := if r.failed then none else r.bytes.head?

def Reply.bytes? (r : Reply) (len : Nat) : Option (List UInt8) :=
  if r.failed = false ∧ (r.bytes.take len).length = len then some (r.bytes.take len) else none

def ackBody (input : List Reply) (size : Nat) : Option (List UInt8) :=
  (input.headD .closed).byte?.bind fun rem =>
    if rem.toNat = size then (input.tail.headD .closed).bytes? size else none

def ackPacket (input : List Reply) (kind : Nat → Packet) : Option Packet :=
  (ackBody input 2).map fun bs => kind (be16 (bs.getD 0 0) (bs.getD 1 0))

def packetOf (ctl : UInt8) (input : List Reply) : Option Packet :=
  if ctl = CONTROL_CONNACK then
    (ackBody input 2).map fun bs => .connack (bs.getD 1 0).toNat
  else if ctl = CONTROL_PINGRESP then (input.headD .closed).byte?.map fun _ => .pingresp
  else if ctl = CONTROL_SUBACK then
    (ackBody input 3).map fun bs => .suback (be16 (bs.getD 0 0) (bs.getD 1 0)) (bs.getD 2 0).toNat
  else if ctl = CONTROL_PUBACK then ackPacket input .puback
  else if ctl = CONTROL_PUBREC then ackPacket input .pubrec
  else if ctl = CONTROL_PUBCOMP then ackPacket input .pubcomp
  else none

/-- The acknowledgement that the replies of the network to the reads of `mqtt_poll` make up. -/
def received (input : List Reply) : Option Packet :=
  (input.headD .closed).byte?.bind fun first => packetOf (first &&& MQTT_CONTROL_M) input.tail

def Packet.found : Packet → MqttRequest → Bool
  | .connack _, m => m.state = .connect
  | .pingresp, m => m.state = .pingreq
  | .suback packetId _, m => m.packetId = packetId ∧ m.state = .subscribe
  | .puback packetId, m => m.packetId = packetId ∧ m.state = .publish ∧ m.qos = 1
  | .pubrec packetId, m => m.packetId = packetId ∧ m.state = .publish ∧ m.qos = 2
  | .pubcomp packetId, m => m.packetId = packetId ∧ m.state = .pubrec ∧ m.qos = 2

def Packet.answer : Packet → MqttRequest → MqttRequest
  | .connack code, m => { m.post with state := .connack, status := code }
  | .pingresp, m => { m.post with state := .pingresp }
  | .suback _ code, m => { m.post with state := .suback, error := code }
  | .puback _, m => { m.post with state := .puback }
  | .pubrec _, m => { m with state := .pubrec }
  | .pubcomp _, m => { m.post with state := .pubcomp }

/-- The first request that a packet may answer is answered, the others stay as they are. -/
def process (packet : Option Packet) (ms : List MqttRequest) : List MqttRequest :=
  packet.elim ms fun k => updateFirst k.found k.answer ms

theorem zip_map_fst_snd {κ : Type} (q : List (κ × MqttRequest)) :
    (q.map Prod.fst).zip (q.map Prod.snd) = q := by
  induction q with
  | nil => rfl
  | cons x q ih => rw [map_cons, map_cons, zip_cons_cons, ih]

theorem zip_updateFirst {κ : Type} (found : MqttRequest → Bool)
    (update : MqttRequest → MqttRequest) (q : List (κ × MqttRequest)) :
    (q.find? (fun e => found e.2) = none ∧
      (q.map Prod.fst).zip (updateFirst found update (q.map Prod.snd)) = q) ∨
    ∃ pre t m post, q = pre ++ (t, m) :: post ∧ found m = true ∧
      q.find? (fun e => found e.2) = some (t, m) ∧
      (q.map Prod.fst).zip (updateFirst found update (q.map Prod.snd)) =
        pre ++ (t, update m) :: post := by
  induction q with
  | nil => exact .inl ⟨rfl, rfl⟩
  | cons x q ih =>
    rw [map_cons, map_cons, updateFirst]
    cases hf : found x.2 with
    | true =>
      refine .inr ⟨[], x.1, x.2, q, rfl, hf, ?_, ?_⟩
      · simp only [find?_cons, hf]
      · rw [if_pos rfl, zip_cons_cons, zip_map_fst_snd]
        rfl
    | false =>
      rw [if_neg Bool.false_ne_true, zip_cons_cons]
      simp only [find?_cons, hf]
      rcases ih with ⟨hn, he⟩ | ⟨pre, t, m, post, hq, hm, hfind, he⟩
      · exact .inl ⟨hn, congrArg (x :: ·) he⟩
      · exact .inr ⟨x :: pre, t, m, post, congrArg (x :: ·) hq, hm, hfind, congrArg (x :: ·) he⟩

theorem byte?_eq_some_iff : Reply.byte? r = some b ↔ r.Gives b := by
  unfold Reply.byte? Reply.Gives
  split
  · rename_i hf
    simp [hf]
  · rename_i hf
    simp [hf]

theorem recv_one_of_byte? (h : p.reply.byte? = some b) (off : Nat) :
    (mqttRecv p off 1).1 = 1 ∧ (mqttRecv p off 1).2.data.byte off = b := by
  have hg := byte?_eq_some_iff.1 h
  refine ⟨recv_one_iff.2 ⟨b, hg⟩, ?_⟩
  have hput := Buffer.put_byte_add p.data off [b] 0
  simp only [mqttRecv, hg.take_one]
  exact hput

theorem recv_one_of_none (h : p.reply.byte? = none) (off : Nat) : (mqttRecv p off 1).1 ≠ 1 := by
  intro h1
  obtain ⟨b, hb⟩ := recv_one_iff.1 h1
  rw [byte?_eq_some_iff.2 hb] at h
  cases h

theorem readMsg_spec (p : Poll) (size : Nat) :
    (readMsg p size).2.client = p.client ∧
    ((ackBody p.input size = none ∧ (readMsg p size).1 ≠ 0) ∨
      ∃ bs, ackBody p.input size = some bs ∧ (readMsg p size).1 = 0 ∧ bs.length = size ∧
        ∀ i, i < size → (readMsg p size).2.data.byte (2 + i) = bs.getD i 0) := by
  cases hb : p.reply.byte? with
  | none =>
    have hne := recv_one_of_none hb 1
    have hbody : ackBody p.input size = none := by
      show (p.reply.byte?).bind _ = none
      rw [hb, Option.bind_none]
    simp only [readMsg, if_pos hne]
    exact ⟨rfl, .inl ⟨hbody, by decide⟩⟩
  | some rem =>
    obtain ⟨hone, hbyte⟩ := recv_one_of_byte? hb 1
    let p₁ := ((mqttRecv p 1 1).2.get 1).2
    have hrem : ((mqttRecv p 1 1).2.get 1).1 = rem := hbyte
    have hbody : ackBody p.input size =
        if rem.toNat = size then p₁.reply.bytes? size else none := by
      show (p.reply.byte?).bind _ = _
      rw [hb, Option.bind_some]
      rfl
    have hread : readMsg p size =
        if rem.toNat ≠ size then (MQTT_ERR_UNKNOWN, p₁)
        else if (mqttRecv p₁ 2 rem.toNat).1 ≠ rem.toNat then
          (MQTT_ERR_CONN, (mqttRecv p₁ 2 rem.toNat).2)
        else (0, (mqttRecv p₁ 2 rem.toNat).2) := by
      simp only [readMsg, if_neg (not_not.2 hone), hrem, p₁]
    rw [hbody, hread]
    by_cases hsize : rem.toNat = size
    · subst hsize
      rw [if_pos rfl, if_neg (not_not.2 rfl)]
      by_cases hfull : (mqttRecv p₁ 2 rem.toNat).1 = rem.toNat
      · obtain ⟨hf, hlen⟩ := recv_full_iff.1 hfull
        have hsome : p₁.reply.bytes? rem.toNat = some (p₁.reply.bytes.take rem.toNat) := by
          unfold Reply.bytes?
          rw [if_pos ⟨hf, hlen⟩]
        rw [if_neg (not_not.2 hfull)]
        refine ⟨rfl, .inr ⟨_, hsome, rfl, hlen, ?_⟩⟩
        intro i hi
        show (p₁.data.put 2 (p₁.reply.bytes.take rem.toNat)).byte (2 + i) = _
        rw [Buffer.put_byte_add, getD_eq_getElem _ _ (by rw [hlen]; exact hi),
          getD_eq_getElem _ _ (by rw [hlen]; exact hi)]
      · have hnone : p₁.reply.bytes? rem.toNat = none := by
          unfold Reply.bytes?
          rw [if_neg]
          intro h
          exact hfull (recv_full_iff.2 h)
        rw [if_pos hfull]
        exact ⟨rfl, .inl ⟨hnone, show MQTT_ERR_CONN ≠ 0 by decide⟩⟩
    · rw [if_neg hsize, if_pos hsize]
      exact ⟨rfl, .inl ⟨rfl, show MQTT_ERR_UNKNOWN ≠ 0 by decide⟩⟩

theorem readMsg_process (p : Poll) (size : Nat) (packet : List UInt8 → Packet)
    (next : Poll → Int × Poll)
    (hnext : ∀ q bs, q.client = p.client → (∀ i, i < size → q.data.byte (2 + i) = bs.getD i 0) →
      (next q).2.client.msgList = updateFirst (packet bs).found (packet bs).answer
        p.client.msgList) :
    (if (readMsg p size).1 ≠ 0 then readMsg p size else next (readMsg p size).2).2.client.msgList =
      process ((ackBody p.input size).map packet) p.client.msgList := by
  obtain ⟨hc, ⟨hnone, herr⟩ | ⟨bs, hsome, hok, -, hbytes⟩⟩ := readMsg_spec p size
  · rw [if_pos herr, hnone, hc]
    rfl
  · rw [if_neg (not_not.2 hok), hsome]
    exact hnext _ bs hc hbytes

theorem packetId_of_bytes {q : Poll} {bs : List UInt8} (h₀ : q.data.byte 2 = bs.getD 0 0)
    (h₁ : q.data.byte 3 = bs.getD 1 0) :
    q.packetId.1 = be16 (bs.getD 0 0) (bs.getD 1 0) := by
  rw [← h₀, ← h₁]
  rfl

section
variable (p : Poll)

theorem handleAck_process (kind : Nat → Packet) (state : MsgState) (qos : Nat)
    (update : MqttRequest → MqttRequest)
    (hk : ∀ packetId, (kind packetId).found = (fun m => decide (m.packetId = packetId ∧
      m.state = state ∧ m.qos = qos)) ∧ (kind packetId).answer = update) :
    (handleAck p state qos update).2.client.msgList =
      process (ackPacket p.input kind) p.client.msgList := by
  refine (readMsg_process p 2 (fun bs => kind (be16 (bs.getD 0 0) (bs.getD 1 0)))
    (fun q => (0, q.packetId.2.update (fun m => decide (m.packetId = q.packetId.1 ∧
      m.state = state ∧ m.qos = qos)) update)) ?_)
  intro q bs hc hb
  have hid := packetId_of_bytes (hb 0 (by decide)) (hb 1 (by decide))
  obtain ⟨hfound, hans⟩ := hk (be16 (bs.getD 0 0) (bs.getD 1 0))
  rw [hfound, hans, ← hid, ← hc]
  rfl

theorem handlePubrec_process :
    (handlePubrec p).2.client.msgList =
      process (ackPacket p.input .pubrec) p.client.msgList := by
  rw [← handleAck_process p .pubrec .publish 2 (fun m => { m with state := .pubrec })
    fun _ => ⟨rfl, rfl⟩]
  unfold handlePubrec handleAck
  dsimp only
  split
  · rfl
  · split
    · rfl
    · rfl

theorem handleConnack_process :
    (handleConnack p).2.client.msgList =
      process ((ackBody p.input 2).map fun bs => .connack (bs.getD 1 0).toNat)
        p.client.msgList := by
  refine (readMsg_process p 2 (fun bs => .connack (bs.getD 1 0).toNat)
    (fun q => (0, ((q.get 2).2.get 3).2.update (fun m => m.state = .connect)
      fun m => { m.post with state := .connack, status := (q.data.byte 3).toNat })) ?_)
  intro q bs hc hb
  rw [show q.data.byte 3 = bs.getD 1 0 from hb 1 (by decide), ← hc]
  rfl

theorem handleSuback_process :
    (handleSuback p).2.client.msgList =
      process ((ackBody p.input 3).map fun bs =>
        .suback (be16 (bs.getD 0 0) (bs.getD 1 0)) (bs.getD 2 0).toNat) p.client.msgList := by
  refine (readMsg_process p 3
    (fun bs => .suback (be16 (bs.getD 0 0) (bs.getD 1 0)) (bs.getD 2 0).toNat)
    (fun q => (0, (q.packetId.2.get 4).2.update
      (fun m => m.packetId = q.packetId.1 ∧ m.state = .subscribe)
      fun m => { m.post with state := .suback, error := (q.data.byte 4).toNat })) ?_)
  intro q bs hc hb
  have hid := packetId_of_bytes (hb 0 (by decide)) (hb 1 (by decide))
  rw [show q.data.byte 4 = bs.getD 2 0 from hb 2 (by decide), hid, ← hc]
  rfl

theorem handlePingresp_process :
    (handlePingresp p).2.client.msgList =
      process (p.reply.byte?.map fun _ => .pingresp) p.client.msgList := by
  unfold handlePingresp
  dsimp only
  cases hb : p.reply.byte? with
  | none =>
    rw [if_pos (recv_one_of_none hb 1)]
    rfl
  | some =>
    rw [if_neg (not_not.2 (recv_one_of_byte? hb 1).1)]
    rfl

theorem mqttEvent_msgList (ev : ConnectionEvent) :
    (mqttEvent p ev).client.msgList = p.client.msgList := by
  unfold mqttEvent
  split
  · rfl
  · rfl

theorem deliver_client (qos rem : Nat) : (deliver p qos rem).client = p.client := by
  unfold deliver Poll.callMsgcb publishPacketId
  dsimp only
  split <;> split <;> split <;> rfl

theorem handlePublish_msgList : (handlePublish p).2.client.msgList = p.client.msgList := by
  unfold handlePublish publishBody
  dsimp only
  split
  · exact mqttEvent_msgList _ _
  · split
    · exact mqttEvent_msgList _ _
    · rw [deliver_client]
      rfl

theorem handleRecv_process :
    (handleRecv p).2.client.msgList =
      process (packetOf (p.data.byte 0 &&& MQTT_CONTROL_M) p.input) p.client.msgList := by
  have hctl : (p.get 0).1 = p.data.byte 0 := rfl
  unfold handleRecv packetOf
  dsimp only
  rw [hctl]
  split
  · exact handleConnack_process _
  · split
    · exact handlePingresp_process _
    · split
      · exact handleSuback_process _
      · split
        · rename_i hpub
          rw [hpub]
          exact handlePublish_msgList _
        · split
          · exact handleAck_process _ _ _ _ _ fun _ => ⟨rfl, rfl⟩
          · split
            · exact handlePubrec_process _
            · split
              · exact handleAck_process _ _ _ _ _ fun _ => ⟨rfl, rfl⟩
              · rfl

end

theorem mqttPoll_process (c : MqttClient) (stack : Nat → UInt8) (input : List Reply) :
    (mqttPoll (Poll.start c stack input)).2.client.msgList =
      process (received input) c.msgList := by
  have hreply : (Poll.start c stack input).reply = input.headD .closed := rfl
  unfold mqttPoll received
  dsimp only
  cases hb : (input.headD .closed).byte? with
  | none =>
    have hne := recv_one_of_none (p := Poll.start c stack input) hb 0
    rw [if_neg hne]
    split
    · exact mqttEvent_msgList _ _
    · rfl
  | some =>
    obtain ⟨hone, hbyte⟩ := recv_one_of_byte? (p := Poll.start c stack input) hb 0
    have hrecv := handleRecv_process (mqttRecv (Poll.start c stack input) 0 1).2
    rw [hbyte] at hrecv
    rw [hone, if_neg (by decide), if_pos rfl, Option.bind_some]
    split
    · rw [mqttEvent_msgList]
      exact hrecv
    · exact hrecv

end Mdepx.Mqtt
