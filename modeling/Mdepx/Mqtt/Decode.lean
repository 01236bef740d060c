import Mdepx.Mqtt.Publish

namespace Mdepx.Mqtt
open Lib List

/-! PUBLISH packets as MQTT 3.1.1 defines them, and what `handle_publish` makes of them. -/

def FLAGS_PUBLISH_DUP : UInt8 := (1 : UInt8) <<< 3

def FLAGS_PUBLISH_RETAIN : UInt8 := (1 : UInt8) <<< 0

/-- The contents of a PUBLISH packet; it carries its identifier unless `qos` is 0. -/
structure PublishPacket where
  dup : Bool
  qos : Nat
  retain : Bool
  topic : List UInt8
  packetId : UInt16
  payload : List UInt8

namespace PublishPacket

def first (k : PublishPacket) : UInt8 :=
  CONTROL_PUBLISH ||| (if k.dup then FLAGS_PUBLISH_DUP else 0) ||| (k.qos <<< 1).toUInt8 |||
    if k.retain then FLAGS_PUBLISH_RETAIN else 0

def topicLength (k : PublishPacket) : List UInt8 :=
  [(k.topic.length >>> 8).toUInt8, k.topic.length.toUInt8]

def identifier (k : PublishPacket) : List UInt8 :=
  if k.qos = 0 then [] else [(k.packetId >>> 8).toUInt8, k.packetId.toUInt8]

def body (k : PublishPacket) : List UInt8 :=
  k.topicLength ++ (k.topic ++ (k.identifier ++ k.payload))

def bytes (k : PublishPacket) : List UInt8 := k.first :: k.body.length.toUInt8 :: k.body

/-- The quality of service is a valid one and the packet has at most 128 bytes, so that its
remaining length takes one byte. -/
structure WellFormed (k : PublishPacket) : Prop where
  qos : k.qos ≤ 2
  length : k.bytes.length ≤ 128

theorem body_length (k : PublishPacket) :
    k.body.length = 2 + k.topic.length + k.identifier.length + k.payload.length := by
  simp only [body, topicLength, length_append, length_cons, length_nil]
  omega

theorem identifier_length (k : PublishPacket) :
    k.identifier.length = if k.qos = 0 then 0 else 2 := by
  unfold identifier
  split
  · rfl
  · rfl

theorem WellFormed.rem (h : WellFormed k) : k.body.length.toUInt8.toNat = k.body.length := by
  have hlen := h.length
  simp only [bytes, length_cons] at hlen
  exact UInt8.toNat_ofNat_of_lt' (show _ < 256 by omega)

theorem WellFormed.first (h : WellFormed k) :
    k.first &&& MQTT_CONTROL_M = CONTROL_PUBLISH ∧ qosOf k.first = k.qos := by
  have hq := h.qos
  unfold PublishPacket.first
  generalize k.dup = dup
  generalize k.retain = retain
  generalize k.qos = q at hq
  match q, hq with
  | 0, _ | 1, _ | 2, _ => revert dup retain; decide

theorem parts (k : PublishPacket) (h : bytesAt mem (2 + k.body.length) = k.bytes) :
    [mem 2, mem 3] = k.topicLength ∧
    bytesAt (fun i => mem (4 + i)) k.topic.length = k.topic ∧
    bytesAt (fun i => mem (4 + k.topic.length + i)) k.identifier.length = k.identifier ∧
    bytesAt (fun i => mem (4 + k.topic.length + k.identifier.length + i)) k.payload.length =
      k.payload := by
  have hsize : 2 + k.body.length = 2 + (2 + (k.topic.length + (k.identifier.length +
      k.payload.length))) := by
    rw [body_length]
    omega
  have htl : k.topicLength.length = 2 := rfl
  rw [hsize] at h
  obtain ⟨-, h⟩ := bytesAt_eq_append [k.first, k.body.length.toUInt8] h
  rw [body, ← htl] at h
  obtain ⟨htwo, h⟩ := bytesAt_eq_append _ h
  obtain ⟨htopic, h⟩ := bytesAt_eq_append _ h
  obtain ⟨hid, hpayload⟩ := bytesAt_eq_append _ h
  simp only [htl, ← add_assoc] at htwo htopic hid hpayload
  exact ⟨htwo, htopic, hid, hpayload⟩

end PublishPacket

theorem deliver_sent (p : Poll) (qos rem : Nat) :
    (deliver p qos rem).sent = p.sent ++
      if qos = 1 then [packet CONTROL_PUBACK (messageAt qos rem p.data.byte).packetId] else [] := by
  by_cases h1 : qos = 1
  · subst h1
    simp only [deliver, publishPacketId, Poll.callMsgcb, Poll.packetId, Poll.get, mqttSendPuback,
      mqttSend, messageAt, true_or, if_true]
    split
    · rfl
    · rfl
  · simp only [deliver, if_neg h1, append_nil, Poll.callMsgcb]
    split <;> (unfold publishPacketId; split) <;> rfl

theorem messageAt_packet (hk : k.WellFormed)
    (h : bytesAt mem (2 + k.body.length) = PublishPacket.bytes k) :
    messageAt k.qos k.body.length mem =
      ⟨4, k.topic.length, 4 + k.topic.length + k.identifier.length,
        if k.qos = 0 then (k.payload.length : Int) - 2 else k.payload.length,
        if k.qos = 0 then 0 else k.packetId.toNat⟩ := by
  have hlen := hk.length
  have hbody := k.body_length
  have hidl := k.identifier_length
  have hqos := hk.qos
  simp only [PublishPacket.bytes, length_cons] at hlen
  obtain ⟨htwo, -, hid, -⟩ := k.parts h
  injection htwo with h2 htwo
  injection htwo with h3 _
  have htl : be16 (mem 2) (mem 3) = k.topic.length := by
    rw [h2, h3, be16_length (by omega)]
  have hq12 : (k.qos = 1 ∨ k.qos = 2) ↔ ¬k.qos = 0 := by omega
  simp only [messageAt, htl, hq12, ite_not]
  by_cases hz : k.qos = 0
  · simp only [if_pos hz] at hidl ⊢
    rw [hbody, hidl]
    congr 1
    push_cast
    omega
  · simp only [if_neg hz] at hidl ⊢
    rw [hidl] at hid
    simp only [PublishPacket.identifier, if_neg hz] at hid
    have hid' : [mem (4 + k.topic.length), mem (4 + k.topic.length + 1)] = _ := hid
    injection hid' with hhi hid'
    injection hid' with hlo _
    have hpid : be16 (mem (4 + k.topic.length)) (mem (4 + k.topic.length + 1)) =
        k.packetId.toNat := by
      rw [hhi, hlo, be16_packetId]
    rw [hbody, hidl, hpid]
    congr 1
    push_cast
    omega

/-- The packet is handed to `msgcb` with its topic and its payload, and a PUBACK with its
identifier is sent exactly if its quality of service is 1. -/
def Decoded (c : MqttClient) (stack : Nat → UInt8) (k : PublishPacket) : Prop :=
  let p := (mqttPoll (Poll.start c stack (feed k.bytes))).2
  (c.msgcb = true → ∃ msg n, p.messages = [(msg, n)] ∧
    msg.topicBytes p.data.byte = k.topic ∧
    msg.dataLen = k.payload.length ∧ msg.dataBytes p.data.byte = k.payload) ∧
  p.sent = if k.qos = 1 then [packet CONTROL_PUBACK k.packetId.toNat] else []

/-- A well-formed PUBLISH packet is decoded exactly if it carries a packet identifier (or nobody
looks at the message). -/
theorem publish_decoded_iff (hk : k.WellFormed) (c : MqttClient) (stack : Nat → UInt8) :
    Decoded c stack k ↔ (c.msgcb = true → k.qos ≠ 0) := by
  obtain ⟨hctl, hqos⟩ := hk.first
  have hrem := hk.rem
  obtain ⟨p, hp, hc, hm, hs, hb⟩ := poll_publish hctl hrem.symm c stack
  have hmsgAt := messageAt_packet hk hb
  rw [hqos, hrem] at hp
  have hsent : (deliver p k.qos k.body.length).sent =
      if k.qos = 1 then [packet CONTROL_PUBACK k.packetId.toNat] else [] := by
    rw [deliver_sent, hs, hmsgAt, nil_append]
    by_cases h1 : k.qos = 1
    · have hz : ¬k.qos = 0 := by omega
      simp only [if_pos h1, if_neg hz]
    · rw [if_neg h1, if_neg h1]
  obtain ⟨-, htopic, -, hpayload⟩ := k.parts hb
  have hpoll : mqttPoll (Poll.start c stack (feed k.bytes)) =
      (0, deliver p k.qos k.body.length) := hp
  unfold Decoded
  dsimp only
  rw [hpoll]
  constructor
  · rintro ⟨hmsg, -⟩ hcb hz
    obtain ⟨msg, n, hmsgs, -, hlen, -⟩ := hmsg hcb
    have hcb' : p.client.msgcb = true := by
      rw [hc]
      exact hcb
    rw [(deliver_messages hcb' _ _).2, hm, hmsgAt, nil_append] at hmsgs
    cases hmsgs
    simp only [if_pos hz] at hlen
    omega
  · intro h
    refine ⟨?_, hsent⟩
    intro hcb
    have hz := h hcb
    have hcb' : p.client.msgcb = true := by
      rw [hc]
      exact hcb
    obtain ⟨hdata, hmsgs⟩ := deliver_messages hcb' k.qos k.body.length
    rw [hmsgAt, hm, nil_append] at hmsgs
    refine ⟨_, _, hmsgs, ?_⟩
    rw [hdata]
    simp only [Message.topicBytes, Message.dataBytes, if_neg hz, Int.toNat_natCast]
    exact ⟨htopic, trivial, hpayload⟩

def samplePacket (qos : Nat) : PublishPacket := ⟨false, qos, false, [0x61], 7, [0x62]⟩

theorem publish_decoded_acknowledged :
    Decoded ⟨[], true, false, true⟩ (fun _ => 0) (samplePacket 1) :=
  (publish_decoded_iff ⟨by decide, by decide⟩ ⟨[], true, false, true⟩ fun _ => 0).2
    fun _ => by decide

/-- The payload `b` of a packet of quality of service 0 has length -1 for `msgcb`. -/
theorem unacknowledged_payload_cut :
    (samplePacket 0).WellFormed ∧
      ¬Decoded ⟨[], true, false, true⟩ (fun _ => 0) (samplePacket 0) := by
  refine ⟨⟨by decide, by decide⟩, ?_⟩
  rintro ⟨h, -⟩
  obtain ⟨msg, n, hmsgs, -, hlen, -⟩ := h rfl
  cases hmsgs
  revert hlen
  decide +kernel

end Mdepx.Mqtt
