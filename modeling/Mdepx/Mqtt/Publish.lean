import Mathlib.Data.Int.Bitwise
import Mdepx.Mqtt.Bounds

namespace Mdepx.Mqtt
open Lib List

/-! The sending side of a PUBLISH packet, and what the client makes of one it receives. -/

def MQTT_ERR_REQ : Int := -1

def FLAGS_PUBLISH_QOS (n : Int) : Int := n * 2 ^ FLAGS_PUBLISH_QOS_S.toNat

/-- The `struct mqtt_request` of a caller: the memory from its two pointers on, unless they are
`NULL`. -/
structure PublishRequest where
  topic : Option (Nat → UInt8)
  topicLen : Int
  data : Option (Nat → UInt8)
  dataLen : Int
  qos : Int

def word (w : Nat) (x : Int) : Nat := (x % 2 ^ w).toNat

/-- A packet that `mqtt_publish` hands to `mqtt_send`: the buffer, the number of its bytes, and
the packet identifier if it has one. -/
structure Outgoing where
  data : Buffer
  pos : Int
  packetId : Option UInt16
  nextId : UInt16

def Outgoing.bytes (o : Outgoing) : List UInt8 := bytesAt o.data.byte o.pos.toNat

def putTwo (w : Nat) (b : Buffer) (pos : Int) (hi lo : UInt8) : Buffer :=
  (b.put (word w pos) [hi]).put (word w (pos + 1)) [lo]

def publishTopic (w : Nat) (stack : Nat → UInt8) (topic : Nat → UInt8) (topicLen : Int) : Buffer :=
  (putTwo w ⟨stack, []⟩ 2 (UInt8.ofInt (topicLen >>> 8)) (UInt8.ofInt topicLen)).put 4
    (bytesAt topic (word w topicLen))

def publishPayload (w : Nat) (b : Buffer) (pos : Int) (data : Nat → UInt8) (dataLen qos : Int) :
    Buffer × Int :=
  let b := b.put (word w pos) (bytesAt data (word w dataLen))
  let pos := pos + dataLen
  let b := b.put 0 [CONTROL_PUBLISH ||| UInt8.ofInt (FLAGS_PUBLISH_QOS qos)]
  (b.put 1 [UInt8.ofInt (pos - 2)], pos)

def mqttPublish (w : Nat) (stack : Nat → UInt8) (nextId : UInt16) (m : PublishRequest) :
    Except Int Outgoing :=
  match m.topic, m.data with
  | some topic, some data =>
    if m.topicLen = 0 ∨ m.dataLen = 0 then .error MQTT_ERR_REQ
    else
      let b := publishTopic w stack topic m.topicLen
      let pos := 4 + m.topicLen
      if m.qos = 0 then
        let (b, pos) := publishPayload w (putTwo w b pos 0 0) (pos + 2) data m.dataLen m.qos
        .ok ⟨b, pos, none, nextId⟩
      else if m.qos = 1 ∨ m.qos = 2 then
        let b := putTwo w b pos (nextId >>> 8).toUInt8 nextId.toUInt8
        let (b, pos) := publishPayload w b (pos + 2) data m.dataLen m.qos
        .ok ⟨b, pos, some nextId, nextId + 1⟩
      else .error MQTT_ERR_UNKNOWN
  | _, _ => .error MQTT_ERR_REQ

/-- The replies of a network that has a packet to deliver: the reads of `mqtt_poll` for the two
bytes of the fixed header, and the one for the rest. -/
def feed (bs : List UInt8) : List Reply :=
  [⟨bs.take 1, false⟩, ⟨(bs.drop 1).take 1, false⟩, ⟨bs.drop 2, false⟩]

def Message.topicBytes (m : Message) (mem : Nat → UInt8) : List UInt8 :=
  bytesAt (fun i => mem (m.topic + i)) m.topicLen

def Message.dataBytes (m : Message) (mem : Nat → UInt8) : List UInt8 :=
  bytesAt (fun i => mem (m.data + i)) m.dataLen.toNat

theorem word_natCast {n : Nat} (h : n < 2 ^ w) : word w n = n := by
  have hn : ((n : Int) % 2 ^ w) = n := Int.emod_eq_of_lt (by omega) (by exact_mod_cast h)
  rw [word, hn, Int.toNat_natCast]

def publishBytes (qos : Nat) (topic : List UInt8) (hi lo : UInt8) (data : List UInt8) :
    List UInt8 :=
  (CONTROL_PUBLISH ||| (qos <<< 1).toUInt8) :: (topic.length + data.length + 4).toUInt8 ::
    ([(topic.length >>> 8).toUInt8, topic.length.toUInt8] ++ topic ++ [hi, lo] ++ data)

theorem bytesAt_putTwo {pos : Nat} (h : pos + 1 < 2 ^ w) (b : Buffer) (hi lo : UInt8) :
    bytesAt (putTwo w b pos hi lo).byte (pos + 2) = bytesAt b.byte pos ++ [hi, lo] := by
  have hpos : word w (pos : Int) = pos := word_natCast (by omega)
  have hnext : word w ((pos : Int) + 1) = pos + 1 := by
    exact_mod_cast word_natCast (n := pos + 1) h
  have hlo := bytesAt_put (b.put pos [hi]) (pos + 1) [lo]
  have hhi := bytesAt_put b pos [hi]
  rw [putTwo, hpos, hnext]
  rw [length_singleton] at hlo hhi
  rw [hlo, hhi, append_assoc]
  rfl

theorem ofInt_natCast (n : Nat) : UInt8.ofInt n = n.toUInt8 := by
  have h : ((n : Int) % 2 ^ 8).toNat = n % 2 ^ 8 := by omega
  rw [UInt8.ofInt, h]
  exact UInt8.ofNat_mod_size

theorem publishPayload_bytes {pos dl q : Nat} (h : pos + dl < 2 ^ w) (hpos : 2 ≤ pos) (b : Buffer)
    (data : Nat → UInt8) :
    bytesAt (publishPayload w b pos data dl q).1.byte (pos + dl) =
      ((bytesAt b.byte pos ++ bytesAt data dl).set 0
        (CONTROL_PUBLISH ||| (q <<< 1).toUInt8)).set 1 (pos + dl - 2).toUInt8 := by
  have hdl : word w (dl : Int) = dl := word_natCast (by omega)
  have hp : word w (pos : Int) = pos := word_natCast (by omega)
  have hput := bytesAt_put b pos (bytesAt data dl)
  have hqos : UInt8.ofInt (FLAGS_PUBLISH_QOS q) = (q <<< 1).toUInt8 := by
    have hq : FLAGS_PUBLISH_QOS q = ((q <<< 1 : Nat) : Int) := by
      rw [Nat.shiftLeft_eq]
      rfl
    rw [hq, ofInt_natCast]
  have hrem : UInt8.ofInt ((pos : Int) + dl - 2) = (pos + dl - 2).toUInt8 := by
    have hr : (pos : Int) + dl - 2 = ((pos + dl - 2 : Nat) : Int) := by omega
    rw [hr, ofInt_natCast]
  rw [bytesAt_length] at hput
  unfold publishPayload
  dsimp only
  rw [bytesAt_put_one, bytesAt_put_one, hdl, hp, hput, hqos, hrem]

theorem bytesAt_putText {tl : Nat} (pos : Nat) (h : pos + 2 + tl < 2 ^ w) (b : Buffer)
    (text : Nat → UInt8) :
    bytesAt ((putTwo w b pos (UInt8.ofInt ((tl : Int) >>> 8)) (UInt8.ofInt tl)).put (pos + 2)
        (bytesAt text (word w tl))).byte (pos + 2 + tl) =
      bytesAt b.byte pos ++ [(tl >>> 8).toUInt8, tl.toUInt8] ++ bytesAt text tl := by
  have hhi : UInt8.ofInt ((tl : Int) >>> 8) = (tl >>> 8).toUInt8 := ofInt_natCast (tl >>> 8)
  have hput := bytesAt_put (putTwo w b pos (tl >>> 8).toUInt8 tl.toUInt8) (pos + 2)
    (bytesAt text tl)
  rw [bytesAt_length, bytesAt_putTwo (by omega)] at hput
  rw [word_natCast (by omega), hhi, ofInt_natCast, hput]

theorem publishTopic_bytes {tl : Nat} (h : 4 + tl < 2 ^ w) (stack topic : Nat → UInt8) :
    bytesAt (publishTopic w stack topic tl).byte (4 + tl) =
      [stack 0, stack 1, (tl >>> 8).toUInt8, tl.toUInt8] ++ bytesAt topic tl :=
  bytesAt_putText 2 h ⟨stack, []⟩ topic

theorem packet_bytes {tl dl q : Nat} (h : 6 + tl + dl < 2 ^ w) (stack topic data : Nat → UInt8)
    (hi lo : UInt8) :
    bytesAt (publishPayload w (putTwo w (publishTopic w stack topic tl) (4 + tl) hi lo)
        (4 + tl + 2) data dl q).1.byte (6 + tl + dl) =
      publishBytes q (bytesAt topic tl) hi lo (bytesAt data dl) := by
  have hend : 4 + (tl : Int) = ((4 + tl : Nat) : Int) := by omega
  have hend' : ((4 + tl : Nat) : Int) + 2 = ((4 + tl + 2 : Nat) : Int) := by omega
  have hlen : 6 + tl + dl = 4 + tl + 2 + dl := by omega
  have hrem : 4 + tl + 2 + dl - 2 = tl + dl + 4 := by omega
  rw [hend, hend', hlen, publishPayload_bytes (by omega) (by omega), bytesAt_putTwo (by omega),
    publishTopic_bytes (by omega), hrem]
  simp only [publishBytes, bytesAt_length]
  rfl

theorem be16_bytes (hi lo : UInt8) : be16 hi lo = 2 ^ 8 * hi.toNat + lo.toNat := by
  rw [be16, ← Nat.shiftLeft_add_eq_or_of_lt (UInt8.toNat_lt lo), Nat.shiftLeft_eq, mul_comm]

theorem be16_length {n : Nat} (h : n < 2 ^ 16) : be16 (n >>> 8).toUInt8 n.toUInt8 = n := by
  have hhi : (n >>> 8).toUInt8.toNat = n / 2 ^ 8 % 2 ^ 8 := by
    rw [← Nat.shiftRight_eq_div_pow]
    rfl
  have hlo : n.toUInt8.toNat = n % 2 ^ 8 := rfl
  rw [be16_bytes, hhi, hlo]
  omega

theorem be16_packetId (id : UInt16) : be16 (id >>> 8).toUInt8 id.toUInt8 = id.toNat := by
  have hlt := UInt16.toNat_lt id
  have hid := be16_length (n := id.toNat) hlt
  have hhi : (id >>> 8).toUInt8 = (id.toNat >>> 8).toUInt8 := by
    apply UInt8.toNat_inj.1
    rw [UInt16.toNat_toUInt8, UInt16.toNat_shiftRight]
    rfl
  have hlo : id.toUInt8 = id.toNat.toUInt8 := rfl
  rw [hhi, hlo, hid]

structure Fits (m : PublishRequest) (topic data : Nat → UInt8) (tl dl q : Nat) : Prop where
  topic : m.topic = some topic
  data : m.data = some data
  topicLen : m.topicLen = tl
  dataLen : m.dataLen = dl
  qos : m.qos = q
  topic_pos : 1 ≤ tl
  data_pos : 1 ≤ dl
  qos_le : q ≤ 2
  total : 8 + tl + dl ≤ 128

theorem mqttPublish_bytes (hw : 32 ≤ w) (h : Fits m topic data tl dl q) (stack : Nat → UInt8)
    (nextId : UInt16) :
    ∃ o hi lo, mqttPublish w stack nextId m = .ok o ∧
      o.bytes = publishBytes q (bytesAt topic tl) hi lo (bytesAt data dl) ∧
      (q = 0 → hi = 0 ∧ lo = 0 ∧ o.packetId = none) ∧
      (q ≠ 0 → o.packetId = some nextId ∧ be16 hi lo = nextId.toNat) := by
  obtain ⟨ht, hd, htl, hdl, hq, htpos, hdpos, hqle, htotal⟩ := h
  have h32 : 2 ^ 32 ≤ 2 ^ w := Nat.pow_le_pow_right (by decide) hw
  have hsome : ¬(m.topicLen = 0 ∨ m.dataLen = 0) := by omega
  have hbytes := packet_bytes (q := q) (show 6 + tl + dl < 2 ^ w by omega) stack topic data
  have hpos : (4 + (tl : Int) + 2 + dl).toNat = 6 + tl + dl := by omega
  simp only [mqttPublish, ht, hd, if_neg hsome, hq]
  by_cases h0 : q = 0
  · subst h0
    rw [if_pos (show ((0 : Nat) : Int) = 0 from rfl)]
    refine ⟨_, 0, 0, rfl, ?_, fun _ => ⟨rfl, rfl, rfl⟩, fun hn => absurd rfl hn⟩
    have hb := hbytes 0 0
    rw [← hpos] at hb
    rw [htl, hdl]
    exact hb
  · have hq0 : ¬(q : Int) = 0 := by omega
    have hq12 : (q : Int) = 1 ∨ (q : Int) = 2 := by omega
    simp only [if_neg hq0, if_pos hq12]
    refine ⟨_, _, _, rfl, ?_, fun hz => absurd hz h0, fun _ => ⟨rfl, be16_packetId nextId⟩⟩
    have hb := hbytes (nextId >>> 8).toUInt8 nextId.toUInt8
    rw [← hpos] at hb
    rw [htl, hdl]
    exact hb

def messageAt (qos rem : Nat) (mem : Nat → UInt8) : Message :=
  let topicLen := be16 (mem 2) (mem 3)
  let idLen := if qos = 1 ∨ qos = 2 then 2 else 0
  { topic := 4
    topicLen := topicLen
    data := 4 + topicLen + idLen
    dataLen := (rem : Int) - topicLen - 4
    packetId :=
      if qos = 1 ∨ qos = 2 then be16 (mem (4 + topicLen)) (mem (4 + topicLen + 1)) else 0 }

theorem deliver_messages (hcb : p.client.msgcb = true) (qos rem : Nat) :
    (deliver p qos rem).data.byte = p.data.byte ∧
    (deliver p qos rem).messages = p.messages ++ [(messageAt qos rem p.data.byte, p.received)] := by
  by_cases h1 : qos = 1
  · subst h1
    simp [deliver, publishPacketId, Poll.callMsgcb, Poll.packetId, Poll.get, mqttSendPuback,
      mqttSend, messageAt, hcb]
  · by_cases h2 : qos = 2
    · subst h2
      simp [deliver, publishPacketId, Poll.callMsgcb, Poll.packetId, Poll.get, messageAt, hcb]
    · simp [deliver, publishPacketId, Poll.callMsgcb, Poll.packetId, Poll.get, messageAt, hcb, h1,
        h2]

theorem poll_publish (hctl : first &&& MQTT_CONTROL_M = CONTROL_PUBLISH)
    (hlen : body.length = rem.toNat) (c : MqttClient) (stack : Nat → UInt8) :
    ∃ p, mqttPoll (Poll.start c stack (feed (first :: rem :: body))) =
        (0, deliver p (qosOf first) rem.toNat) ∧
      p.client = c ∧ p.messages = [] ∧ p.sent = [] ∧
      bytesAt p.data.byte (2 + body.length) = first :: rem :: body := by
  let p₁ := (mqttRecv (Poll.start c stack (feed (first :: rem :: body))) 0 1).2
  let p₂ := (mqttRecv ((p₁.get 0).2.get 0).2 1 1).2
  let p₃ := (mqttRecv (p₂.get 1).2 2 rem.toNat).2
  have htake : body.take rem.toNat = body := take_of_length_le (le_of_eq hlen)
  have hfull : (mqttRecv (p₂.get 1).2 2 rem.toNat).1 = rem.toNat :=
    recv_full_iff.2 ⟨rfl, by rw [← hlen]; exact congrArg length (hlen ▸ htake)⟩
  have hbody : publishBody (p₂.get 1).2 (qosOf first) rem.toNat =
      (0, deliver p₃ (qosOf first) rem.toNat) := by
    unfold publishBody
    dsimp only
    rw [if_neg (not_not.2 hfull)]
  have hpublish : handlePublish (p₁.get 0).2 = (0, deliver p₃ (qosOf first) rem.toNat) := hbody
  have hrecv : handleRecv p₁ = (0, deliver p₃ (qosOf first) rem.toNat) := by
    have hctl' : (p₁.get 0).1 &&& MQTT_CONTROL_M = CONTROL_PUBLISH := hctl
    unfold handleRecv
    dsimp only
    rw [hctl', if_neg (by decide), if_neg (by decide), if_neg (by decide), if_pos rfl, hpublish]
  refine ⟨p₃, ?_, rfl, rfl, rfl, ?_⟩
  · show (if (handleRecv p₁).1 ≠ 0 then _ else ((0 : Int), (handleRecv p₁).2)) = _
    rw [hrecv]
    rfl
  · show bytesAt ((((⟨stack, []⟩ : Buffer).put 0 [first]).put 1 [rem]).put 2
      (body.take rem.toNat)).byte (2 + body.length) = first :: rem :: body
    rw [htake, bytesAt_put]
    rfl

theorem poll_message (hctl : first &&& MQTT_CONTROL_M = CONTROL_PUBLISH)
    (hlen : body.length = rem.toNat) (hcb : c.msgcb = true) (stack : Nat → UInt8) :
    ∃ mem n, (mqttPoll (Poll.start c stack (feed (first :: rem :: body)))).2.messages =
        [(messageAt (qosOf first) rem.toNat mem, n)] ∧
      (mqttPoll (Poll.start c stack (feed (first :: rem :: body)))).2.data.byte = mem ∧
      bytesAt mem (2 + body.length) = first :: rem :: body := by
  obtain ⟨p, hp, hc, hm, -, hb⟩ := poll_publish hctl hlen c stack
  subst hc
  obtain ⟨hdata, hmsg⟩ := deliver_messages hcb (qosOf first) rem.toNat
  refine ⟨p.data.byte, p.received, ?_, ?_, hb⟩
  · rw [hp, hmsg, hm, nil_append]
  · rw [hp, hdata]

theorem poll_publishBytes (hcb : c.msgcb = true) (hq : q ≤ 2)
    (hlen : topic.length + data.length ≤ 120) (hi lo : UInt8) (stack : Nat → UInt8) :
    ∃ mem n, (mqttPoll (Poll.start c stack (feed (publishBytes q topic hi lo data)))).2.messages =
        [(⟨4, topic.length, 4 + topic.length + if q = 0 then 0 else 2, data.length,
          if q = 0 then 0 else be16 hi lo⟩, n)] ∧
      (mqttPoll (Poll.start c stack (feed (publishBytes q topic hi lo data)))).2.data.byte = mem ∧
      bytesAt (fun i => mem (4 + i)) topic.length = topic ∧
      bytesAt (fun i => mem (4 + topic.length + i)) (2 + data.length) = hi :: lo :: data := by
  have hctl : (CONTROL_PUBLISH ||| (q <<< 1).toUInt8) &&& MQTT_CONTROL_M = CONTROL_PUBLISH ∧
      qosOf (CONTROL_PUBLISH ||| (q <<< 1).toUInt8) = q := by
    match q, hq with
    | 0, _ | 1, _ | 2, _ => decide
  have hrem : (topic.length + data.length + 4).toUInt8.toNat = topic.length + data.length + 4 :=
    UInt8.toNat_ofNat_of_lt' (show _ < 256 by omega)
  have hbody : ([(topic.length >>> 8).toUInt8, topic.length.toUInt8] ++ topic ++ [hi, lo] ++
      data).length = (topic.length + data.length + 4).toUInt8.toNat := by
    rw [hrem]
    simp
    omega
  obtain ⟨mem, n, hmsg, hmem, hbytes⟩ := poll_message hctl.1 hbody hcb stack
  have hparts : bytesAt mem (4 + (topic.length + (2 + data.length))) =
      [CONTROL_PUBLISH ||| (q <<< 1).toUInt8, (topic.length + data.length + 4).toUInt8,
        (topic.length >>> 8).toUInt8, topic.length.toUInt8] ++ (topic ++ hi :: lo :: data) := by
    have hsize : 4 + (topic.length + (2 + data.length)) = 2 + ([(topic.length >>> 8).toUInt8,
        topic.length.toUInt8] ++ topic ++ [hi, lo] ++ data).length := by
      simp
      omega
    rw [hsize, hbytes]
    simp
  have hlen' : 2 + data.length = (hi :: lo :: data).length := by
    simp
    omega
  rw [bytesAt_add, bytesAt_add, hlen'] at hparts
  obtain ⟨hhead, hrest⟩ := append_inj hparts (by simp)
  obtain ⟨htopic, hdata⟩ := append_inj hrest (by simp)
  have hdata' : bytesAt (fun i => mem (4 + topic.length + i)) (2 + data.length) =
      hi :: lo :: data := by
    simp only [add_assoc]
    rw [hlen', hdata]
  refine ⟨mem, n, ?_, hmem, htopic, hdata'⟩
  have hids : [mem (4 + topic.length), mem (4 + topic.length + 1)] = [hi, lo] := by
    rw [bytesAt_add] at hdata'
    exact (append_inj hdata' (by simp)).1
  have hhead' : [mem 0, mem 1, mem 2, mem 3] = _ := hhead
  injection hhead' with _ hhead'
  injection hhead' with _ hhead'
  injection hhead' with h2 hhead'
  injection hhead' with h3 _
  injection hids with hhi hids
  injection hids with hlo _
  have htl : be16 (mem 2) (mem 3) = topic.length := by
    rw [h2, h3, be16_length (by omega)]
  have hdl : ((topic.length + data.length + 4 : Nat) : Int) - topic.length - 4 = data.length := by
    omega
  have hq12 : (q = 1 ∨ q = 2) ↔ ¬q = 0 := by omega
  rw [publishBytes, hmsg, hctl.2, hrem]
  simp only [messageAt, htl, hhi, hlo, hdl, hq12, ite_not]

theorem shifted_eq_iff (a : UInt8) :
    (bs : List UInt8) → ((a :: a :: bs).take bs.length = bs ↔ ∀ b ∈ bs, b = a)
  | [] => by simp
  | [b] => by simp [eq_comm]
  | b :: b' :: bs => by
    have ih := shifted_eq_iff a bs
    simp only [length_cons, take_succ_cons, cons.injEq, forall_mem_cons]
    constructor
    · rintro ⟨rfl, rfl, h⟩
      exact ⟨rfl, rfl, ih.1 h⟩
    · rintro ⟨rfl, rfl, h⟩
      exact ⟨rfl, rfl, ih.2 h⟩

/-- The packet delivers its topic, its data and its identifier to the `msgcb` of a client that
receives it. -/
def Arrives (c : MqttClient) (stack : Nat → UInt8) (o : Outgoing) (topic data : List UInt8) :
    Prop :=
  let p := (mqttPoll (Poll.start c stack (feed o.bytes))).2
  ∃ msg n, p.messages = [(msg, n)] ∧ msg.topicBytes p.data.byte = topic ∧
    msg.dataLen = data.length ∧ msg.dataBytes p.data.byte = data ∧
    ∀ id ∈ o.packetId, msg.packetId = id.toNat

theorem arrives_iff (hcb : c.msgcb = true) (hq : q ≤ 2)
    (hlen : topic.length + data.length ≤ 120) (ho : o.bytes = publishBytes q topic hi lo data)
    (h0 : q = 0 → hi = 0 ∧ lo = 0 ∧ o.packetId = none)
    (hid : q ≠ 0 → ∀ id ∈ o.packetId, be16 hi lo = id.toNat) (stack : Nat → UInt8) :
    Arrives c stack o topic data ↔ q ≠ 0 ∨ ∀ b ∈ data, b = 0 := by
  obtain ⟨mem, n, hmsg, hmem, htopic, hdata⟩ := poll_publishBytes hcb hq hlen hi lo stack
  have hshort : bytesAt (fun i => mem (4 + topic.length + i)) data.length =
      (hi :: lo :: data).take data.length := by
    rw [← hdata, add_comm 2, bytesAt_add, take_left' (by simp)]
  have hrest : bytesAt (fun i => mem (4 + topic.length + 2 + i)) data.length = data := by
    rw [bytesAt_add] at hdata
    have hsplit : _ ++ _ = [hi, lo] ++ data := hdata
    have hdrop := (append_inj hsplit (by simp)).2
    simp only [← add_assoc] at hdrop
    exact hdrop
  unfold Arrives
  rw [ho]
  dsimp only
  rw [hmsg, hmem]
  constructor
  · rintro ⟨msg, n', hm, -, -, hd, -⟩
    cases hm
    by_cases hz : q = 0
    · subst hz
      obtain ⟨rfl, rfl, -⟩ := h0 rfl
      have hd' : (0 :: 0 :: data).take data.length = data := hshort.symm.trans hd
      exact .inr ((shifted_eq_iff 0 data).1 hd')
    · exact .inl hz
  · intro h
    refine ⟨_, n, rfl, htopic, rfl, ?_, ?_⟩
    · show bytesAt (fun i => mem (4 + topic.length + (if q = 0 then 0 else 2) + i)) data.length =
        data
      by_cases hz : q = 0
      · obtain ⟨rfl, rfl, -⟩ := h0 hz
        rw [if_pos hz]
        exact hshort.trans ((shifted_eq_iff 0 data).2 (h.resolve_left (not_not.2 hz)))
      · rw [if_neg hz]
        exact hrest
    · intro id hi
      by_cases hz : q = 0
      · rw [(h0 hz).2.2] at hi
        cases hi
      · show (if q = 0 then 0 else _) = id.toNat
        rw [if_neg hz]
        exact hid hz id hi

/-- A published message arrives as it was sent exactly if it has a packet identifier or its data
is all zero: the two bytes that `mqtt_publish` puts in the place of the identifier at quality of
service 0 are taken for data. -/
theorem publish_round_trip (hw : 32 ≤ w) (h : Fits m topic data tl dl q) (hcb : c.msgcb = true)
    (nextId : UInt16) (stack stack' : Nat → UInt8) :
    ∃ o, mqttPublish w stack nextId m = .ok o ∧ (q ≠ 0 → o.packetId = some nextId) ∧
      (Arrives c stack' o (bytesAt topic tl) (bytesAt data dl) ↔
        q ≠ 0 ∨ ∀ b ∈ bytesAt data dl, b = 0) := by
  obtain ⟨o, hi, lo, ho, hbytes, h0, hid⟩ := mqttPublish_bytes hw h stack nextId
  refine ⟨o, ho, fun hq => (hid hq).1, arrives_iff hcb h.qos_le ?_ hbytes h0 ?_ stack'⟩
  · have htotal := h.total
    simp only [bytesAt_length]
    omega
  · intro hq id hm
    rw [(hid hq).1] at hm
    cases hm
    exact (hid hq).2

def sampleRequest (qos : Int) : PublishRequest :=
  ⟨some fun _ => 0x61, 1, some fun _ => 0x62, 1, qos⟩

theorem publish_round_trip_once :
    ∃ o, mqttPublish 32 (fun _ => 0) 7 (sampleRequest 1) = .ok o ∧ o.packetId = some 7 ∧
      Arrives ⟨[], true, false, true⟩ (fun _ => 0) o [0x61] [0x62] := by
  have hfits : Fits (sampleRequest 1) (fun _ => 0x61) (fun _ => 0x62) 1 1 1 :=
    ⟨rfl, rfl, rfl, rfl, rfl, by decide, by decide, by decide, by decide⟩
  obtain ⟨o, ho, hid, harr⟩ := publish_round_trip (c := ⟨[], true, false, true⟩)
    (show 32 ≤ 32 by decide) hfits rfl 7 (fun _ => 0) fun _ => 0
  exact ⟨o, ho, hid (by decide), harr.2 (.inl (by decide))⟩

/-- At quality of service 0 the data `b` arrives as a zero byte. -/
theorem unacknowledged_payload_shifted :
    ∃ o, mqttPublish 32 (fun _ => 0) 7 (sampleRequest 0) = .ok o ∧
      ¬Arrives ⟨[], true, false, true⟩ (fun _ => 0) o [0x61] [0x62] := by
  refine ⟨_, rfl, ?_⟩
  rintro ⟨msg, n, hm, -, -, hd, -⟩
  cases hm
  revert hd
  decide +kernel

end Mdepx.Mqtt
