import Mdepx.Mqtt.Basic

namespace Mdepx.Mqtt
open Lib List

/-! Which packets keep `mqtt_poll` inside its buffer. -/

/-- The ranges of a message lie inside the bytes received, and none has a negative length. -/
def Inside (d : Message × Nat) : Prop :=
  0 ≤ d.1.dataLen ∧ d.1.topic + d.1.topicLen ≤ d.2 ∧ (d.1.data : Int) + d.1.dataLen ≤ d.2

def InBounds (p : Poll) : Prop := p.data.Within 128 ∧ ∀ d ∈ p.messages, Inside d

theorem inBounds_get : InBounds (Poll.get p i).2 ↔ i < 128 ∧ InBounds p := by
  simp only [InBounds, Poll.get, Buffer.within_get, and_assoc]

theorem inBounds_get_of_lt (h : i < 128) : InBounds (Poll.get p i).2 ↔ InBounds p := by
  rw [inBounds_get, and_iff_right h]

theorem inBounds_recv : InBounds (mqttRecv p off len).2 ↔
    (p.reply.bytes.take len = [] ∨ off + (p.reply.bytes.take len).length ≤ 128) ∧ InBounds p := by
  simp only [InBounds, mqttRecv, Buffer.within_put, and_assoc]

theorem inBounds_recv_of_le (h : off + len ≤ 128) :
    InBounds (mqttRecv p off len).2 ↔ InBounds p := by
  have hle : (p.reply.bytes.take len).length ≤ len := length_take_le _ _
  rw [inBounds_recv]
  exact and_iff_right (.inr (by omega))

theorem inBounds_update : InBounds (Poll.update p found upd) ↔ InBounds p := Iff.rfl

theorem inBounds_send : InBounds (mqttSend p bs) ↔ InBounds p := Iff.rfl

theorem inBounds_event : InBounds (mqttEvent p ev) ↔ InBounds p := by
  unfold mqttEvent
  split
  · exact Iff.rfl
  · exact Iff.rfl

theorem inBounds_packetId : InBounds (Poll.packetId p).2 ↔ InBounds p := by
  simp only [Poll.packetId]
  rw [inBounds_get_of_lt (by decide), inBounds_get_of_lt (by decide)]

theorem handlePingresp_inBounds : InBounds (handlePingresp p).2 ↔ InBounds p := by
  unfold handlePingresp
  dsimp only
  split
  · exact inBounds_recv_of_le (by decide)
  · rw [inBounds_update]
    exact inBounds_recv_of_le (by decide)

theorem readMsg_inBounds (h : size ≤ 126) : InBounds (readMsg p size).2 ↔ InBounds p := by
  have h1 : InBounds ((mqttRecv p 1 1).2.get 1).2 ↔ InBounds p := by
    rw [inBounds_get_of_lt (by decide), inBounds_recv_of_le (by decide)]
  unfold readMsg
  dsimp only
  split
  · exact inBounds_recv_of_le (by decide)
  · split
    · exact h1
    · rename_i hrem
      have hle : 2 + ((mqttRecv p 1 1).2.get 1).1.toNat ≤ 128 := by
        rw [Decidable.not_not.1 hrem]
        omega
      split
      · rw [inBounds_recv_of_le hle]
        exact h1
      · rw [inBounds_recv_of_le hle]
        exact h1

theorem handleAck_inBounds : InBounds (handleAck p state qos update).2 ↔ InBounds p := by
  have hr := readMsg_inBounds (p := p) (show 2 ≤ 126 by decide)
  unfold handleAck
  dsimp only
  split
  · exact hr
  · rw [inBounds_update, inBounds_packetId, hr]

theorem handlePubrec_inBounds : InBounds (handlePubrec p).2 ↔ InBounds p := by
  have hr := readMsg_inBounds (p := p) (show 2 ≤ 126 by decide)
  unfold handlePubrec
  dsimp only
  split
  · exact hr
  · split
    · rw [mqttSendPubrel, inBounds_send, inBounds_update, inBounds_packetId, hr]
    · rw [inBounds_update, inBounds_packetId, hr]

theorem handleConnack_inBounds : InBounds (handleConnack p).2 ↔ InBounds p := by
  have hr := readMsg_inBounds (p := p) (show 2 ≤ 126 by decide)
  unfold handleConnack
  dsimp only
  split
  · exact hr
  · rw [inBounds_update, inBounds_get_of_lt (by decide), inBounds_get_of_lt (by decide), hr]

theorem handleSuback_inBounds : InBounds (handleSuback p).2 ↔ InBounds p := by
  have hr := readMsg_inBounds (p := p) (show 2 + 1 ≤ 126 by decide)
  unfold handleSuback
  dsimp only
  split
  · exact hr
  · rw [inBounds_update, inBounds_get_of_lt (by decide), inBounds_packetId, hr]

theorem publishPacketId_inBounds : InBounds (publishPacketId p qos pos).2.2 ↔
    (qos = 1 ∨ qos = 2 → pos + 2 ≤ 128) ∧ InBounds p := by
  unfold publishPacketId
  by_cases hq : qos = 1 ∨ qos = 2
  · rw [if_pos hq, inBounds_get, inBounds_get]
    constructor
    · intro h
      exact ⟨fun _ => h.1, h.2.2⟩
    · intro h
      have hle := h.1 hq
      exact ⟨hle, by omega, h.2⟩
  · rw [if_neg hq]
    exact (and_iff_right fun h => absurd h hq).symm

theorem callMsgcb_inBounds : InBounds (Poll.callMsgcb p m) ↔
    InBounds p ∧ (p.client.msgcb = true → Inside (m, p.received)) := by
  unfold Poll.callMsgcb
  split
  · rename_i hcb
    simp only [InBounds, forall_mem_append, forall_mem_singleton, hcb, forall_const,
      and_assoc]
  · rename_i hcb
    exact (and_iff_left fun h => absurd h hcb).symm

theorem inside_iff {rem : Nat} (hpos : pos = 4 + topicLen ∨ pos = 4 + topicLen + 2) :
    Inside (⟨4, topicLen, pos, (rem : Int) - topicLen - 4, packetId⟩, 2 + rem) ↔
      topicLen + 4 ≤ rem := by
  simp only [Inside]
  omega

theorem deliver_inBounds (hr : p.received = 2 + rem) :
    InBounds (deliver p qos rem) ↔ InBounds p ∧
      (qos = 1 ∨ qos = 2 → be16 (p.data.byte 2) (p.data.byte 3) + 6 ≤ 128) ∧
      (p.client.msgcb = true → be16 (p.data.byte 2) (p.data.byte 3) + 4 ≤ rem) := by
  have hpos (q : Poll) (pos : Nat) : (publishPacketId q qos pos).2.1 = pos ∨
      (publishPacketId q qos pos).2.1 = pos + 2 := by
    unfold publishPacketId
    split
    · exact .inr rfl
    · exact .inl rfl
  have hsame (q : Poll) (pos : Nat) :
      (publishPacketId q qos pos).2.2.received = q.received ∧
        (publishPacketId q qos pos).2.2.client = q.client := by
    unfold publishPacketId
    split
    · exact ⟨rfl, rfl⟩
    · exact ⟨rfl, rfl⟩
  have hsend (q : Poll) (k : Nat) :
      InBounds (if qos = 1 then mqttSendPuback q k else q) ↔ InBounds q := by
    split
    · exact inBounds_send
    · exact Iff.rfl
  have htopic : p.packetId.1 = be16 (p.data.byte 2) (p.data.byte 3) := rfl
  have hrecv : p.packetId.2.received = 2 + rem := hr
  unfold deliver
  dsimp only
  rw [hsend, callMsgcb_inBounds, publishPacketId_inBounds, inBounds_packetId,
    (hsame _ _).1, (hsame _ _).2, hrecv, inside_iff (hpos _ _), htopic]
  constructor
  · intro h
    refine ⟨h.1.2, fun hq => ?_, h.2⟩
    have hle := h.1.1 hq
    omega
  · intro h
    refine ⟨⟨fun hq => ?_, h.1⟩, h.2.2⟩
    have hle := h.2.1 hq
    omega

theorem recv_one_iff : (mqttRecv p off 1).1 = 1 ↔ ∃ b, p.reply.Gives b := by
  simp only [mqttRecv, Reply.Gives]
  cases hf : p.reply.failed with
  | true => simp
  | false =>
    cases hb : p.reply.bytes with
    | nil | cons => simp

theorem Reply.Gives.take_one (h : Reply.Gives r b) : r.bytes.take 1 = [b] := by
  obtain ⟨-, hb⟩ := h
  cases hs : r.bytes with
  | nil =>
    rw [hs] at hb
    cases hb
  | cons =>
    rw [hs] at hb
    cases hb
    rfl

theorem Reply.Gives.unique (h : Reply.Gives r b) (h' : Reply.Gives r b') : b = b' :=
  Option.some.inj (h.2.symm.trans h'.2)

/-- The body of a PUBLISH packet, as the network delivers it, is handled within bounds: it fits
behind the two bytes of the fixed header, and its topic fits too. Bytes that are not delivered
are what the stack holds. -/
def HarmlessBody (msgcb : Bool) (stack : Nat → UInt8) (qos rem : Nat) (r : Reply) : Prop :=
  let body := r.bytes.take rem
  let topicLen := be16 (body.getD 0 (stack 2)) (body.getD 1 (stack 3))
  (body = [] ∨ 2 + body.length ≤ 128) ∧
    (r.failed = false → body.length = rem →
      (qos = 1 ∨ qos = 2 → topicLen + 6 ≤ 128) ∧ (msgcb = true → topicLen + 4 ≤ rem))

/-- A stream of replies is harmless unless it starts with a PUBLISH packet whose body is not. -/
def Harmless (c : MqttClient) (stack : Nat → UInt8) (input : List Reply) : Prop :=
  ∀ first rem, (input.headD .closed).Gives first → first &&& MQTT_CONTROL_M = CONTROL_PUBLISH →
    (input.tail.headD .closed).Gives rem →
    HarmlessBody c.msgcb stack (qosOf first) rem.toNat (input.tail.tail.headD .closed)

theorem recv_full_iff {rem : Nat} : (mqttRecv p off rem).1 = rem ↔
    p.reply.failed = false ∧ (p.reply.bytes.take rem).length = rem := by
  simp only [mqttRecv]
  cases hf : p.reply.failed with
  | true =>
    simp only [if_true, Bool.true_eq_false, false_and, iff_false]
    omega
  | false => simp only [Bool.false_eq_true, if_false, true_and, Int.natCast_inj]

theorem publishBody_inBounds (hr : p.received ≤ 2) :
    InBounds (publishBody p qos rem).2 ↔
      InBounds p ∧ HarmlessBody p.client.msgcb p.data.byte qos rem p.reply := by
  unfold publishBody HarmlessBody
  dsimp only
  by_cases hfull : (mqttRecv p 2 rem).1 = rem
  · obtain ⟨hok, hlen⟩ := recv_full_iff.1 hfull
    have hreceived : (mqttRecv p 2 rem).2.received = 2 + rem := by
      show max p.received (2 + (p.reply.bytes.take rem).length) = 2 + rem
      rw [hlen]
      omega
    have hbyte (j : Nat) : (mqttRecv p 2 rem).2.data.byte (2 + j) =
        (p.reply.bytes.take rem).getD j (p.data.byte (2 + j)) := Buffer.put_byte_add _ _ _ _
    have hcb : (mqttRecv p 2 rem).2.client = p.client := rfl
    rw [if_neg (not_not.2 hfull), deliver_inBounds hreceived, inBounds_recv, hbyte 0, hbyte 1, hcb]
    constructor
    · intro h
      exact ⟨h.1.2, h.1.1, fun _ _ => h.2⟩
    · intro h
      exact ⟨⟨h.2.1, h.1⟩, h.2.2 hok hlen⟩
  · rw [if_pos hfull, inBounds_event, inBounds_recv]
    constructor
    · intro h
      exact ⟨h.2, h.1, fun hok hlen => absurd (recv_full_iff.2 ⟨hok, hlen⟩) hfull⟩
    · intro h
      exact ⟨h.2.1, h.1⟩

theorem handlePublish_inBounds (hr : p.received ≤ 1) :
    InBounds (handlePublish p).2 ↔ InBounds p ∧ ∀ rem, p.reply.Gives rem →
      HarmlessBody p.client.msgcb p.data.byte (qosOf (p.data.byte 0)) rem.toNat
        (p.input.tail.headD .closed) := by
  have h1 : InBounds (mqttRecv (p.get 0).2 1 1).2 ↔ InBounds p := by
    rw [inBounds_recv_of_le (by decide), inBounds_get_of_lt (by decide)]
  unfold handlePublish
  dsimp only
  by_cases hg : ∃ rem, p.reply.Gives rem
  · obtain ⟨rem, hg⟩ := hg
    have hone : (mqttRecv (p.get 0).2 1 1).1 = 1 := recv_one_iff.2 ⟨rem, hg⟩
    have hput : (mqttRecv (p.get 0).2 1 1).2.data = (p.get 0).2.data.put 1 [rem] :=
      congrArg ((p.get 0).2.data.put 1) hg.take_one
    have hrem : ((mqttRecv (p.get 0).2 1 1).2.get 1).1 = rem := by
      show (mqttRecv (p.get 0).2 1 1).2.data.byte 1 = rem
      rw [hput]
      exact Buffer.put_byte_add _ 1 [rem] 0
    have hreceived : ((mqttRecv (p.get 0).2 1 1).2.get 1).2.received ≤ 2 := by
      show max p.received (1 + (p.reply.bytes.take 1).length) ≤ 2
      rw [hg.take_one]
      exact Nat.max_le.2 ⟨by omega, Nat.le_refl _⟩
    have hstack (j : Nat) (hj : 2 ≤ j) :
        ((mqttRecv (p.get 0).2 1 1).2.get 1).2.data.byte j = p.data.byte j := by
      show (mqttRecv (p.get 0).2 1 1).2.data.byte j = p.data.byte j
      obtain ⟨k, hk⟩ := Nat.exists_eq_add_of_le hj
      rw [hput, hk, show 2 + k = 1 + (k + 1) by omega, Buffer.put_byte_add]
      rfl
    rw [if_neg (not_not.2 hone), hrem, publishBody_inBounds hreceived,
      inBounds_get_of_lt (by decide), h1]
    have hbody : HarmlessBody ((mqttRecv (p.get 0).2 1 1).2.get 1).2.client.msgcb
        ((mqttRecv (p.get 0).2 1 1).2.get 1).2.data.byte (qosOf (p.get 0).1) rem.toNat
        ((mqttRecv (p.get 0).2 1 1).2.get 1).2.reply ↔
        HarmlessBody p.client.msgcb p.data.byte (qosOf (p.data.byte 0)) rem.toNat
          (p.input.tail.headD .closed) := by
      unfold HarmlessBody
      rw [hstack 2 (Nat.le_refl _), hstack 3 (by decide)]
      rfl
    rw [hbody]
    apply and_congr_right
    intro _
    constructor
    · intro h b hb
      rw [← hg.unique hb]
      exact h
    · intro h
      exact h rem hg
  · have hone : (mqttRecv (p.get 0).2 1 1).1 ≠ 1 := mt recv_one_iff.1 hg
    rw [if_pos hone, inBounds_event, h1]
    exact (and_iff_left fun rem hrem => absurd ⟨rem, hrem⟩ hg).symm

theorem handleRecv_inBounds (hr : p.received ≤ 1) :
    InBounds (handleRecv p).2 ↔ InBounds p ∧
      (p.data.byte 0 &&& MQTT_CONTROL_M = CONTROL_PUBLISH → ∀ rem, p.reply.Gives rem →
        HarmlessBody p.client.msgcb p.data.byte (qosOf (p.data.byte 0)) rem.toNat
          (p.input.tail.headD .closed)) := by
  have hget : InBounds (p.get 0).2 ↔ InBounds p := inBounds_get_of_lt (by decide)
  have hpub := handlePublish_inBounds (p := (p.get 0).2) hr
  have hother {q : Int × Poll} (hq : InBounds q.2 ↔ InBounds (p.get 0).2)
      (hne : p.data.byte 0 &&& MQTT_CONTROL_M ≠ CONTROL_PUBLISH) :
      InBounds q.2 ↔ InBounds p ∧ (p.data.byte 0 &&& MQTT_CONTROL_M = CONTROL_PUBLISH →
        ∀ rem, p.reply.Gives rem → HarmlessBody p.client.msgcb p.data.byte
          (qosOf (p.data.byte 0)) rem.toNat (p.input.tail.headD .closed)) := by
    rw [hq, hget]
    exact (and_iff_left fun h => absurd h hne).symm
  unfold handleRecv
  dsimp only
  have hctl : (p.get 0).1 &&& MQTT_CONTROL_M = p.data.byte 0 &&& MQTT_CONTROL_M := rfl
  rw [hctl]
  by_cases h : p.data.byte 0 &&& MQTT_CONTROL_M = CONTROL_PUBLISH
  · rw [h, if_neg (by decide), if_neg (by decide), if_neg (by decide), if_pos rfl, hpub, hget]
    apply and_congr_right
    intro _
    exact ⟨fun hb _ => hb, fun hb => hb rfl⟩
  · rw [if_neg h]
    split
    · exact hother handleConnack_inBounds h
    · split
      · exact hother handlePingresp_inBounds h
      · split
        · exact hother handleSuback_inBounds h
        · split
          · exact hother handleAck_inBounds h
          · split
            · exact hother handlePubrec_inBounds h
            · split
              · exact hother handleAck_inBounds h
              · exact hother Iff.rfl h

/-- A call of `mqtt_poll` stays inside its buffer, and the message it delivers inside the bytes
received, exactly if the network's replies are harmless. -/
theorem mqtt_poll_in_bounds_iff (c : MqttClient) (stack : Nat → UInt8) (input : List Reply) :
    InBounds (mqttPoll (Poll.start c stack input)).2 ↔ Harmless c stack input := by
  have hstart : InBounds (Poll.start c stack input) :=
    ⟨fun _ hi => absurd hi not_mem_nil, fun _ hd => absurd hd not_mem_nil⟩
  have h0 : InBounds (mqttRecv (Poll.start c stack input) 0 1).2 :=
    (inBounds_recv_of_le (by decide)).2 hstart
  unfold mqttPoll
  dsimp only
  by_cases hg : ∃ first, (input.headD .closed).Gives first
  · obtain ⟨first, hg⟩ := hg
    have hone : (mqttRecv (Poll.start c stack input) 0 1).1 = 1 := recv_one_iff.2 ⟨first, hg⟩
    have hdata : (mqttRecv (Poll.start c stack input) 0 1).2.data =
        (Poll.start c stack input).data.put 0 [first] :=
      congrArg ((Poll.start c stack input).data.put 0) hg.take_one
    have hbyte0 : (mqttRecv (Poll.start c stack input) 0 1).2.data.byte 0 = first := by
      rw [hdata]
      exact Buffer.put_byte_add _ 0 [first] 0
    have hstack (j : Nat) : (mqttRecv (Poll.start c stack input) 0 1).2.data.byte (j + 1) =
        stack (j + 1) := by
      rw [hdata, ← Nat.zero_add (j + 1), Buffer.put_byte_add]
      rfl
    have hreceived : (mqttRecv (Poll.start c stack input) 0 1).2.received ≤ 1 := by
      show max 0 (0 + ((input.headD .closed).bytes.take 1).length) ≤ 1
      rw [hg.take_one]
      exact Nat.le_refl 1
    have hclose (q : Int × Poll) :
        InBounds (if q.1 ≠ 0 then (q.1, mqttEvent q.2 .disconnected) else ((0 : Int), q.2)).2 ↔
          InBounds q.2 := by
      split
      · exact inBounds_event
      · exact Iff.rfl
    rw [hone, if_neg (by decide), if_pos rfl, hclose, handleRecv_inBounds hreceived, hbyte0,
      and_iff_right h0]
    unfold Harmless
    constructor
    · intro h first' rem hf hctl hrem
      have hff := hg.unique hf
      subst hff
      have hb := h hctl rem hrem
      unfold HarmlessBody at hb ⊢
      rw [hstack 1, hstack 2] at hb
      exact hb
    · intro h hctl rem hrem
      have hb := h first rem hg hctl hrem
      unfold HarmlessBody at hb ⊢
      rw [hstack 1, hstack 2]
      exact hb
  · have hone : (mqttRecv (Poll.start c stack input) 0 1).1 ≠ 1 := mt recv_one_iff.1 hg
    have hharm : Harmless c stack input := fun first _ hf _ _ => absurd ⟨first, hf⟩ hg
    refine iff_of_true ?_ hharm
    split
    · exact inBounds_event.2 h0
    · exact h0

/-- A PUBLISH packet of 255 further bytes overruns the buffer. -/
theorem long_publish_overruns :
    ¬InBounds (mqttPoll (Poll.start ⟨[], true, false, true⟩ (fun _ => 0)
      [⟨[0x30], false⟩, ⟨[0xff], false⟩, ⟨replicate 255 0, false⟩])).2 := by
  intro h
  have hlast : 256 ∈ (mqttPoll (Poll.start ⟨[], true, false, true⟩ (fun _ => 0)
      [⟨[0x30], false⟩, ⟨[0xff], false⟩, ⟨replicate 255 0, false⟩])).2.data.touched := by
    decide +kernel
  exact absurd (h.1 256 hlast) (by decide)

/-- So does the topic length of a short one, here behind a body of four bytes. -/
example : ¬Harmless ⟨[], true, false, true⟩ (fun _ => 0)
    [⟨[0x30], false⟩, ⟨[4], false⟩, ⟨[0xff, 0xff, 0, 0], false⟩] := by
  intro h
  have hb := h 0x30 4 ⟨rfl, rfl⟩ (by decide) ⟨rfl, rfl⟩
  exact absurd ((hb.2 rfl rfl).2 rfl) (by decide)

end Mdepx.Mqtt
