import Mdepx.Mqtt.Publish

namespace Mdepx.Mqtt
open Lib List

/-! Which requests are encoded inside the buffer and with their true length. -/

def FLAGS_SUBSCRIBE : UInt8 := 2

def CONTROL_SUBSCRIBE : UInt8 := 8 <<< MQTT_CONTROL_S

structure SubscribeRequest where
  topic : Nat → UInt8
  topicLen : Int
  qos : Int

def subscribeTopic (w : Nat) (stack : Nat → UInt8) (nextId : UInt16) (topic : Nat → UInt8)
    (topicLen : Int) : Buffer :=
  let b := putTwo w ⟨stack, []⟩ 2 (nextId >>> 8).toUInt8 nextId.toUInt8
  let b := putTwo w b 4 (UInt8.ofInt (topicLen >>> 8)) (UInt8.ofInt topicLen)
  b.put 6 (bytesAt topic (word w topicLen))

def mqttSubscribe (w : Nat) (stack : Nat → UInt8) (nextId : UInt16) (s : SubscribeRequest) :
    Except Int Outgoing :=
  if s.qos ≠ 0 ∧ s.qos ≠ 1 then .error MQTT_ERR_REQ
  else
    let b := subscribeTopic w stack nextId s.topic s.topicLen
    let pos := 6 + s.topicLen
    let b := b.put (word w pos) [UInt8.ofInt s.qos]
    let pos := pos + 1
    let b := b.put 0 [CONTROL_SUBSCRIBE ||| FLAGS_SUBSCRIBE]
    .ok ⟨b.put 1 [UInt8.ofInt (pos - 2)], pos, some nextId, nextId + 1⟩

/-- The variable-length encoding of MQTT: seven bits a byte, the lowest first, as long as the top
bit is set, and at most `n` bytes. -/
def remainingLength : Nat → List UInt8 → Option (Nat × List UInt8)
  | 0, _ | _, [] => none
  | n + 1, b :: bs =>
    if b < 128 then some (b.toNat, bs)
    else (remainingLength n bs).map fun r => (b.toNat % 128 + 128 * r.1, r.2)

/-- The accesses to the 128 bytes of the buffer are inside it, and the remaining length tells
how many bytes follow it. -/
def Encoded (o : Outgoing) : Prop :=
  o.data.Within 128 ∧ ∃ rest, remainingLength 4 (o.bytes.drop 1) = some (rest.length, rest)

def IsInt (x : Int) : Prop := -2 ^ 31 ≤ x ∧ x < 2 ^ 31

section
variable (hw : 32 ≤ w) (hx : IsInt x)
include hw hx

theorem word_of_neg (hneg : x < 0) : 2 ^ 31 ≤ word w x := by
  have hpow : (2 : Int) ^ 32 ≤ 2 ^ w := by
    exact_mod_cast Nat.pow_le_pow_right (by decide : 0 < 2) hw
  have hlow := hx.1
  have hmod : x % 2 ^ w = x + 2 ^ w := by
    rw [← Int.add_emod_right x]
    exact Int.emod_eq_of_lt (by omega) (by omega)
  rw [word, hmod]
  omega

theorem word_le_iff (hn : n < 2 ^ 31) : word w x ≤ n ↔ 0 ≤ x ∧ x ≤ n := by
  have hpow : 2 ^ 32 ≤ 2 ^ w := Nat.pow_le_pow_right (by decide) hw
  rcases Int.lt_or_le x 0 with hneg | hpos
  · have hword := word_of_neg hw hx hneg
    omega
  · obtain ⟨k, rfl⟩ := Int.eq_ofNat_of_zero_le hpos
    have hk := hx.2
    rw [word_natCast (by omega)]
    omega

theorem word_eq_zero_iff : word w x = 0 ↔ x = 0 := by
  have h := word_le_iff hw hx (n := 0) (by decide)
  omega

end

theorem within_copy (hw : 32 ≤ w) (hlen : IsInt len) (hi : i ≤ 128) :
    (Buffer.put b i (bytesAt mem (word w len))).Within 128 ↔
      (len = 0 ∨ 0 ≤ len ∧ i + len ≤ 128) ∧ b.Within 128 := by
  have hle := word_le_iff hw hlen (n := 128 - i) (by omega)
  have hnil : bytesAt mem (word w len) = [] ↔ len = 0 := by
    rw [← word_eq_zero_iff hw hlen, ← length_eq_zero_iff, bytesAt_length]
  rw [Buffer.within_put, hnil, bytesAt_length]
  refine and_congr_left fun _ => or_congr_right ?_
  omega

theorem within_put_one {pos : Nat} :
    (Buffer.put b pos [x]).Within n ↔ pos < n ∧ b.Within n := by
  rw [Buffer.within_put]
  simp only [cons_ne_nil, false_or, length_singleton]
  exact Iff.rfl

theorem within_putTwo {pos : Nat} (h : pos + 1 < 2 ^ w) (b : Buffer) (hi lo : UInt8) :
    (putTwo w b pos hi lo).Within n ↔ pos + 1 < n ∧ b.Within n := by
  have hpos : word w (pos : Int) = pos := word_natCast (by omega)
  have hnext : word w ((pos : Int) + 1) = pos + 1 := by
    exact_mod_cast word_natCast (n := pos + 1) h
  rw [putTwo, hpos, hnext, within_put_one, within_put_one, ← and_assoc]
  refine and_congr_left fun _ => ?_
  omega

theorem within_of_putTwo (h : (putTwo w b pos hi lo).Within n) : b.Within n :=
  (within_put_one.1 (within_put_one.1 h).2).2

theorem within_start (stack : Nat → UInt8) (n : Nat) : (Buffer.mk stack []).Within n :=
  forall_mem_nil _

theorem remainingLength_short (h : rest.length < 128) (first : UInt8) :
    ∃ bs, remainingLength 4 ((first :: rest.length.toUInt8 :: rest).drop 1) =
      some (bs.length, bs) := by
  have hrem : rest.length.toUInt8.toNat = rest.length :=
    UInt8.toNat_ofNat_of_lt' (show _ < 256 by omega)
  have hlt : rest.length.toUInt8 < 128 := by
    rw [UInt8.lt_iff_toNat_lt, hrem]
    exact h
  refine ⟨rest, ?_⟩
  rw [drop_succ_cons, drop_zero, remainingLength, if_pos hlt, hrem]

theorem mqttPublish_ok (h : mqttPublish w stack nextId m = .ok o) :
    m.topicLen ≠ 0 ∧ m.dataLen ≠ 0 ∧ (m.qos = 0 ∨ m.qos = 1 ∨ m.qos = 2) ∧
    ∃ topic data hi lo,
      (o.data, o.pos) = publishPayload w (putTwo w (publishTopic w stack topic m.topicLen)
        (4 + m.topicLen) hi lo) (4 + m.topicLen + 2) data m.dataLen m.qos := by
  unfold mqttPublish at h
  split at h
  · rename_i topic data _ _
    split at h
    · cases h
    · rename_i hlen
      refine ⟨fun hz => hlen (.inl hz), fun hz => hlen (.inr hz), ?_⟩
      dsimp only at h
      split at h
      · rename_i hq
        cases h
        exact ⟨.inl hq, topic, data, _, _, rfl⟩
      · split at h
        · rename_i hq
          cases h
          exact ⟨.inr hq, topic, data, _, _, rfl⟩
        · cases h
  · cases h

theorem publish_within_iff (hw : 32 ≤ w) (htl : IsInt tl) (hdl : IsInt dl) (ht : tl ≠ 0)
    (hd : dl ≠ 0) :
    (publishPayload w (putTwo w (publishTopic w stack topic tl) (4 + tl) hi lo) (4 + tl + 2) data
      dl q).1.Within 128 ↔ 0 ≤ tl ∧ 0 ≤ dl ∧ tl + dl ≤ 122 := by
  have hpow : 2 ^ 32 ≤ 2 ^ w := Nat.pow_le_pow_right (by decide) hw
  have hhead : (publishTopic w stack topic tl).Within 128 ↔ 0 ≤ tl ∧ 4 + tl ≤ 128 := by
    have htwo : (putTwo w ⟨stack, []⟩ 2 (UInt8.ofInt (tl >>> 8)) (UInt8.ofInt tl)).Within 128 :=
      (within_putTwo (show 2 + 1 < 2 ^ w by omega) _ _ _).2 ⟨by decide, within_start stack 128⟩
    rw [publishTopic, within_copy hw htl (by decide), and_iff_left htwo, or_iff_right ht]
    exact Iff.rfl
  have hfit (htl' : 0 ≤ tl ∧ 4 + tl ≤ 128) : ∃ n : Nat, 4 + tl = n ∧ 4 ≤ n ∧ n ≤ 128 :=
    ⟨(4 + tl).toNat, by omega⟩
  unfold publishPayload
  dsimp only
  rw [within_put_one, within_put_one, and_iff_right (by decide), and_iff_right (by decide)]
  constructor
  · intro h
    have htwo := (Buffer.within_put.1 h).2
    obtain ⟨n, hn, hn4, hn128⟩ := hfit (hhead.1 (within_of_putTwo htwo))
    have hn2 : (n : Int) + 2 = ((n + 2 : Nat) : Int) := by omega
    rw [hn, hn2, word_natCast (by omega)] at h
    rw [hn] at htwo
    have hroom := ((within_putTwo (by omega) _ _ _).1 htwo).1
    have hcopy := ((within_copy hw hdl (by omega)).1 h).1.resolve_left hd
    omega
  · intro h
    obtain ⟨n, hn, hn4, hn128⟩ := hfit ⟨h.1, by omega⟩
    have hn2 : (n : Int) + 2 = ((n + 2 : Nat) : Int) := by omega
    rw [hn, hn2, word_natCast (by omega), within_copy hw hdl (by omega),
      within_putTwo (by omega), hhead]
    omega

theorem publish_encoded_iff (hw : 32 ≤ w) (htl : IsInt m.topicLen) (hdl : IsInt m.dataLen)
    (h : mqttPublish w stack nextId m = .ok o) :
    Encoded o ↔ 0 ≤ m.topicLen ∧ 0 ≤ m.dataLen ∧ m.topicLen + m.dataLen ≤ 122 := by
  obtain ⟨ht, hd, hq, topic, data, hi, lo, ho⟩ := mqttPublish_ok h
  have hpow : 2 ^ 32 ≤ 2 ^ w := Nat.pow_le_pow_right (by decide) hw
  have hdata := congrArg Prod.fst ho
  have hpos := congrArg Prod.snd ho
  unfold Encoded
  rw [show o.data = _ from hdata, publish_within_iff hw htl hdl ht hd]
  refine and_iff_left_of_imp ?_
  intro hlen
  obtain ⟨tl, hm⟩ := Int.eq_ofNat_of_zero_le hlen.1
  obtain ⟨dl, hm'⟩ := Int.eq_ofNat_of_zero_le hlen.2.1
  obtain ⟨q, hmq⟩ : ∃ q : Nat, m.qos = q := ⟨m.qos.toNat, by omega⟩
  have hbytes := packet_bytes (q := q) (show 6 + tl + dl < 2 ^ w by omega) stack topic data hi lo
  have hsize : o.pos.toNat = 6 + tl + dl := by
    rw [show o.pos = 4 + m.topicLen + 2 + m.dataLen from hpos]
    omega
  have hrest : tl + dl + 4 = ([((bytesAt topic tl).length >>> 8).toUInt8,
      (bytesAt topic tl).length.toUInt8] ++ bytesAt topic tl ++ [hi, lo] ++
      bytesAt data dl).length := by
    simp only [length_append, length_cons, length_nil, bytesAt_length]
    omega
  rw [Outgoing.bytes, hsize, show o.data = _ from hdata, hm, hm', hmq, hbytes, publishBytes]
  simp only [bytesAt_length] at hrest ⊢
  rw [hrest]
  exact remainingLength_short (by omega) _

theorem subscribeTopic_within_iff (hw : 32 ≤ w) (htl : IsInt tl) :
    (subscribeTopic w stack nextId topic tl).Within 128 ↔ 0 ≤ tl ∧ 6 + tl ≤ 128 := by
  have hpow : 2 ^ 32 ≤ 2 ^ w := Nat.pow_le_pow_right (by decide) hw
  have hid := (within_putTwo (show 2 + 1 < 2 ^ w by omega) _ (nextId >>> 8).toUInt8
    nextId.toUInt8).2 ⟨by decide, within_start stack 128⟩
  have hlen := (within_putTwo (show 4 + 1 < 2 ^ w by omega) _ (UInt8.ofInt (tl >>> 8))
    (UInt8.ofInt tl)).2 ⟨by decide, hid⟩
  refine (within_copy hw htl (show 6 ≤ 128 by decide)).trans ((and_iff_left hlen).trans ?_)
  omega

theorem subscribeTopic_bytes {tl : Nat} (h : 6 + tl < 2 ^ w) (stack topic : Nat → UInt8)
    (nextId : UInt16) :
    bytesAt (subscribeTopic w stack nextId topic tl).byte (6 + tl) =
      [stack 0, stack 1, (nextId >>> 8).toUInt8, nextId.toUInt8, (tl >>> 8).toUInt8,
        tl.toUInt8] ++ bytesAt topic tl := by
  have hid := bytesAt_putTwo (show 2 + 1 < 2 ^ w by omega) ⟨stack, []⟩ (nextId >>> 8).toUInt8
    nextId.toUInt8
  have htext := bytesAt_putText 4 h
    (putTwo w ⟨stack, []⟩ 2 (nextId >>> 8).toUInt8 nextId.toUInt8) topic
  refine htext.trans (congrArg (· ++ bytesAt topic tl) ?_)
  exact congrArg (· ++ [(tl >>> 8).toUInt8, tl.toUInt8]) hid

theorem subscribe_encoded_iff (hw : 32 ≤ w) (htl : IsInt s.topicLen)
    (h : mqttSubscribe w stack nextId s = .ok o) :
    Encoded o ↔ 0 ≤ s.topicLen ∧ s.topicLen ≤ 121 := by
  have hpow : 2 ^ 32 ≤ 2 ^ w := Nat.pow_le_pow_right (by decide) hw
  unfold mqttSubscribe at h
  split at h
  · cases h
  · cases h
    unfold Encoded
    dsimp only
    rw [within_put_one, within_put_one, within_put_one, subscribeTopic_within_iff hw htl]
    constructor
    · rintro ⟨⟨-, -, hlast, hlen⟩, -⟩
      have hnat : 6 + s.topicLen = ((6 + s.topicLen).toNat : Int) := by omega
      rw [hnat, word_natCast (by omega)] at hlast
      omega
    · intro hlen
      obtain ⟨tl, hs⟩ := Int.eq_ofNat_of_zero_le hlen.1
      have hend : (6 : Int) + tl = ((6 + tl : Nat) : Int) := by omega
      have hrem : ((6 + tl : Nat) : Int) + 1 - 2 = ((tl + 5 : Nat) : Int) := by omega
      have hsize : (((6 + tl : Nat) : Int) + 1).toNat = 6 + tl + 1 := by omega
      have hput := bytesAt_put (subscribeTopic w stack nextId s.topic tl) (6 + tl)
        [UInt8.ofInt s.qos]
      rw [length_singleton, subscribeTopic_bytes (by omega)] at hput
      rw [hs] at hlen ⊢
      rw [hend, word_natCast (by omega), hrem, ofInt_natCast, Outgoing.bytes, hsize,
        bytesAt_put_one, bytesAt_put_one, hput]
      refine ⟨⟨by decide, by decide, by omega, by omega, by omega⟩, ?_⟩
      have hrest : tl + 5 = ([(nextId >>> 8).toUInt8, nextId.toUInt8, (tl >>> 8).toUInt8,
          tl.toUInt8] ++ bytesAt s.topic tl ++ [UInt8.ofInt s.qos]).length := by
        simp only [length_append, length_cons, length_nil, bytesAt_length]
        omega
      rw [hrest]
      exact remainingLength_short (by omega) _

/-- A request is encoded inside the buffer and with its true length exactly if its lengths are
not negative and the whole packet has at most 128 bytes. -/
theorem requests_encoded_iff (hw : 32 ≤ w) (stack : Nat → UInt8) (nextId : UInt16) :
    (∀ m o, IsInt m.topicLen → IsInt m.dataLen → mqttPublish w stack nextId m = .ok o →
      (Encoded o ↔ 0 ≤ m.topicLen ∧ 0 ≤ m.dataLen ∧ 6 + m.topicLen + m.dataLen ≤ 128)) ∧
    ∀ s o, IsInt s.topicLen → mqttSubscribe w stack nextId s = .ok o →
      (Encoded o ↔ 0 ≤ s.topicLen ∧ 7 + s.topicLen ≤ 128) := by
  constructor
  · intro m o htl hdl h
    rw [publish_encoded_iff hw htl hdl h]
    omega
  · intro s o htl h
    rw [subscribe_encoded_iff hw htl h]
    omega

theorem requests_encoded_short :
    ∃ o, mqttPublish 32 (fun _ => 0) 7 (sampleRequest 1) = .ok o ∧ Encoded o :=
  ⟨_, rfl, ((requests_encoded_iff (show 32 ≤ 32 by decide) (fun _ => 0) 7).1 (sampleRequest 1) _
    ⟨by decide, by decide⟩ ⟨by decide, by decide⟩ rfl).2 ⟨by decide, by decide, by decide⟩⟩

/-- A topic of 122 bytes is written up to index 128. -/
theorem subscription_overflows :
    ∃ o, mqttSubscribe 32 (fun _ => 0) 1 ⟨fun _ => 0x61, 122, 0⟩ = .ok o ∧
      ¬o.data.Within 128 := by
  refine ⟨_, rfl, fun h => ?_⟩
  exact absurd (h 128 (by decide +kernel)) (by decide)

end Mdepx.Mqtt
