import Mdepx.Lib.Buffer

namespace Mdepx.Mqtt
open Lib

/-! The receiving side of the MQTT client: `mqtt_poll` and the handlers it dispatches to. -/

def FLAGS_PUBLISH_QOS_S : UInt8 := 1

def FLAGS_PUBLISH_QOS_M : UInt8 := 3 <<< FLAGS_PUBLISH_QOS_S

def MQTT_CONTROL_S : UInt8 := 4

def MQTT_CONTROL_M : UInt8 := 0xf <<< MQTT_CONTROL_S

def CONTROL_CONNACK : UInt8 := 2 <<< MQTT_CONTROL_S

def CONTROL_PUBLISH : UInt8 := 3 <<< MQTT_CONTROL_S

def CONTROL_PUBACK : UInt8 := 4 <<< MQTT_CONTROL_S

def CONTROL_PUBREC : UInt8 := 5 <<< MQTT_CONTROL_S

def CONTROL_PUBREL : UInt8 := 6 <<< MQTT_CONTROL_S

def CONTROL_PUBCOMP : UInt8 := 7 <<< MQTT_CONTROL_S

def CONTROL_SUBACK : UInt8 := 9 <<< MQTT_CONTROL_S

def CONTROL_PINGRESP : UInt8 := 13 <<< MQTT_CONTROL_S

def MQTT_ERR_CONN : Int := -3

def MQTT_ERR_UNKNOWN : Int := -4

inductive MsgState where
  | connect
  | connack
  | publish
  | puback
  | pubrec
  | pubrel
  | pubcomp
  | subscribe
  | suback
  | pingreq
  | pingresp
  deriving DecidableEq

/-- A queued `struct mqtt_request`; `complete` counts the posts of its semaphore. -/
structure MqttRequest where
  packetId : Nat
  state : MsgState
  qos : Nat
  error : Nat
  status : Nat
  complete : Nat
  deriving DecidableEq

/-- The `struct mqtt_request` that `msgcb` is given: topic and data are ranges of the buffer. -/
structure Message where
  topic : Nat
  topicLen : Nat
  data : Nat
  dataLen : Int
  packetId : Nat
  deriving DecidableEq

inductive ConnectionEvent where
  | connected
  | disconnected
  deriving DecidableEq

structure MqttClient where
  msgList : List MqttRequest
  connected : Bool
  event : Bool
  msgcb : Bool

/-- What one call of the network's read function delivers. It may fail after having written
some bytes. -/
structure Reply where
  bytes : List UInt8
  failed : Bool

def Reply.closed : Reply := ⟨[], false⟩

def Reply.Gives (r : Reply) (b : UInt8) : Prop := r.failed = false ∧ r.bytes.head? = some b

/-- A call of `mqtt_poll` under way: the client, the local buffer with the number of bytes
received into it, the replies of the network still to come, and what the world has seen of it
(messages, each with the bytes received by then, packets and events). -/
structure Poll where
  client : MqttClient
  data : Buffer
  received : Nat
  input : List Reply
  messages : List (Message × Nat)
  sent : List (List UInt8)
  events : List ConnectionEvent

def Poll.get (p : Poll) (i : Nat) : UInt8 × Poll :=
  ((p.data.get i).1, { p with data := (p.data.get i).2 })

def Poll.reply (p : Poll) : Reply := p.input.headD .closed

def mqttRecv (p : Poll) (off len : Nat) : Int × Poll :=
  let bytes := p.reply.bytes.take len
  (if p.reply.failed then -1 else bytes.length,
    { p with
      data := p.data.put off bytes
      received := max p.received (off + bytes.length)
      input := p.input.tail })

def mqttSend (p : Poll) (bs : List UInt8) : Poll := { p with sent := p.sent ++ [bs] }

def mqttEvent (p : Poll) (ev : ConnectionEvent) : Poll :=
  if p.client.connected = decide (ev = .connected) then p
  else
    { p with
      client := { p.client with connected := decide (ev = .connected) }
      events := if p.client.event then p.events ++ [ev] else p.events }

/-- The search of a handler through the queued requests: the first one found is updated. -/
def updateFirst (found : MqttRequest → Bool) (update : MqttRequest → MqttRequest) :
    List MqttRequest → List MqttRequest
  | [] => []
  | m :: ms => if found m then update m :: ms else m :: updateFirst found update ms

def Poll.update (p : Poll) (found : MqttRequest → Bool) (update : MqttRequest → MqttRequest) :
    Poll :=
  { p with client := { p.client with msgList := updateFirst found update p.client.msgList } }

def MqttRequest.post (m : MqttRequest) : MqttRequest := { m with complete := m.complete + 1 }

def be16 (hi lo : UInt8) : Nat := hi.toNat <<< 8 ||| lo.toNat

def packet (control : UInt8) (packetId : Nat) : List UInt8 :=
  [control, 2, (packetId >>> 8).toUInt8, (packetId &&& 0xff).toUInt8]

def mqttSendPubrel (p : Poll) (m : MqttRequest) : Poll :=
  mqttSend p (packet (CONTROL_PUBREL ||| 2) m.packetId)

def mqttSendPuback (p : Poll) (packetId : Nat) : Poll :=
  mqttSend p (packet CONTROL_PUBACK packetId)

def handlePingresp (p : Poll) : Int × Poll :=
  let (err, p) := mqttRecv p 1 1
  if err ≠ 1 then (MQTT_ERR_CONN, p)
  else
    (0, p.update (fun m => m.state = .pingreq) fun m => { m.post with state := .pingresp })

def readMsg (p : Poll) (sizeExpected : Nat) : Int × Poll :=
  let (err, p) := mqttRecv p 1 1
  if err ≠ 1 then (MQTT_ERR_CONN, p)
  else
    let (rem, p) := p.get 1
    if rem.toNat ≠ sizeExpected then (MQTT_ERR_UNKNOWN, p)
    else
      let (err, p) := mqttRecv p 2 rem.toNat
      if err ≠ rem.toNat then (MQTT_ERR_CONN, p) else (0, p)

def Poll.packetId (p : Poll) : Nat × Poll :=
  let (hi, p) := p.get 2
  let (lo, p) := p.get 3
  (be16 hi lo, p)

/-- The common shape of the handlers for acknowledgements of a published message. -/
def handleAck (p : Poll) (state : MsgState) (qos : Nat)
    (update : MqttRequest → MqttRequest) : Int × Poll :=
  let (err, p) := readMsg p 2
  if err ≠ 0 then (err, p)
  else
    let (packetId, p) := p.packetId
    (0, p.update (fun m => m.packetId = packetId ∧ m.state = state ∧ m.qos = qos) update)

def handlePuback (p : Poll) : Int × Poll :=
  handleAck p .publish 1 fun m => { m.post with state := .puback }

def handlePubcomp (p : Poll) : Int × Poll :=
  handleAck p .pubrec 2 fun m => { m.post with state := .pubcomp }

def handlePubrec (p : Poll) : Int × Poll :=
  let (err, p) := readMsg p 2
  if err ≠ 0 then (err, p)
  else
    let (packetId, p) := p.packetId
    let found (m : MqttRequest) : Bool := m.packetId = packetId ∧ m.state = .publish ∧ m.qos = 2
    let p' := p.update found fun m => { m with state := .pubrec }
    match p.client.msgList.find? found with
    | some m => (0, mqttSendPubrel p' m)
    | none => (0, p')

def handleConnack (p : Poll) : Int × Poll :=
  let (err, p) := readMsg p 2
  if err ≠ 0 then (err, p)
  else
    let (_, p) := p.get 2
    let (error, p) := p.get 3
    (0, p.update (fun m => m.state = .connect)
      fun m => { m.post with state := .connack, status := error.toNat })

def handleSuback (p : Poll) : Int × Poll :=
  let nTopics := 1
  let (err, p) := readMsg p (2 + nTopics)
  if err ≠ 0 then (err, p)
  else
    let (packetId, p) := p.packetId
    let (status, p) := p.get 4
    (0, p.update (fun m => m.packetId = packetId ∧ m.state = .subscribe)
      fun m => { m.post with state := .suback, error := status.toNat })

def qosOf (first : UInt8) : Nat :=
  ((first &&& 0xf &&& FLAGS_PUBLISH_QOS_M) >>> FLAGS_PUBLISH_QOS_S).toNat

/-- The packet identifier behind the topic, for the qualities of service that have one, and
the position of the data. -/
def publishPacketId (p : Poll) (qos pos : Nat) : Nat × Nat × Poll :=
  if qos = 1 ∨ qos = 2 then
    let (hi, p) := p.get pos
    let (lo, p) := p.get (pos + 1)
    (be16 hi lo, pos + 2, p)
  else (0, pos, p)

def Poll.callMsgcb (p : Poll) (m : Message) : Poll :=
  if p.client.msgcb then { p with messages := p.messages ++ [(m, p.received)] } else p

def deliver (p : Poll) (qos rem : Nat) : Poll :=
  let (topicLen, p) := p.packetId
  let (packetId, pos, p) := publishPacketId p qos (4 + topicLen)
  let p := p.callMsgcb
    { topic := 4, topicLen := topicLen, data := pos, dataLen := (rem : Int) - topicLen - 4,
      packetId := packetId }
  if qos = 1 then mqttSendPuback p packetId else p

def publishBody (p : Poll) (qos rem : Nat) : Int × Poll :=
  let (err, p) := mqttRecv p 2 rem
  if err ≠ rem then (MQTT_ERR_CONN, mqttEvent p .disconnected) else (0, deliver p qos rem)

def handlePublish (p : Poll) : Int × Poll :=
  let (first, p) := p.get 0
  let (err, p) := mqttRecv p 1 1
  if err ≠ 1 then (MQTT_ERR_CONN, mqttEvent p .disconnected)
  else
    let (rem, p) := p.get 1
    publishBody p (qosOf first) rem.toNat

def handleRecv (p : Poll) : Int × Poll :=
  let (first, p) := p.get 0
  let ctl := first &&& MQTT_CONTROL_M
  if ctl = CONTROL_CONNACK then handleConnack p
  else if ctl = CONTROL_PINGRESP then handlePingresp p
  else if ctl = CONTROL_SUBACK then handleSuback p
  else if ctl = CONTROL_PUBLISH then handlePublish p
  else if ctl = CONTROL_PUBACK then handlePuback p
  else if ctl = CONTROL_PUBREC then handlePubrec p
  else if ctl = CONTROL_PUBCOMP then handlePubcomp p
  else (0, p)

def mqttPoll (p : Poll) : Int × Poll :=
  let (err, p) := mqttRecv p 0 1
  if err = 0 then (MQTT_ERR_CONN, mqttEvent p .disconnected)
  else if err = 1 then
    let (err, p) := handleRecv p
    if err ≠ 0 then (err, mqttEvent p .disconnected) else (0, p)
  else (0, p)

def Poll.start (c : MqttClient) (stack : Nat → UInt8) (input : List Reply) : Poll where
  client := c
  data := ⟨stack, []⟩
  received := 0
  input := input
  messages := []
  sent := []
  events := []

end Mdepx.Mqtt
