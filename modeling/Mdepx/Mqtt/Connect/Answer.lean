import Mdepx.Mqtt.Connect.Steps

namespace Mdepx.Mqtt.Connect
open Lib List
open Acks (MQTT_ERR_OK MQTT_ERR_TIMEOUT)

/-! What a caller of `mqtt_connect` learns. -/

/-- A CONNACK with code 0 was processed while the request of `k` was on the list. -/
def Accepted (log : List Entry) (k : Call) : Prop :=
  ∃ listed taken, .connack ERR_ACCEPTED listed taken ∈ log ∧ k ∈ listed

/-- If there was one, the packet of `k` had been sent and the first CONNACK for its request was one;
and if the first was one with a code that the protocol does not have, the stack frame did not hold
`MQTT_ERR_OK`. -/
def Plain (log : List Entry) (k : Call) : Prop :=
  (Accepted log k → .sendFailed k ∉ log ∧ Taken log k ERR_ACCEPTED) ∧
    ∀ code, .sendFailed k ∉ log → Taken log k code → ERR_REFUSED_AUTHORIZATION < code →
      k.retval ≠ MQTT_ERR_OK

theorem taken_unique (h : Grown Honest log) (ht : Taken log k code) (ht' : Taken log k code') :
    code = code' := by
  induction h with
  | nil =>
    obtain ⟨listed, hm⟩ := ht
    cases hm
  | @cons e log he _ ih =>
    obtain ⟨listed, hm⟩ := ht
    obtain ⟨listed', hm'⟩ := ht'
    rcases mem_cons.1 hm with rfl | hold
    · rcases mem_cons.1 hm' with heq | hold'
      · cases heq
        rfl
      · exact absurd ⟨listed', hold'⟩ (he.2 code')
    · rcases mem_cons.1 hm' with rfl | hold'
      · exact absurd ⟨listed, hold⟩ (he.2 code)
      · exact ih ⟨listed, hold⟩ ⟨listed', hold'⟩

section
variable (h : Grown Honest log)
include h

theorem honest_of_mem (he : e ∈ log) :
    ∃ newer older, log = newer ++ e :: older ∧ Honest e older := by
  obtain ⟨newer, older, rfl⟩ := append_of_mem he
  exact ⟨newer, older, rfl, h.past⟩

theorem Taken.accepted (ht : Taken log k ERR_ACCEPTED) : Accepted log k := by
  obtain ⟨listed, he⟩ := ht
  obtain ⟨-, -, -, hk, -⟩ := honest_of_mem h he
  exact ⟨listed, some k, he, hk⟩

theorem taken_of_connected (he : .connected k flag ∈ log) : Taken log k ERR_ACCEPTED := by
  obtain ⟨newer, older, rfl, listed, hm⟩ := honest_of_mem h he
  exact ⟨listed, mem_append_right newer (mem_cons_of_mem _ hm)⟩

end

/-- A call of `mqtt_connect` returns `MQTT_ERR_OK` exactly if a CONNACK with code 0 was processed
while its request was on the list, and the client's flag has then been set, under the above
condition on the answer and the stack frame and under no other. -/
theorem connect_reports_answer [DecidableEq τ] {s : State τ}
    (h : Run (Steps exec) (fun _ _ => True) (start c) s)
    (hret : s.log = new ++ .returned k ret :: log) :
    ((ret = MQTT_ERR_OK ↔ Accepted log k) ∧ (ret = MQTT_ERR_OK → .connected k true ∈ log)) ↔
      Plain log k := by
  have hinv : Inv s := h.invariant Inv (start_inv c) fun ht _ hx => ht.step hx
  have hlog := hinv.log
  rw [hret] at hlog
  have hold : Grown Honest log := hlog.tail
  have hrefused {ret : Int} (hne : ret ≠ MQTT_ERR_OK) : ((ret = MQTT_ERR_OK ↔ Accepted log k) ∧
      (ret = MQTT_ERR_OK → .connected k true ∈ log)) ↔ ¬Accepted log k :=
    ⟨fun h ha => hne (h.1.2 ha), fun hn => ⟨iff_of_false hne hn, fun he => absurd he hne⟩⟩
  cases hlog.past with
  | notSent hs =>
    rw [hrefused (by decide)]
    exact ⟨fun hn => ⟨fun ha => absurd ha hn, fun _ hs' => absurd hs hs'⟩,
      fun hp ha => (hp.1 ha).1 hs⟩
  | timeout hs hn =>
    rw [hrefused (by decide)]
    exact ⟨fun hna => ⟨fun ha => absurd ha hna, fun code _ ht => absurd ht (hn code)⟩,
      fun hp ha => hn _ (hp.1 ha).2⟩
  | @answered code hs ht hc =>
    by_cases h0 : code = ERR_ACCEPTED
    · subst h0
      refine iff_of_true ⟨iff_of_true rfl (ht.accepted hold), fun _ => hc rfl⟩
        ⟨fun _ => ⟨hs, ht⟩, fun code' _ ht' hlt => ?_⟩
      rw [taken_unique hold ht' ht] at hlt
      exact absurd hlt (by decide)
    · have hother : ¬Taken log k ERR_ACCEPTED := fun ht' => h0 (taken_unique hold ht ht')
      have hplain : Plain log k ↔
          ¬Accepted log k ∧ (ERR_REFUSED_AUTHORIZATION < code → k.retval ≠ MQTT_ERR_OK) := by
        refine and_congr ⟨fun h ha => hother (h ha).2, fun hn ha => absurd ha hn⟩
          ⟨fun h => h code hs ht, fun h code' _ ht' => ?_⟩
        rw [taken_unique hold ht' ht]
        exact h
      rw [hplain, retvalOf, if_neg h0]
      by_cases hle : code ≤ ERR_REFUSED_AUTHORIZATION
      · rw [if_pos hle, hrefused (by decide)]
        exact (and_iff_left fun hlt => absurd hle (Nat.not_le.2 hlt)).symm
      · rw [if_neg hle]
        by_cases hstack : k.retval = MQTT_ERR_OK
        · refine iff_of_false (fun h => ?_) fun h => h.2 (Nat.not_le.1 hle) hstack
          exact hother (taken_of_connected hold (h.2 hstack))
        · rw [hrefused hstack]
          exact (and_iff_left fun _ => hstack).symm

def connackOf (code : UInt8) : List Reply := [⟨[0x20], false⟩, ⟨[2], false⟩, ⟨[0, code], false⟩]

def unset : MqttRequest := ⟨0, .connect, 0, 0, 0, 0⟩

theorem connect_reports_answer_accepted :
    ∃ s : State Unit, Run (Steps exec) (fun _ _ => True) (start ⟨[], false, false, false⟩) s ∧
      ∃ log, s.log = .returned ⟨0, 7⟩ 0 :: log ∧ Plain log ⟨0, 7⟩ ∧
        .connected ⟨0, 7⟩ true ∈ log := by
  obtain ⟨s, hs, hlog⟩ := Run.of_checked exec (fun _ _ => True)
    (start ⟨[], false, false, false⟩ : State Unit)
    [.call () unset 7, .sent () false, .poll () (fun _ => 0) (connackOf 0), .acquired (),
      .remove (), .settle (), .ret ()]
    (fun s => s.log = [.returned ⟨0, 7⟩ 0, .connected ⟨0, 7⟩ true,
      .connack 0 [⟨0, 7⟩] (some ⟨0, 7⟩)]) (by decide +kernel)
  have hret : s.log = [] ++ .returned ⟨0, 7⟩ 0 :: _ := hlog
  have hp : Plain [.connected ⟨0, 7⟩ true, .connack 0 [⟨0, 7⟩] (some ⟨0, 7⟩)] ⟨0, 7⟩ :=
    ⟨fun _ => ⟨by decide, [⟨0, 7⟩], by decide⟩, fun _ _ _ _ => by decide⟩
  exact ⟨s, hs, _, hlog, hp, ((connect_reports_answer hs hret).2 hp).2 rfl⟩

/-- A CONNACK with a code above 5 makes `mqtt_connect` return what its stack frame held, be it
`MQTT_ERR_OK`; of two CONNACKs only the first one counts; and one that is processed while
`mqtt_send` is about to fail does not count. -/
theorem connect_reports_stack :
    (∃ s : State Unit, Run (Steps exec) (fun _ _ => True) (start ⟨[], false, false, false⟩) s ∧
      s.client.connected = false ∧
      s.log = [.returned ⟨0, 0⟩ MQTT_ERR_OK, .connack 6 [⟨0, 0⟩] (some ⟨0, 0⟩)]) ∧
    (∃ s : State Unit, Run (Steps exec) (fun _ _ => True) (start ⟨[], false, false, false⟩) s ∧
      s.log = [.returned ⟨0, 0⟩ MQTT_ERR_UNKNOWN, .connack 0 [⟨0, 0⟩] none,
        .connack 1 [⟨0, 0⟩] (some ⟨0, 0⟩)]) ∧
    ∃ s : State Bool, Run (Steps exec) (fun _ _ => True) (start ⟨[], false, false, false⟩) s ∧
      s.log = [.returned ⟨0, 0⟩ MQTT_ERR_CONN, .sendFailed ⟨0, 0⟩,
        .connack 0 [⟨0, 0⟩] (some ⟨0, 0⟩)] := by
  refine ⟨?_, ?_, ?_⟩
  · exact Run.of_checked exec (fun _ _ => True) (start ⟨[], false, false, false⟩ : State Unit)
      [.call () unset 0, .sent () false, .poll () (fun _ => 0) (connackOf 6), .acquired (),
        .remove (), .settle (), .ret ()]
      (fun s => s.client.connected = false ∧
        s.log = [.returned ⟨0, 0⟩ MQTT_ERR_OK, .connack 6 [⟨0, 0⟩] (some ⟨0, 0⟩)])
      (by decide +kernel)
  · exact Run.of_checked exec (fun _ _ => True) (start ⟨[], false, false, false⟩ : State Unit)
      [.call () unset 0, .sent () false, .poll () (fun _ => 0) (connackOf 1), .timedOut (),
        .poll () (fun _ => 0) (connackOf 0), .acquired (), .remove (), .settle (), .ret ()]
      (fun s => s.log = [.returned ⟨0, 0⟩ MQTT_ERR_UNKNOWN, .connack 0 [⟨0, 0⟩] none,
        .connack 1 [⟨0, 0⟩] (some ⟨0, 0⟩)]) (by decide +kernel)
  · exact Run.of_checked exec (fun _ _ => True) (start ⟨[], false, false, false⟩ : State Bool)
      [.call true unset 0, .poll false (fun _ => 0) (connackOf 0), .sent true true, .remove true,
        .settle true, .ret true]
      (fun s => s.log = [.returned ⟨0, 0⟩ MQTT_ERR_CONN, .sendFailed ⟨0, 0⟩,
        .connack 0 [⟨0, 0⟩] (some ⟨0, 0⟩)]) (by decide +kernel)

end Mdepx.Mqtt.Connect
