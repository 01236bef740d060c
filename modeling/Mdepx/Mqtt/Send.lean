import Mdepx.Fifo.Basic
import Mdepx.Lib.Threads
import Mdepx.Mqtt.Basic

namespace Mdepx.Mqtt.Send
open Lib Fifo Function List

/-! The threads that send through one client, one at a time by `sem_send`. -/

structure Call where
  number : Nat
  buf : List UInt8
  deriving DecidableEq

/-- Where a thread is in `mqtt_send`: outside, on the `td_list` of `sem_send`, removed from it by
a post, in the loop, or behind the loop after a failed write. -/
inductive Stage where
  | out
  | waiting (k : Call)
  | woken (k : Call)
  | writing (k : Call) (sent : Nat)
  | failed (k : Call) (sent : Nat)
  deriving DecidableEq

/-- With the bytes written to the network, the calls that have acquired `sem_send` in this order,
and those that have returned, with what they returned. -/
structure State (τ : Type) where
  semSend : Sem τ
  stage : τ → Stage
  wire : List UInt8
  calls : Nat
  acquired : List Call
  returned : List (Call × Int)

inductive Op (τ : Type) where
  | send (td : τ) (buf : List UInt8)
  | resume (td : τ)
  | write (td : τ) (ret : Int)
  | post (td : τ)

def Stage.ended : Stage → Option (Call × Nat)
  | .writing k sent => if sent = k.buf.length then some (k, sent) else none
  | .failed k sent => some (k, sent)
  | _ => none

def Stage.queued : Stage → Option Call
  | .waiting k => some k
  | _ => none

section
variable [DecidableEq τ]

def State.wait (s : State τ) (td : τ) (buf : List UInt8) : State τ :=
  let k := ⟨s.calls, buf⟩
  let r := mdxSemWait s.semSend td
  let s := { s with semSend := r.1, calls := s.calls + 1 }
  if r.2 then { s with acquired := s.acquired ++ [k], stage := update s.stage td (.writing k 0) }
  else { s with stage := update s.stage td (.waiting k) }

def State.wake (s : State τ) (td : τ) : State τ :=
  match s.stage td with
  | .waiting k => { s with acquired := s.acquired ++ [k], stage := update s.stage td (.woken k) }
  | _ => s

def State.post (s : State τ) (td : τ) (k : Call) (sent : Nat) : State τ :=
  let r := mdxSemPost s.semSend
  let ret := if sent = k.buf.length then 0 else MQTT_ERR_CONN
  let s := { s with
      semSend := r.1, returned := s.returned ++ [(k, ret)]
      stage := update s.stage td .out }
  match r.2 with
  | none => s
  | some u => s.wake u

/-- One step of a thread: a call and its `mdx_sem_wait`, the return from it after having slept,
one call of `net->write` with its result, and what is behind the loop. -/
def exec (s : State τ) : Op τ → Option (State τ)
  | .send td buf => if s.stage td = .out then some (s.wait td buf) else none
  | .resume td =>
    match s.stage td with
    | .woken k => some { s with stage := update s.stage td (.writing k 0) }
    | _ => none
  | .write td ret =>
    match s.stage td with
    | .writing k sent =>
      if sent ≠ k.buf.length ∧ ret ≤ k.buf.length - sent then
        if ret < 0 then some { s with stage := update s.stage td (.failed k sent) }
        else
          some { s with
              wire := s.wire ++ (k.buf.drop sent).take ret.toNat
              stage := update s.stage td (.writing k (sent + ret.toNat)) }
      else none
    | _ => none
  | .post td => (s.stage td).ended.map fun e => s.post td e.1 e.2

end

def start : State τ := ⟨mdxSemInit 1, fun _ => .out, [], 0, [], []⟩

def Accepts (_ : State τ) : Op τ → Prop
  | .write _ ret => 0 ≤ ret
  | _ => True

instance (s : State τ) (op : Op τ) : Decidable (Accepts s op) := by
  unfold Accepts
  split <;> infer_instance

def packets (ks : List Call) : List UInt8 := ks.flatMap Call.buf

/-- Complete packets in the order in which `sem_send` was acquired, and the beginning of at most
one more; a call that has returned 0 is among the complete ones, and was there only once. -/
def Serialized (s : State τ) : Prop :=
  ∃ done cur n, s.acquired = done ++ Option.toList cur ∧
    s.wire = packets done ++ (packets cur.toList).take n ∧
    ∀ k, (k, 0) ∈ s.returned → k ∈ done ∧ s.acquired.count k = 1

def Stage.Idle (st : Stage) : Prop := st = .out ∨ ∃ k, st = .waiting k

theorem not_idle_of_busy {st : Stage} (h : st = .woken k ∨ ∃ n, st = .writing k n) :
    ¬st.Idle := by
  rintro (hk | ⟨k', hk⟩)
  · rw [hk] at h
    rcases h with h | ⟨n, h⟩ <;> cases h
  · rw [hk] at h
    rcases h with h | ⟨n, h⟩ <;> cases h

inductive Owner (s : State τ) : Option Call → Nat → Prop where
  | free (hc : s.semSend.count = 1) (hq : s.semSend.tdList = []) (hi : ∀ t, (s.stage t).Idle) :
      Owner s none 0
  | woken (t : τ) (hc : s.semSend.count = 0) (ht : s.stage t = .woken k)
      (hi : ∀ u, u ≠ t → (s.stage u).Idle) : Owner s (some k) 0
  | writing (t : τ) (hc : s.semSend.count = 0) (ht : s.stage t = .writing k n)
      (hn : n ≤ k.buf.length) (hi : ∀ u, u ≠ t → (s.stage u).Idle) : Owner s (some k) n

def State.queued (s : State τ) : List Call :=
  s.semSend.tdList.filterMap fun t => (s.stage t).queued

structure Serial (s : State τ) (done : List Call) (cur : Option Call) (n : Nat) : Prop where
  owner : Owner s cur n
  acquired : s.acquired = done ++ cur.toList
  wire : s.wire = packets done ++ (packets cur.toList).take n
  returned : s.returned = done.map fun k => (k, 0)
  nodup : s.semSend.tdList.Nodup
  waits : ∀ t, t ∈ s.semSend.tdList ↔ ∃ k, s.stage t = .waiting k
  line : (s.acquired ++ s.queued).map Call.number = range s.calls

section
variable [DecidableEq τ] {s s' : State τ} {td : τ}

theorem waits_update {stage : τ → Stage} {tds : List τ}
    (h : ∀ t, t ∈ tds ↔ ∃ k, stage t = .waiting k) (ht : ∀ k, stage td ≠ .waiting k)
    (hst : ∀ k, st ≠ .waiting k) (t : τ) :
    t ∈ tds ↔ ∃ k, update stage td st t = .waiting k := by
  rw [h]
  by_cases htd : t = td
  · subst htd
    rw [update_self]
    exact iff_of_false (fun ⟨k, hk⟩ => ht k hk) fun ⟨k, hk⟩ => hst k hk
  · rw [update_of_ne htd]

omit [DecidableEq τ] in
theorem Serial.not_waiting (h : Serial s done cur n) (ht : ∀ k, s.stage td ≠ .waiting k) :
    td ∉ s.semSend.tdList := by
  rw [h.waits]
  rintro ⟨k, hk⟩
  exact ht k hk

omit [DecidableEq τ] in
theorem Serial.holder (h : Serial s done cur n) (ht : ¬(s.stage td).Idle) :
    s.semSend.count = 0 ∧ (∀ u, u ≠ td → (s.stage u).Idle) ∧
      ∃ k, cur = some k ∧ (s.stage td = .woken k ∧ n = 0 ∨
        s.stage td = .writing k n ∧ n ≤ k.buf.length) := by
  cases h.owner with
  | free _ _ hi => exact absurd (hi td) ht
  | woken t hc hst hi =>
    by_cases htd : td = t
    · subst htd
      exact ⟨hc, hi, _, rfl, .inl ⟨hst, rfl⟩⟩
    · exact absurd (hi td htd) ht
  | writing t hc hst hn hi =>
    by_cases htd : td = t
    · subst htd
      exact ⟨hc, hi, _, rfl, .inr ⟨hst, hn⟩⟩
    · exact absurd (hi td htd) ht

theorem out_ne_waiting (h : st = Stage.out) (k : Call) : st ≠ .waiting k := by
  rw [h]
  exact nofun

theorem range_concat {ks : List Call} (h : ks.map Call.number = range n) (buf : List UInt8) :
    (ks ++ [Call.mk n buf]).map Call.number = range (n + 1) := by
  rw [map_append, h, range_succ]
  rfl

theorem Serial.take (h : Serial s done cur n) (ht : s.stage td = .out)
    (hc : 0 < s.semSend.count) (buf : List UInt8) :
    Serial (s.wait td buf) done (some ⟨s.calls, buf⟩) 0 := by
  have hwait : s.wait td buf = { s with
      semSend := { s.semSend with count := s.semSend.count - 1 }
      calls := s.calls + 1
      acquired := s.acquired ++ [Call.mk s.calls buf]
      stage := update s.stage td (.writing ⟨s.calls, buf⟩ 0) } := by
    simp only [State.wait, mdxSemWait, if_pos hc, if_true]
  cases h.owner with
  | free hc1 hq hi =>
    have hacq : s.acquired = done := h.acquired.trans (append_nil done)
    have hline := h.line
    rw [State.queued, hq, filterMap_nil, append_nil] at hline
    rw [hwait]
    constructor
    · apply Owner.writing td
      · show s.semSend.count - 1 = 0
        rw [hc1]
        rfl
      · exact update_self ..
      · exact Nat.zero_le _
      · exact others_update (fun u _ => hi u) _
    · show s.acquired ++ [_] = done ++ [_]
      rw [hacq]
    · show s.wire = packets done ++ (packets [_]).take 0
      rw [h.wire, take_zero, take_zero]
    · exact h.returned
    · exact h.nodup
    · exact waits_update h.waits (out_ne_waiting ht) nofun
    · simp only [State.queued, hq, filterMap_nil, append_nil]
      exact range_concat hline buf
  | woken | writing => omega

theorem Serial.block (h : Serial s done cur n) (ht : s.stage td = .out)
    (hc : ¬0 < s.semSend.count) (buf : List UInt8) :
    Serial (s.wait td buf) done cur n := by
  have hwait : s.wait td buf = { s with
      semSend := { s.semSend with tdList := s.semSend.tdList ++ [td] }
      calls := s.calls + 1, stage := update s.stage td (.waiting ⟨s.calls, buf⟩) } := by
    simp only [State.wait, mdxSemWait, if_neg hc, if_false, Bool.false_eq_true]
  have hnot := h.not_waiting (out_ne_waiting ht)
  have hidle {st : Stage} {t : τ} (hst : s.stage t = st) (hne : st ≠ .out)
      (hi : ∀ u, u ≠ t → (s.stage u).Idle) :
      update s.stage td (.waiting ⟨s.calls, buf⟩) t = st ∧
        ∀ u, u ≠ t → (update s.stage td (.waiting ⟨s.calls, buf⟩) u).Idle := by
    have hne' : t ≠ td := by
      rintro rfl
      exact hne (hst.symm.trans ht)
    refine ⟨(update_of_ne hne' _ _).trans hst, ?_⟩
    intro u hu
    by_cases hut : u = td
    · subst hut
      rw [update_self]
      exact .inr ⟨_, rfl⟩
    · rw [update_of_ne hut]
      exact hi u hu
  rw [hwait]
  constructor
  · cases h.owner with
    | free => omega
    | woken t hc0 hst hi =>
      obtain ⟨hst', hi'⟩ := hidle hst nofun hi
      exact .woken t hc0 hst' hi'
    | writing t hc0 hst hn hi =>
      obtain ⟨hst', hi'⟩ := hidle hst nofun hi
      exact .writing t hc0 hst' hn hi'
  · exact h.acquired
  · exact h.wire
  · exact h.returned
  · exact nodup_append_comm.1 (nodup_cons.2 ⟨hnot, h.nodup⟩)
  · intro t
    by_cases htd : t = td
    · subst htd
      simp
    · simp only [update_of_ne htd, mem_append, mem_singleton,
        htd, or_false]
      exact h.waits t
  · simp only [State.queued, filterMap_append, views_update Stage.queued hnot]
    rw [← append_assoc]
    simp only [filterMap_cons, filterMap_nil, update_self, Stage.queued]
    exact range_concat h.line buf

theorem Serial.proceed (h : Serial s done (some k) n) (ht : ¬(s.stage td).Idle) (bs : List UInt8)
    (hm : m ≤ k.buf.length) (hbs : k.buf.take m = k.buf.take n ++ bs) :
    Serial { s with
        wire := s.wire ++ bs
        stage := update s.stage td (.writing k m) } done (some k) m := by
  obtain ⟨hc, hi, -⟩ := h.holder ht
  have hwait (k' : Call) : s.stage td ≠ .waiting k' := fun hk => ht (.inr ⟨k', hk⟩)
  have hone : packets [k] = k.buf := append_nil k.buf
  constructor
  · exact .writing td hc (update_self ..) hm (others_update hi _)
  · exact h.acquired
  · show s.wire ++ bs = packets done ++ (packets [k]).take m
    rw [h.wire, append_assoc]
    show packets done ++ ((packets [k]).take n ++ bs) = packets done ++ (packets [k]).take m
    rw [hone, hbs]
  · exact h.returned
  · exact h.nodup
  · exact waits_update h.waits hwait nofun
  · simp only [State.queued, views_update Stage.queued (h.not_waiting hwait)]
    exact h.line

theorem Serial.resume (h : Serial s done cur n) (ht : s.stage td = .woken k) :
    ∃ done cur n, Serial { s with stage := update s.stage td (.writing k 0) } done cur n := by
  have hidle := not_idle_of_busy (.inl ht)
  obtain ⟨-, -, k', rfl, hst | hst⟩ := h.holder hidle
  · rw [ht] at hst
    obtain ⟨hk, rfl⟩ := hst
    cases hk
    have hgo := h.proceed hidle [] (Nat.zero_le _) (append_nil _).symm
    rw [append_nil] at hgo
    exact ⟨_, _, _, hgo⟩
  · rw [ht] at hst
    cases hst.1

theorem Serial.write (h : Serial s done cur n) (ht : s.stage td = .writing k sent)
    (hret : ret ≤ k.buf.length - sent) :
    ∃ done cur n, Serial { s with
        wire := s.wire ++ (k.buf.drop sent).take ret
        stage := update s.stage td (.writing k (sent + ret)) } done cur n := by
  have hidle := not_idle_of_busy (.inr ⟨_, ht⟩)
  obtain ⟨-, -, k', rfl, hst | hst⟩ := h.holder hidle
  · rw [ht] at hst
    cases hst.1
  · rw [ht] at hst
    obtain ⟨hk, hn⟩ := hst
    cases hk
    exact ⟨_, _, _, h.proceed hidle _ (by omega) take_add⟩

theorem Serial.post (h : Serial s done (some k) k.buf.length)
    (ht : s.stage td = .writing k k.buf.length) :
    ∃ cur n, Serial (s.post td k k.buf.length) (done ++ [k]) cur n := by
  have hidle := not_idle_of_busy (.inr ⟨_, ht⟩)
  obtain ⟨hc, hi, -⟩ := h.holder hidle
  have hwait (k' : Call) : s.stage td ≠ .waiting k' := fun hk => hidle (.inr ⟨k', hk⟩)
  have hwire : s.wire = packets (done ++ [k]) := by
    have hone : packets [k] = k.buf := append_nil k.buf
    have hw : s.wire = packets done ++ (packets [k]).take k.buf.length := h.wire
    rw [hw, hone, take_length, packets, packets, flatMap_append]
    exact congrArg (_ ++ ·) hone.symm
  have hret : s.returned ++ [(k, 0)] = (done ++ [k]).map fun k => (k, (0 : Int)) := by
    rw [h.returned, map_append]
    rfl
  have hout (t : τ) : (update s.stage td .out t).Idle := by
    by_cases htd : t = td
    · subst htd
      rw [update_self]
      exact .inl rfl
    · exact others_update hi .out t htd
  cases hq : s.semSend.tdList with
  | nil =>
    refine ⟨none, 0, ?_⟩
    simp only [State.post, mdxSemPost, hq, if_true]
    constructor
    · refine .free ?_ rfl hout
      show (s.semSend.count + 1).bmod (2 ^ 32) = 1
      rw [hc]
      decide
    · exact h.acquired.trans (append_nil _).symm
    · exact hwire.trans (append_nil _).symm
    · exact hret
    · exact nodup_nil
    · rw [← hq]
      exact waits_update h.waits hwait nofun
    · have hline := h.line
      rw [State.queued, hq] at hline
      exact hline
  | cons u =>
    obtain ⟨k', hu⟩ := (h.waits u).1 (hq ▸ mem_cons_self)
    have hnodup := h.nodup
    have hnot := h.not_waiting hwait
    rw [hq] at hnodup hnot
    obtain ⟨hut, htus⟩ := ne_and_not_mem_of_not_mem_cons hnot
    obtain ⟨huus, hus⟩ := nodup_cons.1 hnodup
    have hu' : update s.stage td .out u = .waiting k' := by
      rw [update_of_ne (Ne.symm hut), hu]
    refine ⟨some k', 0, ?_⟩
    simp only [State.post, mdxSemPost, hq, if_true, State.wake, hu']
    constructor
    · exact .woken u hc (update_self ..) (others_update (fun t _ => hout t) _)
    · exact congrArg (· ++ [k']) h.acquired
    · exact hwire.trans (append_nil _).symm
    · exact hret
    · exact hus
    · intro t
      dsimp only
      by_cases htu : t = u
      · subst htu
        rw [update_self]
        exact iff_of_false huus fun ⟨_, hk⟩ => nomatch hk
      · have hw := waits_update h.waits hwait (out_ne_waiting rfl) t
        rw [hq, mem_cons, or_iff_right htu] at hw
        rw [update_of_ne htu]
        exact hw
    · have hline := h.line
      rw [State.queued, hq, filterMap_cons, hu] at hline
      simp only [State.queued, views_update Stage.queued huus, views_update Stage.queued htus]
      rw [append_assoc]
      exact hline

theorem Serial.step (h : Serial s done cur n) (hok : Accepts s op) (hx : exec s op = some s') :
    ∃ done cur n, Serial s' done cur n := by
  cases op with
  | send td buf =>
    simp only [exec] at hx
    split at hx
    · rename_i ht
      cases hx
      by_cases hc : 0 < s.semSend.count
      · exact ⟨_, _, _, h.take ht hc buf⟩
      · exact ⟨_, _, _, h.block ht hc buf⟩
    · cases hx
  | resume td =>
    simp only [exec] at hx
    split at hx
    · rename_i k ht
      cases hx
      exact h.resume ht
    · cases hx
  | write td ret =>
    have hnonneg : 0 ≤ ret := hok
    simp only [exec] at hx
    split at hx
    · rename_i k sent ht
      split at hx
      · rename_i hret
        rw [if_neg (Int.not_lt.2 hnonneg)] at hx
        cases hx
        exact h.write ht (by omega)
      · cases hx
    · cases hx
  | post td =>
    obtain ⟨⟨k, sent⟩, he, rfl⟩ := Option.map_eq_some_iff.1 hx
    have hidle : ¬(s.stage td).Idle := by
      rintro (hk | ⟨k', hk⟩) <;> rw [hk] at he <;> cases he
    obtain ⟨-, -, k', rfl, hst | hst⟩ := h.holder hidle
    · rw [hst.1] at he
      cases he
    · rw [hst.1] at he
      simp only [Stage.ended] at he
      split at he
      · rename_i hn
        cases he
        subst hn
        obtain ⟨cur, n, hpost⟩ := h.post hst.1
        exact ⟨_, cur, n, hpost⟩
      · cases he

omit [DecidableEq τ] in
theorem start_serial : Serial (start : State τ) [] none 0 where
  owner := .free rfl rfl fun _ => .inl rfl
  acquired := rfl
  wire := rfl
  returned := rfl
  nodup := nodup_nil
  waits := fun _ => iff_of_false not_mem_nil fun ⟨_, hk⟩ => nomatch hk
  line := rfl

omit [DecidableEq τ] in
theorem Serial.serialized (h : Serial s done cur n) : Serialized s := by
  refine ⟨done, cur, n, h.acquired, h.wire, ?_⟩
  intro k hk
  rw [h.returned, mem_map] at hk
  obtain ⟨k', hk', hkk⟩ := hk
  cases hkk
  have hnodup : ((s.acquired ++ s.queued).map Call.number).Nodup := by
    rw [h.line]
    exact nodup_range
  have hacq : s.acquired.Nodup := (List.Nodup.of_map _ hnodup).of_append_left
  have hmem : k ∈ s.acquired := by
    rw [h.acquired]
    exact mem_append_left _ hk'
  exact ⟨hk', count_eq_one_of_mem hacq hmem⟩

/-- At every moment the bytes on the wire are complete packets, in the order in which `sem_send`
was acquired, and the beginning of at most one more. -/
theorem packets_not_interleaved (h : Run (Steps exec) Accepts (start : State τ) s) :
    Serialized s := by
  obtain ⟨done, cur, n, hs⟩ := h.invariant (fun s => ∃ done cur n, Serial s done cur n)
    ⟨_, _, _, start_serial⟩ fun ⟨_, _, _, ht⟩ hok hx => ht.step hok hx
  exact hs.serialized

end

theorem packets_not_interleaved_short_writes :
    ∃ s : State Bool, Run (Steps exec) Accepts start s ∧ s.wire = [1, 2, 3] ∧
      s.returned = [(⟨0, [1, 2]⟩, 0)] ∧ Serialized s := by
  obtain ⟨s, hs, hw, hr⟩ := Run.of_checked exec Accepts (start : State Bool)
    [.send true [1, 2], .send false [3], .write true 1, .write true 0, .write true 1, .post true,
      .resume false, .write false 1]
    (fun s => s.wire = [1, 2, 3] ∧ s.returned = [(⟨0, [1, 2]⟩, 0)]) (by decide +kernel)
  exact ⟨s, hs, hw, hr, packets_not_interleaved hs⟩

end Mdepx.Mqtt.Send
