import Mathlib.Algebra.GroupWithZero.Nat
import Mathlib.Data.Fintype.Basic
import Mdepx.Lib.Run
import Mdepx.Lib.Threads

namespace Mdepx.Mqtt.Ids
open Lib Function List

/-! The packet identifiers, from `next_id`, which is incremented without a lock. -/

/-- Where a thread is in one of the two functions: outside, between the read and the write of
`next_id`, behind the write, with its request on `msg_list`, and behind the send. -/
inductive Stage where
  | out
  | reading (id : UInt16)
  | numbered (id : UInt16)
  | listed (id : UInt16)
  | sent (id : UInt16)
  deriving DecidableEq

structure Sent where
  packetId : UInt16
  others : List UInt16
  deriving DecidableEq

/-- The client with its list of requests, which are known by their threads, the packets sent and
the number of times that `next_id` was read. -/
structure State (τ : Type) where
  nextId : UInt16
  msgList : List (τ × UInt16)
  stage : τ → Stage
  packets : List Sent
  taken : Nat

inductive Op (τ : Type) where
  | read (td : τ)
  | write (td : τ)
  | append (td : τ)
  | send (td : τ)
  | remove (td : τ)

section
variable [DecidableEq τ]

def State.others (s : State τ) (td : τ) : List UInt16 :=
  (s.msgList.filter fun m => m.1 ≠ td).map Prod.snd

/-- One step of a thread: the two halves of `next_id++`, `list_append`, `mqtt_send` and
`list_remove`. -/
def exec (s : State τ) : Op τ → Option (State τ)
  | .read td =>
    if s.stage td = .out then
      some { s with taken := s.taken + 1, stage := update s.stage td (.reading s.nextId) }
    else none
  | .write td =>
    match s.stage td with
    | .reading id => some { s with nextId := id + 1, stage := update s.stage td (.numbered id) }
    | _ => none
  | .append td =>
    match s.stage td with
    | .numbered id => some { s with
        msgList := s.msgList ++ [(td, id)]
        stage := update s.stage td (.listed id) }
    | _ => none
  | .send td =>
    match s.stage td with
    | .listed id =>
      some { s with
          packets := s.packets ++ [Sent.mk id (s.others td)]
          stage := update s.stage td (.sent id) }
    | _ => none
  | .remove td =>
    match s.stage td with
    | .sent _ => some { s with
        msgList := s.msgList.filter fun m => m.1 ≠ td
        stage := update s.stage td .out }
    | _ => none

end

def start : State τ := ⟨1, [], fun _ => .out, [], 0⟩

def Unambiguous (s : State τ) : Prop := ∀ p ∈ s.packets, p.packetId ≠ 0 ∧ p.packetId ∉ p.others

def Stage.busy : Stage → Bool
  | .reading _ => true
  | _ => false

/-- No thread reads `next_id` between another one's read and write, and it is read fewer than
2^16 times. -/
def Apart (s : State τ) : Op τ → Prop
  | .read _ => (∀ u, (s.stage u).busy = false) ∧ s.taken + 1 < 2 ^ 16
  | _ => True

instance [Fintype τ] (s : State τ) (op : Op τ) : Decidable (Apart s op) := by
  unfold Apart
  split <;> infer_instance

def Stage.id : Stage → Option UInt16
  | .out => none
  | .reading id | .numbered id | .listed id | .sent id => some id

structure Fresh (s : State τ) : Prop where
  range : ∀ t id, (s.stage t).id = some id → 1 ≤ id.toNat ∧ id.toNat ≤ s.taken
  inj : ∀ t u id, (s.stage t).id = some id → (s.stage u).id = some id → t = u
  listed : ∀ m ∈ s.msgList, (s.stage m.1).id = some m.2
  taken : s.taken < 2 ^ 16
  next : (∀ u, (s.stage u).busy = false) → s.nextId.toNat = (s.taken + 1) % 2 ^ 16
  busy : ∀ t id, s.stage t = .reading id →
    id.toNat = s.taken ∧ ∀ u, u ≠ t → (s.stage u).busy = false
  clear : Unambiguous s

section
variable [DecidableEq τ] {s s' : State τ} {td : τ}

theorem reading_update {stage : τ → Stage} {id : UInt16} (hst : st.busy = false)
    (h : update stage td st t = .reading id) : t ≠ td ∧ stage t = .reading id := by
  by_cases ht : t = td
  · subst ht
    rw [update_self] at h
    rw [h] at hst
    cases hst
  · rw [update_of_ne ht] at h
    exact ⟨ht, h⟩

theorem Fresh.move (h : Fresh s) (hid : st.id = (s.stage td).id) (hb : (s.stage td).busy = false)
    (hb' : st.busy = false) {msgs : List (τ × UInt16)} {sent : List Sent}
    (hm : ∀ m ∈ msgs, (s.stage m.1).id = some m.2)
    (hs : ∀ p ∈ sent, p.packetId ≠ 0 ∧ p.packetId ∉ p.others) :
    Fresh { s with msgList := msgs, packets := sent, stage := update s.stage td st } := by
  have hbusy := view_update Stage.busy (hb'.trans hb.symm)
  constructor
  · intro t id ht
    rw [view_update Stage.id hid] at ht
    exact h.range t id ht
  · intro t u id ht hu
    rw [view_update Stage.id hid] at ht hu
    exact h.inj t u id ht hu
  · intro m hmem
    rw [view_update Stage.id hid]
    exact hm m hmem
  · exact h.taken
  · intro hall
    apply h.next
    intro u
    rw [← hbusy u]
    exact hall u
  · intro t id ht
    obtain ⟨-, ht⟩ := reading_update hb' ht
    obtain ⟨hlast, hothers⟩ := h.busy t id ht
    refine ⟨hlast, fun u hu => ?_⟩
    rw [hbusy u]
    exact hothers u hu
  · exact hs

omit [DecidableEq τ] in
theorem Fresh.unlisted (h : Fresh s) (ht : s.stage td = .out) (hm : m ∈ s.msgList) : m.1 ≠ td := by
  intro hmt
  have hid := h.listed m hm
  rw [hmt, ht] at hid
  cases hid

theorem Fresh.read (h : Fresh s) (ht : s.stage td = .out)
    (hall : ∀ u, (s.stage u).busy = false) (htaken : s.taken + 1 < 2 ^ 16) :
    Fresh { s with taken := s.taken + 1, stage := update s.stage td (.reading s.nextId) } := by
  have hnext : s.nextId.toNat = s.taken + 1 := by
    rw [h.next hall]
    exact Nat.mod_eq_of_lt htaken
  have hid (t : τ) (id : UInt16)
      (hid : (update s.stage td (.reading s.nextId) t).id = some id) :
      t = td ∧ id = s.nextId ∨ t ≠ td ∧ (s.stage t).id = some id ∧ id.toNat ≤ s.taken := by
    by_cases htd : t = td
    · subst htd
      rw [update_self] at hid
      cases hid
      exact .inl ⟨rfl, rfl⟩
    · rw [update_of_ne htd] at hid
      exact .inr ⟨htd, hid, (h.range t id hid).2⟩
  constructor
  · intro t id hti
    show 1 ≤ id.toNat ∧ id.toNat ≤ s.taken + 1
    rcases hid t id hti with ⟨-, rfl⟩ | ⟨-, hold, hle⟩
    · omega
    · have hrange := h.range t id hold
      omega
  · intro t u id hti hui
    rcases hid t id hti with ⟨rfl, hn⟩ | ⟨-, hold, hle⟩
    · rcases hid u id hui with ⟨rfl, -⟩ | ⟨-, -, hle⟩
      · rfl
      · rw [hn] at hle
        omega
    · rcases hid u id hui with ⟨-, rfl⟩ | ⟨-, hold', -⟩
      · omega
      · exact h.inj t u id hold hold'
  · intro m hm
    simp only [update_of_ne (h.unlisted ht hm)]
    exact h.listed m hm
  · exact htaken
  · intro hbusy
    have htd := hbusy td
    simp only [update_self] at htd
    cases htd
  · intro t id hti
    by_cases htd : t = td
    · subst htd
      simp only [update_self] at hti
      cases hti
      refine ⟨hnext, ?_⟩
      intro u hu
      simp only [update_of_ne hu]
      exact hall u
    · simp only [update_of_ne htd] at hti
      have hb := hall t
      rw [hti] at hb
      cases hb
  · exact h.clear

section
variable {id : UInt16} (h : Fresh s)
include h

theorem Fresh.write (ht : s.stage td = .reading id) :
    Fresh { s with nextId := id + 1, stage := update s.stage td (.numbered id) } := by
  obtain ⟨hlast, hothers⟩ := h.busy td id ht
  have hid : (Stage.numbered id).id = (s.stage td).id := by
    rw [ht]
    rfl
  constructor
  · intro t id ht
    rw [view_update Stage.id hid] at ht
    exact h.range t id ht
  · intro t u id ht hu
    rw [view_update Stage.id hid] at ht hu
    exact h.inj t u id ht hu
  · intro m hm
    rw [view_update Stage.id hid]
    exact h.listed m hm
  · exact h.taken
  · intro _
    show (id + 1).toNat = (s.taken + 1) % 2 ^ 16
    rw [UInt16.toNat_add, hlast]
    rfl
  · intro t id' hti
    obtain ⟨htd, hti⟩ := reading_update rfl hti
    have hb := hothers t htd
    rw [hti] at hb
    cases hb
  · exact h.clear

theorem Fresh.append (ht : s.stage td = .numbered id) :
    Fresh { s with
        msgList := s.msgList ++ [(td, id)]
        stage := update s.stage td (.listed id) } := by
  have hid : (s.stage td).id = some id := by
    rw [ht]
    rfl
  have hb : (s.stage td).busy = false := by
    rw [ht]
    rfl
  refine h.move (show (Stage.listed id).id = _ from hid.symm) hb rfl ?_ h.clear
  intro m hm
  rcases mem_append.1 hm with hm | hm
  · exact h.listed m hm
  · rw [mem_singleton.1 hm]
    exact hid

theorem Fresh.send (ht : s.stage td = .listed id) :
    Fresh
      { s with
          packets := s.packets ++ [Sent.mk id (s.others td)]
          stage := update s.stage td (.sent id) } := by
  have hid : (s.stage td).id = some id := by
    rw [ht]
    rfl
  have hb : (s.stage td).busy = false := by
    rw [ht]
    rfl
  refine h.move (show (Stage.sent id).id = _ from hid.symm) hb rfl h.listed ?_
  intro p hp
  rcases mem_append.1 hp with hp | hp
  · exact h.clear p hp
  · rw [mem_singleton.1 hp]
    constructor
    · rintro rfl
      have hpos := (h.range td 0 hid).1
      cases hpos
    · intro hmem
      obtain ⟨m, hm, hmid⟩ := mem_map.1 hmem
      obtain ⟨hm, hne⟩ := mem_filter.1 hm
      have hlisted := h.listed m hm
      rw [hmid] at hlisted
      exact of_decide_eq_true hne (h.inj m.1 td id hlisted hid)

theorem Fresh.remove (ht : s.stage td = .sent id) :
    Fresh { s with
        msgList := s.msgList.filter fun m => m.1 ≠ td
        stage := update s.stage td .out } := by
  have hb : (s.stage td).busy = false := by
    rw [ht]
    rfl
  have hbusy := view_update Stage.busy (show Stage.out.busy = _ from hb.symm)
  have hid (t : τ) (id : UInt16) (hid : (update s.stage td .out t).id = some id) :
      (s.stage t).id = some id := by
    by_cases htd : t = td
    · subst htd
      rw [update_self] at hid
      cases hid
    · rw [update_of_ne htd] at hid
      exact hid
  constructor
  · intro t id hti
    exact h.range t id (hid t id hti)
  · intro t u id hti hui
    exact h.inj t u id (hid t id hti) (hid u id hui)
  · intro m hm
    obtain ⟨hm, hne⟩ := mem_filter.1 hm
    simp only [update_of_ne (of_decide_eq_true hne)]
    exact h.listed m hm
  · exact h.taken
  · intro hall
    apply h.next
    intro u
    rw [← hbusy u]
    exact hall u
  · intro t id hti
    obtain ⟨-, hti⟩ := reading_update rfl hti
    obtain ⟨hlast, hothers⟩ := h.busy t id hti
    refine ⟨hlast, fun u hu => ?_⟩
    rw [hbusy u]
    exact hothers u hu
  · exact h.clear

end

theorem Fresh.step (h : Fresh s) (hok : Apart s op) (hx : exec s op = some s') : Fresh s' := by
  cases op with
  | read td =>
    simp only [exec] at hx
    split at hx
    · rename_i ht
      cases hx
      exact h.read ht hok.1 hok.2
    · cases hx
  | write td =>
    simp only [exec] at hx
    split at hx
    · rename_i id ht
      cases hx
      exact h.write ht
    · cases hx
  | append td =>
    simp only [exec] at hx
    split at hx
    · rename_i id ht
      cases hx
      exact h.append ht
    · cases hx
  | send td =>
    simp only [exec] at hx
    split at hx
    · rename_i id ht
      cases hx
      exact h.send ht
    · cases hx
  | remove td =>
    simp only [exec] at hx
    split at hx
    · rename_i id ht
      cases hx
      exact h.remove ht
    · cases hx

omit [DecidableEq τ] in
theorem start_fresh : Fresh (start : State τ) where
  range := nofun
  inj := nofun
  listed := nofun
  taken := show 0 < 2 ^ 16 by decide
  next := fun _ => rfl
  busy := nofun
  clear := nofun

/-- Fewer than 2^16 identifiers, no two of them taken at the same time, are not zero and never
those of other requests. -/
theorem ids_unambiguous (h : Run (Steps exec) Apart (start : State τ) s) : Unambiguous s := by
  have hs : Fresh s := by
    apply h.invariant Fresh start_fresh
    intro t op u ht hok hx
    exact ht.step hok hx
  exact hs.clear

end

theorem ids_unambiguous_outstanding :
    ∃ s : State Bool, Run (Steps exec) Apart start s ∧ s.packets = [⟨1, [2]⟩, ⟨2, [1]⟩] ∧
      Unambiguous s := by
  obtain ⟨s, hs, hp⟩ := Run.of_checked exec Apart (start : State Bool)
    [.read true, .write true, .read false, .write false, .append true, .append false, .send true,
      .send false] (fun s => s.packets = [⟨1, [2]⟩, ⟨2, [1]⟩]) (by decide +kernel)
  exact ⟨s, hs, hp, ids_unambiguous hs⟩

/-- Two threads read `next_id` before either has written it. -/
theorem ids_collide :
    ∃ s : State Bool, Run (Steps exec) (fun _ _ => True) start s ∧ s.packets = [⟨1, [1]⟩] ∧
      ¬Unambiguous s := by
  obtain ⟨s, hs, hp⟩ := Run.of_checked exec (fun _ _ => True) (start : State Bool)
    [.read true, .read false, .write true, .write false, .append true, .append false, .send true]
    (fun s => s.packets = [⟨1, [1]⟩]) (by decide +kernel)
  refine ⟨s, hs, hp, ?_⟩
  intro h
  have hne := (h ⟨1, [1]⟩ (by rw [hp]; exact mem_singleton_self _)).2
  exact hne (mem_singleton_self _)

end Mdepx.Mqtt.Ids
