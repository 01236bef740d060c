import Mdepx.Mqtt.Connect.Basic

namespace Mdepx.Mqtt.Connect
open Lib Function List
open Acks (MQTT_ERR_OK MQTT_ERR_TIMEOUT)

/-! What every step of a thread keeps. -/

structure Inv (s : State τ) : Prop where
  log : Grown Honest s.log
  just : ∀ k m, (some k, m) ∈ s.msgList → Justified s.log k m
  others : ∀ m, (none, m) ∈ s.msgList → m.state ≠ .connect
  nodup : s.listed.Nodup
  known : ∀ k ∈ s.listed, k.number < s.calls
  past : ∀ e ∈ s.log, ∀ k, e.concerns k → k.number < s.calls
  number : ∀ td k, (s.stage td).call = some k → k.number < s.calls
  unique : ∀ td td' k, (s.stage td).call = some k → (s.stage td').call = some k → td = td'
  off : ∀ td k, (s.stage td).off = some k → k ∉ s.listed
  fits : ∀ td, Fits s.log (s.stage td)

def Entry.Fair (s : State τ) (td : τ) (e : Entry) : Prop :=
  ∀ k, e.concerns k →
    (s.stage td).call = some k ∨ k ∈ s.listed ∧ ∃ code listed, e = .connack code listed (some k)

section
variable [DecidableEq τ] {s s' : State τ} {td : τ}

omit [DecidableEq τ] in
theorem Inv.fits_other (h : Inv s) (he : Entry.Fair s td e) (hu : u ≠ td) :
    Fits (e :: s.log) (s.stage u) := by
  apply (h.fits u).cons
  · rintro k hk rfl
    rcases he k rfl with htd | ⟨-, code, listed, hc⟩
    · exact hu (h.unique u td k hk htd)
    · cases hc
  · intro k hk hcon
    rcases he k hcon with htd | ⟨hl, -⟩
    · exact hu (h.unique u td k (Stage.call_of_off hk) htd)
    · exact h.off u k hk hl

omit [DecidableEq τ] in
theorem Inv.of_step (h : Inv s) (s' : State τ) (td : τ)
    (hothers : ∀ u, u ≠ td → s'.stage u = s.stage u) (hself : s'.stage td = st)
    (e : Option Entry) (hlog : s'.log = e.toList ++ s.log)
    (hfair : ∀ x ∈ e, x.Fair s td) (hgrown : Grown Honest s'.log)
    (hjust : ∀ k m, (some k, m) ∈ s'.msgList → Justified s'.log k m)
    (hrest : ∀ m, (none, m) ∈ s'.msgList → m.state ≠ .connect) (hnodup : s'.listed.Nodup)
    (hcalls : s.calls ≤ s'.calls)
    (hlisted : ∀ k ∈ s'.listed, k ∈ s.listed ∨ s.calls ≤ k.number ∧ k.number < s'.calls)
    (hcall : ∀ k, st.call = some k →
      (s.stage td).call = some k ∨ s.calls ≤ k.number ∧ k.number < s'.calls)
    (hoff : ∀ k, st.off = some k → k ∉ s'.listed) (hfits : Fits s'.log st) : Inv s' := by
  have hnumber : ∀ k, st.call = some k → k.number < s'.calls := by
    intro k hk
    rcases hcall k hk with hk | hk
    · have hlt := h.number td k hk
      omega
    · exact hk.2
  refine ⟨hgrown, hjust, hrest, hnodup, ?_, ?_, ?_, ?_, ?_, ?_⟩
  · intro k hk
    rcases hlisted k hk with hk | hk
    · have hlt := h.known k hk
      omega
    · exact hk.2
  · intro x hx k hk
    rw [hlog, mem_append] at hx
    rcases hx with hx | hx
    · rcases hfair x (Option.mem_toList.1 hx) k hk with hk | ⟨hk, -⟩
      · have hlt := h.number td k hk
        omega
      · have hlt := h.known k hk
        omega
    · have hlt := h.past x hx k hk
      omega
  · intro u k hu
    by_cases hut : u = td
    · subst hut
      rw [hself] at hu
      exact hnumber k hu
    · rw [hothers u hut] at hu
      have hlt := h.number u k hu
      omega
  · have hone : ∀ u k, u ≠ td → (s.stage u).call = some k → st.call = some k → False := by
      intro u k hut hu hk
      rcases hcall k hk with hk | hk
      · exact hut (h.unique u td k hu hk)
      · have hlt := h.number u k hu
        omega
    intro u v k hu hv
    by_cases hut : u = td
    · by_cases hvt : v = td
      · rw [hut, hvt]
      · rw [hothers v hvt] at hv
        rw [hut, hself] at hu
        exact (hone v k hvt hv hu).elim
    · rw [hothers u hut] at hu
      by_cases hvt : v = td
      · rw [hvt, hself] at hv
        exact (hone u k hut hu hv).elim
      · rw [hothers v hvt] at hv
        exact h.unique u v k hu hv
  · intro u k hu
    by_cases hut : u = td
    · subst hut
      rw [hself] at hu
      exact hoff k hu
    · rw [hothers u hut] at hu
      have hlt := h.number u k (Stage.call_of_off hu)
      intro hk
      rcases hlisted k hk with hk | hk
      · exact h.off u k hu hk
      · omega
  · intro u
    by_cases hut : u = td
    · rw [hut, hself]
      exact hfits
    · rw [hothers u hut, hlog]
      cases e with
      | none => exact h.fits u
      | some x => exact h.fits_other (hfair x rfl) hut

theorem Inv.move (h : Inv s) (hcall : st.call = (s.stage td).call)
    (hoff : ∀ k, st.off = some k → k ∉ s.listed) (hfits : Fits s.log st) :
    Inv { s with stage := update s.stage td st } := by
  apply h.of_step { s with stage := update s.stage td st } td
    (fun u hu => update_of_ne hu _ _) (update_self ..) none rfl nofun h.log h.just h.others h.nodup
    le_rfl (fun k hk => .inl hk) ?_ hoff hfits
  intro k hk
  exact .inl (hcall.symm.trans hk)

theorem Inv.report (h : Inv s) (hk : (s.stage td).call = some k)
    (he : ∀ k', Entry.concerns e k' → k' = k) (hhonest : Honest e s.log)
    (hjust : ∀ k' m, (some k', m) ∈ s.msgList → Justified (e :: s.log) k' m)
    (hcall : ∀ k', st.call = some k' → k' = k) (hoff : ∀ k, st.off = some k → k ∉ s.listed)
    (hfits : Fits (e :: s.log) st) : Inv { s.note e with stage := update s.stage td st } := by
  apply h.of_step { s.note e with stage := update s.stage td st } td
    (fun u hu => update_of_ne hu _ _) (update_self ..) (some e) rfl ?_ (.cons hhonest h.log) hjust
    h.others h.nodup le_rfl (fun k hk => .inl hk) ?_ hoff hfits
  · intro x hx k' hc
    cases hx
    rw [he k' hc]
    exact .inl hk
  · intro k' hk'
    rw [hcall k' hk']
    exact .inl hk

theorem Inv.enter (h : Inv s) (hn : k.number = s.calls) (hr : r.state = .connect) :
    Inv (s.enter td k r) := by
  have hfresh : k ∉ s.listed := fun hk => lt_irrefl _ (hn ▸ h.known k hk)
  have hnew : ∀ e ∈ s.log, ¬e.concerns k := fun e he hc =>
    lt_irrefl _ (hn ▸ h.past e he k hc)
  have hlisted : (s.enter td k r).listed = s.listed ++ [k] := by
    rw [State.listed, State.enter, filterMap_append]
    rfl
  apply h.of_step (s.enter td k r) td
    (fun u hu => update_of_ne hu _ _) (update_self ..) none rfl nofun h.log
  · intro k' m hm
    rcases mem_append.1 hm with hm | hm
    · exact h.just k' m hm
    · cases mem_singleton.1 hm
      refine .inl ⟨hr, ?_⟩
      rintro code ⟨listed, hc⟩
      exact hnew _ hc rfl
  · intro m hm
    rcases mem_append.1 hm with hm | hm
    · exact h.others m hm
    · cases mem_singleton.1 hm
  · rw [hlisted, ← concat_eq_append]
    exact h.nodup.concat hfresh
  · exact Nat.le_succ _
  · intro k' hk
    rw [hlisted, mem_append] at hk
    rcases hk with hk | hk
    · exact .inl hk
    · rw [mem_singleton.1 hk]
      exact .inr ⟨le_of_eq hn.symm, Nat.lt_succ_of_le (le_of_eq hn)⟩
  · intro k' hk
    cases hk
    exact .inr ⟨le_of_eq hn.symm, Nat.lt_succ_of_le (le_of_eq hn)⟩
  · exact nofun
  · intro hs
    exact hnew _ hs rfl

theorem Inv.call (h : Inv s) (hx : exec s (.call td r retval) = some s') : Inv s' := by
  simp only [exec] at hx
  split at hx
  · cases hx
    exact h.enter rfl rfl
  · cases hx

theorem Inv.sent (h : Inv s) (hx : exec s (.sent td err) = some s') : Inv s' := by
  cases hst : s.stage td with
  | sending k =>
    have hf := h.fits td
    rw [hst] at hf
    simp only [exec, hst] at hx
    cases err with
    | true =>
      cases hx
      apply h.report (k := k)
      · rw [hst]
        rfl
      · rintro k' rfl
        rfl
      · trivial
      · intro k' m hm
        exact (h.just k' m hm).cons nofun
      · rintro k' hk
        cases hk
        rfl
      · exact nofun
      · exact mem_cons_self
    | false =>
      cases hx
      apply h.move
      · rw [hst]
        rfl
      · exact nofun
      · exact hf
  | _ =>
    simp only [exec, hst] at hx
    cases hx

omit [DecidableEq τ] in
theorem mem_listed : k ∈ s.listed ↔ ∃ m, (some k, m) ∈ s.msgList := by
  rw [State.listed, mem_filterMap]
  constructor
  · intro h
    obtain ⟨⟨t, m⟩, hm, ht⟩ := h
    cases ht
    exact ⟨m, hm⟩
  · intro h
    obtain ⟨m, hm⟩ := h
    exact ⟨_, hm, rfl⟩

omit [DecidableEq τ] in
theorem Inv.notMem (h : Inv s) (hq : s.msgList = pre ++ (some k, m) :: post) :
    (some k, m') ∉ pre ∧ (some k, m') ∉ post := by
  have hnd := h.nodup
  rw [State.listed, hq, filterMap_append,
    filterMap_cons_some (f := Prod.fst) (b := k) rfl] at hnd
  obtain ⟨-, hcons, hdis⟩ := nodup_append.1 hnd
  constructor
  · intro hm
    exact hdis k (mem_filterMap.2 ⟨_, hm, rfl⟩) k mem_cons_self rfl
  · intro hm
    exact (nodup_cons.1 hcons).1 (mem_filterMap.2 ⟨_, hm, rfl⟩)

omit [DecidableEq τ] in
theorem poll_msgList (s : State τ) (stack : Nat → UInt8) (input : List Reply) :
    (s.poll stack input).msgList =
      (s.msgList.map Prod.fst).zip (process (received input) (s.msgList.map Prod.snd)) := by
  simp only [State.poll, mqttPoll_process]

structure Polled (s s' : State τ) : Prop where
  entry : ∃ e : Option Entry, s'.log = e.toList ++ s.log ∧ ∀ x ∈ e, Honest x s.log ∧
    ∀ k, x.concerns k → k ∈ s.listed ∧ ∃ code listed, x = .connack code listed (some k)
  just : ∀ k m, (some k, m) ∈ s'.msgList → Justified s'.log k m
  others : ∀ m, (none, m) ∈ s'.msgList → m.state ≠ .connect
  listed : s'.listed = s.listed

theorem mem_replaced {e e' r : α} {l pre post : List α} (hl : l = pre ++ e :: post)
    (hr : r ∈ pre ++ e' :: post) : r = e' ∨ r ∈ l := by
  rw [hl]
  simp only [mem_append, mem_cons] at hr ⊢
  rcases hr with hpre | he | hpost
  · exact .inr (.inl hpre)
  · exact .inl he
  · exact .inr (.inr (.inr hpost))

omit [DecidableEq τ] in
theorem Inv.polled_same (h : Inv s) (hlog : s'.log = s.log) (hq : s'.msgList = s.msgList) :
    Polled s s' where
  entry := ⟨none, hlog, nofun⟩
  just := by
    rw [hlog, hq]
    exact h.just
  others := by
    rw [hq]
    exact h.others
  listed := by rw [State.listed, hq, State.listed]

omit [DecidableEq τ] in
theorem Inv.polled_late (h : Inv s)
    (hnone : s.msgList.find? (fun e => e.2.state = .connect) = none)
    (hlog : s'.log = .connack code s.listed none :: s.log) (hq : s'.msgList = s.msgList) :
    Polled s s' where
  entry := by
    refine ⟨some _, hlog, ?_⟩
    intro x hx
    cases hx
    constructor
    · intro k hk
      obtain ⟨m, hm⟩ := mem_listed.1 hk
      rcases h.just k m hm with ⟨hc, -⟩ | ⟨-, ht⟩
      · exact absurd (decide_eq_true hc) (List.find?_eq_none.1 hnone _ hm)
      · exact ⟨_, ht⟩
    · intro k hk
      cases hk
  just := by
    rw [hlog, hq]
    intro k m hm
    apply (h.just k m hm).cons
    intro code' listed he
    cases he
  others := by
    rw [hq]
    exact h.others
  listed := by rw [State.listed, hq, State.listed]

omit [DecidableEq τ] in
theorem Inv.polled_answer (h : Inv s) (hq : s.msgList = pre ++ (some k, m) :: post)
    (hm : m.state = .connect) (hm' : m'.state = .connack)
    (hlog : s'.log = .connack m'.status s.listed (some k) :: s.log)
    (hq' : s'.msgList = pre ++ (some k, m') :: post) : Polled s s' where
  entry := by
    refine ⟨some _, hlog, ?_⟩
    intro x hx
    cases hx
    have hmem : (some k, m) ∈ s.msgList := by
      rw [hq]
      exact mem_append_right _ mem_cons_self
    have hk : k ∈ s.listed := mem_listed.2 ⟨m, hmem⟩
    constructor
    · rcases h.just k m hmem with ⟨-, hn⟩ | ⟨hc, -⟩
      · exact ⟨hk, hn⟩
      · rw [hm] at hc
        cases hc
    · intro k' hc
      cases hc
      exact ⟨hk, _, _, rfl⟩
  just := by
    intro k' r hr
    have hold : (some k', r) ∈ pre ∨ (some k', r) ∈ post → Justified s'.log k' r := by
      intro hmem
      have hin : (some k', r) ∈ s.msgList := by
        rw [hq, mem_append, mem_cons]
        exact hmem.imp_right .inr
      rw [hlog]
      apply (h.just k' r hin).cons
      intro code listed he
      cases he
      exact hmem.elim (h.notMem hq).1 (h.notMem hq).2
    rw [hq'] at hr
    rcases mem_append.1 hr with hpre | hrest
    · exact hold (.inl hpre)
    · rcases mem_cons.1 hrest with he | hpost
      · cases he
        rw [hlog]
        exact .inr ⟨hm', _, mem_cons_self⟩
      · exact hold (.inr hpost)
  others := by
    rw [hq']
    intro r hr
    rcases mem_replaced hq hr with he | hr
    · cases he
    · exact h.others r hr
  listed := by
    rw [State.listed, hq', State.listed, hq]
    simp

omit [DecidableEq τ] in
theorem Inv.polled_other (h : Inv s) (hq : s.msgList = pre ++ (none, m) :: post)
    (hm : m'.state ≠ .connect) (hlog : s'.log = s.log)
    (hq' : s'.msgList = pre ++ (none, m') :: post) : Polled s s' where
  entry := ⟨none, hlog, nofun⟩
  just := by
    rw [hlog, hq']
    intro k r hr
    rcases mem_replaced hq hr with he | hr
    · cases he
    · exact h.just k r hr
  others := by
    rw [hq']
    intro r hr
    rcases mem_replaced hq hr with he | hr
    · cases he
      exact hm
    · exact h.others r hr
  listed := by
    rw [State.listed, hq', State.listed, hq]
    simp

omit [DecidableEq τ] in
theorem Inv.polled (h : Inv s) (stack : Nat → UInt8) (input : List Reply) :
    Polled s (s.poll stack input) := by
  have hlist := poll_msgList s stack input
  cases hr : received input with
  | none =>
    rw [hr] at hlist
    apply h.polled_same
    · simp only [State.poll, hr]
    · exact hlist.trans (zip_map_fst_snd _)
  | some packet =>
    rw [hr] at hlist
    rcases zip_updateFirst packet.found packet.answer s.msgList with
      ⟨hnone, he⟩ | ⟨pre, t, m, post, hq, hf, hfind, he⟩
    · have hsame : (s.poll stack input).msgList = s.msgList := hlist.trans he
      cases packet with
      | connack code =>
        have hfind : s.msgList.find? (fun e => e.2.state = .connect) = none := hnone
        have hlog : (s.poll stack input).log = .connack code s.listed none :: s.log := by
          have ht : s.taken = none := by rw [State.taken, hfind, Option.bind_none]
          simp only [State.poll, hr, ht]
        exact h.polled_late hfind hlog hsame
      | _ =>
        apply h.polled_same ?_ hsame
        simp only [State.poll, hr]
    · have hmem : (t, m) ∈ s.msgList := by
        rw [hq]
        exact mem_append_right _ mem_cons_self
      have hnew : (s.poll stack input).msgList = pre ++ (t, packet.answer m) :: post :=
        hlist.trans he
      cases packet with
      | connack =>
        have hm : m.state = .connect := of_decide_eq_true hf
        cases t with
        | none => exact absurd hm (h.others m hmem)
        | some k =>
          have ht : s.taken = some k := by
            rw [State.taken]
            exact Option.bind_eq_some_iff.2 ⟨_, hfind, rfl⟩
          apply h.polled_answer hq hm rfl ?_ hnew
          simp only [State.poll, hr, ht]
          rfl
      | _ =>
        cases t with
        | none =>
          apply h.polled_other hq ?_ ?_ hnew
          · exact MsgState.noConfusion
          · simp only [State.poll, hr]
        | some k =>
          rcases h.just k m hmem with ⟨hs, -⟩ | ⟨hs, -⟩
          · simp [Packet.found, hs] at hf
          · simp [Packet.found, hs] at hf

omit [DecidableEq τ] in
theorem Inv.of_polled (h : Inv s) (s' : State τ) (hp : Polled s s') (hcalls : s'.calls = s.calls)
    (hothers : ∀ u, u ≠ td → s'.stage u = s.stage u) (hself : s'.stage td = st)
    (hcall : st.call = (s.stage td).call) (hoff : st.off = none)
    (hfits : ∀ log, (∀ k, .sendFailed k ∈ log ↔ .sendFailed k ∈ s.log) → Fits log st) :
    Inv s' := by
  obtain ⟨e, hlog, he⟩ := hp.entry
  apply h.of_step s' td hothers hself e hlog
  · intro x hx k hk
    exact .inr ((he x hx).2 k hk)
  · rw [hlog]
    cases e with
    | none => exact h.log
    | some x => exact .cons (he x rfl).1 h.log
  · exact hp.just
  · exact hp.others
  · rw [hp.listed]
    exact h.nodup
  · exact le_of_eq hcalls.symm
  · intro k hk
    rw [hp.listed] at hk
    exact .inl hk
  · intro k hk
    exact .inl (hcall.symm.trans hk)
  · intro k hk
    rw [hoff] at hk
    cases hk
  · apply hfits
    intro k
    rw [hlog]
    cases e with
    | none => exact Iff.rfl
    | some =>
      constructor
      · intro hk
        rcases mem_cons.1 hk with hk | hk
        · subst hk
          obtain ⟨-, code, listed, hc⟩ := (he _ rfl).2 k rfl
          cases hc
        · exact hk
      · exact mem_cons_of_mem _

theorem Inv.poll (h : Inv s) (hx : exec s (.poll td stack input) = some s') : Inv s' := by
  have hp := h.polled stack input
  have hf := h.fits td
  cases hst : s.stage td with
  | out =>
    simp only [exec, hst] at hx
    cases hx
    apply h.of_polled (s.poll stack input) hp rfl (fun _ _ => rfl) hst
    · rw [hst]
    · rfl
    · exact fun _ _ => trivial
  | polling k n =>
    simp only [exec, hst] at hx
    cases hx
    rw [hst] at hf
    apply h.of_polled { s.poll stack input with stage := update s.stage td (.waiting k n) }
      ⟨hp.entry, hp.just, hp.others, hp.listed⟩ rfl (fun u hu => update_of_ne hu _ _)
      (update_self ..)
    · rw [hst]
      rfl
    · rfl
    · intro log hlog
      exact mt (hlog k).1 hf
  | _ =>
    simp only [exec, hst] at hx
    cases hx

omit [DecidableEq τ] in
theorem Inv.take (h : Inv s) (k : Call) : Inv (s.take k) := by
  have hmem : ∀ t m, (t, m) ∈ (s.take k).msgList →
      ∃ m', (t, m') ∈ s.msgList ∧ m.state = m'.state ∧ m.status = m'.status := by
    intro t m hm
    obtain ⟨x, hx, he⟩ := mem_map.1 hm
    split at he
    · cases he
      exact ⟨x.2, hx, rfl, rfl⟩
    · cases he
      exact ⟨m, hx, rfl, rfl⟩
  have hlisted : (s.take k).listed = s.listed := by
    rw [State.listed, State.take, State.listed, filterMap_map]
    congr 1
    funext e
    simp only [comp_apply]
    split
    · rfl
    · rfl
  refine ⟨h.log, ?_, ?_, ?_, ?_, h.past, h.number, h.unique, ?_, h.fits⟩
  · intro k' m hm
    obtain ⟨m', hm', hs, hst⟩ := hmem _ _ hm
    have hj := h.just k' m' hm'
    rw [Justified, ← hs, ← hst] at hj
    exact hj
  · intro m hm
    obtain ⟨m', hm', hs, -⟩ := hmem _ _ hm
    rw [hs]
    exact h.others m' hm'
  · rw [hlisted]
    exact h.nodup
  · rw [hlisted]
    exact h.known
  · rw [hlisted]
    exact h.off

theorem Inv.acquired (h : Inv s) (hx : exec s (.acquired td) = some s') : Inv s' := by
  have hf := h.fits td
  cases hst : s.stage td with
  | waiting k =>
    simp only [exec, hst] at hx
    split at hx
    · cases hx
      rw [hst] at hf
      apply (h.take k).move
      · show _ = (s.stage td).call
        rw [hst]
        rfl
      · exact nofun
      · exact hf
    · cases hx
  | _ =>
    simp only [exec, hst] at hx
    cases hx

theorem Inv.timedOut (h : Inv s) (hx : exec s (.timedOut td) = some s') : Inv s' := by
  have hf := h.fits td
  cases hst : s.stage td with
  | waiting k n =>
    rw [hst] at hf
    cases n with
    | zero | succ =>
      simp only [exec, hst] at hx
      cases hx
      apply h.move
      · rw [hst]
        rfl
      · exact nofun
      · exact hf
  | _ =>
    simp only [exec, hst] at hx
    cases hx

omit [DecidableEq τ] in
theorem mem_unlist (s : State τ) (k k' : Call) :
    k' ∈ (s.unlist k).listed ↔ k' ∈ s.listed ∧ k' ≠ k := by
  rw [mem_listed, mem_listed]
  constructor
  · intro h
    obtain ⟨m, hm⟩ := h
    obtain ⟨hm, hne⟩ := mem_filter.1 hm
    exact ⟨⟨m, hm⟩, fun he => of_decide_eq_true hne (congrArg some he)⟩
  · intro h
    obtain ⟨⟨m, hm⟩, hne⟩ := h
    exact ⟨m, mem_filter.2 ⟨hm, decide_eq_true fun he => hne (Option.some.inj he)⟩⟩

theorem Inv.unlist (h : Inv s) (hk : (s.stage td).call = some k) (hst : st.call = some k)
    (hoff : st.off = some k) (hfits : Fits s.log st) : Inv { s.unlist k with
        stage := update s.stage td st } := by
  have hsub : ∀ e ∈ (s.unlist k).msgList, e ∈ s.msgList := fun e he => (mem_filter.1 he).1
  apply h.of_step { s.unlist k with stage := update s.stage td st } td
    (fun u hu => update_of_ne hu _ _) (update_self ..) none rfl nofun h.log
  · intro k' m hm
    exact h.just k' m (hsub _ hm)
  · intro m hm
    exact h.others m (hsub _ hm)
  · exact List.Nodup.sublist (List.Sublist.filterMap _ filter_sublist) h.nodup
  · exact le_rfl
  · intro k' hk'
    exact .inl ((mem_unlist s k k').1 hk').1
  · intro k' hk'
    rw [hst] at hk'
    cases hk'
    exact .inl hk
  · intro k' hk'
    rw [hoff] at hk'
    cases hk'
    exact fun hmem => ((mem_unlist s k k).1 hmem).2 rfl
  · exact hfits

theorem Inv.remove (h : Inv s) (hx : exec s (.remove td) = some s') : Inv s' := by
  have hf := h.fits td
  cases hst : s.stage td with
  | leaving k =>
    simp only [exec, hst] at hx
    obtain ⟨⟨t, m⟩, hfind, he⟩ := Option.map_eq_some_iff.1 hx
    cases he
    rw [hst] at hf
    have ht : t = some k :=
      of_decide_eq_true (List.find?_some (p := fun e : Option Call × MqttRequest =>
        decide (e.1 = some k)) hfind)
    have hmem := mem_of_find?_eq_some hfind
    rw [ht] at hmem
    apply h.unlist
    · rw [hst]
      rfl
    · rfl
    · rfl
    · exact ⟨hf, h.just k m hmem⟩
  | failing =>
    simp only [exec, hst] at hx
    cases hx
    rw [hst] at hf
    apply h.unlist
    · rw [hst]
      rfl
    · rfl
    · rfl
    · exact hf
  | _ =>
    simp only [exec, hst] at hx
    cases hx

omit [DecidableEq τ] in
theorem Inv.event (h : Inv s) (ev : ConnectionEvent) : Inv (s.event ev) :=
  ⟨h.log, h.just, h.others, h.nodup, h.known, h.past, h.number, h.unique, h.off, h.fits⟩

omit [DecidableEq τ] in
theorem event_connected (s : State τ) : (s.event .connected).client.connected = true := by
  simp only [State.event, mqttEvent]
  split
  · rename_i hc
    exact hc
  · rfl

theorem Inv.settle (h : Inv s) (hx : exec s (.settle td) = some s') : Inv s' := by
  have hf := h.fits td
  have hoff := h.off td
  cases hst : s.stage td with
  | removed k m =>
    simp only [exec, hst] at hx
    cases hx
    rw [hst] at hf hoff
    obtain ⟨hs, hj⟩ := hf
    have hk : k ∉ s.listed := hoff k rfl
    rw [State.settle]
    split
    · rename_i hm
      have ht : Taken s.log k m.status := by
        rcases hj with ⟨hc, -⟩ | ⟨-, ht⟩
        · rw [hm] at hc
          cases hc
        · exact ht
      split
      · rename_i h0
        rw [event_connected]
        apply (h.event .connected).report (k := k)
        · show (s.stage td).call = _
          rw [hst]
          rfl
        · intro k' hc
          exact hc.symm
        · show Taken s.log k ERR_ACCEPTED
          rw [← h0]
          exact ht
        · intro k' m' hm'
          exact (h.just k' m' hm').cons nofun
        · intro k' hk'
          cases hk'
          rfl
        · intro k' hk'
          cases hk'
          exact hk
        · have hs' : .sendFailed k ∉ .connected k true :: s.log := sendFailed_cons nofun hs
          have ht' : Taken (.connected k true :: s.log) k m.status :=
            (taken_cons (e := .connected k true) nofun).2 ht
          exact .answered hs' ht' fun _ => mem_cons_self
      · rename_i h0
        apply h.move
        · rw [hst]
          rfl
        · intro k' hk'
          cases hk'
          exact hk
        · exact .answered hs ht fun he => absurd he h0
    · rename_i hm
      apply h.move
      · rw [hst]
        rfl
      · intro k' hk'
        cases hk'
        exact hk
      · rcases hj with ⟨-, hn⟩ | ⟨hc, -⟩
        · exact .timeout hs hn
        · exact absurd hc hm
  | failed k =>
    simp only [exec, hst] at hx
    cases hx
    rw [hst] at hf hoff
    apply (h.event .disconnected).move
    · show _ = (s.stage td).call
      rw [hst]
      rfl
    · intro k' hk'
      cases hk'
      exact hoff k rfl
    · exact .notSent hf
  | _ =>
    simp only [exec, hst] at hx
    cases hx

theorem Inv.ret (h : Inv s) (hx : exec s (.ret td) = some s') : Inv s' := by
  have hf := h.fits td
  cases hst : s.stage td with
  | returning k =>
    simp only [exec, hst] at hx
    cases hx
    rw [hst] at hf
    apply h.report (k := k)
    · rw [hst]
      rfl
    · exact nofun
    · exact hf
    · intro k' m hm
      exact (h.just k' m hm).cons nofun
    · exact nofun
    · exact nofun
    · trivial
  | _ =>
    simp only [exec, hst] at hx
    cases hx

omit [DecidableEq τ] in
theorem listed_own (q : List (Option Call × MqttRequest)) :
    q.filterMap Prod.fst = (own q).filterMap Prod.fst := by
  rw [own, filterMap_filter]
  congr 1
  funext e
  cases e.1 with
  | none | some => rfl

theorem Inv.other (h : Inv s) (hx : exec s (.other q) = some s') : Inv s' := by
  simp only [exec] at hx
  split at hx
  · rename_i hq
    cases hx
    obtain ⟨hown, hrest⟩ := hq
    have hlisted : q.filterMap Prod.fst = s.listed := by
      rw [listed_own, hown, ← listed_own]
      rfl
    refine ⟨h.log, ?_, ?_, ?_, ?_, h.past, h.number, h.unique, ?_, h.fits⟩
    · intro k m hm
      apply h.just k m
      have hmem : (some k, m) ∈ own q := mem_filter.2 ⟨hm, rfl⟩
      rw [hown] at hmem
      exact (mem_filter.1 hmem).1
    · intro m hm
      exact hrest _ hm rfl
    · show (q.filterMap Prod.fst).Nodup
      rw [hlisted]
      exact h.nodup
    · intro k hk
      change k ∈ q.filterMap Prod.fst at hk
      rw [hlisted] at hk
      exact h.known k hk
    · intro td k hk hmem
      change k ∈ q.filterMap Prod.fst at hmem
      rw [hlisted] at hmem
      exact h.off td k hk hmem
  · cases hx

theorem Inv.step (h : Inv s) (hx : exec s op = some s') : Inv s' := by
  cases op with
  | call => exact h.call hx
  | sent => exact h.sent hx
  | poll => exact h.poll hx
  | acquired => exact h.acquired hx
  | timedOut => exact h.timedOut hx
  | remove => exact h.remove hx
  | settle => exact h.settle hx
  | ret => exact h.ret hx
  | other => exact h.other hx

omit [DecidableEq τ] in
theorem start_inv (c : MqttClient) : Inv (start c : State τ) where
  log := .nil
  just := nofun
  others := nofun
  nodup := nodup_nil
  known := nofun
  past := nofun
  number := nofun
  unique := nofun
  off := nofun
  fits := fun _ => trivial

end

end Mdepx.Mqtt.Connect
