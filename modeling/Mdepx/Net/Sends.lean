import Mdepx.Net.Input

namespace Mdepx.Net
open Mdepx.Lib List

/-! The packets that are sent: those of the code's own, and the received one. -/

def Event.hands : Event → Bool
  | .free => false
  | .transmit chain error => error == 0 && chain.any Piece.received

namespace State

def frees (s : State) : Nat := s.events.countP (· = .free)

def handed (s : State) : Nat := s.events.countP Event.hands

/-- Nothing has changed but for allocations and for packets of the code's own. -/
structure Sends (s s' : State) : Prop where
  same : s' = { s with allocs := s'.allocs, events := s'.events }
  frees : s'.frees = s.frees
  handed : s'.handed = s.handed

instance : Std.Refl Sends := ⟨fun _ => ⟨rfl, rfl, rfl⟩⟩

instance : IsTrans State Sends where
  trans _ _ s h h' :=
    ⟨h'.same.trans (congrArg (fun u => { u with allocs := s.allocs, events := s.events }) h.same),
      h'.frees.trans h.frees, h'.handed.trans h.handed⟩

theorem frees_emit (s : State) (e : Event) :
    (s.emit e).frees = s.frees + if e = .free then 1 else 0 := by
  simp only [frees, emit, countP_append, countP_singleton, decide_eq_true_iff]

theorem handed_emit (s : State) (e : Event) :
    (s.emit e).handed = s.handed + if e.hands then 1 else 0 := by
  simp only [handed, emit, countP_append, countP_singleton]

end State

open State

/-- An allocation fails. -/
def Starved (cfg : Config) (_ : Trap) : Prop := ∃ i, cfg.malloc i = false

theorem not_starved (hmem : ∀ i, cfg.malloc i = true) (e : Trap) : ¬ Starved cfg e := by
  intro ⟨i, hi⟩
  rw [hmem i] at hi
  cases hi

theorem mAlloc_sends {f : Bool → NetM α} (ht : Along Sends (Starved cfg) (f true))
    (hf : (∀ e, Starved cfg e) → Along Sends (Starved cfg) (f false)) :
    Along Sends (Starved cfg) (mAlloc cfg >>= f) := by
  apply Along.bind_of (P := fun ok => ok = false → ∀ e, Starved cfg e)
  · intro s
    have hr : mAlloc cfg s = .ok (cfg.malloc s.allocs) { s with allocs := s.allocs + 1 } := rfl
    exact .of_ok hr ⟨⟨rfl, rfl, rfl⟩, fun hfail _ => ⟨s.allocs, hfail⟩⟩
  · intro ok hok
    cases ok with
    | true => exact ht
    | false => exact hf (hok rfl)

theorem ifTransmit_sends (cfg : Config) (h : chain.any Piece.received = false) :
    Along Sends T (ifTransmit cfg chain) := by
  intro s
  have hr : ifTransmit cfg chain s = .ok (cfg.transmit s.events.length)
      (s.emit (.transmit chain (cfg.transmit s.events.length))) := rfl
  apply Ensures.of_ok hr
  refine ⟨rfl, frees_emit s _, ?_⟩
  rw [handed_emit, Event.hands, h, Bool.and_false]
  rfl

theorem etherSend_fresh (cfg : Config) (bytes phdr : List UInt8) :
    etherSend cfg (.fresh bytes) phdr =
      mAlloc cfg >>= fun ok =>
        if ok then ifTransmit cfg [⟨false, linkHeader phdr⟩, ⟨false, bytes⟩]
        else throw .nullMbuf := rfl

theorem etherSend_sends (cfg : Config) (bytes phdr : List UInt8) :
    Along Sends (Starved cfg) (etherSend cfg (.fresh bytes) phdr >>= fun _ => pure ()) := by
  rw [etherSend_fresh]
  refine Along.bind (mAlloc_sends ?_ ?_) fun _ => .pure ()
  · exact ifTransmit_sends cfg rfl
  · exact fun hstarved => .throw (hstarved _)

theorem arprequest_sends (cfg : Config) (tip : InAddr) :
    Along Sends (Starved cfg) (arprequest cfg tip) := by
  unfold arprequest
  split
  · exact .pure _
  · apply mAlloc_sends
    · rw [if_pos rfl]
      split
      · exact .ite (.pure _) (etherSend_sends cfg _ _)
      · exact etherSend_sends cfg _ _
    · exact fun _ => .pure _

theorem etherResolveAddr_sends (cfg : Config) (dst : SockaddrIn) (s : State) :
    Ensures (etherResolveAddr cfg dst) s
      (fun r s' => Sends s s' ∧ ∀ error, r = .error error → error = -1)
      fun e s' => Sends s s' ∧ Starved cfg e := by
  have herror : ∀ error, (.error (-1) : Except Int (List UInt8)) = .error error → error = -1 :=
    fun _ he => (Except.error.inj he).symm
  unfold etherResolveAddr
  split
  · apply Ensures.of_eq (bind_of_ok (x := (get : NetM State)) rfl)
    split
    · exact .of_ok rfl ⟨Std.Refl.refl s, nofun⟩
    · exact (arprequest_sends cfg _ s).bind fun _ _ hs => .of_ok rfl ⟨hs, herror⟩
  · exact .of_ok rfl ⟨Std.Refl.refl s, herror⟩

/-- The link header is put before the data of the received mbuf. -/
def State.pushed (s : State) (phdr : List UInt8) : State :=
  { s.retreat etherHdrLen with buf := s.buf.put (s.mData - etherHdrLen) (linkHeader phdr) }

def State.piece (s : State) : Piece :=
  ⟨true, (range s.mLen).map fun i => s.buf.byte (s.mData + i)⟩

theorem etherSend_cases (cfg : Config) (phdr : List UInt8) (s : State) :
    (etherHdrLen ≤ s.mData ∧ etherSend cfg .received phdr s =
      ifTransmit cfg [(s.pushed phdr).piece] (s.pushed phdr)) ∨
    (s.mData < etherHdrLen ∧ cfg.malloc s.allocs = true ∧ etherSend cfg .received phdr s =
      ifTransmit cfg [⟨false, linkHeader phdr⟩, s.piece] { s with allocs := s.allocs + 1 }) ∨
    (s.mData < etherHdrLen ∧ cfg.malloc s.allocs = false ∧ etherSend cfg .received phdr s =
      .error .nullMbuf { s with allocs := s.allocs + 1 }) := by
  have havail : Mbuf.received.avail s = .ok s.mData s := rfl
  have halloc : mAlloc cfg s = .ok (cfg.malloc s.allocs) { s with allocs := s.allocs + 1 } := rfl
  rw [etherSend, bind_of_ok havail]
  by_cases hroom : etherHdrLen ≤ s.mData
  · rw [if_pos hroom]
    exact .inl ⟨hroom, rfl⟩
  · rw [if_neg hroom, bind_of_ok halloc]
    cases cfg.malloc s.allocs with
    | true => exact .inr (.inl ⟨Nat.not_le.1 hroom, rfl, rfl⟩)
    | false => exact .inr (.inr ⟨Nat.not_le.1 hroom, rfl, rfl⟩)

end Mdepx.Net
