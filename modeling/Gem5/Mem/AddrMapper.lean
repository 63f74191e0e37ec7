import Gem5.Base.AddrRangeMap
import Gem5.Lib.Run

/-!
# The address mapper

`mem/addr_mapper.cc`: requests pass from the slave port to the master port
with their address mapped, and responses pass back with it restored from a
sender state pushed on the way down. The mapper has no state of its own, so
the life of one packet says all about it.

A refused request gets its sender state back, but not its address: it is
mapped once more by each further attempt.
-/

namespace Gem5

open Lib

/-- The sender state of a packet: the requester's own, or the one the mapper
pushes over it. -/
inductive MapperState (σ : Type)
  | requester (state : σ)
  | mapper (origSenderState : MapperState σ) (origAddr : Nat)
  deriving DecidableEq

structure MapperPacket (σ : Type) where
  addr : Nat
  needsResponse : Bool
  memInhibitAsserted : Bool
  senderState : MapperState σ
  deriving DecidableEq

namespace AddrMapper

variable {σ : Type} (remapAddr : Nat → Nat) (pkt : MapperPacket σ)

def remapped : MapperPacket σ :=
  { pkt with
    addr := remapAddr pkt.addr
    senderState :=
      if pkt.needsResponse && !pkt.memInhibitAsserted then .mapper pkt.senderState pkt.addr
      else pkt.senderState }

/-- `successful` is the answer of the master port's peer. An inhibited packet
has no state of the mapper's, so that the restoring branch would delete the
requester's. -/
def recvTimingReq (successful : Bool) : Chk (MapperPacket σ) := do
  let sent := remapped remapAddr pkt
  if !successful && pkt.needsResponse then
    refuse pkt.memInhibitAsserted (.undefined "delete of the requester's senderState")
    return { sent with senderState := pkt.senderState }
  return sent

def restored : Chk (MapperPacket σ) :=
  match pkt.senderState with
  | .mapper origSenderState origAddr =>
      .ok { pkt with senderState := origSenderState, addr := origAddr }
  | .requester _ => .error (.panic "AddrMapper got a response without sender state")

def recvTimingResp (successful : Bool) : Chk (MapperPacket σ) := do
  let sent ← restored pkt
  return if successful then sent else pkt

end AddrMapper

open AddrMapper

/-- `RangeAddrMapper::remapAddr` over the pairs of an original and a remapped
range; the constructor makes the two lists equally long. -/
def RangeAddrMapper.remapAddr (ranges : List (AddrRange × AddrRange)) (addr : Nat) : Nat :=
  match ranges.find? fun r => r.1.start ≤ addr && addr ≤ r.1.last with
  | some (original, remapped) => (addr - original.start + remapped.start) % 2 ^ 64
  | none => addr

inductive MapperPhase
  | requesting
  | downstream
  | done
  deriving DecidableEq

structure MapperWorld (σ : Type) where
  pkt : MapperPacket σ
  phase : MapperPhase
  requests : List (MapperPacket σ)
  responses : List (MapperPacket σ)

inductive MapperEvent
  | request (successful : Bool)
  | response (successful : Bool)
  deriving DecidableEq

namespace MapperWorld

variable {σ : Type} {remapAddr : Nat → Nat} {pkt : MapperPacket σ} {w w' : MapperWorld σ}

def create (pkt : MapperPacket σ) : MapperWorld σ :=
  ⟨pkt, .requesting, [], []⟩

/-- Inhibited packets always succeed. Whoever inhibited one answers it, so that no
response to it comes back through the mapper. -/
def Admits (w : MapperWorld σ) : MapperEvent → Prop
  | .request successful => w.phase = .requesting ∧ (w.pkt.memInhibitAsserted → successful)
  | .response _ => w.phase = .downstream ∧ w.pkt.needsResponse ∧ !w.pkt.memInhibitAsserted

instance (w : MapperWorld σ) : DecidablePred w.Admits := fun e => by
  rcases e <;> unfold Admits <;> infer_instance

def apply (remapAddr : Nat → Nat) (w : MapperWorld σ) : MapperEvent → Chk (MapperWorld σ)
  | .request successful => do
    let after ← AddrMapper.recvTimingReq remapAddr w.pkt successful
    return { w with
      pkt := after
      phase := if successful then .downstream else .requesting
      requests := w.requests ++ [AddrMapper.remapped remapAddr w.pkt] }
  | .response successful => do
    let sent ← AddrMapper.restored w.pkt
    let after ← AddrMapper.recvTimingResp w.pkt successful
    return { w with
      pkt := after
      phase := if successful then .done else .downstream
      responses := w.responses ++ [sent] }

/-- A request is refused only at an address that is mapped to itself. -/
def RefusedUnmapped (remapAddr : Nat → Nat) (w : MapperWorld σ) : MapperEvent → Prop
  | .request successful => successful ∨ remapAddr w.pkt.addr = w.pkt.addr
  | .response _ => True

instance (w : MapperWorld σ) : DecidablePred (w.RefusedUnmapped remapAddr) := fun e => by
  rcases e <;> unfold RefusedUnmapped <;> infer_instance

/-- The packet with its address mapped. Where a response comes back through the mapper, it
carries the address it had. -/
structure Mapped (remapAddr : Nat → Nat) (pkt p : MapperPacket σ) : Prop where
  addr : p.addr = remapAddr pkt.addr
  needsResponse : p.needsResponse = pkt.needsResponse
  memInhibitAsserted : p.memInhibitAsserted = pkt.memInhibitAsserted
  pushed : pkt.needsResponse = true → pkt.memInhibitAsserted = false →
    p.senderState = .mapper pkt.senderState pkt.addr
  kept : pkt.needsResponse = false ∨ pkt.memInhibitAsserted = true →
    p.senderState = pkt.senderState

structure Transparent (remapAddr : Nat → Nat) (pkt : MapperPacket σ) (w : MapperWorld σ) : Prop where
  requests : ∀ p ∈ w.requests, Mapped remapAddr pkt p
  responses : ∀ p ∈ w.responses, p = pkt
  requesting : w.phase = .requesting → w.pkt = pkt
  downstream : w.phase = .downstream → Mapped remapAddr pkt w.pkt

theorem mapped_remapped (pkt : MapperPacket σ) : Mapped remapAddr pkt (remapped remapAddr pkt) where
  addr := rfl
  needsResponse := rfl
  memInhibitAsserted := rfl
  pushed hneeds hinhibit := by simp [remapped, hneeds, hinhibit]
  kept hnone := by rcases hnone with h | h <;> simp [remapped, h]

theorem recvTimingReq_refused (hinhibit : pkt.memInhibitAsserted = false)
    (haddr : remapAddr pkt.addr = pkt.addr) :
    AddrMapper.recvTimingReq remapAddr pkt false = .ok pkt := by
  obtain ⟨addr, needsResponse, memInhibitAsserted, senderState⟩ := pkt
  subst hinhibit
  cases needsResponse with
  | false => simp [recvTimingReq, remapped, haddr]
  | true => simp [recvTimingReq, remapped, refuse, haddr, bind, Except.bind]

theorem Transparent.request (h : w.Transparent remapAddr pkt)
    (hadmits : w.Admits (.request successful))
    (haddr : w.RefusedUnmapped remapAddr (.request successful)) :
    ∃ w', w.apply remapAddr (.request successful) = .ok w' ∧ w'.Transparent remapAddr pkt ∧
      (successful = false → w'.pkt = w.pkt) := by
  obtain ⟨hphase, hinhibit⟩ := hadmits
  have hpkt := h.requesting hphase
  have hrequests : ∀ p ∈ w.requests ++ [remapped remapAddr w.pkt], Mapped remapAddr pkt p := by
    intro p hp
    rcases List.mem_append.mp hp with hp | hp
    · exact h.requests p hp
    · rw [List.mem_singleton.mp hp, hpkt]
      exact mapped_remapped pkt
  cases successful with
  | true =>
    refine ⟨_, rfl, ⟨hrequests, h.responses, nofun, fun _ => ?_⟩, nofun⟩
    exact hpkt ▸ mapped_remapped w.pkt
  | false =>
    have hsent := recvTimingReq_refused (Bool.eq_false_iff.mpr fun hin => nomatch hinhibit hin)
      (haddr.resolve_left nofun)
    refine ⟨_, congrArg (· >>= _) hsent, ⟨hrequests, h.responses, fun _ => hpkt, nofun⟩, fun _ => rfl⟩

theorem apply_response (hrestored : AddrMapper.restored w.pkt = .ok pkt) :
    w.apply remapAddr (.response successful) = .ok { w with
      pkt := if successful then pkt else w.pkt
      phase := if successful then .done else .downstream
      responses := w.responses ++ [pkt] } := by
  rw [apply, recvTimingResp, hrestored]
  rfl

theorem Transparent.response (h : w.Transparent remapAddr pkt)
    (hadmits : w.Admits (.response successful)) :
    ∃ w', w.apply remapAddr (.response successful) = .ok w' ∧ w'.Transparent remapAddr pkt := by
  obtain ⟨hphase, hneeds, hinhibit⟩ := hadmits
  have hpkt := h.downstream hphase
  have hneeds : pkt.needsResponse = true := hpkt.needsResponse.symm.trans hneeds
  have hinhibit : pkt.memInhibitAsserted = false := by
    rw [← hpkt.memInhibitAsserted]
    simpa using hinhibit
  have hrestored : restored w.pkt = .ok pkt := by
    rw [restored, hpkt.pushed hneeds hinhibit]
    dsimp only
    rw [hpkt.needsResponse, hpkt.memInhibitAsserted]
  refine ⟨_, apply_response hrestored, h.requests, fun p hp => ?_, fun hp => ?_, fun hp => ?_⟩
  · rcases List.mem_append.mp hp with hp | hp
    · exact h.responses p hp
    · exact List.mem_singleton.mp hp
  · cases successful <;> simp at hp
  · cases successful with
    | true => simp at hp
    | false => exact hpkt

theorem Transparent.step (h : w.Transparent remapAddr pkt) (e : MapperEvent) (hadmits : w.Admits e)
    (haddr : w.RefusedUnmapped remapAddr e) :
    ∃ w', w.apply remapAddr e = .ok w' ∧ w'.Transparent remapAddr pkt ∧
      (e = .request false → w'.pkt = w.pkt) := by
  cases e with
  | request successful =>
    obtain ⟨w', happly, hw', hrefused⟩ := h.request hadmits haddr
    exact ⟨w', happly, hw', fun he => hrefused (MapperEvent.request.inj he)⟩
  | response successful =>
    obtain ⟨w', happly, hw'⟩ := h.response hadmits
    exact ⟨w', happly, hw', nofun⟩

theorem run_mapped_once {events : List MapperEvent}
    (hrun : Runs (fun w e w' => (w.Admits e ∧ w.RefusedUnmapped remapAddr e) ∧
      w.apply remapAddr e = .ok w')
      (create pkt) events w) :
    w.Transparent remapAddr pkt ∧ ∀ e, w.Admits e → w.RefusedUnmapped remapAddr e →
      ∃ w', w.apply remapAddr e = .ok w' ∧ (e = .request false → w'.pkt = w.pkt) := by
  have htransparent : w.Transparent remapAddr pkt := by
    refine hrun.invariant ⟨nofun, nofun, fun _ => rfl, nofun⟩ fun w e w' h hstep => ?_
    exact (of_returns (h.step e hstep.1.1 hstep.1.2) hstep.2).1
  refine ⟨htransparent, fun e hadmits haddr => ?_⟩
  obtain ⟨u, happly, -, hrefused⟩ := htransparent.step e hadmits haddr
  exact ⟨u, happly, hrefused⟩

def shiftedUp : Nat → Nat :=
  RangeAddrMapper.remapAddr [(⟨0, 63⟩, ⟨64, 127⟩), (⟨64, 127⟩, ⟨128, 191⟩)]

def readAt (addr : Nat) : MapperPacket Nat :=
  ⟨addr, true, false, .requester 7⟩

theorem run_mapped_once_retried : ∃ w,
    Runs (fun w e w' => (w.Admits e ∧ w.RefusedUnmapped shiftedUp e) ∧ w.apply shiftedUp e = .ok w')
      (create (readAt 0)) [.request true, .response false, .response true] w ∧
    w.requests.map (·.addr) = [64] ∧ w.Transparent shiftedUp (readAt 0) :=
  (runs_of_play (P := fun w => w.requests.map (·.addr) = [64])
    (fun (w : MapperWorld Nat) e => w.Admits e ∧ w.RefusedUnmapped shiftedUp e) (apply shiftedUp)
    (by decide +kernel)).imp fun _ h => ⟨h.1, h.2, (run_mapped_once h.1).1⟩

/-- A request at 0 that is refused and sent again: the packet is at 64 after the
refusal, and the other side sees it there first and then at 128. -/
theorem refused_request_moves : ∃ w, Runs (fun w e w' => w.Admits e ∧ w.apply shiftedUp e = .ok w')
      (create (readAt 0)) [.request false, .request true] w ∧
    w.requests.map (·.addr) = [64, 128] ∧
      AddrMapper.recvTimingReq shiftedUp (readAt 0) false = .ok (readAt 64) :=
  runs_of_play (fun (w : MapperWorld Nat) e => w.Admits e) (apply shiftedUp) (by decide +kernel)

end MapperWorld

end Gem5
