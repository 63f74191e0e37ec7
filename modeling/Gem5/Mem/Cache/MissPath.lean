import Gem5.Mem.Cache.MSHRQueue

/-!
# The miss path of a cache

`mem/cache/base.hh`: the registers for misses and the buffer for writes, the
reasons why the cache refuses requests, and the port to the CPU with the
responses scheduled on it. The requests for the bus on the memory side only say
when to look for something to send, and are left out.
-/

namespace Gem5

open Lib

structure MSHRRef where
  queue : MSHRQueueIndex
  index : Nat
  deriving DecidableEq, Repr

inductive BlockedCause
  | noMSHRs
  | noWBBuffers
  | noTargets
  deriving DecidableEq, Repr

def BlockedCause.ofQueue : MSHRQueueIndex → BlockedCause
  | .mshrs => .noMSHRs
  | .writeBuffer => .noWBBuffers

structure BlockedMask where
  noMSHRs : Bool := false
  noWBBuffers : Bool := false
  noTargets : Bool := false
  deriving DecidableEq, Repr

namespace BlockedMask

def get (b : BlockedMask) : BlockedCause → Bool
  | .noMSHRs => b.noMSHRs
  | .noWBBuffers => b.noWBBuffers
  | .noTargets => b.noTargets

def set (b : BlockedMask) : BlockedCause → Bool → BlockedMask
  | .noMSHRs, v => { b with noMSHRs := v }
  | .noWBBuffers, v => { b with noWBBuffers := v }
  | .noTargets, v => { b with noTargets := v }

def any (b : BlockedMask) : Bool := b.noMSHRs || b.noWBBuffers || b.noTargets

@[simp] theorem get_set_self (b : BlockedMask) (c : BlockedCause) (v : Bool) :
    (b.set c v).get c = v := by
  cases c <;> rfl

theorem get_set_ne (h : d ≠ c) (b : BlockedMask) (v : Bool) :
    (b.set c v).get d = b.get d := by
  cases c <;> cases d <;> first | rfl | exact absurd rfl h

theorem any_eq_true {b : BlockedMask} : b.any = true ↔ ∃ c, b.get c = true := by
  constructor
  · intro h
    simp only [any, Bool.or_eq_true] at h
    rcases h with (h | h) | h
    · exact ⟨.noMSHRs, h⟩
    · exact ⟨.noWBBuffers, h⟩
    · exact ⟨.noTargets, h⟩
  · rintro ⟨c, h⟩
    cases c <;> simp_all [get, any]

@[simp] theorem any_set_true (b : BlockedMask) (c : BlockedCause) : (b.set c true).any = true :=
  any_eq_true.mpr ⟨c, b.get_set_self c true⟩

end BlockedMask

/-- `portBlocked` and `mustSendRetry` are the CPU-side port's; `responses` are
those it was given to send, with their times. -/
structure MissPath where
  mshrQueue : MSHRQueue
  writeBuffer : MSHRQueue
  order : Nat := 0
  blocked : BlockedMask := {}
  noTargetMSHR : Option MSHRRef := none
  portBlocked : Bool := false
  mustSendRetry : Bool := false
  responses : List (Packet × Nat) := []

namespace MissPath

def create (mshrs writeBuffers : Nat) : MissPath where
  mshrQueue := .create mshrs 4
  writeBuffer := .create writeBuffers (mshrs + 1000)

def queue (p : MissPath) : MSHRQueueIndex → MSHRQueue
  | .mshrs => p.mshrQueue
  | .writeBuffer => p.writeBuffer

def setQueue (p : MissPath) : MSHRQueueIndex → MSHRQueue → MissPath
  | .mshrs, q => { p with mshrQueue := q }
  | .writeBuffer, q => { p with writeBuffer := q }

def register (p : MissPath) (r : MSHRRef) : MSHR := (p.queue r.queue).registers r.index

def setRegister (p : MissPath) (r : MSHRRef) (m : MSHR) : MissPath :=
  p.setQueue r.queue ((p.queue r.queue).set r.index m)

def schedTimingResp (p : MissPath) (pkt : Packet) (time : Nat) : MissPath :=
  { p with responses := p.responses ++ [(pkt, time)] }

def setBlocked (p : MissPath) (cause : BlockedCause) : Chk MissPath := do
  if p.blocked.any then return { p with blocked := p.blocked.set cause true }
  else
    ensure (!p.portBlocked) "!blocked"
    return { p with blocked := p.blocked.set cause true, portBlocked := true }

/-- A request that was refused is asked for again once the port is free; the
event is left out. -/
def clearBlocked (p : MissPath) (cause : BlockedCause) : Chk MissPath := do
  let blocked := p.blocked.set cause false
  if blocked.any then return { p with blocked := blocked }
  else
    ensure p.portBlocked "blocked"
    return { p with blocked := blocked, portBlocked := false, mustSendRetry := false }

def blockIfFull (p : MissPath) (ix : MSHRQueueIndex) : Chk MissPath :=
  if (p.queue ix).isFull then p.setBlocked (.ofQueue ix) else return p

def unblockIfFreed (p : MissPath) (wasFull : Bool) (ix : MSHRQueueIndex) : Chk MissPath :=
  if wasFull && !(p.queue ix).isFull then p.clearBlocked (.ofQueue ix) else return p

def allocateBufferInternal (p : MissPath) (now : Nat) (ix : MSHRQueueIndex) (addr size : Nat)
    (pkt : Packet) (time : Nat) : Chk (MissPath × MSHRRef) := do
  let (q, i) ← (p.queue ix).allocate now addr size pkt time p.order
  let p ← { p.setQueue ix q with order := p.order + 1 }.blockIfFull ix
  return (p, ⟨ix, i⟩)

def allocateMissBuffer (p : MissPath) (now blkAddr blkSize : Nat) (pkt : Packet) (time : Nat) :
    Chk (MissPath × MSHRRef) := do
  ensure (!pkt.req.uncacheable) "!pkt->req->isUncacheable()"
  p.allocateBufferInternal now .mshrs blkAddr blkSize pkt time

def allocateWriteBuffer (p : MissPath) (now : Nat) (pkt : Packet) (time : Nat) : Chk MissPath := do
  ensure (pkt.isWrite && !pkt.isRead) "pkt->isWrite() && !pkt->isRead()"
  let (p, _) ← p.allocateBufferInternal now .writeBuffer pkt.addr pkt.size pkt time
  return p

def allocateUncachedReadBuffer (p : MissPath) (now : Nat) (pkt : Packet) (time : Nat) :
    Chk MissPath := do
  ensure pkt.req.uncacheable "pkt->req->isUncacheable()"
  ensure pkt.isRead "pkt->isRead()"
  let (p, _) ← p.allocateBufferInternal now .mshrs pkt.addr pkt.size pkt time
  return p

def bufferWritebacks (p : MissPath) (now time : Nat) : List Packet → Chk MissPath
  | [] => return p
  | pkt :: pkts => do
    let p ← p.allocateWriteBuffer now pkt time
    p.bufferWritebacks now time pkts

def markInServiceInternal (p : MissPath) (r : MSHRRef) (pkt : Packet) : Chk MissPath := do
  let q ← (p.queue r.queue).markInService r.index pkt
  (p.setQueue r.queue q).unblockIfFreed (p.queue r.queue).isFull r.queue

def addTarget (p : MissPath) (numTarget now : Nat) (r : MSHRRef) (pkt : Packet) (time : Nat) :
    Chk MissPath := do
  let m ← (p.register r).allocateTarget now pkt time p.order
  let p := { p.setRegister r m with order := p.order + 1 }
  if m.ntargets = numTarget then
    let p := { p with noTargetMSHR := some r }
    p.setBlocked .noTargets
  else return p

def clearNoTargets (p : MissPath) (r : MSHRRef) : Chk MissPath :=
  if p.noTargetMSHR = some r then do
    let p ← p.clearBlocked .noTargets
    return { p with noTargetMSHR := none }
  else return p

/-- The end of a response: the register is sent again for the targets that were
deferred, or it is free. The Boolean says which. -/
def retire (p : MissPath) (now : Nat) (wasFull : Bool) (r : MSHRRef) : Chk (MissPath × Bool) := do
  let (m, promoted) ← (p.register r).promoteDeferredTargets now
  let p := p.setRegister r m
  if promoted then
    let q ← (p.queue r.queue).markPending r.index
    return (p.setQueue r.queue q, true)
  else
    let q ← (p.queue r.queue).deallocate r.index
    let p ← (p.setQueue r.queue q).unblockIfFreed wasFull r.queue
    return (p, false)

/-- Which of two entries, one of each queue, is sent: the miss, unless an older or
an overlapping write has to go first. -/
def chooseMSHR (p : MissPath) (miss write : Nat) : MSHRRef :=
  if p.writeBuffer.isFull && p.writeBuffer.inServiceEntries = 0 then
    let w := p.writeBuffer.registers write
    match (p.mshrQueue.findPending w.addr w.size).filter fun i =>
        (p.mshrQueue.registers i).order < w.order with
    | some conflict => ⟨.mshrs, conflict⟩
    | none => ⟨.writeBuffer, write⟩
  else
    let m := p.mshrQueue.registers miss
    match p.writeBuffer.findPending m.addr m.size with
    | some conflict => ⟨.writeBuffer, conflict⟩
    | none => ⟨.mshrs, miss⟩

/-- `getNextMSHR` up to the point where a prefetch is tried. -/
def nextPending (p : MissPath) (now : Nat) : Option MSHRRef :=
  match p.mshrQueue.getNextMSHR now, p.writeBuffer.getNextMSHR now with
  | some miss, none => some ⟨.mshrs, miss⟩
  | none, some write => some ⟨.writeBuffer, write⟩
  | some miss, some write => some (p.chooseMSHR miss write)
  | none, none => none

end MissPath

end Gem5
