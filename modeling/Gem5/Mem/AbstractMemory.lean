import Gem5.Base.AddrRangeMap
import Gem5.Mem.Packet

/-!
# Memories

`mem/abstract_mem.cc`. A memory made without storage answers, but keeps nothing. Statistics
are left out.
-/

namespace Gem5

open Lib

structure LockedAddr where
  addr : Nat
  contextId : Nat
  deriving DecidableEq, Repr

def LockedAddr.mask (paddr : Nat) : Nat := paddr &&& (2 ^ 64 - 1 - 15)

/-- `pmem o` is the byte at offset `o` from the start of the range. -/
structure AbstractMemory where
  range : AddrRange
  null : Bool := false
  pmem : Nat → UInt8 := fun _ => 0
  lockedAddrList : List LockedAddr := []

namespace AbstractMemory

def relock (paddr contextId : Nat) : List LockedAddr → List LockedAddr
  | [] => []
  | r :: rs =>
    if r.contextId = contextId then { r with addr := paddr } :: rs
    else r :: relock paddr contextId rs

def trackLoadLocked (m : AbstractMemory) (pkt : Packet) : Chk AbstractMemory := do
  let contextId ← need pkt.req.contextId (.assertion "privateFlags.isSet(VALID_CONTEXT_ID)")
  let paddr := LockedAddr.mask pkt.req.paddr
  return { m with lockedAddrList :=
    if m.lockedAddrList.any (·.contextId == contextId) then relock paddr contextId m.lockedAddrList
    else ⟨paddr, contextId⟩ :: m.lockedAddrList }

/-- Whether some record is for the address and the context of the request. The
context is asked for only if there are records for the address. -/
def holdsLock (m : AbstractMemory) (req : Request) : Chk Bool :=
  let paddr := LockedAddr.mask req.paddr
  if m.lockedAddrList.any (·.addr == paddr) then do
    let contextId ← need req.contextId (.assertion "privateFlags.isSet(VALID_CONTEXT_ID)")
    return m.lockedAddrList.contains ⟨paddr, contextId⟩
  else return false

def eraseLocks (m : AbstractMemory) (paddr : Nat) : AbstractMemory :=
  { m with lockedAddrList := m.lockedAddrList.filter (·.addr != LockedAddr.mask paddr) }

def checkLockedAddrList (m : AbstractMemory) (pkt : Packet) :
    Chk (AbstractMemory × Packet × Bool) :=
  if pkt.isLLSC then do
    let allowStore ← m.holdsLock pkt.req
    let pkt := pkt.setExtraData (if allowStore then 1 else 0)
    return (if allowStore then m.eraseLocks pkt.req.paddr else m, pkt, allowStore)
  else return (m.eraseLocks pkt.req.paddr, pkt, true)

def writeOK (m : AbstractMemory) (pkt : Packet) : Chk (AbstractMemory × Packet × Bool) :=
  if m.lockedAddrList.isEmpty then
    return (m, if pkt.isLLSC then pkt.setExtraData 0 else pkt, !pkt.isLLSC)
  else m.checkLockedAddrList pkt

def contents (m : AbstractMemory) (addr i : Nat) : UInt8 := m.pmem (addr - m.range.start + i)

def store (m : AbstractMemory) (pkt : Packet) : AbstractMemory :=
  { m with pmem := memcpy m.pmem (pkt.addr - m.range.start) pkt.data pkt.size }

def swap (m : AbstractMemory) (pkt : Packet) : Chk (AbstractMemory × Packet) := do
  if m.null then
    .error (.panic "Swap only works if there is real memory (i.e. null=False)")
  else
    ensure (pkt.size ≤ 8) "sizeof(TheISA::IntReg) >= pkt->getSize()"
    let overwrite ← pkt.swapApplies (m.contents pkt.addr)
    ensure (!pkt.req.instFetch) "!pkt->req->isInstFetch()"
    return (if overwrite then m.store pkt else m, pkt.setData (m.contents pkt.addr))

def read (m : AbstractMemory) (pkt : Packet) : Chk (AbstractMemory × Packet) := do
  ensure (!pkt.isWrite) "!pkt->isWrite()"
  let m ← if pkt.isLLSC then m.trackLoadLocked pkt else pure m
  return (m, if m.null then pkt else pkt.setData (m.contents pkt.addr))

def write (m : AbstractMemory) (pkt : Packet) : Chk (AbstractMemory × Packet) := do
  let (m, pkt, ok) ← m.writeOK pkt
  if ok then
    ensure (!pkt.req.instFetch) "!pkt->req->isInstFetch()"
    return (if m.null then m else m.store pkt, pkt)
  else return (m, pkt)

def perform (m : AbstractMemory) (pkt : Packet) : Chk (AbstractMemory × Packet) :=
  if pkt.cmd = .swapReq then m.swap pkt
  else if pkt.isRead then m.read pkt
  else if pkt.isWrite then m.write pkt
  else if pkt.isInvalidate then return (m, pkt)
  else .error (.panic "unimplemented")

def access (m : AbstractMemory) (pkt : Packet) : Chk (AbstractMemory × Packet) := do
  ensure (decide (m.range.start ≤ pkt.addr) && decide (lastByte pkt.addr pkt.size ≤ m.range.last))
    "pkt->getAddr() >= range.start && (pkt->getAddr() + pkt->getSize() - 1) <= range.end"
  if pkt.memInhibit then return (m, pkt)
  else
    let (m, pkt) ← m.perform pkt
    if pkt.needsResponse then
      let pkt ← pkt.makeResponse
      return (m, pkt)
    else return (m, pkt)

end AbstractMemory

end Gem5
