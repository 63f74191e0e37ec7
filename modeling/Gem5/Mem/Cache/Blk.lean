import Gem5.Mem.Packet

/-!
# Cache blocks

`mem/cache/blk.hh`. A block's status is a word of six flags in the source. The
address space of a block and its size, which no tag store reads, are left out.
-/

namespace Gem5

open Lib

structure BlkStatus where
  valid : Bool := false
  writable : Bool := false
  readable : Bool := false
  dirty : Bool := false
  referenced : Bool := false
  hwPrefetched : Bool := false
  deriving DecidableEq, Repr

def Request.invldMasterId : Nat := 65535

structure CacheBlk where
  tag : Nat := 0
  data : Nat → UInt8 := fun _ => 0
  status : BlkStatus := {}
  whenReady : Nat := 0
  set : Nat := 0
  isTouched : Bool := false
  refCount : Int := 0
  srcMasterId : Nat := Request.invldMasterId
  lockList : List Nat := []

namespace CacheBlk

def isWritable (b : CacheBlk) : Bool := b.status.writable && b.status.valid
def isReadable (b : CacheBlk) : Bool := b.status.readable && b.status.valid
def isValid (b : CacheBlk) : Bool := b.status.valid
def isDirty (b : CacheBlk) : Bool := b.status.dirty
def wasPrefetched (b : CacheBlk) : Bool := b.status.hwPrefetched

def clearLoadLocks (b : CacheBlk) : CacheBlk := { b with lockList := [] }

def invalidate (b : CacheBlk) : CacheBlk :=
  { b with status := {}, isTouched := false }.clearLoadLocks

def trackLoadLocked (b : CacheBlk) (pkt : Packet) : Chk CacheBlk := do
  ensure pkt.isLLSC "pkt->isLLSC()"
  let contextId ← need pkt.req.contextId (.assertion "privateFlags.isSet(VALID_CONTEXT_ID)")
  return { b with lockList := contextId :: b.lockList }

def matchesContext (b : CacheBlk) (req : Request) : Chk Bool :=
  if b.lockList.isEmpty then return false
  else do
    let contextId ← need req.contextId (.assertion "privateFlags.isSet(VALID_CONTEXT_ID)")
    return b.lockList.contains contextId

def checkWrite (b : CacheBlk) (pkt : Packet) : Chk (CacheBlk × Packet × Bool) :=
  if pkt.isLLSC then do
    let success ← b.matchesContext pkt.req
    return (b.clearLoadLocks, pkt.setExtraData (if success then 1 else 0), success)
  else return (b.clearLoadLocks, pkt, true)

@[simp] theorem isValid_invalidate (b : CacheBlk) : b.invalidate.isValid = false := rfl

end CacheBlk

end Gem5
