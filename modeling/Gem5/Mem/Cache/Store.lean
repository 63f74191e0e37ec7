import Gem5.Mem.Cache.MSHRQueue
import Gem5.Mem.Cache.Tags.Base

/-!
# The blocks of a cache

`mem/cache/cache_impl.hh`, the functions that work on the blocks: they satisfy
requests, fill blocks, write them back and let them be snooped. Both the atomic
and the timing mode of a cache are built from them.

A block is one of the tag store, or the temporary block that takes a fill no
block can be found for. What the caches above answer to a snoop that is passed
on to them is an argument. Statistics are left out.
-/

namespace Gem5

open Lib

structure CacheParams where
  blkSize : Nat
  hitLatency : Nat
  responseLatency : Nat
  numTarget : Nat
  maxMasters : Nat
  forwardSnoops : Bool := true
  isTopLevel : Bool := false
  prefetcher : Bool := false
  prefetchOnAccess : Bool := false

def CacheParams.blockAlign (p : CacheParams) (addr : Nat) : Nat :=
  addr &&& (2 ^ 64 - 1 - (p.blkSize - 1))

inductive BlkRef
  | frame (b : Nat)
  | temp
  deriving DecidableEq, Repr

structure SnoopReply where
  memInhibit : Bool := false
  shared : Bool := false
  deriving DecidableEq, Repr

/-- The caches above: their answer to a timing snoop, and what they make of an
atomic one. -/
structure Above where
  timing : SnoopReply := {}
  atomic : Packet → Chk Packet := pure

structure CacheStore (σ : Type) where
  params : CacheParams
  tags : σ
  tempBlock : CacheBlk := {}

namespace CacheStore

variable {σ : Type} [TagStore σ]

def blk (c : CacheStore σ) : BlkRef → CacheBlk
  | .frame b => TagStore.blk c.tags b
  | .temp => c.tempBlock

def setBlk (c : CacheStore σ) : BlkRef → CacheBlk → CacheStore σ
  | .frame b, blk => { c with tags := TagStore.setBlk c.tags b blk }
  | .temp, blk => { c with tempBlock := blk }

def setStatus (c : CacheStore σ) (r : BlkRef) (f : BlkStatus → BlkStatus) : CacheStore σ :=
  c.setBlk r { c.blk r with status := f (c.blk r).status }

def invalidate (c : CacheStore σ) (b : Nat) : Chk (CacheStore σ) := do
  let tags ← TagStore.evict c.tags b
  return { c with tags := tags }

/-- The same where it is asserted that the block is not the temporary one. -/
def giveUp (c : CacheStore σ) : BlkRef → Chk (CacheStore σ)
  | .frame b => c.invalidate b
  | .temp => .error (.assertion "blk != tempBlock")

def findBlock (c : CacheStore σ) (addr : Nat) : Chk (Option BlkRef) := do
  let b ← TagStore.findBlock c.tags addr
  return b.map .frame

def cmpAndSwap (c : CacheStore σ) (r : BlkRef) (pkt : Packet) : Chk (CacheStore σ × Packet) := do
  let blk := c.blk r
  let offset := TagStore.extractBlkOffset c.tags pkt.addr
  let old := fun i => blk.data (offset + i)
  ensure (pkt.size ≤ 8) "sizeof(uint64_t) >= pkt->getSize()"
  let overwrite ← pkt.swapApplies old
  let new := { blk with
    data := memcpy blk.data offset pkt.data pkt.size
    status := { blk.status with dirty := true } }
  return (if overwrite then c.setBlk r new else c, pkt.setData old)

def satisfyWrite (c : CacheStore σ) (r : BlkRef) (pkt : Packet) : Chk (CacheStore σ × Packet) := do
  let (blk, pkt, ok) ← (c.blk r).checkWrite pkt
  let new := { blk with
    data := pkt.writeDataToBlock blk.data c.params.blkSize
    status := { blk.status with dirty := true } }
  return (c.setBlk r (if ok then new else blk), pkt)

/-- What a cache above gets with a whole block. On a `ReadExReq` the copy is given
up, and otherwise exclusivity is passed on if nothing speaks against it. -/
def passBlock (c : CacheStore σ) (r : BlkRef) (pkt : Packet)
    (deferredResponse pendingDowngrade : Bool) :
    Chk (CacheStore σ × Packet) :=
  let blk := c.blk r
  if pkt.needsExclusive then do
    let c ← c.giveUp r
    return (c, { pkt with memInhibit := pkt.memInhibit || blk.isDirty })
  else if blk.isWritable && !pendingDowngrade && !pkt.shared && !pkt.req.instFetch then
    if !blk.isDirty then return (c, pkt)
    else if !deferredResponse && !c.params.isTopLevel then
      return (c.setStatus r ({ · with dirty := false }), { pkt with memInhibit := true })
    else return (c, { pkt with shared := true })
  else return (c, { pkt with shared := true })

def satisfyRead (c : CacheStore σ) (r : BlkRef) (pkt : Packet)
    (deferredResponse pendingDowngrade : Bool) :
    Chk (CacheStore σ × Packet) := do
  let blk ← if pkt.isLLSC then (c.blk r).trackLoadLocked pkt else pure (c.blk r)
  let c := c.setBlk r blk
  let pkt := pkt.setDataFromBlock blk.data c.params.blkSize
  if pkt.size = c.params.blkSize then c.passBlock r pkt deferredResponse pendingDowngrade
  else return (c, pkt)

def satisfyCpuSideRequest (c : CacheStore σ) (pkt : Packet) (r : BlkRef)
    (deferredResponse pendingDowngrade : Bool) : Chk (CacheStore σ × Packet) := do
  ensure (c.blk r).isValid "blk && blk->isValid()"
  ensure (pkt.getOffset c.params.blkSize + pkt.size ≤ c.params.blkSize)
    "pkt->getOffset(blkSize) + pkt->getSize() <= blkSize"
  if pkt.cmd = .swapReq then c.cmpAndSwap r pkt
  else if pkt.isWrite then c.satisfyWrite r pkt
  else if pkt.isRead then c.satisfyRead r pkt deferredResponse pendingDowngrade
  else
    ensure pkt.isUpgrade "pkt->isUpgrade()"
    let c ← c.giveUp r
    return (c, pkt)

def writebackBlk (c : CacheStore σ) (r : BlkRef) : Chk (CacheStore σ × Packet) := do
  let blk := c.blk r
  ensure (blk.isValid && blk.isDirty) "blk && blk->isValid() && blk->isDirty()"
  let addr := TagStore.regenerateBlkAddr c.tags blk.tag blk.set
  let writeback : Packet :=
    { id := 0
      cmd := .writeback
      req := ⟨addr, c.params.blkSize, Request.wbMasterId, none, false, false, false, false, 0⟩
      addr := addr
      size := c.params.blkSize
      data := memcpy (fun _ => 0) 0 blk.data c.params.blkSize
      supplyExclusive := blk.isWritable }
  return (c.setStatus r ({ · with dirty := false }), writeback)

/-- A block for the address, if the one chosen has no request of its own on its
way, and the writebacks this asks for. -/
def allocateBlock (c : CacheStore σ) (mshrs : MSHRQueue) (now addr : Nat) :
    Chk (CacheStore σ × Option Nat × List Packet) := do
  let (tags, b, writebacks) ← TagStore.findVictim c.tags now addr
  let c := { c with tags := tags }
  let blk := TagStore.blk c.tags b
  if blk.isValid then
    match mshrs.findMatch (TagStore.regenerateBlkAddr c.tags blk.tag blk.set) with
    | some i =>
      ensure (!blk.isWritable) "!blk->isWritable()"
      ensure (mshrs.registers i).targets.needsExclusive "repl_mshr->needsExclusive()"
      return (c, none, writebacks)
    | none =>
      if blk.isDirty then
        let (c, writeback) ← c.writebackBlk (.frame b)
        return (c, some b, writebacks ++ [writeback])
      else return (c, some b, writebacks)
  else return (c, some b, writebacks)

def fillTarget (c : CacheStore σ) (mshrs : MSHRQueue) (now : Nat) (pkt : Packet) :
    Chk (CacheStore σ × BlkRef × List Packet) := do
  ensure pkt.hasData "pkt->hasData()"
  match ← c.allocateBlock mshrs now pkt.addr with
  | (c, none, writebacks) =>
    ensure (!c.tempBlock.isValid) "!tempBlock->isValid()"
    let temp := { c.tempBlock with
      set := TagStore.extractSet c.tags pkt.addr
      tag := TagStore.extractTag c.tags pkt.addr }
    return ({ c with tempBlock := temp }, .temp, writebacks)
  | (c, some b, writebacks) =>
    let tags ← TagStore.insertBlock c.tags now pkt.addr b pkt.req.masterId
    ensure (!(TagStore.blk tags b).isValid) "!blk->isValid()"
    return ({ c with tags := tags }, .frame b, writebacks)

def checkFillTarget (c : CacheStore σ) (mshrs : MSHRQueue) (now : Nat) (pkt : Packet) :
    Option BlkRef → Chk (CacheStore σ × BlkRef × List Packet)
  | none => c.fillTarget mshrs now pkt
  | some r => do
    ensure ((c.blk r).tag == TagStore.extractTag c.tags pkt.addr) "blk->tag == tags->extractTag(addr)"
    ensure (pkt.hasData || (c.blk r).isValid) "pkt->hasData() || blk->isValid()"
    return (c, r, [])

def filled (blk : CacheBlk) (pkt : Packet) (blkSize : Nat) : CacheBlk :=
  { blk with
    status := { blk.status with
      valid := true
      readable := true
      writable := blk.status.writable || !pkt.shared
      dirty := blk.status.dirty || (!pkt.shared && pkt.memInhibit) }
    data := if pkt.isRead then memcpy blk.data 0 pkt.data blkSize else blk.data
    whenReady := pkt.finishTime }

def handleFill (c : CacheStore σ) (mshrs : MSHRQueue) (now : Nat) (pkt : Packet)
    (blk : Option BlkRef) :
    Chk (CacheStore σ × BlkRef × List Packet) := do
  let (c, r, writebacks) ← c.checkFillTarget mshrs now pkt blk
  return (c.setBlk r (filled (c.blk r) pkt c.params.blkSize), r, writebacks)

structure AccessResult where
  satisfied : Bool
  blk : Option BlkRef
  lat : Int
  writebacks : List Packet := []

def countAccess (c : CacheStore σ) (pkt : Packet) : Chk Unit :=
  ensure (pkt.req.masterId < c.params.maxMasters) "pkt->req->masterId() < system->maxMasters()"

def uncacheableAccess (c : CacheStore σ) (pkt : Packet) : Chk (CacheStore σ) :=
  if pkt.req.clearLL then return { c with tags := TagStore.clearLocks c.tags }
  else if pkt.isWrite then do
    match ← TagStore.findBlock c.tags pkt.addr with
    | none => return c
    | some b => c.invalidate b
  else return c

def takeWriteback (c : CacheStore σ) (r : BlkRef) (pkt : Packet) : CacheStore σ :=
  let blk := c.blk r
  c.setBlk r { blk with
    data := memcpy blk.data 0 pkt.data c.params.blkSize
    status := { blk.status with
      dirty := true, writable := blk.status.writable || pkt.supplyExclusive } }

def accessWriteback (c : CacheStore σ) (mshrs : MSHRQueue) (now : Nat) (pkt : Packet)
    (blk : Option BlkRef) (lat : Int) : Chk (CacheStore σ × Packet × AccessResult) := do
  ensure (c.params.blkSize == pkt.size) "blkSize == pkt->getSize()"
  match blk with
  | some r =>
    ensure (!pkt.needsResponse) "!pkt->needsResponse()"
    c.countAccess pkt
    return (c.takeWriteback r pkt, pkt, ⟨true, some r, lat, []⟩)
  | none =>
    match ← c.allocateBlock mshrs now pkt.addr with
    | (c, none, writebacks) =>
      c.countAccess pkt
      return (c, pkt, ⟨false, none, lat, writebacks⟩)
    | (c, some b, writebacks) =>
      let tags ← TagStore.insertBlock c.tags now pkt.addr b pkt.req.masterId
      let c := { c with tags := tags }
      let c := c.setStatus (.frame b) fun _ => { valid := true, readable := true }
      ensure (!pkt.needsResponse) "!pkt->needsResponse()"
      c.countAccess pkt
      return (c.takeWriteback (.frame b) pkt, pkt, ⟨true, some (.frame b), lat, writebacks⟩)

def access (c : CacheStore σ) (mshrs : MSHRQueue) (now : Nat) (pkt : Packet) :
    Chk (CacheStore σ × Packet × AccessResult) :=
  if pkt.req.uncacheable then do
    let c ← c.uncacheableAccess pkt
    return (c, pkt, ⟨false, none, c.params.hitLatency, []⟩)
  else do
    let (tags, b, lat) ← TagStore.accessBlock c.tags now pkt.addr
    let c := { c with tags := tags }
    let blk := b.map BlkRef.frame
    match blk.filter fun r =>
        if pkt.needsExclusive then (c.blk r).isWritable else (c.blk r).isReadable with
    | some r =>
      c.countAccess pkt
      let (c, pkt) ← c.satisfyCpuSideRequest pkt r false false
      return (c, pkt, ⟨true, blk, lat, []⟩)
    | none =>
      if pkt.cmd = .writeback then c.accessWriteback mshrs now pkt blk lat
      else
        c.countAccess pkt
        if blk.isNone && pkt.isLLSC && pkt.isWrite then
          return (c, pkt.setExtraData 0, ⟨true, none, lat, []⟩)
        else return (c, pkt, ⟨false, blk, lat, []⟩)

/-- The packet that asks for the block, or `none` if the request itself is
passed on. -/
def getBusPacket (c : CacheStore σ) (cpuPkt : Packet) (blk : Option BlkRef) (needsExclusive : Bool) :
    Chk (Option Packet) :=
  let valid := blk.filter fun r => (c.blk r).isValid
  if cpuPkt.req.uncacheable then return none
  else if valid.isNone && (cpuPkt.cmd == .writeback || cpuPkt.isUpgrade) then return none
  else do
    ensure cpuPkt.needsResponse "cpu_pkt->needsResponse()"
    match valid with
    | some r =>
      ensure (needsExclusive && !(c.blk r).isWritable) "needsExclusive && !blk->isWritable()"
      return some (.ofBlock cpuPkt.req (if cpuPkt.isLLSC then .scUpgradeReq else .upgradeReq)
        c.params.blkSize)
    | none =>
      return some (.ofBlock cpuPkt.req (if needsExclusive then .readExReq else .readReq)
        c.params.blkSize)

def timingSupplyResponse (c : CacheStore σ) (reqPkt : Packet) (data : Nat → UInt8)
    (pendingInval : Bool) :
    Chk Packet := do
  ensure (reqPkt.isInvalidate || reqPkt.shared) "req_pkt->isInvalidate() || pkt->sharedAsserted()"
  let pkt ← reqPkt.makeResponse
  let pkt := if pkt.isRead then pkt.setDataFromBlock data c.params.blkSize else pkt
  return if pkt.cmd = .readResp ∧ pendingInval = true then
    { pkt with cmd := .readRespWithInvalidate } else pkt

def forwardSnoop (above : Above) (pkt : Packet) (isTiming : Bool) : Chk Packet :=
  if isTiming then do
    ensure (!(above.timing.memInhibit && pkt.memInhibit)) "!alreadyResponded"
    return { pkt with
      memInhibit := pkt.memInhibit || above.timing.memInhibit
      shared := pkt.shared || above.timing.shared }
  else do
    let resp ← above.atomic pkt
    ensure (pkt.memInhibit || !resp.memInhibit || resp.isResponse) "pkt->isResponse()"
    return resp

def respondSnoop (c : CacheStore σ) (pkt : Packet) (blk : CacheBlk) (isTiming pendingInval : Bool) :
    Chk (Packet × Option Packet) := do
  ensure (!pkt.memInhibit) "!pkt->memInhibitAsserted()"
  let pkt := { pkt with memInhibit := true, supplyExclusive := pkt.supplyExclusive || blk.isWritable }
  if isTiming then
    let resp ← c.timingSupplyResponse pkt blk.data pendingInval
    return (pkt, some resp)
  else
    let pkt ← pkt.makeResponse
    return (pkt.setDataFromBlock blk.data c.params.blkSize, none)

/-- The snoop of a valid block. `invalidate` and `needsExclusive` are the
packet's as it came, before it was passed on. -/
def snoopBlk (c : CacheStore σ) (pkt : Packet) (r : BlkRef)
    (isTiming pendingInval invalidate needsExclusive : Bool) :
    Chk (CacheStore σ × Packet × Option Packet) := do
  let blk := c.blk r
  let respond := blk.isDirty && pkt.needsResponse
  let shares := pkt.isRead && !invalidate
  ensure (!(shares && needsExclusive)) "!needs_exclusive"
  let pkt := { pkt with shared := pkt.shared || shares }
  let c := if shares then c.setStatus r ({ · with writable := false }) else c
  let (pkt, resp) ← if respond then c.respondSnoop pkt blk isTiming pendingInval else pure (pkt, none)
  let c ← if invalidate then c.giveUp r else pure c
  return (c, pkt, resp)

def handleSnoop (c : CacheStore σ) (above : Above) (pkt : Packet) (blk : Option BlkRef)
    (isTiming isDeferred pendingInval : Bool) : Chk (CacheStore σ × Packet × Option Packet) := do
  ensure (!(isDeferred && !isTiming)) "!(is_deferred && !is_timing)"
  ensure (!(pendingInval && !isDeferred)) "!(pending_inval && !is_deferred)"
  ensure pkt.isRequest "pkt->isRequest()"
  let fwd ← if c.params.forwardSnoops then forwardSnoop above pkt isTiming else pure pkt
  match blk.filter fun r => (c.blk r).isValid with
  | none => return (c, fwd, none)
  | some r => c.snoopBlk fwd r isTiming pendingInval pkt.isInvalidate pkt.needsExclusive

end CacheStore

end Gem5
