import Gem5.Mem.Cache.MissPath
import Gem5.Mem.Cache.Store

/-!
# The cache in timing mode

`mem/cache/cache_impl.hh`, the handlers of the timing mode: requests from the
CPU side, responses and snoops from the memory side, and the sending of what
waits in the miss path. What the prefetcher offers, what the caches above make
of a snoop and what the bus makes of a request are arguments of the handlers.
-/

namespace Gem5

open Lib

/-- `snoopResponses` were given to the memory-side port to be sent, with their
times, and `snoopsSent` are the snoops passed on downwards. -/
structure Cache (σ : Type) where
  store : CacheStore σ
  path : MissPath
  snoopResponses : List (Packet × Nat) := []
  snoopsSent : List Packet := []

namespace Cache

variable {σ : Type} [TagStore σ]

def params (c : Cache σ) : CacheParams := c.store.params

def ready (c : Cache σ) (now : Nat) : Nat := now + c.params.hitLatency

def schedTimingSnoopResp (c : Cache σ) (pkt : Packet) (time : Nat) : Cache σ :=
  { c with snoopResponses := c.snoopResponses ++ [(pkt, time)] }

def snoopBlock (c : Cache σ) (now : Nat) (pkt : Packet) (blk : Option BlkRef)
    (isDeferred pendingInval : Bool) (reply : SnoopReply) : Chk (Cache σ × Packet) := do
  let above : Above := { timing := reply }
  let (store, pkt, resp) ← c.store.handleSnoop above pkt blk true isDeferred pendingInval
  let c := { c with store := store }
  match resp with
  | none => return (c, pkt)
  | some resp => return (c.schedTimingSnoopResp resp (c.ready now), pkt)

def fill (c : Cache σ) (now : Nat) (r : MSHRRef) (pkt : Packet) (blk : Option BlkRef) :
    Chk (Cache σ × Option BlkRef × List Packet) := do
  let m ← (c.path.register r).handleFill pkt
  let path := c.path.setRegister r m
  let (store, b, writebacks) ← c.store.handleFill path.mshrQueue now pkt blk
  return ({ c with store := store, path := path }, some b, writebacks)

/-- What is done for a target from the CPU: the store and the packet after it, and
the time at which it is answered. -/
def completeTarget (store : CacheStore σ) (m : MSHR) (pkt : Packet)
    (blk : Option BlkRef) (isFill : Bool) (initialOffset : Nat) (target : Packet) :
    Chk (CacheStore σ × Packet × Nat) :=
  if isFill then do
    let r ← need blk (.assertion "blk && blk->isValid()")
    let pendingDowngrade ← m.hasPostDowngrade
    let (store, target) ← store.satisfyCpuSideRequest target r true pendingDowngrade
    ensure (!target.req.uncacheable) "!target->pkt->req->isUncacheable()"
    store.countAccess target
    let time := if target.getOffset store.params.blkSize = initialOffset then pkt.firstWordTime
      else pkt.finishTime
    return (store, target, store.params.responseLatency + time)
  else if pkt.cmd = .upgradeFailResp then do
    ensure (target.cmd == .storeCondReq || target.cmd == .storeCondFailReq ||
      target.cmd == .scUpgradeFailReq) "failed StoreCond upgrade"
    return (store, target.setExtraData 0, store.params.responseLatency + pkt.finishTime)
  else
    return (store, if pkt.isRead && !pkt.isError then target.setData pkt.data else target,
      store.params.responseLatency + pkt.finishTime)

/-- The response to a target, with the error if there is one. A read that may not
keep the block is told so. -/
def targetResponse (m : MSHR) (pkt target : Packet) : Chk Packet := do
  let target ← target.makeResponse
  let target ← if pkt.isError then target.copyError pkt else pure target
  if target.cmd = .readResp then
    let inval ← if pkt.isInvalidate then pure true else m.hasPostInvalidate
    return if inval then { target with cmd := .readRespWithInvalidate } else target
  else return target

def serveTarget (c : Cache σ) (now : Nat) (r : MSHRRef) (pkt : Packet)
    (blk : Option BlkRef) (isFill : Bool) (initialOffset : Nat) (reply : SnoopReply)
    (t : Target) : Chk (Cache σ) :=
  let m := c.path.register r
  match t.source with
  | .fromCPU => do
    let (store, target, time) ← completeTarget c.store m pkt blk isFill initialOffset t.pkt
    let target ← targetResponse m pkt target
    return { c with store := store, path := c.path.schedTimingResp target time }
  | .fromPrefetcher => do
    ensure (t.pkt.cmd == .hardPFReq) "target->pkt->cmd == MemCmd::HardPFReq"
    match blk with
    | none => return c
    | some b => return { c with store := c.store.setStatus b ({ · with hwPrefetched := true }) }
  | .fromSnoop => do
    ensure (!pkt.isError) "!is_error"
    let inval ← m.hasPostInvalidate
    ensure (!(pkt.isInvalidate && !inval)) "!(pkt->isInvalidate() && !mshr->hasPostInvalidate())"
    let (c, _) ← c.snoopBlock now t.pkt blk true inval reply
    return c

def serveTargets (c : Cache σ) (now : Nat) (r : MSHRRef) (pkt : Packet) (blk : Option BlkRef)
    (isFill : Bool) (initialOffset : Nat) (replies : List Target → SnoopReply) :
    List Target → Chk (Cache σ)
  | [] => return c
  | t :: ts => do
    let c ← c.serveTarget now r pkt blk isFill initialOffset (replies ts) t
    let c := { c with path := c.path.setRegister r (c.path.register r).popTarget }
    c.serveTargets now r pkt blk isFill initialOffset replies ts

def settleBlock (store : CacheStore σ) (m : MSHR) (pkt : Packet) (blk : Option BlkRef) :
    Chk (CacheStore σ) :=
  match blk.filter fun b => (store.blk b).isValid with
  | none => return store
  | some b => do
    let inval ← if pkt.isInvalidate then pure true else m.hasPostInvalidate
    if inval then store.giveUp b
    else
      let downgrade ← m.hasPostDowngrade
      return if downgrade then store.setStatus b ({ · with writable := false }) else store

def clearTemp (c : Cache σ) (now : Nat) (blk : Option BlkRef) : Chk (Cache σ) :=
  if blk = some .temp then
    if c.store.tempBlock.isDirty then do
      let (store, writeback) ← c.store.writebackBlk .temp
      let path ← c.path.allocateWriteBuffer now writeback (c.ready now)
      return { c with store := store.setBlk .temp store.tempBlock.invalidate, path := path }
    else return { c with store := c.store.setBlk .temp c.store.tempBlock.invalidate }
  else return c

def finishResponse (c : Cache σ) (now : Nat) (wasFull : Bool) (r : MSHRRef) (pkt : Packet)
    (blk : Option BlkRef) (writebacks : List Packet) : Chk (Cache σ) := do
  let store ← settleBlock c.store (c.path.register r) pkt blk
  let (path, promoted) ← c.path.retire now wasFull r
  let store := match promoted, blk with
    | true, some b => store.setStatus b ({ · with readable := false })
    | _, _ => store
  let path ← path.bufferWritebacks now (c.ready now) writebacks
  let c := { c with store := store, path := path }
  c.clearTemp now blk

def mshrOf (pkt : Packet) : Chk MSHRRef :=
  match pkt.senderState with
  | .mshr queue index => return ⟨queue, index⟩
  | _ => .error (.assertion "mshr")

/-- `replies` are the answers of the caches above to the snoops among the targets,
given the targets that are left. -/
def handleResponse (c : Cache σ) (now : Nat) (pkt : Packet) (replies : List Target → SnoopReply) :
    Chk (Cache σ) := do
  let r ← mshrOf pkt
  let wasFull := (c.path.queue r.queue).isFull
  let path ← c.path.clearNoTargets r
  let c := { c with path := path }
  let _ ← (c.path.register r).getTarget
  let blk ← c.store.findBlock pkt.addr
  c.store.countAccess pkt
  let isFill := !(c.path.register r).isForward && (pkt.isRead || pkt.cmd == .upgradeResp)
  let (c, blk, writebacks) ← if isFill && !pkt.isError then c.fill now r pkt blk
    else pure (c, blk, [])
  let targets := (c.path.register r).targets.list
  let initialOffset := targets.head?.elim 0 fun t => t.pkt.getOffset c.params.blkSize
  let c ← c.serveTargets now r pkt blk isFill initialOffset replies targets
  c.finishResponse now wasFull r pkt blk writebacks

def uncacheableRequest (c : Cache σ) (now : Nat) (pkt : Packet) : Chk (Cache σ) := do
  let store ← c.store.uncacheableAccess pkt
  let path ← if pkt.isWrite && !pkt.isRead then c.path.allocateWriteBuffer now pkt (c.ready now)
    else c.path.allocateUncachedReadBuffer now pkt (c.ready now)
  ensure pkt.needsResponse "pkt->needsResponse()"
  return { c with store := store, path := path }

def noticePrefetched (c : Cache σ) (blk : Option BlkRef) : Cache σ :=
  match blk with
  | none => c
  | some b =>
    if c.params.prefetcher && (c.params.prefetchOnAccess || (c.store.blk b).wasPrefetched) then
      { c with store := c.store.setStatus b ({ · with hwPrefetched := false }) }
    else c

def requestHit (c : Cache σ) (now : Nat) (pkt : Packet) (blk : Option BlkRef) (lat : Int) :
    Chk (Cache σ) :=
  let c := c.noticePrefetched blk
  if pkt.needsResponse then do
    let pkt ← pkt.makeResponse
    return { c with path := c.path.schedTimingResp pkt (now + lat).toNat }
  else return c

/-- A miss that needs a register of its own. A valid block may no longer be read
then. -/
def allocateMiss (c : Cache σ) (now : Nat) (pkt : Packet) (blk : Option BlkRef) : Chk (Cache σ) := do
  let blkAddr := c.params.blockAlign pkt.addr
  match blk.filter fun b => (c.store.blk b).isValid with
  | none =>
    let (path, _) ← c.path.allocateMissBuffer now blkAddr c.params.blkSize pkt (c.ready now)
    return { c with path := path }
  | some b =>
    ensure (pkt.needsExclusive && !(c.store.blk b).isWritable)
      "pkt->needsExclusive() && !blk->isWritable()"
    let (path, _) ← c.path.allocateMissBuffer now blkAddr c.params.blkSize pkt (c.ready now)
    return { c with path := path, store := c.store.setStatus b ({ · with readable := false }) }

def requestMiss (c : Cache σ) (now : Nat) (pkt : Packet) (blk : Option BlkRef) : Chk (Cache σ) := do
  c.store.countAccess pkt
  match c.path.mshrQueue.findMatch (c.params.blockAlign pkt.addr) with
  | some i =>
    let path ← c.path.addTarget c.params.numTarget now ⟨.mshrs, i⟩ pkt (c.ready now)
    return { c with path := path }
  | none =>
    if pkt.cmd = .writeback then
      let path ← c.path.allocateWriteBuffer now pkt (c.ready now)
      return { c with path := path }
    else c.allocateMiss now pkt blk

def cacheableRequest (c : Cache σ) (now : Nat) (pkt : Packet) : Chk (Cache σ) := do
  let (store, pkt, res) ← c.store.access c.path.mshrQueue now pkt
  let c := { c with store := store }
  let c ← if res.satisfied then c.requestHit now pkt res.blk res.lat else c.requestMiss now pkt res.blk
  let path ← c.path.bufferWritebacks now (c.ready now) res.writebacks
  return { c with path := path }

/-- A request that is answered elsewhere is passed on if other caches below may
have copies. -/
def inhibitedRequest (c : Cache σ) (pkt : Packet) : Chk (Cache σ) := do
  ensure (!pkt.req.uncacheable) "!pkt->req->isUncacheable()"
  if pkt.needsExclusive && !pkt.supplyExclusive then
    let snoop := { pkt.copyClearFlags with expressSnoop := true, memInhibit := true }
    return { c with snoopsSent := c.snoopsSent ++ [snoop] }
  else return c

def timingAccess (c : Cache σ) (now : Nat) (pkt : Packet) (replies : List Target → SnoopReply) :
    Chk (Cache σ) :=
  if pkt.isResponse then
    match pkt.senderState with
    | .forwardResponseRecord prevSenderState prevSrc =>
      let resp := { pkt with senderState := prevSenderState, dest := prevSrc }
      return c.schedTimingSnoopResp resp (c.ready now)
    | _ => do
      ensure (pkt.cmd == .hardPFResp) "pkt->cmd == MemCmd::HardPFResp"
      c.handleResponse now pkt replies
  else do
    ensure pkt.isRequest "pkt->isRequest()"
    if pkt.memInhibit then c.inhibitedRequest pkt
    else if pkt.req.uncacheable then c.uncacheableRequest now pkt
    else c.cacheableRequest now pkt

def recvTimingReq (c : Cache σ) (now : Nat) (pkt : Packet) (replies : List Target → SnoopReply) :
    Chk (Cache σ × Bool) :=
  if !pkt.memInhibit && c.path.portBlocked then
    return ({ c with path := { c.path with mustSendRetry := true } }, false)
  else do
    let c ← c.timingAccess now pkt replies
    return (c, true)

def snoopWriteback (c : Cache σ) (now : Nat) (pkt : Packet) (i : Nat) : Chk (Cache σ × Packet) := do
  let m := c.path.writeBuffer.registers i
  ensure (!m.isUncacheable) "!mshr->isUncacheable()"
  ensure (m.ntargets == 1) "mshr->getNumTargets() == 1"
  let t ← m.getTarget
  ensure (t.pkt.cmd == .writeback) "wb_pkt->cmd == MemCmd::Writeback"
  ensure (!pkt.memInhibit) "!pkt->memInhibitAsserted()"
  ensure (!pkt.needsExclusive || pkt.isInvalidate) "pkt->isInvalidate()"
  let pkt := { pkt with memInhibit := true, shared := pkt.shared || !pkt.needsExclusive }
  let wbPkt := if pkt.needsExclusive then t.pkt else { t.pkt with supplyExclusive := false }
  let targets := { m.targets with list := { t with pkt := wbPkt } :: m.targets.list.tail }
  let path := c.path.setRegister ⟨.writeBuffer, i⟩ { m with targets := targets }
  let resp ← c.store.timingSupplyResponse pkt wbPkt.data false
  let c := { c with path := path }.schedTimingSnoopResp resp (c.ready now)
  if pkt.isInvalidate then
    let path ← c.path.markInServiceInternal ⟨.writeBuffer, i⟩ wbPkt
    return ({ c with path := path }, pkt)
  else return (c, pkt)

def snoopBuffers (c : Cache σ) (now : Nat) (pkt : Packet) (blk : Option BlkRef) (reply : SnoopReply) :
    Chk (Cache σ) := do
  match c.path.writeBuffer.findMatches (c.params.blockAlign pkt.addr) with
  | [] =>
    let (c, _) ← c.snoopBlock now pkt blk false false reply
    return c
  | [i] =>
    let (c, pkt) ← c.snoopWriteback now pkt i
    let (c, _) ← c.snoopBlock now pkt blk false false reply
    return c
  | _ => .error (.assertion "writebacks.size() == 1")

def snoopTiming (c : Cache σ) (now : Nat) (pkt : Packet) (reply : SnoopReply) : Chk (Cache σ) :=
  if pkt.req.uncacheable || pkt.cmd = .writeback then return c
  else do
    let blk ← c.store.findBlock pkt.addr
    match c.path.mshrQueue.findMatch (c.params.blockAlign pkt.addr) with
    | none => c.snoopBuffers now pkt blk reply
    | some i =>
      let (m, pkt, deferred) := (c.path.mshrQueue.registers i).handleSnoop now pkt c.path.order
      let path := { c.path.setRegister ⟨.mshrs, i⟩ m with order := c.path.order + 1 }
      let c := { c with path := path }
      if deferred then return c else c.snoopBuffers now pkt blk reply

def tryPrefetch (c : Cache σ) (now : Nat) (offer : Option Packet) : Chk (Cache σ × Option MSHRRef) :=
  match offer with
  | none => return (c, none)
  | some pkt => do
    let addr := c.params.blockAlign pkt.addr
    let blk ← c.store.findBlock addr
    if blk.isNone && (c.path.mshrQueue.findMatch addr).isNone &&
        (c.path.writeBuffer.findMatch addr).isNone then
      c.store.countAccess pkt
      let (path, r) ← c.path.allocateMissBuffer now addr c.params.blkSize pkt now
      return ({ c with path := path }, some r)
    else return (c, none)

def getNextMSHR (c : Cache σ) (now : Nat) (offer : Option Packet) : Chk (Cache σ × Option MSHRRef) :=
  match c.path.nextPending now with
  | some r => return (c, some r)
  | none =>
    if c.params.prefetcher && !c.path.mshrQueue.isFull then c.tryPrefetch now offer
    else return (c, none)

/-- What the memory-side port gets to send: nothing, or the packet of a register.
A prefetch that a cache above answers puts its register in service without one. -/
inductive TimingPacket
  | nothing
  | answeredAbove (r : MSHRRef)
  | packet (r : MSHRRef) (pkt : Packet)

def failResponse (now : Nat) (r : MSHRRef) (target : Packet) : Packet :=
  { target with
    cmd := .upgradeFailResp
    senderState := .mshr r.queue r.index
    firstWordTime := now
    finishTime := now }

def requestPacket (c : Cache σ) (r : MSHRRef) (target : Packet) (blk : Option BlkRef) :
    Chk (Cache σ × TimingPacket) := do
  let m := c.path.register r
  let bus ← c.store.getBusPacket target blk m.targets.needsExclusive
  let c := { c with path := c.path.setRegister r { m with isForward := bus.isNone } }
  let pkt := { bus.getD target with senderState := .mshr r.queue r.index }
  return (c, .packet r pkt)

def packetFor (c : Cache σ) (now : Nat) (r : MSHRRef) (above : SnoopReply)
    (replies : List Target → SnoopReply) : Chk (Cache σ × TimingPacket) := do
  let m := c.path.register r
  let t ← m.getTarget
  if t.pkt.cmd = .scUpgradeFailReq ∨ t.pkt.cmd = .storeCondFailReq then
    let c ← c.handleResponse now (failResponse now r t.pkt) replies
    return (c, .nothing)
  else
    let noResponse ← m.isForwardNoResponse
    let blk ← c.store.findBlock m.addr
    if noResponse then
      ensure blk.isNone "tags->findBlock(mshr->addr) == NULL"
      return (c, .packet r { t.pkt with senderState := .mshr r.queue r.index })
    else if t.pkt.cmd = .hardPFReq then
      ensure blk.isNone "blk == NULL"
      if above.memInhibit then
        let snoop := { t.pkt.copyClearFlags with memInhibit := true, shared := above.shared }
        let path ← c.path.markInServiceInternal r snoop
        return ({ c with path := path }, .answeredAbove r)
      else c.requestPacket r t.pkt blk
    else c.requestPacket r t.pkt blk

def getTimingPacket (c : Cache σ) (now : Nat) (offer : Option Packet) (above : SnoopReply)
    (replies : List Target → SnoopReply) : Chk (Cache σ × TimingPacket) := do
  let (c, r) ← c.getNextMSHR now offer
  match r with
  | none => return (c, .nothing)
  | some r => c.packetFor now r above replies

/-- `MemSidePacketQueue::sendDeferredPacket` when no snoop response waits. `sent` is
whether the bus takes the packet, and `reply` what the snoopers set on it. -/
def sendDeferredPacket (c : Cache σ) (now : Nat) (offer : Option Packet) (above : SnoopReply)
    (replies : List Target → SnoopReply) (sent : Bool) (reply : SnoopReply) :
    Chk (Cache σ × TimingPacket) := do
  let (c, out) ← c.getTimingPacket now offer above replies
  match out with
  | .packet r pkt =>
    if sent then
      let pkt := { pkt with memInhibit := pkt.memInhibit || reply.memInhibit
                            shared := pkt.shared || reply.shared }
      let path ← c.path.markInServiceInternal r pkt
      return ({ c with path := path }, .packet r pkt)
    else return (c, .nothing)
  | _ => return (c, out)

end Cache

end Gem5
