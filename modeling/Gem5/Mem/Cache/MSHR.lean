import Gem5.Mem.Packet

/-!
# Miss status holding registers

`mem/cache/mshr.cc`. A register holds the targets of one outstanding miss:
those the request on its way will serve, and those deferred until after its
response. A target's packet may carry a register of another cache as its
sender state, and a cache marks that register as pending below with
`markDownstreamPending` when it adds the target and unmarks it when its own
request is on its way. The calls a register gets are modelled; those it makes
on the registers of the caches above are left out.
-/

namespace Gem5

open Lib

inductive Source
  | fromCPU
  | fromSnoop
  | fromPrefetcher
  deriving DecidableEq, Repr

structure Target where
  recvTime : Nat
  readyTime : Nat
  order : Nat
  pkt : Packet
  source : Source
  markedPending : Bool

structure TargetList where
  list : List Target := []
  needsExclusive : Bool := false
  hasUpgrade : Bool := false

def replaceUpgrade (pkt : Packet) : Packet :=
  match pkt.cmd with
  | .upgradeReq => { pkt with cmd := .readExReq }
  | .scUpgradeReq => { pkt with cmd := .scUpgradeFailReq }
  | .storeCondReq => { pkt with cmd := .storeCondFailReq }
  | _ => pkt

namespace TargetList

def resetFlags (l : TargetList) : TargetList := { l with needsExclusive := false, hasUpgrade := false }

def isReset (l : TargetList) : Bool := !l.needsExclusive && !l.hasUpgrade

def add (l : TargetList) (now : Nat) (pkt : Packet) (readyTime order : Nat) (source : Source)
    (markPending : Bool) : TargetList :=
  let fromSnoop := source == .fromSnoop
  { list := l.list ++ [⟨now, readyTime, order, pkt, source, markPending⟩]
    needsExclusive := l.needsExclusive || (!fromSnoop && pkt.needsExclusive)
    hasUpgrade := l.hasUpgrade || (!fromSnoop && (pkt.isUpgrade || pkt.cmd == .storeCondReq)) }

def replaceUpgrades (l : TargetList) : TargetList :=
  if l.hasUpgrade then
    { l with
      list := l.list.map fun t => { t with pkt := replaceUpgrade t.pkt }
      hasUpgrade := false }
  else l

end TargetList

structure MSHR where
  readyTime : Nat := 0
  order : Nat := 0
  addr : Nat := 0
  size : Nat := 0
  inService : Bool := false
  isForward : Bool := false
  isUncacheable : Bool := false
  downstreamPending : Bool := false
  pendingDirty : Bool := false
  postInvalidate : Bool := false
  postDowngrade : Bool := false
  ntargets : Nat := 0
  targets : TargetList := {}
  deferredTargets : TargetList := {}
  readyIter : Nat := 0
  allocIter : Nat := 0

def ushort (n : Nat) : Nat := n % 65536

namespace MSHR

def hasPostInvalidate (m : MSHR) : Chk Bool := do
  ensure m.inService "inService"
  return m.postInvalidate

def hasPostDowngrade (m : MSHR) : Chk Bool := do
  ensure m.inService "inService"
  return m.postDowngrade

def getTarget (m : MSHR) : Chk Target := need m.targets.list.head? (.assertion "hasTargets()")

def popTarget (m : MSHR) : MSHR :=
  { m with
    ntargets := ushort (m.ntargets + 65535)
    targets := { m.targets with list := m.targets.list.tail } }

def isForwardNoResponse (m : MSHR) : Chk Bool :=
  if m.ntargets ≠ 1 then
    return false
  else do
    let t ← m.getTarget
    return t.source == .fromCPU && !t.pkt.needsResponse

def allocate (m : MSHR) (now addr size : Nat) (target : Packet) (whenReady order : Nat) :
    Chk MSHR := do
  ensure m.targets.isReset "targets->isReset()"
  let source := if target.cmd = .hardPFReq then Source.fromPrefetcher else Source.fromCPU
  let targets := m.targets.add now target whenReady order source true
  ensure m.deferredTargets.isReset "deferredTargets->isReset()"
  return { m with
    addr := addr
    size := size
    readyTime := whenReady
    order := order
    isForward := false
    isUncacheable := target.req.uncacheable
    inService := false
    downstreamPending := false
    ntargets := 1
    targets := targets }

/-- What `TargetList::add` of the cache below does to the sender state of the packet it takes. -/
def markDownstreamPending (m : MSHR) : Chk MSHR := do
  ensure (!m.downstreamPending) "!mshr->downstreamPending"
  return { m with downstreamPending := true }

def clearDownstreamPending (m : MSHR) : Chk MSHR := do
  ensure m.downstreamPending "downstreamPending"
  return { m with downstreamPending := false }

def noteDownstream (m : MSHR) (pending : Bool) : Chk MSHR :=
  if pending then m.markDownstreamPending else m.clearDownstreamPending

/-- The Boolean is the method's result: the register expects no response and is
to be deallocated. -/
def markInService (m : MSHR) (pkt : Packet) : Chk (MSHR × Bool) := do
  ensure (!m.inService) "!inService"
  let noResponse ← m.isForwardNoResponse
  if noResponse then
    ensure (m.ntargets == 1) "getNumTargets() == 1"
    return (m.popTarget, true)
  else
    return ({ m with
      inService := true
      pendingDirty := m.targets.needsExclusive || (!pkt.shared && pkt.memInhibit)
      postInvalidate := false
      postDowngrade := false }, false)

def deallocate (m : MSHR) : Chk MSHR := do
  ensure m.targets.list.isEmpty "targets->empty()"
  ensure m.deferredTargets.isReset "deferredTargets->isReset()"
  ensure (m.ntargets == 0) "ntargets == 0"
  return { m with targets := m.targets.resetFlags, inService := false }

/-- A target that arrives while the request is on its way has to wait if others
do, if the block will be taken away again, or if it needs an exclusive copy and
the request does not bring one. -/
def mustDefer (m : MSHR) (pkt : Packet) : Bool :=
  m.inService && (!m.deferredTargets.list.isEmpty || m.postInvalidate ||
    (pkt.needsExclusive && (!m.pendingDirty || m.postDowngrade || m.isForward)))

def allocateTarget (m : MSHR) (now : Nat) (pkt : Packet) (whenReady order : Nat) : Chk MSHR := do
  ensure (pkt.cmd != .hardPFReq) "pkt->cmd != MemCmd::HardPFReq"
  if m.mustDefer pkt then
    let pkt := if m.postInvalidate then replaceUpgrade pkt else pkt
    return { m with
      deferredTargets := m.deferredTargets.add now pkt whenReady order .fromCPU true
      ntargets := ushort (m.ntargets + 1) }
  else
    return { m with
      targets := m.targets.add now pkt whenReady order .fromCPU (!m.inService)
      ntargets := ushort (m.ntargets + 1) }

def handleSnoop (m : MSHR) (now : Nat) (pkt : Packet) (order : Nat) : MSHR × Packet × Bool :=
  if !m.inService || (pkt.expressSnoop && m.downstreamPending) then
    if pkt.needsExclusive then
      ({ m with
        targets := m.targets.replaceUpgrades
        deferredTargets := m.deferredTargets.replaceUpgrades }, pkt, false)
    else (m, pkt, false)
  else
    let m := if pkt.needsExclusive then
      { m with deferredTargets := m.deferredTargets.replaceUpgrades } else m
    if m.postInvalidate then (m, pkt, true)
    else
      let keeps := m.pendingDirty || pkt.isInvalidate
      let mark := m.downstreamPending && m.targets.needsExclusive
      let m := if keeps then
        { m with
          targets := m.targets.add now pkt.copyClearFlags now order .fromSnoop mark
          ntargets := ushort (m.ntargets + 1)
          postInvalidate := m.postInvalidate || pkt.needsExclusive }
        else m
      let pkt := if keeps && m.pendingDirty then
        { pkt with memInhibit := true, supplyExclusive := true } else pkt
      if !pkt.needsExclusive then
        ({ m with postDowngrade := true }, { pkt with shared := true }, true)
      else (m, pkt, true)

def promoteDeferredTargets (m : MSHR) (now : Nat) : Chk (MSHR × Bool) := do
  ensure m.targets.list.isEmpty "targets->empty()"
  match m.deferredTargets.list with
  | [] => return (m, false)
  | t :: ts =>
    ensure ((t :: ts).length == m.ntargets) "targets->size() == ntargets"
    return ({ m with
      targets := m.deferredTargets
      deferredTargets := m.targets.resetFlags
      order := t.order
      readyTime := max now t.readyTime }, true)

def handleFill (m : MSHR) (pkt : Packet) : Chk MSHR :=
  if pkt.shared then return m
  else do
    let inv ← m.hasPostInvalidate
    if !(inv || m.postDowngrade) && m.deferredTargets.needsExclusive then
      ensure (!m.targets.needsExclusive) "!targets->needsExclusive"
      ensure (!m.downstreamPending) "!downstreamPending"
      return { m with
        targets := { m.targets with
          list := m.targets.list ++ m.deferredTargets.list
          needsExclusive := true }
        deferredTargets := {} }
    else return m

end MSHR

end Gem5
