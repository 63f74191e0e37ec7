import Gem5.Base.Types

/-!
# Packets

`mem/packet.hh`, `mem/packet.cc` and the part of `mem/request.hh` that a cache
reads: the command table, and the packet fields and methods used on the way
through caches, buses, bridges and memories. Whether the address and size
fields are set is not modelled; they always are. Packets that a cache makes for
itself have the number 0.
-/

namespace Gem5

open Lib

inductive MemCmd
  | invalidCmd
  | readReq | readResp | readRespWithInvalidate
  | writeReq | writeResp | writeback
  | softPFReq | hardPFReq | softPFResp | hardPFResp
  | writeInvalidateReq | writeInvalidateResp
  | upgradeReq | scUpgradeReq | upgradeResp | scUpgradeFailReq | upgradeFailResp
  | readExReq | readExResp
  | loadLockedReq | storeCondReq | storeCondFailReq | storeCondResp
  | swapReq | swapResp
  | messageReq | messageResp
  | invalidDestError | badAddressError | functionalReadError | functionalWriteError
  | printReq | flushReq | invalidationReq
  deriving DecidableEq, Repr

namespace MemCmd

inductive Attribute
  | isRead | isWrite | isUpgrade | isInvalidate | needsExclusive | isRequest | isResponse
  | needsResponse | isSWPrefetch | isHWPrefetch | isLlsc | hasData | isError | isPrint | isFlush
  deriving DecidableEq, Repr

structure CommandInfo where
  attributes : List Attribute
  response : MemCmd

def commandInfo : MemCmd → CommandInfo
  | invalidCmd => ⟨[], invalidCmd⟩
  | readReq => ⟨[.isRead, .isRequest, .needsResponse], readResp⟩
  | readResp => ⟨[.isRead, .isResponse, .hasData], invalidCmd⟩
  | readRespWithInvalidate => ⟨[.isRead, .isResponse, .hasData, .isInvalidate], invalidCmd⟩
  | writeReq => ⟨[.isWrite, .needsExclusive, .isRequest, .needsResponse, .hasData], writeResp⟩
  | writeResp => ⟨[.isWrite, .needsExclusive, .isResponse], invalidCmd⟩
  | writeback => ⟨[.isWrite, .needsExclusive, .isRequest, .hasData], invalidCmd⟩
  | softPFReq => ⟨[.isRead, .isRequest, .isSWPrefetch, .needsResponse], softPFResp⟩
  | hardPFReq => ⟨[.isRead, .isRequest, .isHWPrefetch, .needsResponse], hardPFResp⟩
  | softPFResp => ⟨[.isRead, .isResponse, .isSWPrefetch, .hasData], invalidCmd⟩
  | hardPFResp => ⟨[.isRead, .isResponse, .isHWPrefetch, .hasData], invalidCmd⟩
  | writeInvalidateReq =>
    ⟨[.isWrite, .needsExclusive, .isInvalidate, .isRequest, .hasData, .needsResponse],
      writeInvalidateResp⟩
  | writeInvalidateResp => ⟨[.isWrite, .needsExclusive, .isResponse], invalidCmd⟩
  | upgradeReq =>
    ⟨[.isInvalidate, .needsExclusive, .isUpgrade, .isRequest, .needsResponse], upgradeResp⟩
  | scUpgradeReq =>
    ⟨[.isInvalidate, .needsExclusive, .isUpgrade, .isLlsc, .isRequest, .needsResponse],
      upgradeResp⟩
  | upgradeResp => ⟨[.needsExclusive, .isUpgrade, .isResponse], invalidCmd⟩
  | scUpgradeFailReq =>
    ⟨[.isInvalidate, .needsExclusive, .isLlsc, .isRequest, .needsResponse], upgradeFailResp⟩
  | upgradeFailResp => ⟨[.needsExclusive, .isResponse], invalidCmd⟩
  | readExReq =>
    ⟨[.isRead, .needsExclusive, .isInvalidate, .isRequest, .needsResponse], readExResp⟩
  | readExResp => ⟨[.isRead, .needsExclusive, .isResponse, .hasData], invalidCmd⟩
  | loadLockedReq => ⟨[.isRead, .isLlsc, .isRequest, .needsResponse], readResp⟩
  | storeCondReq =>
    ⟨[.isWrite, .needsExclusive, .isLlsc, .isRequest, .needsResponse, .hasData], storeCondResp⟩
  | storeCondFailReq =>
    ⟨[.isWrite, .needsExclusive, .isLlsc, .isRequest, .needsResponse, .hasData], storeCondResp⟩
  | storeCondResp => ⟨[.isWrite, .needsExclusive, .isLlsc, .isResponse], invalidCmd⟩
  | swapReq =>
    ⟨[.isRead, .isWrite, .needsExclusive, .isRequest, .hasData, .needsResponse], swapResp⟩
  | swapResp => ⟨[.isRead, .isWrite, .needsExclusive, .isResponse, .hasData], invalidCmd⟩
  | messageReq => ⟨[.isWrite, .isRequest, .needsResponse, .hasData], messageResp⟩
  | messageResp => ⟨[.isWrite, .isResponse], invalidCmd⟩
  | invalidDestError => ⟨[.isResponse, .isError], invalidCmd⟩
  | badAddressError => ⟨[.isResponse, .isError], invalidCmd⟩
  | functionalReadError => ⟨[.isRead, .isResponse, .isError], invalidCmd⟩
  | functionalWriteError => ⟨[.isWrite, .isResponse, .isError], invalidCmd⟩
  | printReq => ⟨[.isRequest, .isPrint], invalidCmd⟩
  | flushReq => ⟨[.isRequest, .isFlush, .needsExclusive], invalidCmd⟩
  | invalidationReq => ⟨[.needsExclusive, .isInvalidate, .isRequest], invalidCmd⟩

def testCmdAttrib (c : MemCmd) (a : Attribute) : Bool := c.commandInfo.attributes.contains a

def isRead (c : MemCmd) : Bool := c.testCmdAttrib .isRead
def isWrite (c : MemCmd) : Bool := c.testCmdAttrib .isWrite
def isUpgrade (c : MemCmd) : Bool := c.testCmdAttrib .isUpgrade
def isRequest (c : MemCmd) : Bool := c.testCmdAttrib .isRequest
def isResponse (c : MemCmd) : Bool := c.testCmdAttrib .isResponse
def needsExclusive (c : MemCmd) : Bool := c.testCmdAttrib .needsExclusive
def needsResponse (c : MemCmd) : Bool := c.testCmdAttrib .needsResponse
def isInvalidate (c : MemCmd) : Bool := c.testCmdAttrib .isInvalidate
def hasData (c : MemCmd) : Bool := c.testCmdAttrib .hasData
def isLLSC (c : MemCmd) : Bool := c.testCmdAttrib .isLlsc
def isError (c : MemCmd) : Bool := c.testCmdAttrib .isError
def isPrint (c : MemCmd) : Bool := c.testCmdAttrib .isPrint

def responseCommand (c : MemCmd) : MemCmd := c.commandInfo.response

end MemCmd

/-- The part of a `Request` that caches and memories read. `masterId` is the
requestor, `contextId` is set by CPUs only. -/
structure Request where
  paddr : Nat
  size : Nat
  masterId : Nat := 0
  contextId : Option Nat := none
  uncacheable : Bool := false
  clearLL : Bool := false
  instFetch : Bool := false
  condSwap : Bool := false
  extraData : Nat := 0
  deriving DecidableEq, Repr

def Request.wbMasterId : Nat := 0

inductive MSHRQueueIndex
  | mshrs
  | writeBuffer
  deriving DecidableEq, Repr

/-- The state a sender attaches to a packet, each record with the one it
replaced: that of a bridge, that of a cache forwarding a snoop upwards, the
register of a cache, or the state of some other device. -/
inductive SenderState
  | null
  | device (n : Nat)
  | mshr (queue : MSHRQueueIndex) (index : Nat)
  | forwardResponseRecord (prevSenderState : SenderState) (prevSrc : Option Nat)
  | requestState (origSenderState : SenderState) (origSrc : Option Nat)
  deriving DecidableEq, Repr

/-- `data o` is the byte at offset `o` of the data buffer, which is there if
`allocated`; `src` and `dest` are port identifiers, with `none` for
`InvalidPortID`. -/
structure Packet where
  id : Nat
  cmd : MemCmd
  req : Request
  addr : Nat
  size : Nat
  data : Nat → UInt8 := fun _ => 0
  allocated : Bool := true
  bytesValidStart : Nat := 0
  bytesValidEnd : Nat := 0
  src : Option Nat := none
  dest : Option Nat := none
  senderState : SenderState := .null
  shared : Bool := false
  expressSnoop : Bool := false
  supplyExclusive : Bool := false
  memInhibit : Bool := false
  finishTime : Nat := 0
  firstWordTime : Nat := 0

namespace Packet

def isRead (p : Packet) : Bool := p.cmd.isRead
def isWrite (p : Packet) : Bool := p.cmd.isWrite
def isUpgrade (p : Packet) : Bool := p.cmd.isUpgrade
def isRequest (p : Packet) : Bool := p.cmd.isRequest
def isResponse (p : Packet) : Bool := p.cmd.isResponse
def needsExclusive (p : Packet) : Bool := p.cmd.needsExclusive
def needsResponse (p : Packet) : Bool := p.cmd.needsResponse
def isInvalidate (p : Packet) : Bool := p.cmd.isInvalidate
def hasData (p : Packet) : Bool := p.cmd.hasData
def isLLSC (p : Packet) : Bool := p.cmd.isLLSC
def isError (p : Packet) : Bool := p.cmd.isError

/-- The copy constructor with `clearFlags`. The copy counts as the same packet;
what it does with data that has an owner is left out. -/
def copyClearFlags (p : Packet) : Packet :=
  { p with shared := false, expressSnoop := false, supplyExclusive := false, memInhibit := false }

def ofBlock (req : Request) (cmd : MemCmd) (blkSize : Nat) : Packet :=
  { id := 0
    cmd := cmd
    req := req
    addr := req.paddr &&& (2 ^ 64 - 1 - (blkSize - 1))
    size := blkSize }

def setExtraData (p : Packet) (extraData : Nat) : Packet :=
  { p with req := { p.req with extraData := extraData } }

def copyError (p : Packet) (resp : Packet) : Chk Packet := do
  ensure resp.isError "pkt->isError()"
  return { p with cmd := resp.cmd }

def getOffset (p : Packet) (blkSize : Nat) : Nat := p.addr % blkSize

def makeResponse (p : Packet) : Chk Packet := do
  ensure p.needsResponse "needsResponse()"
  ensure p.isRequest "isRequest()"
  return { p with
    cmd := p.cmd.responseCommand
    expressSnoop := false
    dest := p.src
    src := none }

def setData (p : Packet) (src : Nat → UInt8) : Packet :=
  { p with data := memcpy p.data 0 src p.size }

def setDataFromBlock (p : Packet) (blkData : Nat → UInt8) (blkSize : Nat) : Packet :=
  p.setData fun i => blkData (p.getOffset blkSize + i)

def writeDataToBlock (p : Packet) (blkData : Nat → UInt8) (blkSize : Nat) : Nat → UInt8 :=
  memcpy blkData (p.getOffset blkSize) p.data p.size

/-- Whether a swap replaces the bytes `old` it reads. A conditional one compares
them with the extra data of its request, as a little-endian number. -/
def swapApplies (p : Packet) (old : Nat → UInt8) : Chk Bool :=
  if !p.req.condSwap then return true
  else if p.size = 8 ∨ p.size = 4 then
    return (List.range p.size).all fun i => UInt8.ofNat (p.req.extraData >>> (8 * i)) == old i
  else .error (.panic "Invalid size for conditional read/write")

end Packet

end Gem5
