import Gem5.Lib.Run

/-!
# The MI example protocol

`mem/protocol/MI_example-cache.sm`, `MI_example-dir.sm` and `MI_example-dma.sm`: first level
caches that hold a line for reading and writing or not at all, a directory and a DMA
controller. Each machine is its table of transitions and what its actions do; the code that
is generated from the tables stops with `Invalid transition` where there is none.

A channel is a list for each line, source and destination, so that messages between two
controllers stay in order. The sequencer's request table is what it has outstanding for the
line. The history of a line is the loads, stores and DMA accesses in the order in which they
take effect at the controller that owns the line. Statistics, evictions told to the CPU, the
bounds of the tables and queues, and the choice of the victim are left out.
-/

namespace Gem5

open Lib

abbrev DataBlock := Nat → UInt8

namespace DataBlock

def clear : DataBlock := fun _ => 0

def copyPartial (b dblk : DataBlock) (offset len : Nat) : DataBlock :=
  fun k => if offset ≤ k ∧ k < offset + len then dblk k else b k

end DataBlock

namespace MIExample

structure Write where
  dataBlk : DataBlock := .clear
  offset : Nat := 0
  len : Nat := 0

def Write.apply (w : Write) (b : DataBlock) : DataBlock := b.copyPartial w.dataBlk w.offset w.len

inductive LineOp
  | load (cache : Nat) (value : DataBlock)
  | store (cache : Nat) (write : Write)
  | dmaRead (value : DataBlock)
  | dmaWrite (write : Write)

def LineOp.after (b : DataBlock) : LineOp → DataBlock
  | .load _ _ | .dmaRead _ => b
  | .store _ w | .dmaWrite w => w.apply b

def LineOp.Reads (b : DataBlock) : LineOp → Prop
  | .load _ value | .dmaRead value => value = b
  | .store _ _ | .dmaWrite _ => True

def latest (b : DataBlock) (history : List LineOp) : DataBlock := history.foldl LineOp.after b

def Consistent (b : DataBlock) : List LineOp → Prop
  | [] => True
  | op :: rest => op.Reads b ∧ Consistent (op.after b) rest

def LineOp.dmaValue : LineOp → Option DataBlock
  | .dmaRead value => some value
  | .load _ _ | .store _ _ | .dmaWrite _ => none

@[simp] theorem latest_nil (b : DataBlock) : latest b [] = b := rfl

theorem consistent_append :
    Consistent b (history ++ ops) ↔ Consistent b history ∧ Consistent (latest b history) ops := by
  induction history generalizing b with
  | nil => simp [Consistent, latest]
  | cons op history ih => simp [List.cons_append, Consistent, ih, latest, and_assoc]

inductive CpuRequest
  | LD
  | IFETCH
  | ST (write : Write)

/-- On virtual network 2, from a cache to the directory. -/
inductive RequestMsg
  | GETS
  | GETX
  | PUTX (dataBlk : DataBlock)

/-- On virtual network 3, from the directory to a cache. -/
inductive ForwardMsg
  | GETX (requestor : Nat)
  | WB_ACK
  | WB_NACK
  | INV
  deriving DecidableEq

inductive Sender
  | directory
  | cache (i : Nat)
  deriving DecidableEq

inductive MemoryRequestType
  | MEMORY_READ
  | MEMORY_WB
  deriving DecidableEq

structure MemoryMsg where
  type : MemoryRequestType
  originalRequestorMachId : Option Nat
  dataBlk : DataBlock

inductive DMARequestType
  | READ
  | WRITE
  deriving DecidableEq

/-- On virtual network 0; the address is the offset in the line. -/
structure DMARequestMsg where
  type : DMARequestType
  write : Write

inductive DMAResponseMsg
  | DATA (dataBlk : DataBlock)
  | ACK

def invalidTransition : Fault := .fatal "Invalid transition"

inductive L1State
  | I | II | M | MI | MII | IS | IM
  deriving DecidableEq, Repr

inductive L1Event
  | Load | Ifetch | Store | Data | Fwd_GETX | Inv | Replacement | Writeback_Ack | Writeback_Nack
  deriving DecidableEq, Repr

inductive L1Action
  | a_issueRequest
  | b_issuePUT
  | e_sendData
  | ee_sendDataFromTBE
  | i_allocateL1CacheBlock
  | h_deallocateL1CacheBlock
  | m_popMandatoryQueue
  | n_popResponseQueue
  | o_popForwardedRequestQueue
  | r_load_hit
  | rx_load_hit
  | s_store_hit
  | sx_store_hit
  | u_writeDataToCache
  | v_allocateTBE
  | w_deallocateTBE
  | x_copyDataFromCacheToTBE
  | z_stall
  deriving DecidableEq, Repr

def L1State.transition (s : L1State) (e : L1Event) : Option (List L1Action × L1State) :=
  match s, e with
  | .IS, .Load | .IS, .Ifetch | .IS, .Store | .IS, .Replacement
  | .IM, .Load | .IM, .Ifetch | .IM, .Store | .IM, .Replacement
  | .MI, .Load | .MI, .Ifetch | .MI, .Store | .MI, .Replacement
  | .II, .Load | .II, .Ifetch | .II, .Store | .II, .Replacement => some ([.z_stall], s)
  | .IS, .Fwd_GETX | .IS, .Inv | .IM, .Fwd_GETX | .IM, .Inv => some ([.z_stall], s)
  | .MI, .Inv => some ([.o_popForwardedRequestQueue], .MI)
  | .M, .Store => some ([.s_store_hit, .m_popMandatoryQueue], .M)
  | .M, .Load | .M, .Ifetch => some ([.r_load_hit, .m_popMandatoryQueue], .M)
  | .I, .Inv => some ([.o_popForwardedRequestQueue], .I)
  | .I, .Store =>
    some ([.v_allocateTBE, .i_allocateL1CacheBlock, .a_issueRequest, .m_popMandatoryQueue], .IM)
  | .I, .Load | .I, .Ifetch =>
    some ([.v_allocateTBE, .i_allocateL1CacheBlock, .a_issueRequest, .m_popMandatoryQueue], .IS)
  | .IS, .Data => some ([.u_writeDataToCache, .rx_load_hit, .w_deallocateTBE, .n_popResponseQueue], .M)
  | .IM, .Data => some ([.u_writeDataToCache, .sx_store_hit, .w_deallocateTBE,
      .n_popResponseQueue], .M)
  | .M, .Fwd_GETX => some ([.e_sendData, .o_popForwardedRequestQueue], .I)
  | .I, .Replacement => some ([.h_deallocateL1CacheBlock], .I)
  | .M, .Replacement | .M, .Inv =>
    some ([.v_allocateTBE, .b_issuePUT, .x_copyDataFromCacheToTBE, .h_deallocateL1CacheBlock], .MI)
  | .MI, .Writeback_Ack => some ([.w_deallocateTBE, .o_popForwardedRequestQueue], .I)
  | .MI, .Fwd_GETX => some ([.ee_sendDataFromTBE, .o_popForwardedRequestQueue], .II)
  | .MI, .Writeback_Nack => some ([.o_popForwardedRequestQueue], .MII)
  | .MII, .Fwd_GETX => some ([.ee_sendDataFromTBE, .w_deallocateTBE, .o_popForwardedRequestQueue], .I)
  | .II, .Writeback_Nack => some ([.w_deallocateTBE, .o_popForwardedRequestQueue], .I)
  | _, _ => none

structure L1Entry where
  cacheState : L1State
  dataBlk : DataBlock

structure L1TBE where
  tbeState : L1State
  dataBlk : DataBlock

/-- A cache controller as far as one line is concerned, with the channels that it sends
requests on and is sent messages on. -/
structure L1Node where
  entry : Option L1Entry := none
  tbe : Option L1TBE := none
  mandatoryQueue : List CpuRequest := []
  requestTable : Option CpuRequest := none
  requestFromCache : List RequestMsg := []
  forwardToCache : List ForwardMsg := []
  responseToCache : Sender → List DataBlock := fun _ => []

structure L1Step where
  node : L1Node
  sent : List (Nat × DataBlock) := []
  ops : List LineOp := []

namespace L1Node

def getState (n : L1Node) : L1State :=
  match n.tbe, n.entry with
  | some tbe, _ => tbe.tbeState
  | none, some entry => entry.cacheState
  | none, none => .I

def setState (n : L1Node) (state : L1State) : L1Node :=
  { n with
    tbe := n.tbe.map fun tbe => { tbe with tbeState := state }
    entry := n.entry.map fun entry => { entry with cacheState := state } }

def validEntry (n : L1Node) : Chk L1Entry := need n.entry (.assertion "is_valid(cache_entry)")

def validTBE (n : L1Node) : Chk L1TBE := need n.tbe (.assertion "is_valid(tbe)")

def forwardRequestor (n : L1Node) : Chk Nat :=
  match n.forwardToCache with
  | .GETX requestor :: _ => .ok requestor
  | _ => .error (.undefined "in_msg.Requestor")

end L1Node

/-- `Sequencer::readCallback`: a load that is outstanding is done. -/
def readCallback (i : Nat) (s : L1Step) : Chk L1Step := do
  let entry ← s.node.validEntry
  match s.node.requestTable with
  | some .LD | some .IFETCH =>
    return { s with
      node := { s.node with requestTable := none }
      ops := s.ops ++ [.load i entry.dataBlk] }
  | _ => .error (.assertion "m_readRequestTable.count(line_address(address))")

/-- `Sequencer::writeCallback`: a store that is outstanding is done to the block. -/
def writeCallback (i : Nat) (s : L1Step) : Chk L1Step := do
  let entry ← s.node.validEntry
  match s.node.requestTable with
  | some (.ST w) =>
    return { s with
      node := { s.node with
        requestTable := none, entry := some { entry with dataBlk := w.apply entry.dataBlk } }
      ops := s.ops ++ [.store i w] }
  | _ => .error (.assertion "m_writeRequestTable.count(line_address(address))")

@[simp] def L1Action.exec (i : Nat) (source : Sender) (s : L1Step) : L1Action → Chk L1Step
  | .a_issueRequest =>
    return { s with node := { s.node with requestFromCache := s.node.requestFromCache ++ [.GETX] } }
  | .b_issuePUT => do
    let entry ← s.node.validEntry
    return { s with node := { s.node with
      requestFromCache := s.node.requestFromCache ++ [.PUTX entry.dataBlk] } }
  | .e_sendData => do
    let entry ← s.node.validEntry
    let requestor ← s.node.forwardRequestor
    return { s with sent := s.sent ++ [(requestor, entry.dataBlk)] }
  | .ee_sendDataFromTBE => do
    let tbe ← s.node.validTBE
    let requestor ← s.node.forwardRequestor
    return { s with sent := s.sent ++ [(requestor, tbe.dataBlk)] }
  | .i_allocateL1CacheBlock =>
    return { s with node := { s.node with entry := some (s.node.entry.getD ⟨.I, .clear⟩) } }
  | .h_deallocateL1CacheBlock => return { s with node := { s.node with entry := none } }
  | .m_popMandatoryQueue =>
    return { s with node := { s.node with mandatoryQueue := s.node.mandatoryQueue.tail } }
  | .n_popResponseQueue =>
    return { s with node := { s.node with
      responseToCache := Function.update s.node.responseToCache source
        (s.node.responseToCache source).tail } }
  | .o_popForwardedRequestQueue =>
    return { s with node := { s.node with forwardToCache := s.node.forwardToCache.tail } }
  | .r_load_hit | .rx_load_hit => readCallback i s
  | .s_store_hit | .sx_store_hit => writeCallback i s
  | .u_writeDataToCache => do
    let entry ← s.node.validEntry
    let dataBlk ← need (s.node.responseToCache source).head? (.undefined "in_msg.DataBlk")
    return { s with node := { s.node with entry := some { entry with dataBlk } } }
  | .v_allocateTBE => do
    ensure s.node.tbe.isNone "!isPresent(address)"
    return { s with node := { s.node with tbe := some ⟨.I, .clear⟩ } }
  | .w_deallocateTBE => do
    ensure s.node.tbe.isSome "isPresent(address)"
    return { s with node := { s.node with tbe := none } }
  | .x_copyDataFromCacheToTBE => do
    let entry ← s.node.validEntry
    let tbe ← s.node.validTBE
    return { s with node := { s.node with tbe := some { tbe with dataBlk := entry.dataBlk } } }
  | .z_stall => return s

namespace L1Node

def doTransition (n : L1Node) (i : Nat) (source : Sender) (event : L1Event) : Chk L1Step :=
  match n.getState.transition event with
  | none => .error invalidTransition
  | some (actions, next) =>
    if .z_stall ∈ actions then return { node := n }
    else do
      let s ← actions.foldlM (L1Action.exec i source) { node := n }
      return { s with node := s.node.setState next }

def forwardEvent : ForwardMsg → L1Event
  | .GETX _ => .Fwd_GETX
  | .WB_ACK => .Writeback_Ack
  | .WB_NACK => .Writeback_Nack
  | .INV => .Inv

def mandatoryRequestTypeToEvent : CpuRequest → L1Event
  | .LD => .Load
  | .IFETCH => .Ifetch
  | .ST _ => .Store

def forwardRequestNetworkIn (n : L1Node) (i : Nat) : Chk L1Step :=
  match n.forwardToCache with
  | [] => return { node := n }
  | msg :: _ => n.doTransition i .directory (forwardEvent msg)

def responseNetworkIn (n : L1Node) (i : Nat) (source : Sender) : Chk L1Step :=
  match n.responseToCache source with
  | [] => return { node := n }
  | _ :: _ => n.doTransition i source .Data

def mandatoryQueueIn (n : L1Node) (i : Nat) : Chk L1Step :=
  match n.mandatoryQueue with
  | [] => return { node := n }
  | request :: _ => n.doTransition i .directory (mandatoryRequestTypeToEvent request)

/-- `Sequencer::makeRequest`: with a request outstanding for the line, another one is
refused. -/
def makeRequest (n : L1Node) (request : CpuRequest) : L1Node :=
  match n.requestTable with
  | some _ => n
  | none => { n with requestTable := some request, mandatoryQueue := n.mandatoryQueue ++ [request] }

end L1Node

inductive DirState
  | I | M | M_DRD | M_DWR | M_DWRI | M_DRDI | IM | MI | ID | ID_W
  deriving DecidableEq, Repr

inductive DirEvent
  | GETX | GETS | PUTX | PUTX_NotOwner | DMA_READ | DMA_WRITE | Memory_Data | Memory_Ack
  deriving DecidableEq, Repr

inductive DirAction
  | l_sendWriteBackAck
  | b_sendWriteBackNack
  | c_clearOwner
  | d_sendData
  | dr_sendDMAData
  | drp_sendDMAData
  | da_sendDMAAck
  | e_ownerIsRequestor
  | f_forwardRequest
  | inv_sendCacheInvalidate
  | i_popIncomingRequestQueue
  | p_popIncomingDMARequestQueue
  | l_writeDataToMemory
  | dwt_writeDMADataFromTBE
  | v_allocateTBE
  | r_allocateTbeForDmaRead
  | v_allocateTBEFromRequestNet
  | w_deallocateTBE
  | z_recycleRequestQueue
  | y_recycleDMARequestQueue
  | qf_queueMemoryFetchRequest
  | qf_queueMemoryFetchRequestDMA
  | qw_queueMemoryWBRequestPartial
  | qw_queueMemoryWBRequestPartialTBE
  | l_queueMemoryWBRequest
  | l_popMemQueue
  | w_writeDataToMemoryFromTBE
  deriving DecidableEq, Repr

def DirState.transition (s : DirState) (e : DirEvent) : Option (List DirAction × DirState) :=
  match s, e with
  | .M_DRD, .GETX | .M_DWR, .GETX | .M_DWRI, .GETX | .M_DRDI, .GETX =>
      some ([.z_recycleRequestQueue], s)
  | .IM, .GETX | .IM, .GETS | .IM, .PUTX | .IM, .PUTX_NotOwner
  | .MI, .GETX | .MI, .GETS | .MI, .PUTX | .MI, .PUTX_NotOwner
  | .ID, .GETX | .ID, .GETS | .ID, .PUTX | .ID, .PUTX_NotOwner
  | .ID_W, .GETX | .ID_W, .GETS | .ID_W, .PUTX | .ID_W, .PUTX_NotOwner =>
      some ([.z_recycleRequestQueue], s)
  | .IM, .DMA_READ | .IM, .DMA_WRITE | .MI, .DMA_READ | .MI, .DMA_WRITE
  | .ID, .DMA_READ | .ID, .DMA_WRITE | .ID_W, .DMA_READ | .ID_W, .DMA_WRITE =>
    some ([.y_recycleDMARequestQueue], s)
  | .I, .GETX => some ([.qf_queueMemoryFetchRequest, .e_ownerIsRequestor,
      .i_popIncomingRequestQueue], .IM)
  | .IM, .Memory_Data => some ([.d_sendData, .l_popMemQueue], .M)
  | .I, .DMA_READ =>
    some ([.r_allocateTbeForDmaRead, .qf_queueMemoryFetchRequestDMA,
      .p_popIncomingDMARequestQueue], .ID)
  | .ID, .Memory_Data => some ([.dr_sendDMAData, .w_deallocateTBE, .l_popMemQueue], .I)
  | .I, .DMA_WRITE =>
    some ([.v_allocateTBE, .qw_queueMemoryWBRequestPartial, .p_popIncomingDMARequestQueue], .ID_W)
  | .ID_W, .Memory_Ack =>
    some ([.dwt_writeDMADataFromTBE, .da_sendDMAAck, .w_deallocateTBE, .l_popMemQueue], .I)
  | .M, .DMA_READ =>
    some ([.v_allocateTBE, .inv_sendCacheInvalidate, .p_popIncomingDMARequestQueue], .M_DRD)
  | .M_DRD, .PUTX =>
    some ([.l_writeDataToMemory, .drp_sendDMAData, .c_clearOwner, .l_queueMemoryWBRequest,
      .i_popIncomingRequestQueue], .M_DRDI)
  | .M_DRDI, .Memory_Ack => some ([.l_sendWriteBackAck, .w_deallocateTBE, .l_popMemQueue], .I)
  | .M, .DMA_WRITE =>
    some ([.v_allocateTBE, .inv_sendCacheInvalidate, .p_popIncomingDMARequestQueue], .M_DWR)
  | .M_DWR, .PUTX =>
    some ([.l_writeDataToMemory, .qw_queueMemoryWBRequestPartialTBE, .c_clearOwner,
      .i_popIncomingRequestQueue], .M_DWRI)
  | .M_DWRI, .Memory_Ack =>
    some ([.w_writeDataToMemoryFromTBE, .l_sendWriteBackAck, .da_sendDMAAck, .w_deallocateTBE,
      .l_popMemQueue], .I)
  | .M, .GETX => some ([.f_forwardRequest, .e_ownerIsRequestor, .i_popIncomingRequestQueue], .M)
  | .M, .PUTX =>
    some ([.l_writeDataToMemory, .c_clearOwner, .v_allocateTBEFromRequestNet, .l_queueMemoryWBRequest,
      .i_popIncomingRequestQueue], .MI)
  | .MI, .Memory_Ack =>
    some ([.w_writeDataToMemoryFromTBE, .l_sendWriteBackAck, .w_deallocateTBE, .l_popMemQueue], .I)
  | .M, .PUTX_NotOwner => some ([.b_sendWriteBackNack, .i_popIncomingRequestQueue], .M)
  | .I, .PUTX_NotOwner => some ([.b_sendWriteBackNack, .i_popIncomingRequestQueue], .I)
  | _, _ => none

structure DirEntry where
  directoryState : DirState := .I
  dataBlk : DataBlock := .clear
  sharers : Finset Nat := ∅
  owner : Finset Nat := ∅

structure DirTBE where
  tbeState : DirState := .I
  write : Write := {}

structure Directory where
  entry : DirEntry
  tbe : Option DirTBE := none
  memBuffer : List MemoryMsg := []
  dmaRequestToDir : List DMARequestMsg := []
  dmaResponseFromDir : List DMAResponseMsg := []

/-- What a transition of the directory leaves and gives out. `requestToDir` is what it has
of the cache whose request it serves. -/
structure DirStep where
  dir : Directory
  requestToDir : List RequestMsg := []
  forwards : List (Finset Nat × ForwardMsg) := []
  sent : List (Nat × DataBlock) := []
  ops : List LineOp := []

def ownerIsOne : Fault := .assertion "getDirectoryEntry(addr).Owner.count() == 1"

def ownerIsNone : Fault := .assertion "getDirectoryEntry(addr).Owner.count() == 0"

/-- The sparse memory is looked up by line addresses only. -/
def notLineAddress : Fault := .assertion "address == line_address(address)"

namespace Directory

def getState (d : Directory) : DirState :=
  match d.tbe with
  | some tbe => tbe.tbeState
  | none => d.entry.directoryState

/-- `DirectoryMemory::invalidateBlock`. The sparse memory drops the entry; the next one who
asks for the entry is given a new one. -/
def invalidateBlock (useMap : Bool) (d : Directory) : Directory :=
  if useMap then { d with entry := {} } else d

def checkSharing (d : Directory) (state : DirState) : Chk Unit :=
  match state with
  | .M => do
    refuse (d.entry.owner.card != 1) ownerIsOne
    ensure (d.entry.sharers.card == 0) "getDirectoryEntry(addr).Sharers.count() == 0"
  | .I => do
    refuse (d.entry.owner.card != 0) ownerIsNone
    ensure (d.entry.sharers.card == 0) "getDirectoryEntry(addr).Sharers.count() == 0"
  | _ => return ()

def setState (useMap : Bool) (d : Directory) (state : DirState) : Chk Directory := do
  d.checkSharing state
  let d := { d with
    tbe := d.tbe.map fun tbe => { tbe with tbeState := state }
    entry := { d.entry with directoryState := state } }
  return if state = .I then d.invalidateBlock useMap else d

def validTBE (d : Directory) : Chk DirTBE := need d.tbe (.assertion "is_valid(tbe)")

def peekMemory (d : Directory) : Chk MemoryMsg := need d.memBuffer.head? (.undefined "memQueue_in")

def memoryRequestor (d : Directory) : Chk Nat := do
  let msg ← d.peekMemory
  need msg.originalRequestorMachId (.undefined "in_msg.OriginalRequestorMachId")

def peekDMA (d : Directory) : Chk DMARequestMsg :=
  need d.dmaRequestToDir.head? (.undefined "dmaRequestQueue_in")

def allocateTBE (d : Directory) (write : Write) : Chk Directory := do
  ensure d.tbe.isNone "!isPresent(address)"
  return { d with tbe := some { write } }

end Directory

def DirStep.requestData (s : DirStep) : DataBlock :=
  match s.requestToDir with
  | .PUTX dataBlk :: _ => dataBlk
  | _ => .clear

def DirAction.exec (useMap : Bool) (i : Nat) (s : DirStep) : DirAction → Chk DirStep
  | .l_sendWriteBackAck => do
    let requestor ← s.dir.memoryRequestor
    return { s with forwards := s.forwards ++ [({requestor}, .WB_ACK)] }
  | .b_sendWriteBackNack => return { s with forwards := s.forwards ++ [({i}, .WB_NACK)] }
  | .c_clearOwner => return { s with dir := { s.dir with entry := { s.dir.entry with owner := ∅ } } }
  | .d_sendData => do
    let msg ← s.dir.peekMemory
    let requestor ← s.dir.memoryRequestor
    return { s with sent := s.sent ++ [(requestor, msg.dataBlk)] }
  | .dr_sendDMAData => do
    let msg ← s.dir.peekMemory
    let _ ← s.dir.validTBE
    return { s with
      dir := { s.dir with dmaResponseFromDir := s.dir.dmaResponseFromDir ++ [.DATA msg.dataBlk] }
      ops := s.ops ++ [.dmaRead msg.dataBlk] }
  | .drp_sendDMAData => do
    let _ ← s.dir.validTBE
    return { s with
      dir := { s.dir with dmaResponseFromDir := s.dir.dmaResponseFromDir ++ [.DATA s.requestData] }
      ops := s.ops ++ [.dmaRead s.requestData] }
  | .da_sendDMAAck => do
    let tbe ← s.dir.validTBE
    return { s with
      dir := { s.dir with dmaResponseFromDir := s.dir.dmaResponseFromDir ++ [.ACK] }
      ops := s.ops ++ [.dmaWrite tbe.write] }
  | .e_ownerIsRequestor =>
      return { s with dir := { s.dir with entry := { s.dir.entry with owner := {i} } } }
  | .f_forwardRequest => return { s with forwards := s.forwards ++ [(s.dir.entry.owner, .GETX i)] }
  | .inv_sendCacheInvalidate => do
    let msg ← s.dir.peekDMA
    refuse (useMap && msg.write.offset != 0) notLineAddress
    return { s with forwards := s.forwards ++ [(s.dir.entry.owner, .INV)] }
  | .i_popIncomingRequestQueue => return { s with requestToDir := s.requestToDir.tail }
  | .p_popIncomingDMARequestQueue =>
    return { s with dir := { s.dir with dmaRequestToDir := s.dir.dmaRequestToDir.tail } }
  | .l_writeDataToMemory =>
    return { s with dir := { s.dir with entry := { s.dir.entry with dataBlk := s.requestData } } }
  | .dwt_writeDMADataFromTBE | .w_writeDataToMemoryFromTBE => do
    let tbe ← s.dir.validTBE
    return { s with dir := { s.dir with
      entry := { s.dir.entry with dataBlk := tbe.write.apply s.dir.entry.dataBlk } } }
  | .v_allocateTBE => do
    let msg ← s.dir.peekDMA
    let dir ← s.dir.allocateTBE msg.write
    return { s with dir }
  | .r_allocateTbeForDmaRead => do
    let dir ← s.dir.allocateTBE {}
    return { s with dir }
  | .v_allocateTBEFromRequestNet => do
    let dir ← s.dir.allocateTBE { dataBlk := s.requestData }
    return { s with dir }
  | .w_deallocateTBE => do
    ensure s.dir.tbe.isSome "isPresent(address)"
    return { s with dir := { s.dir with tbe := none } }
  | .z_recycleRequestQueue =>
    return { s with requestToDir := s.requestToDir.tail ++ s.requestToDir.head?.toList }
  | .y_recycleDMARequestQueue =>
    return { s with dir := { s.dir with
      dmaRequestToDir := s.dir.dmaRequestToDir.tail ++ s.dir.dmaRequestToDir.head?.toList } }
  | .qf_queueMemoryFetchRequest =>
    return { s with dir := { s.dir with
      memBuffer := s.dir.memBuffer ++ [⟨.MEMORY_READ, some i, s.dir.entry.dataBlk⟩] } }
  | .qf_queueMemoryFetchRequestDMA =>
    return { s with dir := { s.dir with
      memBuffer := s.dir.memBuffer ++ [⟨.MEMORY_READ, none, s.dir.entry.dataBlk⟩] } }
  | .qw_queueMemoryWBRequestPartial => do
    let msg ← s.dir.peekDMA
    return { s with dir := { s.dir with
      memBuffer := s.dir.memBuffer ++ [⟨.MEMORY_WB, none, msg.write.apply .clear⟩] } }
  | .qw_queueMemoryWBRequestPartialTBE => do
    let tbe ← s.dir.validTBE
    return { s with dir := { s.dir with
      memBuffer := s.dir.memBuffer ++ [⟨.MEMORY_WB, some i, tbe.write.apply .clear⟩] } }
  | .l_queueMemoryWBRequest =>
    return { s with dir := { s.dir with
      memBuffer := s.dir.memBuffer ++ [⟨.MEMORY_WB, some i, s.requestData⟩] } }
  | .l_popMemQueue => return { s with dir := { s.dir with memBuffer := s.dir.memBuffer.tail } }

namespace Directory

def doTransition (useMap : Bool) (d : Directory) (i : Nat) (requestToDir : List RequestMsg)
    (event : DirEvent) :
    Chk DirStep :=
  match d.getState.transition event with
  | none => .error invalidTransition
  | some (actions, next) => do
    let s ← actions.foldlM (DirAction.exec useMap i) { dir := d, requestToDir }
    let dir ← s.dir.setState useMap next
    return { s with dir }

def dmaRequestQueueIn (useMap : Bool) (d : Directory) : Chk DirStep :=
  match d.dmaRequestToDir with
  | [] => return { dir := d }
  | msg :: _ => d.doTransition useMap 0 []
      (match msg.type with | .READ => .DMA_READ | .WRITE => .DMA_WRITE)

def requestEvent (d : Directory) (i : Nat) : RequestMsg → DirEvent
  | .GETS => .GETS
  | .GETX => .GETX
  | .PUTX _ => if i ∈ d.entry.owner then .PUTX else .PUTX_NotOwner

def requestQueueIn (useMap : Bool) (d : Directory) (i : Nat)
    (requestToDir : List RequestMsg) : Chk DirStep :=
  match requestToDir with
  | [] => return { dir := d }
  | msg :: _ => d.doTransition useMap i requestToDir (d.requestEvent i msg)

def memQueueIn (useMap : Bool) (d : Directory) : Chk DirStep :=
  match d.memBuffer with
  | [] => return { dir := d }
  | msg :: _ =>
    d.doTransition useMap 0 []
      (match msg.type with | .MEMORY_READ => .Memory_Data | .MEMORY_WB => .Memory_Ack)

end Directory

structure Line where
  nodes : Nat → L1Node := fun _ => {}
  dir : Directory
  history : List LineOp := []
  dmaReads : List DataBlock := []

inductive LineEvent
  | makeRequest (cache : Nat) (request : CpuRequest)
  | mandatory (cache : Nat)
  | replacement (cache : Nat)
  | forward (cache : Nat)
  | response (source : Sender) (cache : Nat)
  | request (cache : Nat)
  | memory
  | dmaRequest

def receiveData (source : Sender) (nodes : Nat → L1Node) (msg : Nat × DataBlock) : Nat → L1Node :=
  Function.update nodes msg.1 { nodes msg.1 with
    responseToCache := Function.update (nodes msg.1).responseToCache source
      ((nodes msg.1).responseToCache source ++ [msg.2]) }

def receiveForward (nodes : Nat → L1Node) (msg : Finset Nat × ForwardMsg) (i : Nat) : L1Node :=
  if i ∈ msg.1 then { nodes i with forwardToCache := (nodes i).forwardToCache ++ [msg.2] } else nodes i

namespace Line

def create (b : DataBlock) : Line := { dir := { entry := { dataBlk := b } } }

def takeL1 (l : Line) (i : Nat) (s : L1Step) : Line :=
  { l with
    nodes := s.sent.foldl (receiveData (.cache i)) (Function.update l.nodes i s.node)
    history := l.history ++ s.ops }

def takeDir (l : Line) (s : DirStep) : Line :=
  { l with
    nodes := s.sent.foldl (receiveData .directory) (s.forwards.foldl receiveForward l.nodes)
    dir := s.dir
    history := l.history ++ s.ops }

def setRequests (l : Line) (i : Nat) (requests : List RequestMsg) : Line :=
  { l with nodes := Function.update l.nodes i { l.nodes i with requestFromCache := requests } }

def apply (useMap : Bool) (l : Line) : LineEvent → Chk Line
  | .makeRequest i request =>
    return { l with nodes := Function.update l.nodes i ((l.nodes i).makeRequest request) }
  | .mandatory i => do
    let s ← (l.nodes i).mandatoryQueueIn i
    return l.takeL1 i s
  | .replacement i => do
    let s ← (l.nodes i).doTransition i .directory .Replacement
    return l.takeL1 i s
  | .forward i => do
    let s ← (l.nodes i).forwardRequestNetworkIn i
    return l.takeL1 i s
  | .response source i => do
    let s ← (l.nodes i).responseNetworkIn i source
    return l.takeL1 i s
  | .request i => do
    let s ← l.dir.requestQueueIn useMap i (l.nodes i).requestFromCache
    return (l.setRequests i s.requestToDir).takeDir s
  | .memory => do
    let s ← l.dir.memQueueIn useMap
    return l.takeDir s
  | .dmaRequest => do
    let s ← l.dir.dmaRequestQueueIn useMap
    return l.takeDir s

def Admits (l : Line) : LineEvent → Prop
  | .makeRequest _ _ => True
  | .mandatory i => (l.nodes i).mandatoryQueue.isEmpty = false
  | .replacement i => (l.nodes i).entry.isSome
  | .forward i => (l.nodes i).forwardToCache.isEmpty = false
  | .response source i => ((l.nodes i).responseToCache source).isEmpty = false
  | .request i => (l.nodes i).requestFromCache.isEmpty = false
  | .memory => l.dir.memBuffer.isEmpty = false
  | .dmaRequest => l.dir.dmaRequestToDir.isEmpty = false

end Line

inductive DMAState
  | READY | BUSY_RD | BUSY_WR
  deriving DecidableEq, Repr

inductive DMAEvent
  | ReadRequest | WriteRequest | Data | Ack
  deriving DecidableEq, Repr

inductive DMAAction
  | s_sendReadRequest
  | s_sendWriteRequest
  | a_ackCallback
  | d_dataCallback
  | p_popRequestQueue
  | p_popResponseQueue
  deriving DecidableEq, Repr

def DMAState.transition (s : DMAState) (e : DMAEvent) : Option (List DMAAction × DMAState) :=
  match s, e with
  | .READY, .ReadRequest => some ([.s_sendReadRequest, .p_popRequestQueue], .BUSY_RD)
  | .READY, .WriteRequest => some ([.s_sendWriteRequest, .p_popRequestQueue], .BUSY_WR)
  | .BUSY_RD, .Data => some ([.d_dataCallback, .p_popResponseQueue], .READY)
  | .BUSY_WR, .Ack => some ([.a_ackCallback, .p_popResponseQueue], .READY)
  | _, _ => none

def DMAAction.exec (write : Write) (l : Line) : DMAAction → Chk Line
  | .s_sendReadRequest =>
    return { l with
      dir := { l.dir with dmaRequestToDir := l.dir.dmaRequestToDir ++ [⟨.READ, write⟩] } }
  | .s_sendWriteRequest =>
    return { l with
      dir := { l.dir with dmaRequestToDir := l.dir.dmaRequestToDir ++ [⟨.WRITE, write⟩] } }
  | .d_dataCallback =>
    match l.dir.dmaResponseFromDir with
    | .DATA dataBlk :: _ => return { l with dmaReads := l.dmaReads ++ [dataBlk] }
    | _ => .error (.undefined "in_msg.DataBlk")
  | .p_popResponseQueue =>
    return { l with dir := { l.dir with dmaResponseFromDir := l.dir.dmaResponseFromDir.tail } }
  -- The sequencer is told, and the request it had made is removed from its queue.
  | .a_ackCallback | .p_popRequestQueue => return l

structure System where
  lines : Nat → Line
  curState : DMAState := .READY

inductive Event
  | line (a : Nat) (e : LineEvent)
  | dmaIssue (a : Nat) (type : DMARequestType) (write : Write)
  | dmaResponse (a : Nat)

namespace System

def create (useMap : Bool) (ram : Nat → DataBlock) : System :=
  { lines := fun a => .create (if useMap then .clear else ram a) }

def dmaTransition (w : System) (a : Nat) (write : Write) (event : DMAEvent) : Chk System :=
  match w.curState.transition event with
  | none => .error invalidTransition
  | some (actions, next) => do
    let l ← actions.foldlM (DMAAction.exec write) (w.lines a)
    return { lines := Function.update w.lines a l, curState := next }

def responseEvent : DMAResponseMsg → DMAEvent
  | .DATA _ => .Data
  | .ACK => .Ack

def apply (useMap : Bool) (w : System) : Event → Chk System
  | .line a e => do
    let l ← (w.lines a).apply useMap e
    return { w with lines := Function.update w.lines a l }
  | .dmaIssue a .READ write => w.dmaTransition a write .ReadRequest
  | .dmaIssue a .WRITE write => w.dmaTransition a write .WriteRequest
  | .dmaResponse a =>
    match (w.lines a).dir.dmaResponseFromDir with
    | [] => return w
    | msg :: _ => w.dmaTransition a {} (responseEvent msg)

def Admits (w : System) : Event → Prop
  | .line a e => (w.lines a).Admits e
  | .dmaIssue _ _ _ => w.curState = .READY
  | .dmaResponse a => (w.lines a).dir.dmaResponseFromDir.isEmpty = false

def Step (useMap : Bool) (w : System) (e : Event) (w' : System) : Prop :=
  w.Admits e ∧ w.apply useMap e = .ok w'

instance (l : Line) (e : LineEvent) : Decidable (l.Admits e) := by
  rcases e <;> unfold Line.Admits <;> infer_instance

instance (w : System) (e : Event) : Decidable (w.Admits e) := by
  rcases e <;> unfold Admits <;> infer_instance

end System

end MIExample

end Gem5
