import Gem5.Base.ChunkGenerator
import Gem5.Lib.Run

/-!
# DMA ports

`DmaPort` in the timing mode: a transfer is cut into packets, which wait in a list where the
peer refuses them and are counted until their responses are there. The peer is a function
that says which of the requests it accepts. The port also carries what happened so far. The
atomic mode and the flags of requests are left out.
-/

namespace Gem5

open Lib

inductive DmaCommand
  | readReq
  | writeReq
  deriving DecidableEq

structure DmaCall where
  cmd : DmaCommand
  addr : Nat
  size : Nat
  event : Option Nat
  data : Option Nat
  delay : Nat
  deriving DecidableEq

structure DmaReqState where
  completionEvent : Option Nat
  totBytes : Nat
  numBytes : Nat := 0
  delay : Nat
  deriving DecidableEq

structure DmaPacket where
  cmd : DmaCommand
  addr : Nat
  size : Nat
  data : Option Nat
  state : Nat
  deriving DecidableEq

structure DmaPeer where
  blockSize : Nat
  answers : Nat → Bool
  presented : Nat := 0
  accepted : List DmaPacket := []
  inFlight : List DmaPacket := []
  answered : List DmaPacket := []
  refused : Bool := false

structure DmaPort where
  transmitList : List DmaPacket := []
  pendingCount : Nat := 0
  drainEvent : Option Nat := none
  inRetry : Bool := false
  states : List (Option DmaReqState) := []
  peer : DmaPeer
  calls : List DmaCall := []
  queued : List DmaPacket := []
  completions : List Nat := []
  drained : List Nat := []

namespace DmaPort

def sendTimingReq (p : DmaPort) (pkt : DmaPacket) : Bool × DmaPort :=
  let presented := p.peer.presented + 1
  if p.peer.answers p.peer.presented then
    (true, { p with peer := { p.peer with
      presented, accepted := p.peer.accepted ++ [pkt], inFlight := p.peer.inFlight ++ [pkt] } })
  else (false, { p with peer := { p.peer with presented, refused := true } })

/-- The loop of `sendDma`, which holds on to the packet it began with. Every round but the
last takes a packet off the list. -/
def sendLoop (pkt : DmaPacket) : Nat → DmaPort → DmaPort
  | 0, p => p
  | n + 1, p =>
    let r := p.sendTimingReq pkt
    if r.1 then
      let p := { r.2 with transmitList := r.2.transmitList.tail }
      if p.transmitList.isEmpty then p else sendLoop pkt n p
    else { r.2 with inRetry := true }

def sendDma (p : DmaPort) : Chk DmaPort :=
  match p.transmitList with
  | [] => .error (.assertion "transmitList.size()")
  | pkt :: _ => return if p.inRetry then p else sendLoop pkt p.transmitList.length p

def queueDma (p : DmaPort) (pkt : DmaPacket) : Chk DmaPort :=
  sendDma { p with
    transmitList := p.transmitList ++ [pkt], pendingCount := (p.pendingCount + 1) % 2 ^ 32,
      queued := p.queued ++ [pkt] }

def packet (c : DmaCall) (state : Nat) (chunk : Chunk) : DmaPacket :=
  { cmd := c.cmd, addr := chunk.addr, size := chunk.size,
    data := c.data.map (· + chunk.complete), state }

def dmaAction (p : DmaPort) (c : DmaCall) : Chk DmaPort := do
  let reqState := p.states.length
  let p := { p with
    states := p.states ++ [some { completionEvent := c.event, totBytes := c.size,
                                  delay := c.delay }], calls := p.calls ++ [c] }
  let gen ← ChunkGenerator.create c.addr c.size p.peer.blockSize
  -- no chunk is empty, so that there are no more of them than bytes
  ((gen.chunks (c.size + 1)).map (packet c reqState)).foldlM queueDma p

def retryLoop : Nat → DmaPort → DmaPort
  | 0, p => p
  | n + 1, p =>
    match p.transmitList with
    | [] => p
    | pkt :: _ =>
      let r := p.sendTimingReq pkt
      if r.1 then
        let p := { r.2 with transmitList := r.2.transmitList.tail, inRetry := false }
        if p.transmitList.isEmpty then p else retryLoop n p
      else { r.2 with inRetry := true }

def recvRetry (p : DmaPort) : Chk DmaPort := do
  ensure (p.transmitList.length != 0) "transmitList.size()"
  return retryLoop p.transmitList.length p

def drain (p : DmaPort) (de : Nat) : Nat × DmaPort :=
  if p.pendingCount = 0 then (0, p) else (1, { p with drainEvent := some de })

/-- The completion event is scheduled, or processed at once, in which case the device makes
further calls. -/
def complete (p : DmaPort) (id : Nat) (state : DmaReqState) (calls : List DmaCall) : Chk DmaPort :=
  match state.completionEvent with
  | none => return p
  | some _ =>
    let p := { p with completions := p.completions ++ [id] }
    if state.delay = 0 then calls.foldlM dmaAction p else return p

def signalDrain (p : DmaPort) : DmaPort :=
  match p.drainEvent with
  | some de => if p.pendingCount = 0 then
      { p with drained := p.drained ++ [de], drainEvent := none } else p
  | none => p

def handleResp (p : DmaPort) (pkt : DmaPacket) (calls : List DmaCall) : Chk DmaPort := do
  let state ← need p.states[pkt.state]?.join (.assertion "state")
  ensure (p.pendingCount != 0) "pendingCount != 0"
  let state := { state with numBytes := wrap64 (state.numBytes + pkt.size) }
  let p := { p with pendingCount := p.pendingCount - 1, states := p.states.set pkt.state (some state) }
  ensure (state.numBytes ≤ state.totBytes) "state->totBytes >= state->numBytes"
  if state.totBytes = state.numBytes then
    let p ← p.complete pkt.state state calls
    return { p with states := p.states.set pkt.state none }.signalDrain
  else return p.signalDrain

def outstanding (p : DmaPort) : Nat := p.transmitList.length + p.peer.inFlight.length

end DmaPort

structure DmaWorld where
  port : DmaPort
  asked : Option Nat := none
  due : List Nat := []

inductive DmaEvent
  | dma (call : DmaCall)
  | retry
  /-- The response to the packet in flight at a position, and the calls the device makes if
  that completes a transfer. -/
  | resp (i : Nat) (calls : List DmaCall)
  | drain (de : Nat)

namespace DmaWorld

def create (blockSize : Nat) (answers : Nat → Bool) : DmaWorld :=
  { port := { peer := { blockSize, answers } } }

def observe (w : DmaWorld) (port : DmaPort) (asked : Option Nat) : DmaWorld :=
  if port.outstanding = 0 then { port, asked := none, due := w.due ++ asked.toList }
    else { port, asked, due := w.due }

def apply (w : DmaWorld) : DmaEvent → Chk DmaWorld
  | .dma call => do return w.observe (← w.port.dmaAction call) w.asked
  | .retry => do return w.observe (← { w.port with
      peer := { w.port.peer with refused := false } }.recvRetry) w.asked
  | .resp i calls =>
    match w.port.peer.inFlight[i]? with
    | none => .error (.undefined "packet")
    | some pkt => do
      let peer := { w.port.peer with
        inFlight := w.port.peer.inFlight.eraseIdx i, answered := w.port.peer.answered ++ [pkt] }
      return w.observe (← { w.port with peer }.handleResp pkt calls) w.asked
  | .drain de => return w.observe (w.port.drain de).2 (if w.port.outstanding = 0 then
      w.asked else some de)

def Proper (c : DmaCall) : Prop := c.addr < 2 ^ 64 ∧ 1 ≤ c.size ∧ c.size < 2 ^ 31

/-- Transfers have an address and at least one byte, the peer sends the retries it owes and
responses for what it has accepted. -/
def Admits (w : DmaWorld) : DmaEvent → Prop
  | .dma call => Proper call
  | .retry => w.port.peer.refused = true
  | .resp i calls => i < w.port.peer.inFlight.length ∧ ∀ c ∈ calls, Proper c
  | .drain _ => True

def Found (block : Nat) (c : DmaCall) : Prop :=
  block = 2 ^ 31 → ChunkGenerator.Reachable c.addr c.size

def blocks (block : Nat) (c : DmaCall) : Nat := (c.addr % block + c.size + (block - 1)) / block

/-- The blocks of the transfers are found, and their packets can be counted in 32 bits. A
response makes room for one. -/
def Countable (w : DmaWorld) : DmaEvent → Prop
  | .dma call => Found w.port.peer.blockSize call ∧
      w.port.outstanding + blocks w.port.peer.blockSize call < 2 ^ 32
  | .resp _ calls => (∀ c ∈ calls, Found w.port.peer.blockSize c) ∧
      w.port.outstanding + (calls.map (blocks w.port.peer.blockSize)).sum ≤ 2 ^ 32
  | .retry | .drain _ => True

/-- The packets of a transfer from an offset on: they cover the rest of its bytes, each with
the data at its offset. -/
def Tiles (c : DmaCall) (block : Nat) : Nat → List DmaPacket → Prop
  | offset, [] => offset = c.size
  | offset, p :: ps => p.cmd = c.cmd ∧ p.addr = wrap64 (c.addr + offset) ∧
      p.data = c.data.map (· + offset) ∧ 0 < p.size ∧
      p.addr % block + p.size ≤ block ∧ Tiles c block (offset + p.size) ps

def bytesOf (id : Nat) (packets : List DmaPacket) : Nat :=
  ((packets.filter (·.state == id)).map (·.size)).sum

structure Exact (w : DmaWorld) : Prop where
  order : w.port.peer.accepted ++ w.port.transmitList = w.port.queued
  flight : w.port.peer.accepted.Perm (w.port.peer.inFlight ++ w.port.peer.answered)
  tiles : ∀ id c, w.port.calls[id]? = some c →
    Tiles c w.port.peer.blockSize 0 (w.port.queued.filter (·.state == id))
  completed : ∀ id c, w.port.calls[id]? = some c →
    w.port.completions.count id = if bytesOf id w.port.peer.answered = c.size ∧
      c.event.isSome then 1 else 0
  pending : w.port.pendingCount = w.port.outstanding
  idle : w.port.inRetry = false → w.port.transmitList = []
  drained : w.port.drained = w.due ∧ w.port.drainEvent = w.asked

end DmaWorld

end Gem5
