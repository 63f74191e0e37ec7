import Gem5.Lib.Run
import Gem5.Lib.PriorityHeap

/-!
# Message buffers of the Ruby caches

`mem/ruby/buffers/MessageBuffer.cc`: messages wait in a heap, ordered by the time at which
they arrive and then by a counter. A message at the head may be put aside for its line and
is put back onto the heap when the line is looked at again. The buffer counts its messages
by hand, so that a message that leaves it makes room in the next cycle only. A `Time` has
63 bits and a sign, and its overflow is undefined. Statistics, `getSize` and the scheduling of
the consumer are left out.
-/

namespace Gem5

open Lib

structure RubySystem where
  time : Nat
  randomization : Bool := false
  warmupEnabled : Bool := false
  blockSizeBits : Nat := 6
  deriving DecidableEq, Repr

structure Message where
  id : Nat
  lastEnqueueTime : Nat := 0
  delayedCycles : Nat := 0
  deriving DecidableEq, Repr

structure MessageBufferNode where
  time : Nat
  msgCounter : BitVec 64
  msg : Message
  deriving DecidableEq, Repr

namespace MessageBufferNode

/-- The constructor takes the counter as an `int`. -/
def create (time : Nat) (counter : BitVec 64) (msg : Message) : MessageBufferNode :=
  ⟨time, (counter.setWidth 32).signExtend 64, msg⟩

def greater (n₁ n₂ : MessageBufferNode) : Chk Bool :=
  if n₁.time = n₂.time then do
    ensure (n₁.msgCounter != n₂.msgCounter) "n1.m_msg_counter != n2.m_msg_counter"
    return n₂.msgCounter < n₁.msgCounter
  else return n₂.time < n₁.time

end MessageBufferNode

/-- How a buffer is set up; `maxSize` is none where the source has -1. -/
structure BufferParams where
  maxSize : Option Nat := none
  strictFifo : Bool := true
  randomization : Bool := true
  orderingSet : Bool := true
  consumer : Bool := true
  recycleLatency : Nat := 0
  deriving DecidableEq, Repr

structure MessageBuffer where
  params : BufferParams
  prioHeap : HeapArray MessageBufferNode := .empty ⟨0, 0, ⟨0, 0, 0⟩⟩
  stallMsgMap : List (Nat × List Message) := []
  msgCounter : BitVec 64 := 0
  size : Int := 0
  lastArrivalTime : Nat := 0
  timeLastTimeEnqueue : Nat := 0
  timeLastTimePop : Nat := 0
  sizeAtCycleStart : Int := 0
  msgsThisCycle : Int := 0

namespace MessageBuffer

def areNSlotsAvailable (b : MessageBuffer) (sys : RubySystem) (n : Int32) : Bool :=
  match b.params.maxSize with
  | none => true
  | some maxSize =>
    let currentSize :=
      if b.timeLastTimePop < sys.time then b.size
      else if b.timeLastTimeEnqueue < sys.time then b.sizeAtCycleStart
      else b.sizeAtCycleStart + b.msgsThisCycle
    currentSize + n.toInt ≤ maxSize

def isReady (b : MessageBuffer) (sys : RubySystem) : Bool :=
  0 < b.prioHeap.size && (b.prioHeap.elem 0).time ≤ sys.time

def pushNode (b : MessageBuffer) (node : MessageBufferNode) : Chk MessageBuffer := do
  let prioHeap ← (b.prioHeap.pushBack node).pushHeap MessageBufferNode.greater
  return { b with prioHeap }

def countEnqueue (b : MessageBuffer) (sys : RubySystem) : MessageBuffer :=
  { b with
    msgCounter := b.msgCounter + 1
    size := b.size + 1
    msgsThisCycle := if b.timeLastTimeEnqueue < sys.time then 1 else b.msgsThisCycle + 1
    timeLastTimeEnqueue := if b.timeLastTimeEnqueue < sys.time then sys.time
      else b.timeLastTimeEnqueue }

/-- When the message arrives, given what `random_time` returns, and the time of the last
arrival that this is held against. -/
def arrivalTime (b : MessageBuffer) (sys : RubySystem) (delta random : Nat) : Nat × Nat :=
  if !sys.randomization || !b.params.randomization then (sys.time + delta, b.lastArrivalTime)
  else if b.params.strictFifo then
    let lastArrivalTime := max b.lastArrivalTime sys.time
    (lastArrivalTime + random, lastArrivalTime)
  else (sys.time + random, b.lastArrivalTime)

def enqueue (b : MessageBuffer) (sys : RubySystem) (message : Message) (delta random : Nat) :
    Chk MessageBuffer := do
  let b := b.countEnqueue sys
  refuse (!b.params.orderingSet) (.panic "Ordering property of %s has not been set")
  ensure (0 < delta) "delta>0"
  let (arrivalTime, lastArrivalTime) := b.arrivalTime sys delta random
  refuse (2 ^ 63 ≤ arrivalTime) (.undefined "arrival_time")
  ensure (sys.time < arrivalTime) "arrival_time > current_time"
  refuse (b.params.strictFifo && arrivalTime < lastArrivalTime) (.panic "FIFO ordering violated")
  let b := { b with lastArrivalTime := if sys.warmupEnabled then lastArrivalTime else arrivalTime }
  ensure (message.lastEnqueueTime ≤ sys.time) "ensure we aren't dequeued early"
  let message := { message with
    delayedCycles := sys.time - message.lastEnqueueTime + message.delayedCycles
    lastEnqueueTime := arrivalTime }
  let b ← b.pushNode (.create arrivalTime b.msgCounter message)
  refuse (!b.params.consumer) (.panic "No consumer")
  return b

def countPop (b : MessageBuffer) (sys : RubySystem) : MessageBuffer :=
  { b with
    sizeAtCycleStart := if b.timeLastTimePop < sys.time then b.size else b.sizeAtCycleStart
    timeLastTimePop := if b.timeLastTimePop < sys.time then sys.time else b.timeLastTimePop
    size := b.size - 1 }

def pop (b : MessageBuffer) (sys : RubySystem) : Chk MessageBuffer := do
  ensure (b.isReady sys) "isReady()"
  let prioHeap ← b.prioHeap.popHeap MessageBufferNode.greater
  return { b with prioHeap := prioHeap.popBack }.countPop sys

def recycle (b : MessageBuffer) (sys : RubySystem) : Chk MessageBuffer := do
  ensure (b.isReady sys) "isReady()"
  let node := b.prioHeap.elem 0
  let prioHeap ← b.prioHeap.popHeap MessageBufferNode.greater
  let node := { node with time := sys.time + b.params.recycleLatency }
  refuse (2 ^ 63 ≤ node.time) (.undefined "node.m_time")
  let prioHeap ← (prioHeap.setBack node).pushHeap MessageBufferNode.greater
  refuse (!b.params.consumer) (.undefined "m_consumer_ptr")
  return { b with prioHeap }

def unstall (sys : RubySystem) (b : MessageBuffer) (message : Message) : Chk MessageBuffer := do
  let b := { b with msgCounter := b.msgCounter + 1 }
  refuse (2 ^ 63 ≤ sys.time + 1) (.undefined "g_system_ptr->getTime() + 1")
  let b ← b.pushNode (.create (sys.time + 1) b.msgCounter message)
  refuse (!b.params.consumer) (.undefined "m_consumer_ptr")
  return b

def reanalyzeMessages (b : MessageBuffer) (sys : RubySystem) (addr : Nat) : Chk MessageBuffer := do
  let messages ← need (b.stallMsgMap.lookup addr) (.assertion "m_stall_msg_map.count(addr) > 0")
  let b ← messages.foldlM (unstall sys) b
  return { b with stallMsgMap := b.stallMsgMap.filter (·.1 ≠ addr) }

def reanalyzeAllMessages (b : MessageBuffer) (sys : RubySystem) : Chk MessageBuffer := do
  let b ← (b.stallMsgMap.flatMap (·.2)).foldlM (unstall sys) b
  return { b with stallMsgMap := [] }

def putAside (addr : Nat) (message : Message) : List (Nat × List Message) → List (Nat × List Message)
  | [] => [(addr, [message])]
  | (a, messages) :: rest =>
    if addr < a then (addr, [message]) :: (a, messages) :: rest
    else if addr = a then (a, messages ++ [message]) :: rest
    else (a, messages) :: putAside addr message rest

def stallMessage (b : MessageBuffer) (sys : RubySystem) (addr : Nat) : Chk MessageBuffer := do
  ensure (b.isReady sys) "isReady()"
  ensure (addr % 2 ^ sys.blockSizeBits == 0) "addr.getOffset() == 0"
  let message := (b.prioHeap.elem 0).msg
  let b ← b.pop sys
  return { b with stallMsgMap := putAside addr message b.stallMsgMap }

def clearStats (b : MessageBuffer) : MessageBuffer := { b with msgCounter := 0 }

end MessageBuffer

inductive MessageBufferEvent
  | enqueue (message : Message) (delta random : Nat)
  | dequeue
  | recycle
  | stallMessage (addr : Nat)
  | reanalyzeMessages (addr : Nat)
  | reanalyzeAllMessages
  | areNSlotsAvailable (n : Int32)
  | clearStats
  | cycle (sys : RubySystem)
  deriving DecidableEq, Repr

def MessageBuffer.apply (b : MessageBuffer) (sys : RubySystem) : MessageBufferEvent → Chk MessageBuffer
  | .enqueue message delta random => b.enqueue sys message delta random
  | .dequeue => b.pop sys
  | .recycle => b.recycle sys
  | .stallMessage addr => b.stallMessage sys addr
  | .reanalyzeMessages addr => b.reanalyzeMessages sys addr
  | .reanalyzeAllMessages => b.reanalyzeAllMessages sys
  | .areNSlotsAvailable _ => return b
  | .clearStats => return b.clearStats
  | .cycle _ => return b

end Gem5
