import Gem5.Base.Types
import Gem5.Lib.Loop

/-!
# Ruby's memory controller

`mem/ruby/system/RubyMemoryControl.cc`: requests wait in one queue, move at most one per
cycle to the queue of their bank, and are issued round robin, where the counters of the
bank and of the buses and the window of the last activates (`tFAW`) let them. Refreshes are
issued like requests of their own.

The model is the one without random arbitration; arrays are functions of their index. The
profiler is left out.
-/

namespace Gem5

open Lib

def activatePerTfaw : Int := 4

def idleCountMaxValue : Int := 1000

/-- The parameters; the numbers of banks, ranks and DIMMs are powers of two. -/
structure MemoryControlConfig where
  banksPerRankBits : Nat
  ranksPerDimmBits : Nat
  dimmsPerChannelBits : Nat
  bankBit0 : Fin 64
  rankBit0 : Fin 64
  dimmBit0 : Fin 64
  bankQueueSize : Nat
  bankBusyTime : Nat
  rankRankDelay : Nat
  readWriteDelay : Nat
  basicBusBusyTime : Nat
  memCtlLatency : Nat
  refreshPeriod : Nat
  tFaw : Nat
  memFixedDelay : Nat
  clock : ℕ+
  rubyClock : ℕ+

namespace MemoryControlConfig

variable (c : MemoryControlConfig)

def banksPerRank : Nat := 2 ^ c.banksPerRankBits

def ranksPerDimm : Nat := 2 ^ c.ranksPerDimmBits

def dimmsPerChannel : Nat := 2 ^ c.dimmsPerChannelBits

def totalBanks : Nat := c.banksPerRank * c.ranksPerDimm * c.dimmsPerChannel

def refreshPeriodSystem : Nat := c.refreshPeriod / c.totalBanks

def getBank (addr : Nat) : Nat :=
  let dimm := (addr >>> c.dimmBit0.val) &&& (c.dimmsPerChannel - 1)
  let rank := (addr >>> c.rankBit0.val) &&& (c.ranksPerDimm - 1)
  let bank := (addr >>> c.bankBit0.val) &&& (c.banksPerRank - 1)
  dimm * c.ranksPerDimm * c.banksPerRank + rank * c.banksPerRank + bank

def getRank (bank : Nat) : Chk Nat := do
  let rank := bank / c.banksPerRank
  ensure (rank < c.ranksPerDimm * c.dimmsPerChannel) "rank < (m_ranks_per_dimm * m_dimms_per_channel)"
  return rank

end MemoryControlConfig

/-- A request; `m_msgptr` is the message of the directory. -/
structure MemoryNode where
  time : Nat
  msgCounter : Nat
  message : Nat
  addr : Nat
  isMemRead : Bool
  deriving DecidableEq

structure RubyMemoryControl where
  msgCounter : Nat := 0
  responseQueue : List MemoryNode := []
  inputQueue : List MemoryNode := []
  bankQueues : Nat → List MemoryNode := fun _ => []
  bankBusyCounter : Nat → Nat := fun _ => 0
  oldRequest : Nat → Bool := fun _ => false
  tfawShift : Nat → Nat := fun _ => 0
  tfawCount : Nat → Int := fun _ => 0
  busBusyCounterWrite : Nat := 0
  busBusyCounterReadNewRank : Nat := 0
  busBusyCounterBasic : Nat := 0
  busBusyWhichRank : Nat := 0
  roundRobin : Nat := 0
  refreshCount : Int := 1
  needRefresh : Nat := 0
  refreshBank : Nat := 0
  ageCounter : Nat := 0
  idleCount : Int := 0
  event : Option Nat := none

namespace RubyMemoryControl

variable (c : MemoryControlConfig) (s : RubyMemoryControl)

/-- `init`, which asserts that the window fits its register. -/
def init : Chk RubyMemoryControl := do
  ensure (c.tFaw ≤ 62) "m_tFaw <= 62"
  return {}

def enqueueMemRef (now : Nat) (memRef : MemoryNode) : RubyMemoryControl :=
  { s with
    msgCounter := s.msgCounter + 1
    inputQueue := s.inputQueue ++ [{ memRef with msgCounter := s.msgCounter + 1 }]
    event := s.event.or (some (clockEdge c.clock now 0)) }

def enqueue (now message addr : Nat) (isMemRead : Bool) (latency : Nat) : RubyMemoryControl :=
  let time := curCycle c.rubyClock now + latency
  s.enqueueMemRef c now { time, msgCounter := 0, message, addr, isMemRead }

def isReady (now : Nat) : Bool :=
  match s.responseQueue with
  | [] => false
  | req :: _ => req.time ≤ curCycle c.rubyClock now

def dequeue (now : Nat) : Chk RubyMemoryControl := do
  ensure (s.isReady c now) "isReady()"
  return { s with responseQueue := s.responseQueue.tail }

def responseTime (now latency : Nat) : Nat := (now + latency * c.clock) / c.rubyClock

def enqueueToDirectory (now : Nat) (req : MemoryNode) (latency : Nat) : RubyMemoryControl :=
  { s with responseQueue := s.responseQueue ++ [{ req with time := responseTime c now latency }] }

/-- `1 << n` as the register takes it: an `int`, extended by its sign to 64 bits. -/
def intShift (n : Nat) : Chk Nat :=
  if n < 31 then .ok (2 ^ n) else if n = 31 then .ok (2 ^ 64 - 2 ^ 31)
    else .error (.undefined "shift count")

def markTfaw (rank : Nat) : Chk RubyMemoryControl := do
  if c.tFaw ≠ 0 then
    let bit ← intShift (c.tFaw - 1)
    return { s with
      tfawShift := Function.update s.tfawShift rank (s.tfawShift rank ||| bit)
      tfawCount := Function.update s.tfawCount rank (s.tfawCount rank + 1) }
  else return s

def queueReady (bank : Nat) : Chk Bool := do
  if 0 < s.bankBusyCounter bank ∧ c.memFixedDelay = 0 then return false
  else if c.memFixedDelay ≠ 0 then return true
  else if 2 * c.bankBusyTime < s.ageCounter ∧ s.oldRequest bank = false then return false
  else if s.busBusyCounterBasic = c.basicBusBusyTime then return false
  else if 0 < s.busBusyCounterBasic then return false
  else
    let rank ← c.getRank bank
    if activatePerTfaw ≤ s.tfawCount rank then return false
    else
      let req ← need (s.bankQueues bank).head? (.undefined "front of an empty list")
      if req.isMemRead = false ∧ 0 < s.busBusyCounterWrite then return false
      else if req.isMemRead = true ∧ rank ≠ s.busBusyWhichRank ∧
        0 < s.busBusyCounterReadNewRank then return false
      else return true

def issueRefresh (bank : Nat) : Chk (Bool × RubyMemoryControl) := do
  if s.needRefresh = 0 ∨ s.refreshBank ≠ bank then return (false, s)
  else if 0 < s.bankBusyCounter bank then return (false, s)
  else if 0 < s.busBusyCounterBasic then return (false, s)
  else
    let rank ← c.getRank bank
    if activatePerTfaw ≤ s.tfawCount rank then return (false, s)
    else
      let s' ← markTfaw c { s with
        needRefresh := s.needRefresh - 1
        refreshBank := if c.totalBanks ≤ s.refreshBank + 1 then 0 else s.refreshBank + 1
        bankBusyCounter := Function.update s.bankBusyCounter bank c.bankBusyTime
        busBusyCounterBasic := c.basicBusBusyTime
        busBusyCounterWrite := c.basicBusBusyTime
        busBusyCounterReadNewRank := c.basicBusBusyTime } rank
      return (true, s')

def issueRequest (now bank : Nat) : Chk RubyMemoryControl := do
  let rank ← c.getRank bank
  let req ← need (s.bankQueues bank).head? (.undefined "front of an empty list")
  let s := { s with bankQueues := Function.update s.bankQueues bank (s.bankQueues bank).tail }
  let s := s.enqueueToDirectory c now req (c.memCtlLatency + c.memFixedDelay)
  let s ← markTfaw c { s with oldRequest := Function.update s.oldRequest bank false } rank
  let s := { s with
    bankBusyCounter := Function.update s.bankBusyCounter bank c.bankBusyTime
    busBusyWhichRank := rank
    busBusyCounterBasic := c.basicBusBusyTime }
  if req.isMemRead then
    return { s with
      busBusyCounterWrite := c.basicBusBusyTime + c.readWriteDelay
      busBusyCounterReadNewRank := c.basicBusBusyTime + c.rankRankDelay }
  else
    return { s with
      busBusyCounterWrite := c.basicBusBusyTime
      busBusyCounterReadNewRank := c.basicBusBusyTime }

def countDown : RubyMemoryControl :=
  { s with
    bankBusyCounter := fun bank => s.bankBusyCounter bank - 1
    busBusyCounterWrite := s.busBusyCounterWrite - 1
    busBusyCounterReadNewRank := s.busBusyCounterReadNewRank - 1
    busBusyCounterBasic := s.busBusyCounterBasic - 1
    tfawCount := fun rank => if (s.tfawShift rank).testBit 0 then s.tfawCount rank - 1
      else s.tfawCount rank
    tfawShift := fun rank => s.tfawShift rank >>> 1 }

def latchRefresh : Chk RubyMemoryControl := do
  let count := if c.memFixedDelay = 0 then s.refreshCount - 1 else s.refreshCount
  if count = 0 then
    ensure (s.needRefresh < 10) "m_need_refresh < 10"
    return { s with refreshCount := c.refreshPeriodSystem, needRefresh := s.needRefresh + 1 }
  else return { s with refreshCount := count }

def makeBatch : RubyMemoryControl :=
  if (List.range c.totalBanks).any s.oldRequest then { s with ageCounter := s.ageCounter + 1 }
  else { s with
    oldRequest := fun bank => if bank < c.totalBanks ∧ s.bankQueues bank ≠ [] then true
      else s.oldRequest bank
    ageCounter := 0 }

/-- Issue the head of a bank's queue, if it is ready. The second component are the banks
activated so far. -/
def serveQueue (now bank : Nat) (activates : List Nat) : Chk (RubyMemoryControl × List Nat) := do
  if s.bankQueues bank = [] then return (s, activates)
  else
    let s := { s with idleCount := idleCountMaxValue }
    if ← s.queueReady c bank then
      let s ← s.issueRequest c now bank
      return (s, activates ++ [bank])
    else return (s, activates)

def nextBank (bank : Nat) : Nat := if c.totalBanks ≤ bank + 1 then 0 else bank + 1

def scanBank (now : Nat) (sa : RubyMemoryControl × List Nat) : Chk (RubyMemoryControl × List Nat) := do
  let bank := nextBank c sa.1.roundRobin
  let (refreshed, s) ← issueRefresh c { sa.1 with roundRobin := bank } bank
  s.serveQueue c now bank (if refreshed then sa.2 ++ [bank] else sa.2)

def moveInput : RubyMemoryControl :=
  match s.inputQueue with
  | [] => s
  | req :: rest =>
    let s := { s with idleCount := idleCountMaxValue }
    let bank := c.getBank req.addr
    if (s.bankQueues bank).length < c.bankQueueSize then
      { s with
        inputQueue := rest
        bankQueues := Function.update s.bankQueues bank (s.bankQueues bank ++ [req]) }
    else s

def executeCycle (now : Nat) : Chk (RubyMemoryControl × List Nat) := do
  let s ← s.countDown.latchRefresh c
  let (s, activates) ← (List.range c.totalBanks).foldlM (fun sa _ => scanBank c now sa)
    (s.makeBatch c, [])
  return (s.moveInput c, activates)

def wakeup (now : Nat) : Chk (RubyMemoryControl × List Nat) := do
  let (s, activates) ← s.executeCycle c now
  let s := { s with idleCount := s.idleCount - 1 }
  if 0 < s.idleCount then
    ensure s.event.isNone "!m_event.scheduled()"
    return ({ s with event := some (now + c.clock) }, activates)
  else return (s, activates)

end RubyMemoryControl

inductive MemoryControlEvent
  | enqueue (now message addr : Nat) (isMemRead : Bool) (latency : Nat)
  | dequeue (now : Nat)
  | wakeup

/-- The controller and its history: the cycles it executed, the requests it was given, those
the directory took back, and the cycles in which it activated which bank. -/
structure MemoryControlWorld where
  control : RubyMemoryControl
  now : Nat
  cycle : Nat
  arrivals : List MemoryNode
  taken : List MemoryNode
  activates : List (Nat × Nat)

namespace MemoryControlWorld

variable (c : MemoryControlConfig)

def create (control : RubyMemoryControl) : MemoryControlWorld := ⟨control, 0, 0, [], [], []⟩

def Admits (w : MemoryControlWorld) : MemoryControlEvent → Prop
  | .enqueue now .. => w.now ≤ now ∧ ∀ e ∈ w.control.event, now ≤ e
  | .dequeue now => w.now ≤ now ∧ (∀ e ∈ w.control.event, now ≤ e) ∧ w.control.isReady c now
  | .wakeup => w.control.event.isSome

instance (w : MemoryControlWorld) : DecidablePred (w.Admits c) := fun e => by
  rcases e <;> unfold Admits <;> infer_instance

def apply (w : MemoryControlWorld) : MemoryControlEvent → Chk MemoryControlWorld
  | .enqueue now message addr isMemRead latency =>
    let control := w.control.enqueue c now message addr isMemRead latency
    return { w with control, now, arrivals := w.arrivals ++ control.inputQueue.getLast?.toList }
  | .dequeue now => do
    let control ← w.control.dequeue c now
    return { w with control, now, taken := w.taken ++ w.control.responseQueue.head?.toList }
  | .wakeup => do
    let now ← need w.control.event (.undefined "event")
    let (control, activates) ← RubyMemoryControl.wakeup c { w.control with event := none } now
    return { w with
      control
      now
      cycle := w.cycle + 1
      activates := w.activates ++ activates.map (w.cycle + 1, ·) }

end MemoryControlWorld

end Gem5
