import Gem5.Cpu.O3.MemDepUnit

/-!
# The instruction queue of the O3 CPU

`cpu/o3/inst_queue_impl.hh` and `cpu/o3/dep_graph.hh`: instructions wait in the queue until
their sources are produced. Each physical register has a chain of the operands that wait for
it; a completed instruction empties the chains of its destinations, and a squash takes the
squashed instructions out of theirs. Instructions are named by their sequence numbers.
Deferred memory instructions, replays and what becomes of issued instructions are left out.
-/

namespace Gem5

open Lib Function

structure DynInst extends MemDepInst where
  threadNumber : Nat := 0
  opClass : Nat := 0
  isMemRef : Bool := false
  isNonSpeculative : Bool := false
  isStoreConditional : Bool := false
  srcRegs : List Nat := []
  destRegs : List Nat := []
  readySrcRegIdx : List Nat := []
  readyRegs : Nat := 0
  canIssue : Bool := false
  issued : Bool := false
  squashed : Bool := false
  squashedInIQ : Bool := false
  memOpDone : Bool := false
  completed : Bool := false
  hasFault : Bool := false
  deriving DecidableEq, Repr

namespace DynInst

def countReady (inst : DynInst) : DynInst :=
  { inst with
    readyRegs := inst.readyRegs + 1
    canIssue := inst.canIssue || inst.readyRegs + 1 == inst.srcRegs.length }

def markSrcRegReady (inst : DynInst) (srcIdx : Nat) : DynInst :=
  countReady { inst with readySrcRegIdx := srcIdx :: inst.readySrcRegIdx }

def setSquashedInIQ (inst : DynInst) : DynInst :=
  { inst with squashedInIQ := true, squashed := true }

def waitsForCommit (inst : DynInst) : Bool :=
  inst.isNonSpeculative || inst.isStoreConditional || inst.isMemBarrier || inst.isWriteBarrier

def inQueue (inst : DynInst) : Bool :=
  !inst.issued || inst.isMemRef && !inst.memOpDone

end DynInst

structure ListOrderEntry where
  queueType : Nat
  oldestInst : Nat
  deriving DecidableEq, Repr

/-- What the rest of the CPU answers in one round of `scheduleReadyInsts`: whether it takes
one more instruction, and the functional unit, with -1 for a busy one and -2 for none. -/
structure IssueSlot where
  canIssue : Bool := true
  unit : Int := 0
  deriving DecidableEq, Repr

structure InstructionQueue (σ : Type) where
  numEntries : Nat
  numPhysRegs : Nat
  numThreads : Nat
  totalWidth : Nat
  insts : Nat → DynInst := fun sn => { seqNum := sn }
  instList : Nat → List Nat := fun _ => []
  dependGraph : Nat → List Nat := fun _ => []
  regScoreboard : Nat → Bool := fun _ => false
  nonSpecInsts : List Nat := []
  readyInsts : Nat → List Nat := fun _ => []
  listOrder : List ListOrderEntry := []
  queueOnList : Nat → Bool := fun _ => false
  freeEntries : Nat
  count : Nat → Nat := fun _ => 0
  memDepUnit : Nat → MemDepUnit σ
  /-- Everything that was put on a ready list, in the order it was put there. -/
  readied : List Nat := []

namespace InstructionQueue

variable {σ : Type}

def setInst (q : InstructionQueue σ) (sn : Nat) (inst : DynInst) : InstructionQueue σ :=
  { q with insts := update q.insts sn inst }

def setChain (q : InstructionQueue σ) (reg : Nat) (chain : List Nat) : InstructionQueue σ :=
  { q with dependGraph := update q.dependGraph reg chain }

def removeDependent (q : InstructionQueue σ) (reg sn : Nat) : Chk (InstructionQueue σ) :=
  if (q.dependGraph reg).isEmpty then return q
  else do
    ensure (sn ∈ q.dependGraph reg) "curr != NULL"
    return q.setChain reg ((q.dependGraph reg).erase sn)

def addToOrderList (q : InstructionQueue σ) (opClass : Nat) : Chk (InstructionQueue σ) := do
  let oldestInst ← need (q.readyInsts opClass).head? (.assertion "!readyInsts[op_class].empty()")
  let older := fun entry : ListOrderEntry => entry.oldestInst ≤ oldestInst
  return { q with
    listOrder := q.listOrder.takeWhile older ++ ⟨opClass, oldestInst⟩ :: q.listOrder.dropWhile older
    queueOnList := update q.queueOnList opClass true }

def pushReady (q : InstructionQueue σ) (sn : Nat) : Chk (InstructionQueue σ) := do
  let opClass := (q.insts sn).opClass
  let insts := (q.readyInsts opClass).orderedInsert (· ≤ ·) sn
  let q := { q with
    readyInsts := update q.readyInsts opClass insts
    readied := q.readied ++ [sn] }
  if !q.queueOnList opClass then q.addToOrderList opClass
  else
    let entry ← need (q.listOrder.find? (·.queueType = opClass)) (.undefined "readyIt")
    if insts.headD sn < entry.oldestInst then
      addToOrderList { q with listOrder := q.listOrder.erase entry } opClass
    else return q

/-- A failure inside the memory dependence unit, told apart from those of the queue. -/
def inUnit (x : Chk α) : Chk α :=
  x.mapError fun _ => .undefined "memDepUnit"

def takeUnit (q : InstructionQueue σ) (tid : Nat) (unit : MemDepUnit σ) : Chk (InstructionQueue σ) :=
  (unit.ready.map (·.seqNum)).foldlM pushReady
    { q with memDepUnit := update q.memDepUnit tid { unit with ready := [] } }

def addIfReady (q : InstructionQueue σ) (sn : Nat) : Chk (InstructionQueue σ) :=
  let inst := q.insts sn
  if inst.canIssue then
    if inst.isMemRef then do
      let unit ← inUnit ((q.memDepUnit inst.threadNumber).regsReady inst.toMemDepInst)
      q.takeUnit inst.threadNumber unit
    else q.pushReady sn
  else return q

def addOperand (sn : Nat) (q : InstructionQueue σ) (operand : Nat × Nat) : InstructionQueue σ :=
  if operand.2 ∈ (q.insts sn).readySrcRegIdx then q
  else if q.numPhysRegs ≤ operand.1 then q
  else if !q.regScoreboard operand.1 then q.setChain operand.1 (sn :: q.dependGraph operand.1)
  else q.setInst sn ((q.insts sn).markSrcRegReady operand.2)

def addToDependents (q : InstructionQueue σ) (sn : Nat) : InstructionQueue σ :=
  (q.insts sn).srcRegs.zipIdx.foldl (addOperand sn) q

def addProducer (q : InstructionQueue σ) (destReg : Nat) : Chk (InstructionQueue σ) :=
  if q.numPhysRegs ≤ destReg then return q
  else do
    refuse (!(q.dependGraph destReg).isEmpty) (.panic s!"Dependency graph {destReg} not empty!")
    return { q with regScoreboard := update q.regScoreboard destReg false }

def addToProducers (q : InstructionQueue σ) (sn : Nat) : Chk (InstructionQueue σ) :=
  (q.insts sn).destRegs.foldlM addProducer q

def countInsts (q : InstructionQueue σ) : Nat :=
  q.numEntries - q.freeEntries

def enter (q : InstructionQueue σ) (inst : DynInst) : Chk (InstructionQueue σ) := do
  ensure (q.freeEntries != 0) "freeEntries != 0"
  return { q with
    insts := update q.insts inst.seqNum inst
    instList := update q.instList inst.threadNumber (q.instList inst.threadNumber ++ [inst.seqNum])
    freeEntries := q.freeEntries - 1 }

def entered (q : InstructionQueue σ) (tid : Nat) : Chk (InstructionQueue σ) := do
  ensure (q.freeEntries == q.numEntries - q.countInsts) "freeEntries == (numEntries - countInsts())"
  return { q with count := update q.count tid (q.count tid + 1) }

def insert (q : InstructionQueue σ) (inst : DynInst) : Chk (InstructionQueue σ) := do
  let sn := inst.seqNum
  let tid := inst.threadNumber
  let q ← q.enter inst
  let q := q.addToDependents sn
  let q ← q.addToProducers sn
  let q ← (if inst.isMemRef then do
      let (unit, canIssue) ← inUnit ((q.memDepUnit tid).insert inst.toMemDepInst (q.insts sn).canIssue)
      (q.setInst sn { q.insts sn with canIssue }).takeUnit tid unit
    else q.addIfReady sn)
  q.entered tid

def insertNonSpec (q : InstructionQueue σ) (inst : DynInst) : Chk (InstructionQueue σ) := do
  let sn := inst.seqNum
  let tid := inst.threadNumber
  let q := { q with nonSpecInsts := sn :: q.nonSpecInsts }
  let q ← q.enter inst
  let q ← q.addToProducers sn
  let q ← (if inst.isMemRef then do
      let unit ← inUnit ((q.memDepUnit tid).insertNonSpec inst.toMemDepInst)
      q.takeUnit tid unit
    else pure q)
  q.entered tid

def insertBarrier (q : InstructionQueue σ) (inst : DynInst) : Chk (InstructionQueue σ) :=
  let tid := inst.threadNumber
  let unit := (q.memDepUnit tid).insertBarrier inst.toMemDepInst
  insertNonSpec { q with memDepUnit := update q.memDepUnit tid unit } inst

/-- The top of a ready list goes; `rest` are the order entries after the one for this list,
where the list comes back if it is not empty. -/
def popReady (q : InstructionQueue σ) (opClass : Nat) (rest : List ListOrderEntry) :
    InstructionQueue σ × List ListOrderEntry :=
  let insts := (q.readyInsts opClass).tail
  let q := { q with readyInsts := update q.readyInsts opClass insts }
  match insts with
  | [] => ({ q with queueOnList := update q.queueOnList opClass false }, rest)
  | oldestInst :: _ =>
    let older := fun entry : ListOrderEntry => entry.oldestInst < oldestInst
    (q, rest.takeWhile older ++ ⟨opClass, oldestInst⟩ :: rest.dropWhile older)

def issue (q : InstructionQueue σ) (sn : Nat) : Chk (InstructionQueue σ) :=
  let inst := q.insts sn
  let tid := inst.threadNumber
  let q := q.setInst sn { inst with issued := true }
  if !inst.isMemRef then return { q with
    freeEntries := q.freeEntries + 1
    count := update q.count tid (q.count tid - 1) }
  else do
    let unit ← inUnit ((q.memDepUnit tid).issue inst.toMemDepInst)
    return { q with memDepUnit := update q.memDepUnit tid unit }

/-- The loop of `scheduleReadyInsts`: `done` and `rest` are the order list before and from the
iterator on, and each round takes one of the answers. -/
def scheduleFrom (width : Nat) (q : InstructionQueue σ) (done rest : List ListOrderEntry) :
    List IssueSlot → Chk (InstructionQueue σ)
  | [] => return { q with listOrder := done ++ rest }
  | slot :: slots =>
    match rest with
    | [] => return { q with listOrder := done }
    | entry :: rest =>
      if width = 0 ∨ !slot.canIssue then return { q with listOrder := done ++ entry :: rest }
      else do
        let opClass := entry.queueType
        let sn ← need (q.readyInsts opClass).head? (.assertion "!readyInsts[op_class].empty()")
        ensure (sn == entry.oldestInst) "issuing_inst->seqNum == (*order_it).oldestInst"
        if (q.insts sn).squashed then
          let popped := q.popReady opClass rest
          scheduleFrom width popped.1 done popped.2 slots
        else if opClass = 0 ∨ slot.unit ≠ -1 then do
          let popped := q.popReady opClass rest
          let q ← popped.1.issue sn
          scheduleFrom (width - 1) q done popped.2 slots
        else scheduleFrom width q (done ++ [entry]) rest slots

def scheduleReadyInsts (q : InstructionQueue σ) (slots : List IssueSlot) : Chk (InstructionQueue σ) :=
  q.scheduleFrom q.totalWidth [] q.listOrder slots

def scheduleNonSpec (q : InstructionQueue σ) (sn : Nat) : Chk (InstructionQueue σ) := do
  ensure (sn ∈ q.nonSpecInsts) "inst_it != nonSpecInsts.end()"
  let inst := { q.insts sn with canIssue := true }
  let q := q.setInst sn inst
  let q ← (if !inst.isMemRef then q.addIfReady sn
    else do
      let unit ← inUnit ((q.memDepUnit inst.threadNumber).nonSpecInstReady inst.toMemDepInst)
      q.takeUnit inst.threadNumber unit)
  return { q with nonSpecInsts := q.nonSpecInsts.filter (· ≠ sn) }

def commit (q : InstructionQueue σ) (sn tid : Nat) : Chk (InstructionQueue σ) := do
  ensure (q.freeEntries == q.numEntries - q.countInsts) "freeEntries == (numEntries - countInsts())"
  return { q with
    instList := update q.instList tid ((q.instList tid).dropWhile (· ≤ sn)) }

def completeMemInst (q : InstructionQueue σ) (sn : Nat) : Chk (InstructionQueue σ) := do
  let inst := q.insts sn
  let tid := inst.threadNumber
  let unit ← inUnit ((q.memDepUnit tid).completed inst.toMemDepInst)
  return { q with
    insts := update q.insts sn { inst with memOpDone := true }
    freeEntries := q.freeEntries + 1
    count := update q.count tid (q.count tid - 1)
    memDepUnit := update q.memDepUnit tid unit }

def wakeChain (reg : Nat) (q : InstructionQueue σ) : List Nat → Chk (InstructionQueue σ)
  | [] => return q
  | sn :: chain => do
    let q := q.setChain reg chain
    let q ← (q.setInst sn (q.insts sn).countReady).addIfReady sn
    wakeChain reg q chain

def wakeReg (q : InstructionQueue σ) (destReg : Nat) : Chk (InstructionQueue σ) :=
  if q.numPhysRegs ≤ destReg then return q
  else do
    let q ← wakeChain destReg q (q.dependGraph destReg)
    ensure (q.dependGraph destReg).isEmpty "dependGraph.empty(dest_reg)"
    return { q with regScoreboard := update q.regScoreboard destReg true }

def wakeMemory (q : InstructionQueue σ) (sn : Nat) : Chk (InstructionQueue σ) :=
  let inst := q.insts sn
  let tid := inst.threadNumber
  if inst.isMemRef then do
    let unit ← inUnit ((q.memDepUnit tid).wakeDependents inst.toMemDepInst)
    let q ← q.takeUnit tid unit
    q.completeMemInst sn
  else if inst.isMemBarrier || inst.isWriteBarrier then do
    let unit ← inUnit ((q.memDepUnit tid).completeBarrier inst.toMemDepInst)
    q.takeUnit tid unit
  else return q

def wakeDependents (q : InstructionQueue σ) (sn : Nat) : Chk (InstructionQueue σ) := do
  ensure (!(q.insts sn).squashed) "!completed_inst->isSquashed()"
  let q ← q.wakeMemory sn
  (q.insts sn).destRegs.foldlM wakeReg q

def removeOperand (sn : Nat) (q : InstructionQueue σ) (operand : Nat × Nat) :
    Chk (InstructionQueue σ) :=
  if operand.2 ∉ (q.insts sn).readySrcRegIdx ∧ operand.1 < q.numPhysRegs then
    q.removeDependent operand.1 sn
  else return q

def squashInst (q : InstructionQueue σ) (sn : Nat) : Chk (InstructionQueue σ) := do
  let inst := q.insts sn
  let tid := inst.threadNumber
  let q ← (if !inst.waitsForCommit then inst.srcRegs.zipIdx.foldlM (removeOperand sn) q
    else if !inst.isStoreConditional || !inst.completed then
      if sn ∈ q.nonSpecInsts then pure { q with nonSpecInsts := q.nonSpecInsts.filter (· ≠ sn) }
      else do
        ensure inst.hasFault "squashed_inst->getFault() != NoFault"
        pure q
    else pure q)
  return { q with
    insts := update q.insts sn { inst.setSquashedInIQ with issued := true }
    count := update q.count tid (q.count tid - 1)
    freeEntries := q.freeEntries + 1 }

def eraseInst (q : InstructionQueue σ) (tid sn : Nat) : InstructionQueue σ :=
  { q with instList := update q.instList tid ((q.instList tid).erase sn) }

def squashFrom (squashedSeqNum tid : Nat) (q : InstructionQueue σ) :
    List Nat → Chk (InstructionQueue σ)
  | [] => return q
  | sn :: older =>
    if sn ≤ squashedSeqNum then return q
    else if (q.insts sn).threadNumber ≠ tid ∨ (q.insts sn).squashedInIQ then
      squashFrom squashedSeqNum tid q older
    else do
      let q ← (if (q.insts sn).inQueue then q.squashInst sn else pure q)
      squashFrom squashedSeqNum tid (q.eraseInst tid sn) older

def doSquash (q : InstructionQueue σ) (squashedSeqNum tid : Nat) : Chk (InstructionQueue σ) :=
  squashFrom squashedSeqNum tid q (q.instList tid).reverse

def squash (q : InstructionQueue σ) (squashedSeqNum tid : Nat) : Chk (InstructionQueue σ) := do
  let q ← (if 0 < q.count tid then q.doSquash squashedSeqNum tid else pure q)
  let unit ← inUnit ((q.memDepUnit tid).squash squashedSeqNum)
  return { q with memDepUnit := update q.memDepUnit tid unit }

end InstructionQueue

end Gem5
