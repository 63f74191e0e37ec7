import Gem5.Cpu.O3.InstructionQueueSteps

/-!
# What the instruction queue keeps track of

A run of the queue with what the rest of the CPU knows beside it: the instructions that are
not retired, those that completed, and which instruction produces a register. The invariant is
in parts, one for each of the queue's representations.
-/

namespace Gem5

open Lib

/-- As it comes from rename: its marks are counted, and nothing has happened to it. -/
@[mk_iff]
structure DynInst.Renamed (inst : DynInst) : Prop extends inst.Accounted where
  issued : inst.issued = false
  squashed : inst.squashed = false
  squashedInIQ : inst.squashedInIQ = false
  memOpDone : inst.memOpDone = false

instance (inst : DynInst) : Decidable inst.Renamed := decidable_of_iff _ inst.renamed_iff.symm

structure IssueWorld (σ : Type) where
  queue : InstructionQueue σ
  inserted : List Nat := []
  unretired : List Nat := []
  completed : List Nat := []
  producer : Nat → Option Nat := fun _ => none
  /-- The producer of a register at the time an instruction came in. -/
  awaits : Nat → Nat → Option Nat := fun _ _ => none

inductive IssueEvent where
  | insert (inst : DynInst)
  | insertNonSpec (inst : DynInst)
  | insertBarrier (inst : DynInst)
  | wakeDependents (sn : Nat)
  | scheduleReadyInsts (slots : List IssueSlot)
  | scheduleNonSpec (sn : Nat)
  | commit (sn tid : Nat)
  | squash (sn tid : Nat)
  | mark (sn : Nat) (hasFault completed squashed : Bool)
  deriving DecidableEq, Repr

namespace IssueWorld

variable {σ : Type}

def inst (w : IssueWorld σ) (sn : Nat) : DynInst := w.queue.insts sn

def create (numEntries numPhysRegs numThreads totalWidth : Nat) (predictor : MemDepPred σ)
    (depPred : σ) : IssueWorld σ where
  queue := { numEntries, numPhysRegs, numThreads, totalWidth, freeEntries := numEntries
             memDepUnit := fun _ => { predictor, depPred } }

def noteInsert (w : IssueWorld σ) (inst : DynInst) : IssueWorld σ :=
  { w with
    inserted := inst.seqNum :: w.inserted
    unretired := inst.seqNum :: w.unretired
    producer := fun reg => if reg ∈ inst.destRegs then some inst.seqNum else w.producer reg
    awaits := Function.update w.awaits inst.seqNum w.producer }

def setQueue (w : IssueWorld σ) (q : InstructionQueue σ) : IssueWorld σ := { w with queue := q }

def retire (w : IssueWorld σ) (p : Nat → Bool) : IssueWorld σ :=
  { w with unretired := w.unretired.filter (!p ·) }

def apply (w : IssueWorld σ) : IssueEvent → Chk (IssueWorld σ)
  | .insert inst => return (w.setQueue (← w.queue.insert inst)).noteInsert inst
  | .insertNonSpec inst => return (w.setQueue (← w.queue.insertNonSpec inst)).noteInsert inst
  | .insertBarrier inst => return (w.setQueue (← w.queue.insertBarrier inst)).noteInsert inst
  | .wakeDependents sn => return { w.setQueue (← w.queue.wakeDependents sn) with
      completed := sn :: w.completed }
  | .scheduleReadyInsts slots => return w.setQueue (← w.queue.scheduleReadyInsts slots)
  | .scheduleNonSpec sn => return w.setQueue (← w.queue.scheduleNonSpec sn)
  | .commit sn tid =>
    return (w.setQueue (← w.queue.commit sn tid)).retire fun n =>
      (w.inst n).threadNumber == tid && decide (n ≤ sn)
  | .squash sn tid =>
    return (w.setQueue (← w.queue.squash sn tid)).retire fun n =>
      (w.inst n).threadNumber == tid && decide (sn < n)
  | .mark sn hasFault completed squashed =>
    let inst := w.inst sn
    return w.setQueue (w.queue.setInst sn { inst with
      hasFault := inst.hasFault || hasFault
      completed := inst.completed || completed
      squashed := inst.squashed || squashed })

def Produced (w : IssueWorld σ) (producer : Option Nat) : Prop :=
  ∃ sn ∈ w.completed, producer = some sn

def Supplied (w : IssueWorld σ) (regs : List Nat) (producer : Nat → Option Nat) : Prop :=
  ∀ reg ∈ regs, reg < w.queue.numPhysRegs → ∀ sn, producer reg = some sn → sn ∈ w.completed

/-- A new instruction as rename gives it to the queue: it is younger than those of its thread,
a source is marked only if its producer completed, and no destination is the destination of
an instruction that is not retired. -/
@[mk_iff]
structure Enters (w : IssueWorld σ) (inst : DynInst) : Prop where
  renamed : inst.Renamed
  thread : inst.threadNumber < w.queue.numThreads
  fresh : inst.seqNum ∉ w.inserted
  last : ∀ sn ∈ w.inserted, (w.inst sn).threadNumber = inst.threadNumber → sn < inst.seqNum
  marked : ∀ operand ∈ inst.srcRegs.zipIdx, operand.2 ∈ inst.readySrcRegIdx →
    w.Supplied [operand.1] w.producer
  dests : ∀ reg ∈ inst.destRegs, reg < w.queue.numPhysRegs → ∀ sn ∈ w.unretired,
    reg ∉ (w.inst sn).destRegs

def Admits (w : IssueWorld σ) : IssueEvent → Prop
  | .insert inst => w.Enters inst ∧ inst.waitsForCommit = false
  | .insertNonSpec inst => w.Enters inst ∧ inst.waitsForCommit = true
  | .insertBarrier inst => w.Enters inst ∧ (inst.isMemBarrier = true ∨ inst.isWriteBarrier = true) ∧
      inst.isMemRef = false
  | .wakeDependents sn => sn ∈ w.unretired ∧ sn ∉ w.completed ∧ (w.inst sn).issued = true
  | .scheduleReadyInsts _ => True
  | .scheduleNonSpec sn => sn ∈ w.unretired ∧ w.Supplied (w.inst sn).srcRegs (w.awaits sn)
  | .commit sn tid => ∀ n ∈ w.unretired, (w.inst n).threadNumber = tid → n ≤ sn → n ∈ w.completed
  | .squash _ _ => True
  | .mark sn _ _ _ => sn ∈ w.inserted

/-- No register becomes a destination while an instruction that is not retired reads it. -/
def DestsUnread (w : IssueWorld σ) : IssueEvent → Prop
  | .insert inst | .insertNonSpec inst | .insertBarrier inst =>
    ∀ reg ∈ inst.destRegs, reg < w.queue.numPhysRegs →
      reg ∉ inst.srcRegs ∧ ∀ sn ∈ w.unretired, reg ∉ (w.inst sn).srcRegs
  | _ => True

def Step (w : IssueWorld σ) (e : IssueEvent) (w' : IssueWorld σ) : Prop :=
  w.Admits e ∧ w.apply e = .ok w'

def Reader (w : IssueWorld σ) (sn : Nat) : Prop :=
  sn ∈ w.unretired ∧ (w.inst sn).waitsForCommit = false

instance (w : IssueWorld σ) (sn : Nat) : Decidable (w.Reader sn) := by unfold Reader; infer_instance

structure Ids (w : IssueWorld σ) : Prop where
  seqNum : ∀ sn ∈ w.inserted, (w.inst sn).seqNum = sn
  thread : ∀ sn ∈ w.inserted, (w.inst sn).threadNumber < w.queue.numThreads
  unretired : ∀ sn ∈ w.unretired, sn ∈ w.inserted ∧ sn ∈ w.queue.instList (w.inst sn).threadNumber
  list : ∀ tid, ∀ sn ∈ w.queue.instList tid, sn ∈ w.inserted ∧ (w.inst sn).threadNumber = tid ∧
    (w.inst sn).squashedInIQ = false
  sorted : ∀ tid, (w.queue.instList tid).Pairwise (· < ·)
  retired : ∀ tid, ∀ sn ∈ w.queue.instList tid, sn ∉ w.unretired → (w.inst sn).inQueue = false
  completed : ∀ sn ∈ w.completed, sn ∈ w.inserted ∧ (sn ∈ w.unretired → (w.inst sn).inQueue = false)
  memOpDone : ∀ sn ∈ w.unretired, (w.inst sn).memOpDone = true → sn ∈ w.completed

structure Counts (w : IssueWorld σ) : Prop where
  count : ∀ tid, w.queue.count tid = (w.queue.instList tid).countP fun sn => (w.inst sn).inQueue
  total : w.queue.freeEntries + ∑ tid ∈ Finset.range w.queue.numThreads,
    w.queue.count tid = w.queue.numEntries

/-- The chains hold what waits for a register that is not available, and, for the register
that is being woken, what is still to be told. -/
def Chains (w : IssueWorld σ) (avail : Nat → Bool) (woken : Nat) (owed : List Nat) : Prop :=
  ∀ reg sn, (w.queue.dependGraph reg).count sn =
    (if (reg < w.queue.numPhysRegs ∧ avail reg = false) ∧ w.Reader sn then
      (w.inst sn).unmarked reg else 0) +
      (if reg = woken then owed.count sn else 0)

structure Account (w : IssueWorld σ) (avail : Nat → Bool) (owed : List Nat) : Prop where
  readyRegs : ∀ sn, w.Reader sn → (w.inst sn).readyRegs + owed.count sn =
    (w.inst sn).available fun reg => reg < w.queue.numPhysRegs ∧ avail reg = true
  canIssue : ∀ sn, w.Reader sn → (w.inst sn).canIssue = true → (w.inst sn).sourcesReady = true
  owed : ∀ sn ∈ owed, w.Reader sn

structure Produces (w : IssueWorld σ) (pending : List Nat) : Prop where
  scoreboard : ∀ reg < w.queue.numPhysRegs, w.queue.regScoreboard reg = true →
    w.Produced (w.producer reg)
  produced : ∀ reg < w.queue.numPhysRegs, reg ∉ pending → w.Produced (w.producer reg) →
    w.queue.regScoreboard reg = true
  awaits : ∀ sn ∈ w.unretired, ∀ reg ∈ (w.inst sn).srcRegs, reg < w.queue.numPhysRegs →
    w.awaits sn reg = w.producer reg
  dests : ∀ sn ∈ w.unretired, sn ∉ w.completed → ∀ reg ∈ (w.inst sn).destRegs,
    reg < w.queue.numPhysRegs →
    w.producer reg = some sn
  producer : ∀ reg sn, w.producer reg = some sn → sn ∈ w.inserted ∧ reg ∈ (w.inst sn).destRegs
  marked : ∀ sn ∈ w.unretired, ∀ operand ∈ (w.inst sn).srcRegs.zipIdx,
    operand.2 ∈ (w.inst sn).readySrcRegIdx →
    w.Supplied [operand.1] (w.awaits sn)

structure Lists (w : IssueWorld σ) : Prop where
  once : w.queue.readied.Nodup
  readied : ∀ sn ∈ w.queue.readied, sn ∈ w.inserted ∧ w.Supplied (w.inst sn).srcRegs (w.awaits sn)
  sound : ∀ sn, w.Reader sn → sn ∈ w.queue.readied → (w.inst sn).sourcesReady = true
  complete : ∀ sn, w.Reader sn → (w.inst sn).isMemRef = false → (w.inst sn).sourcesReady = true →
    sn ∈ w.queue.readied
  held : ∀ sn ∈ w.queue.nonSpecInsts, sn ∈ w.inserted
  nonSpec : ∀ sn ∈ w.unretired, sn ∈ w.queue.nonSpecInsts → (w.inst sn).waitsForCommit = true ∧
    sn ∉ w.queue.readied
  issued : ∀ sn ∈ w.unretired, (w.inst sn).issued = true → sn ∈ w.queue.readied
  ready : ∀ op, ∀ sn ∈ w.queue.readyInsts op, (w.inst sn).opClass = op ∧ sn ∈ w.queue.readied ∧
    ((w.inst sn).squashed = true ∨ sn ∈ w.unretired ∧ (w.inst sn).issued = false)
  nodup : ∀ op, (w.queue.readyInsts op).Nodup

def clients (w : IssueWorld σ) (tid : Nat) : MemDepUnit.Clients where
  known sn := sn ∈ w.inserted ∧ (w.inst sn).threadNumber = tid
  active sn := w.Reader sn ∧ (w.inst sn).isMemRef = true ∧ (w.inst sn).threadNumber = tid
  regs sn := sn ∈ w.inserted ∧ (w.inst sn).sourcesReady = true
  given sn := sn ∈ w.queue.readied
  done sn := sn ∈ w.completed

def Units (w : IssueWorld σ) : Prop :=
  ∀ tid, (w.queue.memDepUnit tid).ready = [] ∧ (w.queue.memDepUnit tid).Hands (w.clients tid)

structure Core (w : IssueWorld σ) (pending : List Nat) (avail : Nat → Bool) (woken : Nat)
    (owed : List Nat) : Prop where
  ids : w.Ids
  counts : w.Counts
  chains : w.Chains avail woken owed
  account : w.Account avail owed
  produces : w.Produces pending
  lists : w.Lists

structure Inv (w : IssueWorld σ) (pending : List Nat) : Prop where
  core : w.Core pending w.queue.regScoreboard 0 []
  units : w.Units

end IssueWorld

end Gem5
