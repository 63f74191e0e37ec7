import Gem5.Lib.Run

/-!
# The memory dependence unit of the O3 CPU

`cpu/o3/mem_dep_unit_impl.hh`: loads and stores wait for the instruction they are thought to
depend on, and for barriers. The unit remembers the latest barrier only, one for loads and
one for stores. The dependence predictor is a parameter, as in the source. Replays and
statistics are left out.
-/

namespace Gem5

open Lib

structure MemDepInst where
  seqNum : Nat
  instAddr : Nat := 0
  isLoad : Bool := false
  isStore : Bool := false
  isMemBarrier : Bool := false
  isWriteBarrier : Bool := false
  deriving DecidableEq, Repr

/-- A dependence predictor; 0 means that nothing is predicted. -/
structure MemDepPred (σ : Type) where
  checkInst : σ → (instAddr : Nat) → Chk Nat
  insertStore : σ → (instAddr seqNum : Nat) → Chk σ
  squash : σ → (squashedNum : Nat) → Chk σ
  issued : σ → (instAddr seqNum : Nat) → (isStore : Bool) → Chk σ

structure MemDepEntry where
  inst : MemDepInst
  dependInsts : List Nat := []
  regsReady : Bool := false
  memDepReady : Bool := false
  squashed : Bool := false
  deriving DecidableEq, Repr

structure MemDepUnit (σ : Type) where
  predictor : MemDepPred σ
  depPred : σ
  /-- The entry made for a sequence number, for as long as something points to it. -/
  entries : Nat → MemDepEntry := fun _ => { inst := ⟨0, 0, false, false, false, false⟩ }
  memDepHash : List Nat := []
  instList : List MemDepInst := []
  loadBarrier : Bool := false
  loadBarrierSN : Nat := 0
  storeBarrier : Bool := false
  storeBarrierSN : Nat := 0
  ready : List MemDepInst := []

namespace MemDepUnit

variable {σ : Type}

def setEntry (u : MemDepUnit σ) (sn : Nat) (entry : MemDepEntry) : MemDepUnit σ :=
  { u with entries := Function.update u.entries sn entry }

def addInst (u : MemDepUnit σ) (inst : MemDepInst) : MemDepUnit σ :=
  { u with
    entries := Function.update u.entries inst.seqNum { inst }
    memDepHash := inst.seqNum :: u.memDepHash
    instList := u.instList ++ [inst] }

def moveToReady (u : MemDepUnit σ) (sn : Nat) : Chk (MemDepUnit σ) := do
  ensure (!(u.entries sn).squashed) "!woken_inst_entry->squashed"
  return { u with ready := u.ready ++ [(u.entries sn).inst] }

def findInHash (u : MemDepUnit σ) (inst : MemDepInst) : Chk Unit :=
  ensure (inst.seqNum ∈ u.memDepHash) "hash_it != memDepHash.end()"

def producingStore (u : MemDepUnit σ) (inst : MemDepInst) : Chk Nat :=
  if inst.isLoad && u.loadBarrier then return u.loadBarrierSN
  else if inst.isStore && u.storeBarrier then return u.storeBarrierSN
  else u.predictor.checkInst u.depPred inst.instAddr

def notePred (u : MemDepUnit σ) (inst : MemDepInst) : Chk (MemDepUnit σ) :=
  if inst.isStore then do
    let depPred ← u.predictor.insertStore u.depPred inst.instAddr inst.seqNum
    return { u with depPred }
  else if inst.isLoad then return u
  else .error (.panic "Unknown type! (most likely a barrier).")

/-- The second component is whether the instruction can issue after the call. -/
def insert (u : MemDepUnit σ) (inst : MemDepInst) (readyToIssue : Bool) :
    Chk (MemDepUnit σ × Bool) := do
  let u := u.addInst inst
  let store ← u.producingStore inst
  if store ≠ 0 ∧ store ∈ u.memDepHash then
    let u := u.setEntry inst.seqNum { inst, regsReady := readyToIssue }
    let u := u.setEntry store { u.entries store with
      dependInsts := (u.entries store).dependInsts ++ [inst.seqNum] }
    -- `clearCanIssue`
    return (← u.notePred inst, false)
  else
    let u := u.setEntry inst.seqNum { inst, regsReady := readyToIssue, memDepReady := true }
    let u ← (if readyToIssue then u.moveToReady inst.seqNum else pure u)
    return (← u.notePred inst, readyToIssue)

def insertNonSpec (u : MemDepUnit σ) (inst : MemDepInst) : Chk (MemDepUnit σ) :=
  (u.addInst inst).notePred inst

def insertBarrier (u : MemDepUnit σ) (inst : MemDepInst) : MemDepUnit σ :=
  let u := if inst.isMemBarrier then { u with
      loadBarrier := true, loadBarrierSN := inst.seqNum, storeBarrier := true,
        storeBarrierSN := inst.seqNum }
    else if inst.isWriteBarrier then { u with storeBarrier := true, storeBarrierSN := inst.seqNum }
    else u
  u.addInst inst

def regsReady (u : MemDepUnit σ) (inst : MemDepInst) : Chk (MemDepUnit σ) := do
  u.findInHash inst
  let u := u.setEntry inst.seqNum { u.entries inst.seqNum with regsReady := true }
  if (u.entries inst.seqNum).memDepReady then u.moveToReady inst.seqNum else return u

def nonSpecInstReady (u : MemDepUnit σ) (inst : MemDepInst) : Chk (MemDepUnit σ) := do
  u.findInHash inst
  u.moveToReady inst.seqNum

def issue (u : MemDepUnit σ) (inst : MemDepInst) : Chk (MemDepUnit σ) := do
  let depPred ← u.predictor.issued u.depPred inst.instAddr inst.seqNum inst.isStore
  return { u with depPred }

def completed (u : MemDepUnit σ) (inst : MemDepInst) : Chk (MemDepUnit σ) := do
  ensure (inst.seqNum ∈ u.memDepHash) "hash_it != memDepHash.end()"
  return { u with
    instList := u.instList.filter (·.seqNum ≠ inst.seqNum)
    memDepHash := u.memDepHash.filter (· ≠ inst.seqNum) }

def wake (u : MemDepUnit σ) (sn : Nat) : Chk (MemDepUnit σ) :=
  let woken := u.entries sn
  if woken.regsReady && !woken.squashed then u.moveToReady sn
  else return u.setEntry sn { woken with memDepReady := true }

def wakeDependents (u : MemDepUnit σ) (inst : MemDepInst) : Chk (MemDepUnit σ) :=
  if !inst.isStore && !inst.isMemBarrier && !inst.isWriteBarrier then return u
  else do
    u.findInHash inst
    let u ← (u.entries inst.seqNum).dependInsts.foldlM wake u
    return u.setEntry inst.seqNum { u.entries inst.seqNum with dependInsts := [] }

def completeBarrier (u : MemDepUnit σ) (inst : MemDepInst) : Chk (MemDepUnit σ) := do
  let u ← u.wakeDependents inst
  let u ← u.completed inst
  if inst.isMemBarrier then return { u with
    loadBarrier := u.loadBarrier && u.loadBarrierSN != inst.seqNum
    storeBarrier := u.storeBarrier && u.storeBarrierSN != inst.seqNum }
  else if inst.isWriteBarrier then return { u with
    storeBarrier := u.storeBarrier && u.storeBarrierSN != inst.seqNum }
  else return u

def squashInst (u : MemDepUnit σ) (inst : MemDepInst) : Chk (MemDepUnit σ) := do
  ensure (inst.seqNum ∈ u.memDepHash) "hash_it != memDepHash.end()"
  return { u with
    loadBarrier := u.loadBarrier && u.loadBarrierSN != inst.seqNum
    storeBarrier := u.storeBarrier && u.storeBarrierSN != inst.seqNum
    entries := Function.update u.entries inst.seqNum { u.entries inst.seqNum with squashed := true }
    memDepHash := u.memDepHash.filter (· ≠ inst.seqNum) }

def squashBack (squashedNum : Nat) (u : MemDepUnit σ) : List MemDepInst → Chk (MemDepUnit σ)
  | [] => return { u with instList := [] }
  | inst :: older =>
    if squashedNum < inst.seqNum then do
      let u ← u.squashInst inst
      squashBack squashedNum u older
    else return { u with instList := (inst :: older).reverse }

def squash (u : MemDepUnit σ) (squashedNum : Nat) : Chk (MemDepUnit σ) := do
  let u ← squashBack squashedNum u u.instList.reverse
  let depPred ← u.predictor.squash u.depPred squashedNum
  return { u with depPred }

end MemDepUnit

end Gem5
