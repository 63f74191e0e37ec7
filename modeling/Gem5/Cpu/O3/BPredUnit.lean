import Gem5.Lib.Run

/-!
# The branch prediction unit

`cpu/o3/bpred_unit_impl.hh`, with `cpu/pred/ras.cc`, any predictor of directions and any BTB.
Branches that are committed train that predictor with the direction fetch followed, unless the
BTB had no target for one that was predicted taken.
-/

namespace Gem5

/-- What the unit uses of `TheISA::PCState`; `zero` is `PCState(0)`. -/
class PCState (PC : Type) where
  instAddr : PC → Nat
  buildRetPC : PC → PC → PC
  zero : PC

open Lib PCState

/-- `LocalBP` or `TournamentBP`: `S` is its state, and `bp_history` leads to an `H`. -/
structure DirectionPredictor (S H : Type) where
  uncondBr : S → H × S
  lookup : S → Nat → Bool × H × S
  btbUpdate : S → Nat → H → S
  update : S → Nat → Bool → H → Bool → S
  squash : S → H → S

structure ReturnAddrStack (PC : Type) where
  addrStack : Nat → PC
  numEntries : Nat
  usedEntries : Nat
  tos : Nat

namespace ReturnAddrStack

variable {PC : Type} (s : ReturnAddrStack PC)

def top : PC := s.addrStack s.tos

def push (returnAddr : PC) : ReturnAddrStack PC :=
  let tos := if s.tos + 1 = s.numEntries then 0 else s.tos + 1
  { s with
    tos
    addrStack := Function.update s.addrStack tos returnAddr
    usedEntries := if s.usedEntries = s.numEntries then s.usedEntries else s.usedEntries + 1 }

def pop : ReturnAddrStack PC :=
  { s with usedEntries := s.usedEntries - 1, tos := if s.tos = 0 then s.numEntries - 1 else s.tos - 1 }

def restore (topEntryIdx : Nat) (restored : PC) : ReturnAddrStack PC :=
  { s with tos := topEntryIdx, addrStack := Function.update s.addrStack topEntryIdx restored }

end ReturnAddrStack

structure TargetBuffer (PC B : Type) where
  valid : B → Nat → Nat → Bool
  lookup : B → Nat → Nat → PC
  update : B → Nat → PC → Nat → B

structure BranchInst (PC : Type) where
  seqNum : Nat
  isUncondCtrl : Bool
  isCall : Bool
  isReturn : Bool
  advancePC : PC → PC

structure PredictorHistory (PC H : Type) where
  seqNum : Nat
  pc : Nat
  bpHistory : H
  predTaken : Bool
  rasTarget : PC
  rasIndex : Nat := 0
  usedRAS : Bool := false
  pushedRAS : Bool := false
  wasCall : Bool := false
  wasReturn : Bool := false

def PredictorHistory.undo (entry : PredictorHistory PC H) (ras : ReturnAddrStack PC) :
    ReturnAddrStack PC :=
  if entry.usedRAS then ras.restore entry.rasIndex entry.rasTarget
  else if entry.wasCall && entry.pushedRAS then ras.pop
  else ras

/-- Beside each entry of a history stands what `predict` returned, and in `trained` what
`update` passed to the predictor beside what `predict` had returned. -/
structure BPredUnit (PC S H B : Type) where
  predictor : S
  btb : B
  ras : Nat → ReturnAddrStack PC
  predHist : Nat → List (PredictorHistory PC H × Bool)
  trained : List (Bool × Bool)

inductive BPredCall (PC : Type)
  | predict (inst : BranchInst PC) (pc : PC) (tid : Nat)
  | update (doneSn tid : Nat)
  | squash (squashedSn tid : Nat)
  | squashBranch (squashedSn : Nat) (corrTarget : PC) (actuallyTaken : Bool) (tid : Nat)

namespace BPredUnit

variable {PC S H B : Type} [PCState PC] (bp : DirectionPredictor S H) (targets : TargetBuffer PC B)
  (u : BPredUnit PC S H B)

def direction (inst : BranchInst PC) (pc : PC) : Bool × H × S :=
  if inst.isUncondCtrl then (true, bp.uncondBr u.predictor) else bp.lookup u.predictor (instAddr pc)

def record (tid : Nat) (entry : PredictorHistory PC H) (predictor : S)
    (ras : ReturnAddrStack PC) (target : PC) (predTaken : Bool) : BPredUnit PC S H B × PC × Bool :=
  ({ u with
    predictor
    ras := Function.update u.ras tid ras
    predHist := Function.update u.predHist tid ((entry, predTaken) :: u.predHist tid) },
      target, predTaken)

def predict (inst : BranchInst PC) (pc : PC) (tid : Nat) : BPredUnit PC S H B × PC × Bool :=
  let (predTaken, bpHistory, predictor) := u.direction bp inst pc
  let ras := u.ras tid
  let entry : PredictorHistory PC H :=
    ⟨inst.seqNum, instAddr pc, bpHistory, predTaken, zero, 0, false, false, false, false⟩
  if predTaken then
    if inst.isReturn then
      u.record tid { entry with wasReturn := true, usedRAS := true, rasIndex := ras.tos,
                                rasTarget := ras.top } predictor ras.pop
        (buildRetPC pc ras.top) true
    else
      let ras := if inst.isCall then ras.push pc else ras
      let entry := { entry with wasCall := inst.isCall, pushedRAS := inst.isCall }
      if targets.valid u.btb (instAddr pc) tid then
        u.record tid entry predictor ras (targets.lookup u.btb (instAddr pc) tid) true
      else if !inst.isCall && !inst.isReturn then
        u.record tid entry (bp.btbUpdate predictor (instAddr pc) bpHistory) ras
          (inst.advancePC pc) false
      else if inst.isCall && !inst.isUncondCtrl then
        u.record tid { entry with pushedRAS := false } predictor ras.pop (inst.advancePC pc) false
      else
        u.record tid entry predictor ras (inst.advancePC pc) false
  else
    u.record tid { entry with wasReturn := inst.isReturn } predictor ras (inst.advancePC pc) false

def update (doneSn tid : Nat) : BPredUnit PC S H B :=
  let retired := (u.predHist tid).reverse.takeWhile (·.1.seqNum ≤ doneSn)
  { u with
    predictor := retired.foldl (fun s e =>
      bp.update s e.1.pc e.1.predTaken e.1.bpHistory false) u.predictor
    predHist := Function.update u.predHist tid
      ((u.predHist tid).reverse.dropWhile (·.1.seqNum ≤ doneSn)).reverse
    trained := u.trained ++ retired.map fun e => (e.1.predTaken, e.2) }

def squash (squashedSn tid : Nat) : BPredUnit PC S H B :=
  let squashed := (u.predHist tid).takeWhile (squashedSn < ·.1.seqNum)
  { u with
    predictor := squashed.foldl (fun s e => bp.squash s e.1.bpHistory) u.predictor
    ras := Function.update u.ras tid (squashed.foldl (fun ras e => e.1.undo ras) (u.ras tid))
    predHist := Function.update u.predHist tid ((u.predHist tid).dropWhile (squashedSn < ·.1.seqNum)) }

def squashBranch (squashedSn : Nat) (corrTarget : PC) (actuallyTaken : Bool) (tid : Nat) :
    Chk (BPredUnit PC S H B) :=
  let u := u.squash bp squashedSn tid
  match u.predHist tid with
  | [] => return u
  | (entry, _) :: rest => do
    ensure (entry.seqNum == squashedSn) "pred_hist.front().seqNum == squashed_sn"
    let ras :=
      if !actuallyTaken then entry.undo (u.ras tid)
      else if entry.wasReturn && !entry.usedRAS then (u.ras tid).pop
      else u.ras tid
    return { u with
      predictor := bp.update u.predictor entry.pc actuallyTaken entry.bpHistory true
      btb := if actuallyTaken then targets.update u.btb entry.pc corrTarget tid else u.btb
      ras := Function.update u.ras tid ras
      predHist := Function.update u.predHist tid rest }

def apply : BPredCall PC → Chk (BPredUnit PC S H B)
  | .predict inst pc tid => return (u.predict bp targets inst pc tid).1
  | .update doneSn tid => return u.update bp doneSn tid
  | .squash squashedSn tid => return u.squash bp squashedSn tid
  | .squashBranch squashedSn corrTarget actuallyTaken tid =>
      u.squashBranch bp targets squashedSn corrTarget actuallyTaken tid

def targeted : BPredCall PC → Bool
  | .predict inst pc tid => !(u.direction bp inst pc).1 || inst.isReturn ||
      targets.valid u.btb (instAddr pc) tid
  | _ => true

structure Faithful : Prop where
  history : ∀ tid, ∀ e ∈ u.predHist tid, e.1.predTaken = e.2
  trained : ∀ t ∈ u.trained, t.1 = t.2

variable {bp targets u}

theorem predict_eq (inst : BranchInst PC) (pc : PC) (tid : Nat)
    (htargeted : u.targeted bp targets (.predict inst pc tid) = true) :
    ∃ entry predictor ras target, u.predict bp targets inst pc tid =
      u.record tid entry predictor ras target entry.predTaken := by
  unfold predict
  rcases hdirection : u.direction bp inst pc with ⟨predTaken, bpHistory, predictor⟩
  simp only [targeted, hdirection] at htargeted
  cases predTaken with
  | false => exact ⟨_, _, _, _, rfl⟩
  | true =>
    cases hreturn : inst.isReturn with
    | true => exact ⟨_, _, _, _, rfl⟩
    | false =>
      have hvalid : targets.valid u.btb (instAddr pc) tid = true := by simpa [hreturn] using htargeted
      simp only [hvalid]
      exact ⟨_, _, _, _, rfl⟩

namespace Faithful

variable (h : u.Faithful)
include h

omit [PCState PC] in
theorem of_subset {u' : BPredUnit PC S H B} {rest : List (PredictorHistory PC H × Bool)} {tid : Nat}
    (hrest : ∀ e ∈ rest, e ∈ u.predHist tid)
    (hhist : u'.predHist = Function.update u.predHist tid rest)
    (htrained : ∀ t ∈ u'.trained, t.1 = t.2) : u'.Faithful := by
  refine ⟨fun t e he => ?_, htrained⟩
  rw [hhist, Function.update_apply] at he
  split at he
  · exact h.history tid e (hrest e he)
  · exact h.history t e he

theorem predict (htargeted : u.targeted bp targets (.predict inst pc tid) = true) :
    (u.predict bp targets inst pc tid).1.Faithful := by
  obtain ⟨entry, predictor, ras, target, heq⟩ := predict_eq inst pc tid htargeted
  rw [heq]
  refine ⟨fun t e he => ?_, h.trained⟩
  simp only [record, Function.update_apply] at he
  split at he
  · rcases List.mem_cons.mp he with rfl | he
    · rfl
    · exact h.history tid e he
  · exact h.history t e he

omit [PCState PC] in
theorem squash (squashedSn tid : Nat) : (u.squash bp squashedSn tid).Faithful :=
  h.of_subset (fun _ he => (List.dropWhile_sublist _).subset he) rfl h.trained

omit [PCState PC] in
theorem update (doneSn tid : Nat) : (u.update bp doneSn tid).Faithful := by
  refine h.of_subset (fun e he => ?_) rfl fun t ht => ?_
  · exact List.mem_reverse.mp ((List.dropWhile_sublist _).subset (List.mem_reverse.mp he))
  · rcases List.mem_append.mp ht with ht | ht
    · exact h.trained t ht
    · obtain ⟨e, he, rfl⟩ := List.mem_map.mp ht
      exact h.history tid e (List.mem_reverse.mp ((List.takeWhile_sublist _).subset he))

theorem apply (c : BPredCall PC) (htargeted : u.targeted bp targets c = true)
    (happly : u.apply bp targets c = .ok u') : u'.Faithful := by
  cases c with
  | predict inst pc tid => exact pure_eq_ok.mp happly ▸ h.predict htargeted
  | update doneSn tid => exact pure_eq_ok.mp happly ▸ h.update doneSn tid
  | squash squashedSn tid => exact pure_eq_ok.mp happly ▸ h.squash squashedSn tid
  | squashBranch squashedSn corrTarget actuallyTaken tid =>
    have hsquash : (u.squash bp squashedSn tid).Faithful := h.squash squashedSn tid
    simp only [BPredUnit.apply, squashBranch] at happly
    split at happly
    · exact pure_eq_ok.mp happly ▸ hsquash
    · rename_i entry returned rest hhist
      replace happly := of_guard happly
      rw [← pure_eq_ok.mp happly]
      exact hsquash.of_subset (fun e he => hhist ▸ List.mem_cons_of_mem _ he) rfl hsquash.trained

end Faithful

/-- As long as the BTB has the targets of the branches that are predicted taken, whatever
`update` passes to the predictor is what `predict` returned for the branch. -/
theorem run_trains_returned {u₀ u : BPredUnit PC S H B} {calls : List (BPredCall PC)}
    (hnew : (∀ tid, u₀.predHist tid = []) ∧ u₀.trained = [])
    (hrun : Runs (fun u c u' => u.targeted bp targets c = true ∧
      u.apply bp targets c = .ok u') u₀ calls u) :
    ∀ t ∈ u.trained, t.1 = t.2 := by
  have hstart : u₀.Faithful := ⟨by simp [hnew.1], by simp [hnew.2]⟩
  exact (hrun.invariant hstart fun u c u' h hstep => h.apply c hstep.1 hstep.2).trained

instance : PCState Nat := ⟨id, fun _ ras => ras, 0⟩

def alwaysTaken : DirectionPredictor Unit Unit :=
  ⟨fun _ => ((), ()), fun _ _ => (true, (), ()), fun _ _ _ => (), fun _ _ _ _ _ => (), fun _ _ => ()⟩

def oneTarget : TargetBuffer Nat Bool := ⟨fun valid _ _ => valid, fun _ _ _ => 8, fun _ _ _ _ => true⟩

def sample (valid : Bool) : BPredUnit Nat Unit Unit Bool :=
  ⟨(), valid, fun _ => ⟨fun _ => 0, 2, 0, 0⟩, fun _ => [], []⟩

def predictAndCommit : List (BPredCall Nat) :=
  [.predict ⟨1, false, false, false, (· + 1)⟩ 0 0, .update 1 0]

theorem run_trains_returned_hit : ∃ u,
    Runs (fun u c u' => u.targeted alwaysTaken oneTarget c = true ∧
      u.apply alwaysTaken oneTarget c = .ok u')
      (sample true) predictAndCommit u ∧ u.trained = [(true, true)] ∧ ∀ t ∈ u.trained, t.1 = t.2 :=
  runs_of_play_and (fun u c => u.targeted alwaysTaken oneTarget c = true)
    (apply alwaysTaken oneTarget) (by decide +kernel)
    fun _ hrun => run_trains_returned ⟨fun _ => rfl, rfl⟩ hrun

/-- It has not: `predict` returns not taken, and `update` passes on taken. -/
theorem predict_without_target_trains_taken : ∃ u,
    Runs (fun u c u' => True ∧ u.apply alwaysTaken oneTarget c = .ok u')
      (sample false) predictAndCommit u ∧
      u.trained = [(true, false)] :=
  runs_of_play (fun _ _ => True) (apply alwaysTaken oneTarget) (by decide +kernel)

end BPredUnit

end Gem5
