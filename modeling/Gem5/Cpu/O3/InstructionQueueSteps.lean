import Gem5.Cpu.O3.InstructionQueue
import Gem5.Cpu.O3.MemDepReady

/-!
# What the operations of the instruction queue do

The loops over operands, destinations and chains in closed form, and how each operation can
fail.
-/

namespace Gem5

open Lib List Function

/-- Neither the assertion of `DependencyGraph::remove` nor the panic of `addToProducers`. -/
def Apart (e : Fault) : Prop :=
  e ≠ .assertion "curr != NULL" ∧ ∀ reg : Nat, e ≠ .panic s!"Dependency graph {reg} not empty!"

theorem apart_assertion (h : text ≠ "curr != NULL") : Apart (.assertion text) :=
  ⟨by simpa using h, by simp⟩

theorem apart_undefined : Apart (.undefined what) :=
  ⟨by simp, by simp⟩

namespace DynInst

variable {inst : DynInst}

def unmarked (inst : DynInst) (reg : Nat) : Nat :=
  inst.srcRegs.zipIdx.countP fun operand => operand.1 = reg ∧ operand.2 ∉ inst.readySrcRegIdx

def available (inst : DynInst) (avail : Nat → Prop) [DecidablePred avail] : Nat :=
  inst.srcRegs.zipIdx.countP fun operand => operand.2 ∈ inst.readySrcRegIdx ∨ avail operand.1

theorem unmarked_eq_zero (h : reg ∉ inst.srcRegs) : inst.unmarked reg = 0 := by
  rw [unmarked, countP_eq_zero]
  intro operand hoperand
  have hmem : operand.1 ∈ inst.srcRegs := fst_mem_of_mem_zipIdx hoperand
  simp only [decide_eq_true_eq, not_and]
  rintro rfl
  exact absurd hmem h

theorem exists_operand (h : reg ∈ inst.srcRegs) : ∃ idx, (reg, idx) ∈ inst.srcRegs.zipIdx := by
  obtain ⟨idx, hidx, rfl⟩ := mem_iff_getElem.mp h
  exact ⟨idx, by simp [mem_zipIdx_iff_getElem?, hidx]⟩

def sourcesReady (inst : DynInst) : Bool := inst.readyRegs == inst.srcRegs.length

@[mk_iff]
structure Accounted (inst : DynInst) : Prop where
  readyRegs : inst.readyRegs = inst.available fun _ => False
  canIssue : inst.canIssue = true ↔ inst.readyRegs = inst.srcRegs.length

instance (inst : DynInst) : Decidable inst.Accounted := decidable_of_iff _ inst.accounted_iff.symm

theorem available_le (inst : DynInst) (avail : Nat → Prop) [DecidablePred avail] :
    inst.available avail ≤ inst.srcRegs.length :=
  countP_le_length.trans_eq (length_zipIdx ..)

theorem countP_operand {l : List Nat} {p p' : Nat × Nat → Bool} {operand : Nat × Nat}
    (hmem : operand ∈ l.zipIdx) (hp : p operand = false) (hp' : p' operand = true)
    (hsame : ∀ o ∈ l.zipIdx, o.2 ≠ operand.2 → p' o = p o) :
    l.zipIdx.countP p' = l.zipIdx.countP p + 1 := by
  obtain ⟨before, after, hl⟩ := append_of_mem hmem
  have hnodup : (l.zipIdx.map Prod.snd).Nodup := by
    rw [zipIdx_map_snd]
    exact nodup_range'
  rw [hl, map_append, map_cons, nodup_append, nodup_cons] at hnodup
  obtain ⟨-, ⟨hafter, -⟩, hbefore⟩ := hnodup
  have hb : before.countP p' = before.countP p := countP_congr fun o ho => by
    rw [hsame o (hl ▸ mem_append_left _ ho)]
    exact hbefore o.2 (mem_map_of_mem ho) operand.2 mem_cons_self
  have ha : after.countP p' = after.countP p := countP_congr fun o ho => by
    rw [hsame o (hl ▸ mem_append_right _ (mem_cons_of_mem _ ho))]
    exact fun heq => hafter (heq ▸ mem_map_of_mem ho)
  rw [hl, countP_append, countP_append, countP_cons, countP_cons, hb, ha, hp, hp']
  simp [Nat.add_assoc]

theorem Accounted.mark (h : inst.Accounted) (hmem : operand ∈ inst.srcRegs.zipIdx)
    (hnot : operand.2 ∉ inst.readySrcRegIdx) : (inst.markSrcRegReady operand.2).Accounted := by
  have hcount : (inst.markSrcRegReady operand.2).available (fun _ => False) =
      inst.available (fun _ => False) + 1 := by
    refine countP_operand hmem (by simpa using hnot)
      (by simp [markSrcRegReady, countReady]) fun o _ hne => ?_
    simp [markSrcRegReady, countReady, hne]
  have hle : inst.available (fun _ => False) + 1 ≤ inst.srcRegs.length := hcount ▸ available_le ..
  refine ⟨(congrArg (· + 1) h.readyRegs).trans hcount.symm, ?_⟩
  have hfalse : inst.canIssue = false := by
    rw [Bool.eq_false_iff, Ne, h.canIssue, h.readyRegs]
    exact fun heq => absurd hle (by rw [heq]; exact Nat.not_succ_le_self _)
  simp [markSrcRegReady, countReady, hfalse]

end DynInst

namespace InstructionQueue

variable {σ : Type} {q q' : InstructionQueue σ} {sn : Nat}

theorem bind_inUnit {x : Chk α} {f : α → Chk β} {P : β → Prop}
    (h : ∀ a, x = .ok a → Meets P Apart (f a)) :
    Meets P Apart (inUnit x >>= f) := by
  cases x with
  | error e => exact apart_undefined
  | ok a => exact h a rfl

structure Pushes (q q' : InstructionQueue σ) (sns : List Nat) : Prop where
  same : q' = { q with
    readyInsts := q'.readyInsts, listOrder := q'.listOrder, queueOnList := q'.queueOnList
    readied := q.readied ++ sns }
  perm : ∀ op, (q'.readyInsts op).Perm
    (sns.filter (fun sn => (q.insts sn).opClass = op) ++ q.readyInsts op)

theorem Pushes.nil (q : InstructionQueue σ) : Pushes q q [] := ⟨by simp, fun _ => by simp⟩

theorem Pushes.trans (h : Pushes q q' sns) (h' : Pushes q' q'' sns') :
    Pushes q q'' (sns ++ sns') where
  same := by
    rw [h'.same, h.same]
    simp
  perm op := by
    refine (h'.perm op).trans ?_
    have hinsts : q'.insts = q.insts := by rw [h.same]
    rw [hinsts, filter_append]
    refine ((h.perm op).append_left _).trans ?_
    rw [← append_assoc]
    exact (perm_append_comm).append_right _

theorem addToOrderList_meets (opClass : Nat) :
    Meets (fun q' => q' = { q with listOrder := q'.listOrder, queueOnList := q'.queueOnList }) Apart
      (q.addToOrderList opClass) := by
  refine Meets.bind (Meets.need (apart_assertion (by decide))) fun _ _ => ?_
  exact Meets.pure rfl

theorem pushReady_meets (sn : Nat) : Meets (Pushes q · [sn]) Apart (q.pushReady sn) := by
  set insts := (q.readyInsts (q.insts sn).opClass).orderedInsert (· ≤ ·) sn with hinsts
  set q1 : InstructionQueue σ := { q with
    readyInsts := update q.readyInsts (q.insts sn).opClass insts
    readied := q.readied ++ [sn] } with hq1
  have hpush : ∀ {q' : InstructionQueue σ},
      q' = { q1 with listOrder := q'.listOrder, queueOnList := q'.queueOnList } →
        Pushes q q' [sn] := by
    intro q' hq'
    refine ⟨?_, fun op => ?_⟩
    · rw [hq']
    · rw [hq']
      show (update q.readyInsts (q.insts sn).opClass insts op).Perm _
      rw [update_apply]
      split
      · subst op
        rw [filter_cons_of_pos (by simp), filter_nil]
        exact perm_orderedInsert ..
      · rename_i hop
        rw [filter_cons_of_neg (by simp [Ne.symm hop]), filter_nil]
        exact .refl _
  unfold pushReady
  refine Meets.ite (fun _ => ?_) fun _ => ?_
  · exact (addToOrderList_meets _).mono fun q' hq' => hpush hq'
  · refine Meets.bind (Meets.need apart_undefined) fun entry _ => ?_
    refine Meets.ite (fun _ => ?_) fun _ => ?_
    · refine (addToOrderList_meets _).mono fun q' hq' => hpush ?_
      rw [hq']
    · exact Meets.pure (hpush rfl)

theorem foldlM_pushReady_meets (sns : List Nat) :
    Meets (Pushes q · sns) Apart (sns.foldlM pushReady q) := by
  induction sns generalizing q with
  | nil => exact Meets.pure (.nil q)
  | cons sn sns ih =>
    rw [foldlM_cons]
    exact Meets.bind (pushReady_meets sn) fun q1 h1 => ih.mono fun q' h => h1.trans h

def setUnit (q : InstructionQueue σ) (tid : Nat) (unit : MemDepUnit σ) : InstructionQueue σ :=
  { q with memDepUnit := update q.memDepUnit tid { unit with ready := [] } }

theorem takeUnit_meets (h : unit.ready.map (·.seqNum) = sns) :
    Meets (Pushes (q.setUnit tid unit) · sns) Apart (q.takeUnit tid unit) := by
  unfold takeUnit
  rw [h]
  exact foldlM_pushReady_meets sns

section Operands

def waits (q : InstructionQueue σ) (marked : List Nat) (operand : Nat × Nat) : Bool :=
  operand.2 ∉ marked ∧ operand.1 < q.numPhysRegs ∧ q.regScoreboard operand.1 = false

def arrived (q : InstructionQueue σ) (marked : List Nat) (operand : Nat × Nat) : Bool :=
  operand.2 ∉ marked ∧ operand.1 < q.numPhysRegs ∧ q.regScoreboard operand.1 = true

/-- The new instruction is put into the chains of the operands that wait, and the other
operands that are tracked are marked. -/
structure Linked (q q' : InstructionQueue σ) (sn : Nat) (operands : List (Nat × Nat)) : Prop where
  same : q' = { q with insts := update q.insts sn (q'.insts sn), dependGraph := q'.dependGraph }
  chain : ∀ reg, q'.dependGraph reg = List.replicate
    (operands.countP fun o => q.waits (q.insts sn).readySrcRegIdx o && decide (o.1 = reg))
      sn ++ q.dependGraph reg
  inst : q'.insts sn = { q.insts sn with
    readySrcRegIdx := (q'.insts sn).readySrcRegIdx, readyRegs := (q'.insts sn).readyRegs
    canIssue := (q'.insts sn).canIssue }
  marked : ∀ idx, idx ∈ (q'.insts sn).readySrcRegIdx ↔
    idx ∈ (q.insts sn).readySrcRegIdx ∨ ∃ o ∈ operands, o.2 = idx ∧
      q.arrived (q.insts sn).readySrcRegIdx o = true
  accounted : (q'.insts sn).Accounted

theorem addOperand_linked (hmem : o ∈ (q.insts sn).srcRegs.zipIdx)
    (haccounted : (q.insts sn).Accounted) :
    Linked q (addOperand sn q o) sn [o] := by
  unfold addOperand
  split_ifs with hmarked htracked hboard
  · exact ⟨by simp, by simp [waits, hmarked], rfl, by simp [arrived, hmarked], haccounted⟩
  · exact ⟨by simp, by simp [waits, not_lt.mpr htracked],
      rfl, by simp [arrived, not_lt.mpr htracked], haccounted⟩
  · refine ⟨by simp [setChain], fun reg => ?_, rfl, by simp_all [arrived, setChain], haccounted⟩
    by_cases hreg : o.1 = reg
    · subst hreg
      simp_all [waits, setChain]
    · simp [setChain, hreg, Ne.symm hreg]
  · have hself : (q.setInst sn ((q.insts sn).markSrcRegReady o.2)).insts sn =
        (q.insts sn).markSrcRegReady o.2 :=
      update_self ..
    refine ⟨by simp [setInst], by simp_all [waits, setInst], ?_, fun idx => ?_, ?_⟩ <;> rw [hself]
    · rfl
    · have harrived : q.arrived (q.insts sn).readySrcRegIdx o = true := by simp_all [arrived]
      rw [exists_mem_cons_iff, and_iff_left harrived]
      simp [DynInst.markSrcRegReady, DynInst.countReady, or_comm, @eq_comm _ idx]
    · exact haccounted.mark hmem hmarked

theorem Linked.cons (hne : ∀ p ∈ operands, p.2 ≠ o.2) (h : Linked q q' sn [o])
    (h' : Linked q' q'' sn operands) :
    Linked q q'' sn (o :: operands) := by
  have hidx : ∀ p ∈ operands, p.2 ∈ (q'.insts sn).readySrcRegIdx ↔
      p.2 ∈ (q.insts sn).readySrcRegIdx := by
    intro p hp
    simp [h.marked, Ne.symm (hne p hp)]
  have hnum : q'.numPhysRegs = q.numPhysRegs := by rw [h.same]
  have hboard : q'.regScoreboard = q.regScoreboard := by rw [h.same]
  refine ⟨?_, fun reg => ?_, ?_, fun idx => ?_, h'.accounted⟩
  · rw [h'.same, h.same]
    simp
  · have hwaits : operands.countP (fun p => q'.waits (q'.insts sn).readySrcRegIdx p &&
      decide (p.1 = reg)) =
        operands.countP (fun p => q.waits (q.insts sn).readySrcRegIdx p && decide (p.1 = reg)) :=
      countP_congr fun p hp => by simp [waits, hidx p hp, hnum, hboard]
    rw [h'.chain, h.chain, hwaits, ← append_assoc, replicate_append_replicate,
      Nat.add_comm, ← countP_append]
    rfl
  · rw [h'.inst, h.inst]
  · have harrived : ∀ p ∈ operands, q'.arrived (q'.insts sn).readySrcRegIdx p =
        q.arrived (q.insts sn).readySrcRegIdx p :=
      fun p hp => by simp [arrived, hidx p hp, hnum, hboard]
    rw [h'.marked, h.marked, or_assoc]
    simp only [mem_cons, not_mem_nil, or_false, or_and_right, exists_or, exists_eq_left]
    refine or_congr_right (or_congr_right (exists_congr fun p => and_congr_right fun hp => ?_))
    rw [harrived p hp]

theorem foldl_addOperand_linked (hnodup : (operands.map Prod.snd).Nodup)
    (hsub : ∀ o ∈ operands, o ∈ (q.insts sn).srcRegs.zipIdx) (haccounted : (q.insts sn).Accounted) :
    Linked q (operands.foldl (addOperand sn) q) sn operands := by
  induction operands generalizing q with
  | nil => exact ⟨by simp, fun _ => by simp, by simp, fun _ => by simp, haccounted⟩
  | cons o operands ih =>
    rw [map_cons, nodup_cons] at hnodup
    have hfirst := addOperand_linked (hsub o mem_cons_self) haccounted
    refine hfirst.cons (fun p hp heq => hnodup.1 (heq ▸ mem_map_of_mem hp))
      (ih hnodup.2 (fun p hp => ?_) hfirst.accounted)
    rw [hfirst.inst]
    exact hsub p (mem_cons_of_mem _ hp)

theorem addToDependents_linked (haccounted : (q.insts sn).Accounted) :
    Linked q (q.addToDependents sn) sn (q.insts sn).srcRegs.zipIdx := by
  refine foldl_addOperand_linked ?_ (fun _ => id) haccounted
  rw [zipIdx_map_snd]
  exact nodup_range'

theorem foldlM_addProducer_eq {dests : List Nat}
    (h : ∀ reg ∈ dests, reg < q.numPhysRegs → q.dependGraph reg = []) :
    dests.foldlM addProducer q = .ok { q with
      regScoreboard := fun reg => if reg ∈ dests ∧ reg < q.numPhysRegs then false
      else q.regScoreboard reg } := by
  induction dests generalizing q with
  | nil => simp
  | cons dest dests ih =>
    have hrest := fun reg hreg => h reg (mem_cons_of_mem _ hreg)
    rw [foldlM_cons, addProducer]
    split
    · rename_i hmisc
      rw [show (pure q : Chk _) = .ok q from rfl, ok_bind, ih hrest]
      congr 2
      funext reg
      by_cases hreg : reg = dest
      · subst hreg; simp [not_lt.mpr hmisc]
      · simp [hreg]
    · rename_i htracked
      rw [h dest mem_cons_self (not_le.mp htracked)]
      have hset : (refuse (!([] : List Nat).isEmpty)
        (.panic s!"Dependency graph {dest} not empty!") >>= fun _ =>
          pure { q with regScoreboard := update q.regScoreboard dest false } : Chk
          (InstructionQueue σ)) =
          .ok { q with regScoreboard := update q.regScoreboard dest false } := rfl
      rw [hset, ok_bind, ih (q := { q with regScoreboard := update q.regScoreboard dest false }) hrest]
      congr 2
      funext reg
      by_cases hreg : reg = dest
      · subst hreg; simp [not_le.mp htracked]
      · simp [hreg]

def produce (q : InstructionQueue σ) (sn : Nat) : InstructionQueue σ :=
  { q with regScoreboard := fun reg =>
    if reg ∈ (q.insts sn).destRegs ∧ reg < q.numPhysRegs then false else q.regScoreboard reg }

theorem addToProducers_eq
    (h : ∀ reg ∈ (q.insts sn).destRegs, reg < q.numPhysRegs → q.dependGraph reg = []) :
    q.addToProducers sn = .ok (q.produce sn) :=
  foldlM_addProducer_eq h

theorem removeOperand_eq (hwaits : o.2 ∉ (q.insts sn).readySrcRegIdx ∧ o.1 < q.numPhysRegs)
    (hchain : q.dependGraph o.1 = [] ∨ sn ∈ q.dependGraph o.1) :
    removeOperand sn q o = .ok (q.setChain o.1 ((q.dependGraph o.1).erase sn)) := by
  rw [removeOperand, if_pos hwaits, removeDependent]
  rcases hchain with hempty | hmem
  · have hsame : q.setChain o.1 (q.dependGraph o.1) = q := by simp [setChain]
    rw [hempty] at hsame ⊢
    rw [erase_nil, hsame]
    rfl
  · rw [if_neg (by simpa using ne_nil_of_mem hmem), ensure_of (decide_eq_true hmem)]
    rfl

theorem foldlM_removeOperand_eq {operands : List (Nat × Nat)}
    (h : ∀ reg < q.numPhysRegs, q.dependGraph reg = [] ∨
      operands.countP (fun o => o.1 = reg ∧ o.2 ∉ (q.insts sn).readySrcRegIdx) ≤
      (q.dependGraph reg).count sn) :
    ∃ chains, operands.foldlM (removeOperand sn) q = .ok { q with dependGraph := chains } ∧
      ∀ reg n, (chains reg).count n = (q.dependGraph reg).count n -
        if reg < q.numPhysRegs ∧ n = sn then
          operands.countP (fun o => o.1 = reg ∧ o.2 ∉ (q.insts sn).readySrcRegIdx) else 0 := by
  induction operands generalizing q with
  | nil => exact ⟨q.dependGraph, rfl, by simp⟩
  | cons o operands ih =>
    rw [foldlM_cons]
    have hrest := fun reg hreg => (h reg hreg).imp_right (countP_cons ▸ Nat.le_add_right ..).trans
    by_cases hwaits : o.2 ∉ (q.insts sn).readySrcRegIdx ∧ o.1 < q.numPhysRegs
    · have hthis := h o.1 hwaits.2
      rw [countP_cons_of_pos (by simp [hwaits.1])] at hthis
      rw [removeOperand_eq hwaits (hthis.imp_right fun hle =>
        count_pos_iff.mp (Nat.zero_lt_of_lt hle)), ok_bind]
      have hself : (q.setChain o.1 ((q.dependGraph o.1).erase sn)).dependGraph o.1 =
          (q.dependGraph o.1).erase sn :=
        update_self ..
      have hne : ∀ reg, reg ≠ o.1 →
          (q.setChain o.1 ((q.dependGraph o.1).erase sn)).dependGraph reg = q.dependGraph reg :=
        fun reg hreg => update_of_ne hreg ..
      obtain ⟨chains, hok, hcount⟩ := ih (q := q.setChain o.1 ((q.dependGraph o.1).erase sn))
        fun reg hreg => by
        by_cases hro : reg = o.1
        · subst hro
          rw [hself, count_erase_self]
          exact hthis.imp (fun hempty => by rw [hempty]; rfl) Nat.le_sub_of_add_le
        · rw [hne reg hro]
          exact hrest reg hreg
      refine ⟨chains, hok, fun reg n => ?_⟩
      rw [hcount]
      by_cases hro : reg = o.1
      · subst hro
        rw [hself, countP_cons_of_pos (by simp [hwaits.1])]
        by_cases hn : n = sn
        · subst hn
          rw [count_erase_self, if_pos ⟨hwaits.2, rfl⟩, if_pos ⟨hwaits.2, rfl⟩,
            Nat.sub_sub, Nat.add_comm 1]
          rfl
        · rw [count_erase_of_ne hn]
          simp [hn]
      · rw [hne reg hro, countP_cons_of_neg (by simp [Ne.symm hro])]
        rfl
    · rw [removeOperand, if_neg hwaits]
      obtain ⟨chains, hok, hcount⟩ := ih (q := q) hrest
      refine ⟨chains, hok, fun reg n => ?_⟩
      rw [hcount]
      by_cases hreg : reg < q.numPhysRegs ∧ n = sn
      · rw [if_pos hreg, if_pos hreg, countP_cons_of_neg]
        simp only [decide_eq_true_eq]
        rintro ⟨rfl, hnot⟩
        exact hwaits ⟨hnot, hreg.1⟩
      · rw [if_neg hreg, if_neg hreg]

end Operands

end InstructionQueue

end Gem5
