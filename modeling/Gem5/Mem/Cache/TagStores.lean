import Gem5.Lib.Loop
import Gem5.Mem.Cache.StoreSteps
import Gem5.Mem.Cache.Tags.FALRU
import Gem5.Mem.Cache.Tags.IIC

/-!
# The tag stores behave

None of the stores fails with an assertion of the miss path, and the two that keep
to one order of use hand over no writebacks of their own.
-/

namespace Gem5

open Lib Meets

variable {E : Fault → Prop}

theorem CacheSet.shift_meets (hE : Mild E)
    (ht : ¬ MissPath.PathFault (.assertion text) ∧ Fault.assertion text ≠ tempFault) :
    Meets (fun _ => True) E (shift text blk next l) := by
  induction l generalizing next with
  | nil => exact hE _ ht.1 ht.2
  | cons b bs ih =>
    unfold shift
    split
    · exact trivial
    · exact ih.bind fun _ _ => trivial

theorem CacheSet.moveToHead_meets (hE : Mild E) :
    Meets (fun _ => True) E (moveToHead l blk) := by
  unfold moveToHead
  split
  · exact trivial
  · exact shift_meets hE (by simp [MissPath.PathFault, tempFault])

theorem CacheSet.moveToTail_meets (hE : Mild E) :
    Meets (fun _ => True) E (moveToTail l blk) := by
  unfold moveToTail
  split
  · exact trivial
  · exact (shift_meets hE (by simp [MissPath.PathFault, tempFault])).bind fun _ _ => trivial

theorem LRU.behaves (hE : Mild E) : TagStore.Behaves LRU E True where
  accessBlock t now addr := by
    change Meets _ E (t.accessBlock now addr)
    unfold accessBlock
    split
    · exact trivial
    · exact (CacheSet.moveToHead_meets hE).bind fun _ _ => trivial
  findBlock t addr := trivial
  findVictim t now addr := by
    refine (Meets.need (hE.pass rfl)).bind fun b _ => ?_
    exact ⟨by simp, fun _ => rfl⟩
  insertBlock t now addr b master := by
    refine Meets.bind (P := fun _ => True) ?_ fun t _ => ?_
    · unfold countReplaced
      dsimp only
      split
      · exact hE.guard rfl fun _ => trivial
      · exact trivial
    · refine hE.guard rfl fun _ => ?_
      exact (CacheSet.moveToHead_meets hE).bind fun _ _ => trivial
  invalidate t b := by
    refine hE.guard rfl fun _ => ?_
    refine hE.guard rfl fun _ => ?_
    exact (CacheSet.moveToTail_meets hE).bind fun _ _ => trivial

namespace FALRU

variable {t : FALRU} (hE : Mild E)
include hE

theorem shiftBoundary_meets : Meets (fun _ => True) E (shiftBoundary b mask t i) := by
  unfold shiftBoundary
  split
  · exact (Meets.need (hE.pass rfl)).bind fun _ _ => trivial
  · split <;> exact trivial

theorem unlink_meets : Meets (fun _ => True) E (t.unlink b) := by
  unfold unlink
  split
  · refine hE.guard rfl fun _ => ?_
    exact (Meets.need (hE.pass rfl)).bind fun _ _ => trivial
  · refine (Meets.need (hE.pass rfl)).bind fun _ _ => ?_
    exact (Meets.need (hE.pass rfl)).bind fun _ _ => trivial

theorem moveToHead_meets : Meets (fun _ => True) E (t.moveToHead b) := by
  refine (forRange (P := fun _ _ => True) (fun _ _ _ _ => shiftBoundary_meets hE) trivial).bind
    fun t _ => ?_
  dsimp only
  split
  · exact trivial
  · exact (unlink_meets hE).bind fun _ _ => trivial

theorem lookup_meets : Meets (fun _ => True) E (t.lookup addr) := by
  unfold lookup
  dsimp only
  split
  · exact trivial
  · split
    · exact hE.guard rfl fun _ => trivial
    · exact trivial

theorem behaves : TagStore.Behaves FALRU E True where
  accessBlock t now addr := by
    refine .bind (P := fun _ => True) ?_ fun _ _ => trivial
    refine (lookup_meets hE).bind fun found _ => ?_
    split
    · exact trivial
    · refine .bind (P := fun _ => True) ?_ fun _ _ => trivial
      unfold touch
      split
      · exact trivial
      · exact moveToHead_meets hE
  findBlock t addr := lookup_meets hE
  findVictim t now addr := by
    refine .bind (P := fun _ => True) ?_ fun _ _ => ⟨by simp, fun _ => rfl⟩
    refine hE.guard rfl fun _ => ?_
    exact (moveToHead_meets hE).bind fun _ _ => trivial
  insertBlock t now addr b master := trivial
  invalidate t b := trivial

end FALRU

namespace IIC

variable {t : IIC} {wbs : List Packet}

def Writebacks (wbs : List Packet) : Prop := ∀ pkt ∈ wbs, pkt.cmd = .writeback

theorem freeReplacementBlock_writebacks (hw : Writebacks wbs) :
    Meets (fun a => Writebacks a.2) (fun _ => True) (t.freeReplacementBlock wbs) := by
  refine any.bind fun a _ => any.bind fun _ _ => any.bind fun _ _ => any.bind fun _ _ => ?_
  refine .pure ?_
  split
  · intro pkt hpkt
    rcases List.mem_append.mp hpkt with hpkt | hpkt
    · exact hw pkt hpkt
    · rw [List.mem_singleton.mp hpkt]
      rfl
  · exact hw

theorem freeUntil_writebacks (hw : Writebacks wbs) :
    Meets (fun a => Writebacks a.2) (fun _ => True) (freeUntil enough n t wbs) := by
  induction n generalizing t wbs with
  | zero => exact trivial
  | succ n ih => exact .ite (fun _ => hw) fun _ =>
      (freeReplacementBlock_writebacks hw).bind fun _ ha => ih ha

theorem getFreeDataBlocks_writebacks (hw : Writebacks wbs) :
    Meets (fun a => Writebacks a.2.1) (fun _ => True) (getFreeDataBlocks n t wbs) := by
  induction n generalizing t wbs with
  | zero => exact hw
  | succ n ih =>
    refine .bind (P := fun a => Writebacks a.2.1) ?_ fun ⟨_, _, _⟩ ha => ?_
    · exact (freeUntil_writebacks hw).bind fun _ ha => any.bind fun _ _ => ha
    · exact any.bind fun _ _ => (ih ha).bind fun _ hb => hb

theorem getFreeTag_writebacks (hw : Writebacks wbs) (set : Nat) :
    Meets (fun a => Writebacks a.2.1) (fun _ => True) (t.getFreeTag set wbs) := by
  unfold getFreeTag
  split
  · exact hw
  · exact (freeUntil_writebacks hw).bind fun _ ha => any.bind fun _ _ => any.bind fun _ _ => ha

theorem behaves : TagStore.Behaves IIC (fun _ => True) False where
  accessBlock _ _ _ := any
  findBlock _ _ := any
  findVictim t _ addr := by
    refine (getFreeDataBlocks_writebacks (List.forall_mem_nil _)).bind fun ⟨_, _, _⟩ ha => ?_
    refine (getFreeTag_writebacks ha _).bind fun ⟨_, _, _⟩ hb => ?_
    exact any.bind fun _ _ => any.bind fun _ _ => any.bind fun _ _ => ⟨hb, False.elim⟩
  insertBlock _ _ _ _ _ := trivial
  invalidate _ _ := any

end IIC

end Gem5
