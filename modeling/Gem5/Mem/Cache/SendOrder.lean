import Gem5.Mem.Cache.TagStores
import Gem5.Mem.Cache.TimingRun

/-!
# The order in which conflicting requests are sent
-/

namespace Gem5

open Lib MissPath Cache

namespace MissPath

variable {p : MissPath} {now : Nat} {r r' : MSHRRef}

def Overlap (addr size addr' size' : Nat) : Prop := addr < addr' + size' ∧ addr' < addr + size

instance : Decidable (Overlap addr size addr' size') := inferInstanceAs (Decidable (_ ∧ _))

def conflicts (addr size : Nat) (m : MSHR) : Bool :=
  if m.addr < addr then m.addr + m.size > addr else addr + size > m.addr

theorem Overlap.conflict {m m' : MSHR} (h : Overlap m.addr m.size m'.addr m'.size) :
    conflicts m.addr m.size m' = true ∧ conflicts m'.addr m'.size m = true := by
  unfold conflicts
  obtain ⟨h, h'⟩ := h
  constructor <;> split <;> exact decide_eq_true ‹_›

/-- An older request of the other queue to bytes of this one is still to be sent. -/
def Overtakes (p : MissPath) (r r' : MSHRRef) : Prop :=
  Pending p r' ∧ r'.queue ≠ r.queue ∧ (p.register r').order < (p.register r).order ∧
    Overlap (p.register r).addr (p.register r).size (p.register r').addr (p.register r').size

instance : Decidable (Overtakes p r r') := by unfold Overtakes Pending Live; infer_instance

theorem mem_ready (h : p.Inv) (hr : Pending p r) : r.index ∈ (p.queue r.queue).readyList.values := by
  obtain ⟨hist, hq, hbook⟩ := (h.good r.queue).book
  rw [← hq, hbook.ready, hq]
  exact hr

theorem nextPending_inTurn (h : p.Inv) (hr : p.nextPending now = some r)
    (hturn : ∀ j ∈ p.writeBuffer.readyList.values, ∀ i ∈ p.mshrQueue.readyList.values,
      conflicts (p.writeBuffer.registers j).addr (p.writeBuffer.registers j).size
      (p.mshrQueue.registers i) = true →
        (p.writeBuffer.registers j).order < (p.mshrQueue.registers i).order ∧
        (p.writeBuffer.getNextMSHR now).isSome = true) :
    ¬ Overtakes p r r' := by
  rintro ⟨hpending, hqueue, horder, hoverlap⟩
  have hready := mem_ready h (pending_of_nextPending h hr)
  have hready' := mem_ready h hpending
  obtain ⟨hconflict, hconflict'⟩ := hoverlap.conflict
  obtain ⟨ix, i⟩ := r
  obtain ⟨iy, j⟩ := r'
  cases ix <;> cases iy <;> simp only [ne_eq, not_true_eq_false] at hqueue
  · -- A miss goes first only if no write is ready, or none conflicts.
    have hsome := (hturn j hready' i hready hconflict').2
    unfold nextPending at hr
    split at hr
    · rename_i hnone
      simp [hnone] at hsome
    · cases hr
    · rename_i write hmiss hwrite
      unfold chooseMSHR at hr
      simp only [Option.some.injEq] at hr
      split at hr <;> split at hr <;> cases hr
      · rename_i hfind
        obtain ⟨hfind, hlt⟩ := Option.filter_eq_some_iff.mp hfind
        have hhead := List.mem_of_mem_head? (Option.eq_some_of_filter_eq_some hwrite)
        have htaken := List.find?_some hfind
        have hbefore := (hturn write hhead i hready htaken).1
        exact lt_asymm hbefore (of_decide_eq_true hlt)
      · rename_i hfind
        have hno := List.find?_eq_none.mp hfind j hready'
        exact hno hconflict
    · cases hr
  · exact lt_asymm horder (hturn i hready j hready' hconflict).1

theorem allocateMiss_inTurn {addr size time : Nat} {pkt : Packet} {p' : MissPath} (h : p.Inv)
    (ha : p.allocateBufferInternal now .mshrs addr size pkt time = .ok (p', r))
    (hfree : ∀ j ∈ p.writeBuffer.readyList.values,
      ¬ Overlap addr size (p.writeBuffer.registers j).addr
      (p.writeBuffer.registers j).size) : ¬ Overtakes p' r r' := by
  rintro ⟨hpending, hqueue, -, hoverlap⟩
  obtain ⟨hinv, honly, -, hix, -⟩ :=
    (allocateBufferInternal_meets (E := fun _ => True) h (.inl trivial)).result ha
  have hready := mem_ready hinv hpending
  simp only [allocateBufferInternal, bind_eq_ok, pure_eq_ok] at ha
  obtain ⟨⟨q, i⟩, hq, p₁, hfull, ha⟩ := ha
  cases ha
  have hself : p'.mshrQueue = q := by
    unfold blockIfFull setBlocked at hfull
    split at hfull
    · split at hfull
      · cases hfull; rfl
      · replace hfull := of_guard hfull
        cases hfull; rfl
    · cases hfull; rfl
  obtain ⟨m, _, _, hm, hregs, -⟩ := MSHRHistory.allocate_eq hq
  simp only [MSHR.allocate, bind_eq_ok, pure_eq_ok] at hm
  obtain ⟨_, -, _, -, rfl⟩ := hm
  obtain ⟨iy, j⟩ := r'
  cases iy
  · exact hqueue rfl
  · have hwrites : p'.writeBuffer = p.writeBuffer := honly.queue .writeBuffer (by simp)
    simp only [register, queue, hself, hregs, hwrites, Function.update_self] at hoverlap hready
    exact hfree j hready hoverlap

end MissPath

namespace CacheWorld

variable {σ : Type} [TagStore σ] {c : Cache σ} {quiet : Prop} {now : Nat}
  {offer : Option Packet} {r : MSHRRef}

/-- The writes that wait came before the misses they conflict with and can be sent, and
none has bytes of the block that would be prefetched. -/
def InTurn (c : Cache σ) (now : Nat) (offer : Option Packet) : Prop :=
  ∀ j ∈ c.path.writeBuffer.readyList.values,
    let write := c.path.writeBuffer.registers j
    (∀ i ∈ c.path.mshrQueue.readyList.values,
      conflicts write.addr write.size (c.path.mshrQueue.registers i) = true →
      write.order < (c.path.mshrQueue.registers i).order ∧
      (c.path.writeBuffer.getNextMSHR now).isSome = true) ∧
    ∀ pkt ∈ offer, ¬ Overlap (c.params.blockAlign pkt.addr) c.params.blkSize write.addr write.size

instance : Decidable (InTurn c now offer) := inferInstanceAs (Decidable (∀ _ ∈ _, _ ∧ _))

def sampleUncached (id : Nat) (cmd : MemCmd) : Packet :=
  { sampleRequest id cmd 0 with req := { paddr := 0, size := 4, uncacheable := true } }

end CacheWorld

end Gem5
