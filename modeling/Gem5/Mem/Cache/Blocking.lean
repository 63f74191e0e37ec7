import Gem5.Mem.Cache.TagStores
import Gem5.Mem.Cache.TimingRun

/-!
# The reserve of the write buffer

The cache takes no more requests once the write buffer is full, but the responses
to those it took may still bring writebacks. Each register answers for one, and
for another one if it has deferred targets; what is in the write buffer and what
the registers answer for together is the load of the miss path.
-/

namespace Gem5

open Lib MissPath Nat
open List hiding drop

namespace MissPath

variable {p p' : MissPath} {r : MSHRRef} {ix : MSHRQueueIndex} {i : Nat}

def burden (m : MSHR) : List Unit := () :: if m.deferredTargets.list = [] then [] else [()]

def load (p : MissPath) : Nat := p.writeBuffer.live.length + (p.mshrQueue.gather burden).length

def Settled (p : MissPath) : Prop :=
  ∀ i ∈ p.writeBuffer.live, (p.writeBuffer.registers i).deferredTargets.list = []

theorem burden_of_empty (h : m.deferredTargets.list = []) : burden m = [()] := by
  rw [burden, if_pos h]

theorem burden_of_deferred (h : m.deferredTargets.list ≠ []) : burden m = [(), ()] := by
  rw [burden, if_neg h]

theorem length_burden_le (m : MSHR) : (burden m).length ≤ 2 := by
  unfold burden
  split <;> simp

theorem length_burden_mono
    (h : m'.deferredTargets.list.length ≤ m.deferredTargets.list.length) :
    (burden m').length ≤ (burden m).length := by
  by_cases hm : m.deferredTargets.list = []
  · have hm' : m'.deferredTargets.list = [] := by simpa [hm] using h
    rw [burden_of_empty hm, burden_of_empty hm']
  · rw [burden_of_deferred hm]
    exact length_burden_le m'

theorem load_le (p : MissPath) : p.load ≤ p.writeBuffer.live.length + 2 * p.mshrQueue.live.length := by
  have hsum : (p.mshrQueue.gather burden).length ≤ 2 * p.mshrQueue.live.length := by
    rw [MSHRQueue.gather, length_flatMap, Nat.mul_comm]
    refine (sum_le_card_nsmul _ 2 ?_).trans (by simp)
    simp only [mem_map]
    rintro _ ⟨i, -, rfl⟩
    exact length_burden_le _
  exact Nat.add_le_add_left hsum _

theorem load_of_changed (h : p.Inv) (hr : p.Live r)
    (hother : ∀ iy, iy ≠ r.queue → p'.queue iy = p.queue iy)
    (hself : (p.queue r.queue).Changed (p'.queue r.queue) r.index)
    (hle : (burden (p'.register r)).length ≤ (burden (p.register r)).length + k) :
    p'.load ≤ p.load + k := by
  obtain ⟨_ | _, i⟩ := r
  · have hwb : p'.writeBuffer = p.writeBuffer := hother .writeBuffer nofun
    obtain ⟨rest, hq, hq'⟩ := hself.gather (h.good .mshrs).nodup hr (f := burden)
    have hlen := hq.length_eq
    have hlen' := hq'.length_eq
    simp only [length_append] at hlen hlen'
    change (burden (p'.mshrQueue.registers i)).length ≤
      (burden (p.mshrQueue.registers i)).length + k at hle
    change (p.mshrQueue.gather burden).length = (burden (p.mshrQueue.registers i)).length + _ at hlen
    change (p'.mshrQueue.gather burden).length =
      (burden (p'.mshrQueue.registers i)).length + _ at hlen'
    rw [load, load, hwb]
    omega
  · have hmshrs : p'.mshrQueue = p.mshrQueue := hother .mshrs nofun
    have hlive : p'.writeBuffer.live = p.writeBuffer.live := hself.live
    rw [load, load, hmshrs, hlive]
    exact le_add_right _ _

theorem load_of_taken (h : p.Inv) (hother : ∀ iy, iy ≠ ix → p'.queue iy = p.queue iy)
    (hself : (p.queue ix).Taken (p'.queue ix) i)
    (hfresh : ((p'.queue ix).registers i).deferredTargets.list = []) : p'.load = p.load + 1 := by
  have hnot : i ∉ (p.queue ix).live := (h.good ix).not_live (hself.free ▸ mem_cons_self)
  cases ix with
  | mshrs =>
    have hwb : p'.writeBuffer = p.writeBuffer := hother .writeBuffer nofun
    have hgather : p'.mshrQueue.gather burden = p.mshrQueue.gather burden ++
        burden (p'.mshrQueue.registers i) :=
      hself.gather hnot
    have hone : burden (p'.mshrQueue.registers i) = [()] := burden_of_empty hfresh
    rw [load, load, hwb, hgather, hone, length_append, length_singleton, add_assoc]
  | writeBuffer =>
    have hmshrs : p'.mshrQueue = p.mshrQueue := hother .mshrs nofun
    have hlive : p'.writeBuffer.live = p.writeBuffer.live ++ [i] := hself.live
    rw [load, load, hmshrs, hlive, length_append, length_singleton, add_right_comm]

theorem load_of_freed (h : p.Inv) (hr : p.Live r)
    (hother : ∀ iy, iy ≠ r.queue → p'.queue iy = p.queue iy)
    (hself : (p.queue r.queue).Freed (p'.queue r.queue) r.index) : p'.load + 1 ≤ p.load := by
  obtain ⟨_ | _, i⟩ := r
  · have hwb : p'.writeBuffer = p.writeBuffer := hother .writeBuffer nofun
    have hlen := (hself.gather (h.good .mshrs).nodup hr (f := burden)).length_eq
    change (p.mshrQueue.gather burden).length = _ at hlen
    rw [length_append] at hlen
    change _ = (burden (p.mshrQueue.registers i)).length + (p'.mshrQueue.gather burden).length at hlen
    have hpos : 0 < (burden (p.mshrQueue.registers i)).length := zero_lt_succ _
    rw [load, load, hwb]
    omega
  · have hmshrs : p'.mshrQueue = p.mshrQueue := hother .mshrs nofun
    have hlive : p'.writeBuffer.live = p.writeBuffer.live.erase i := hself.live
    have hlen := length_erase_of_mem hr
    have hpos : 0 < p.writeBuffer.live.length := length_pos_of_mem hr
    change (p.writeBuffer.live.erase i).length = p.writeBuffer.live.length - 1 at hlen
    rw [load, load, hmshrs, hlive]
    omega

theorem Settled.update (h : p.Settled) (helse : Elsewhere r p p')
    (hself : r.queue = .writeBuffer → (p'.register r).deferredTargets.list = []) : p'.Settled := by
  intro i hi
  by_cases hr : (⟨.writeBuffer, i⟩ : MSHRRef) = r
  · subst hr
    exact hself rfl
  · obtain ⟨hlive, hreg⟩ := helse ⟨.writeBuffer, i⟩ hr hi
    exact (congrArg (fun m => m.deferredTargets.list) hreg).trans (h i hlive)

def rise : PathOp → Nat
  | .enqueue .. | .join .. => 1
  | _ => 0

def drop : PathOp → Nat
  | .retire .. => 1
  | _ => 0

theorem step_load (h : p.Inv) (hset : p.Settled) (hs : p.Step op p') :
    p'.Settled ∧ p'.load + drop op ≤ p.load + rise op := by
  have halike : ∀ r, p.Live r → (∀ iy, iy ≠ r.queue → p'.queue iy = p.queue iy) →
      (p.queue r.queue).Changed (p'.queue r.queue) r.index →
      (p'.register r).deferredTargets.list.length ≤ (p.register r).deferredTargets.list.length →
      p'.Settled ∧ p'.load ≤ p.load := by
    intro r hr hother hself hdef
    refine ⟨hset.update (elsewhere_of_changed hother hself) fun hq => ?_,
      load_of_changed (k := 0) h hr hother hself (length_burden_mono hdef)⟩
    obtain ⟨_, i⟩ := r
    cases hq
    have hnil : (p.register ⟨.writeBuffer, i⟩).deferredTargets.list = [] := hset i hr
    simpa [hnil] using hdef
  have hfree : ∀ r, p.Live r → (∀ iy, iy ≠ r.queue → p'.queue iy = p.queue iy) →
      (p.queue r.queue).Freed (p'.queue r.queue) r.index → p'.Settled ∧ p'.load + 1 ≤ p.load := by
    intro r hr hother hself
    refine ⟨fun i hi => ?_, load_of_freed h hr hother hself⟩
    have hne : (⟨.writeBuffer, i⟩ : MSHRRef) ≠ r := by
      rintro rfl
      exact not_live_of_freed h hself hi
    obtain ⟨hlive, hreg⟩ := elsewhere_of_freed hother hself ⟨.writeBuffer, i⟩ hne hi
    exact (congrArg (fun m => m.deferredTargets.list) hreg).trans (hset i hlive)
  obtain ⟨hallow, -⟩ := id hs
  obtain ⟨-, heffect⟩ := step_spec h hs
  cases op with
  | answer pkt time | refuse =>
    cases heffect
    exact ⟨hset, le_refl _⟩
  | enqueue now ix addr size pkt time =>
    obtain ⟨honly, -, i, htaken, hfresh⟩ := heffect
    exact ⟨hset.update (elsewhere_of_taken honly.queue htaken) fun _ => hfresh.deferred,
      (load_of_taken h honly.queue htaken hfresh.deferred).le⟩
  | join numTarget now i pkt time =>
    obtain ⟨honly, hchanged, -⟩ := heffect
    refine ⟨hset.update (r := ⟨.mshrs, i⟩) (elsewhere_of_changed honly.queue hchanged) nofun,
      load_of_changed (r := ⟨.mshrs, i⟩) h hallow honly.queue hchanged ?_⟩
    exact (length_burden_le _).trans (succ_le_succ (zero_lt_succ _))
  | snoop now i pkt =>
    obtain ⟨honly, hchanged, -, hsame, -⟩ := heffect
    exact halike ⟨.mshrs, i⟩ hallow honly.queue hchanged hsame.deferred
  | release r =>
    obtain ⟨hqueue, -⟩ := heffect
    have hwb : p'.writeBuffer = p.writeBuffer := hqueue .writeBuffer
    have hmshrs : p'.mshrQueue = p.mshrQueue := hqueue .mshrs
    rw [Settled, load, load, hwb, hmshrs]
    exact ⟨hset, le_refl _⟩
  | absorb r pkt | forward r b | downstream r b =>
    obtain ⟨honly, hchanged, -, hsame, -⟩ := heffect
    exact halike r hallow honly.queue hchanged hsame.deferred
  | serve r response =>
    obtain ⟨hother, -, hchanged, -, -, hdef, -⟩ := heffect
    exact halike r hallow.1 hother hchanged (hdef ▸ le_refl _)
  | retire now wasFull r =>
    obtain ⟨honly, -, ⟨hfreed, -⟩ | ⟨hchanged, hpromoted⟩⟩ := heffect
    · exact hfree r hallow.1 honly.queue hfreed
    · refine ⟨hset.update (elsewhere_of_changed honly.queue hchanged) fun _ => hpromoted.promoted, ?_⟩
      obtain ⟨_ | _, i⟩ := r
      · have hwb : p'.writeBuffer = p.writeBuffer := honly.queue .writeBuffer nofun
        obtain ⟨rest, hq, hq'⟩ := hchanged.gather (h.good .mshrs).nodup hallow.1 (f := burden)
        have hlen : (p.mshrQueue.gather burden).length = _ := hq.length_eq
        have hlen' : (p'.mshrQueue.gather burden).length = _ := hq'.length_eq
        rw [length_append] at hlen hlen'
        have hold : burden ((p.queue .mshrs).registers i) = [(), ()] :=
          burden_of_deferred hpromoted.deferred
        have hnew : burden ((p'.queue .mshrs).registers i) = [()] := burden_of_empty hpromoted.promoted
        rw [hold] at hlen
        rw [hnew] at hlen'
        simp only [length_cons, length_nil] at hlen hlen'
        change p'.load + 1 ≤ p.load
        rw [load, load, hwb]
        omega
      · exact absurd (hset i hallow.1) hpromoted.deferred
  | issue r pkt =>
    obtain ⟨honly, -, -, ⟨hfreed, -⟩ | ⟨hchanged, hissued⟩⟩ := heffect
    · obtain ⟨hset', hle⟩ := hfree r hallow honly.queue hfreed
      exact ⟨hset', le_of_succ_le hle⟩
    · exact halike r hallow honly.queue hchanged (by rw [hissued.deferred]; exact zero_le _)
  | amend i b =>
    obtain ⟨honly, hchanged, -, hsame, -⟩ := heffect
    exact halike ⟨.writeBuffer, i⟩ hallow honly.queue hchanged hsame.deferred

theorem run_load (hr : Runs Step p ops p') (h : p.Inv) (hset : p.Settled) :
    p'.Settled ∧ p'.load + (ops.map drop).sum ≤ p.load + (ops.map rise).sum := by
  obtain ⟨⟨-, hset'⟩, hle⟩ := hr.potential (P := fun p => p.Inv ∧ p.Settled) ⟨h, hset⟩
    fun p op p' ⟨h, hset⟩ hs => by
      obtain ⟨hset', hle⟩ := step_load h hset hs
      exact ⟨⟨(step_spec h hs).1, hset'⟩, hle⟩
  exact ⟨hset', hle⟩

theorem run_length (hr : Runs Step p ops p') (h : p.Inv) (ix : MSHRQueueIndex) :
    (p.queue ix).SameSize (p'.queue ix) ∧
      (p'.queue ix).live.length ≤ (p.queue ix).live.length + ops.countP (·.fills ix) := by
  induction hr with
  | nil => exact ⟨⟨rfl, rfl⟩, le_add_right _ _⟩
  | @snoc ops p1 op p2 hr hs ih =>
    obtain ⟨⟨hsize, hres⟩, hle⟩ := ih
    obtain ⟨-, heffect⟩ := step_spec (run_inv hr h) hs
    have hstep : (p1.queue ix).SameSize (p2.queue ix) ∧
        (p2.queue ix).live.length ≤ (p1.queue ix).live.length + if op.fills ix then 1 else 0 := by
      cases hop : op.fills ix with
      | false =>
        rcases heffect.queue_cases hop with hsame | ⟨i, hchanged | hfreed⟩
        · rw [hsame]
          exact ⟨⟨rfl, rfl⟩, le_add_right _ _⟩
        · exact ⟨hchanged.size, hchanged.live ▸ le_add_right _ _⟩
        · exact ⟨hfreed.size, hfreed.live ▸ length_erase_le.trans (le_add_right _ _)⟩
      | true =>
        cases op with
        | enqueue now iy addr size pkt time =>
          cases eq_of_beq hop
          obtain ⟨-, -, i, htaken, -⟩ := heffect
          exact ⟨htaken.size, by simp [htaken.live]⟩
        | _ => cases hop
    refine ⟨⟨hstep.1.1.trans hsize, hstep.1.2.trans hres⟩, ?_⟩
    rw [countP_append, countP_singleton]
    omega

theorem notFull_iff (h : p.Inv) (ix : MSHRQueueIndex) : (p.queue ix).isFull = false ↔
    (p.queue ix).live.length + (p.queue ix).numReserve ≤ (p.queue ix).numEntries := by
  rw [← Bool.not_eq_true, (h.good ix).isFull_iff]
  omega

def Balanced (ops : List PathOp) : Prop :=
  (ops.map rise).sum ≤ (ops.map drop).sum ∧ ∀ op ∈ ops, op.fills .mshrs = false

theorem balanced_of_plain (h : ∀ op ∈ ops, rise op = 0) : Balanced ops := by
  refine ⟨?_, fun op hop => ?_⟩
  · have hzero : (ops.map rise).sum = 0 := by
      refine sum_eq_zero ?_
      simp only [mem_map]
      rintro _ ⟨op, hop, rfl⟩
      exact h op hop
    rw [hzero]
    exact zero_le _
  · cases op with
    | enqueue => cases h _ hop
    | _ => rfl

theorem Balanced.append (h : Balanced ops) (h' : Balanced ops') :
    Balanced (ops ++ ops') := by
  refine ⟨?_, fun op hop => (mem_append.mp hop).elim (h.2 op) (h'.2 op)⟩
  simp only [map_append, sum_append_nat]
  exact Nat.add_le_add h.1 h'.1

theorem sum_rise_writebackOps :
    ((writebackOps now time pkts).map rise).sum = pkts.length ∧
      ∀ op ∈ writebackOps now time pkts, op.fills .mshrs = false := by
  constructor
  · induction pkts with
    | nil => rfl
    | cons pkt pkts ih =>
      change 1 + ((writebackOps now time pkts).map rise).sum = _
      rw [ih, length_cons, add_comm]
  · simp only [writebackOps, mem_map]
    rintro _ ⟨pkt, -, rfl⟩
    rfl

theorem balanced_response (h : Cache.Response True now r ops) : Balanced ops := by
  refine ⟨?_, h.fills⟩
  obtain ⟨serving, wasFull, time, pkts, rfl, hserving, hwb⟩ := h
  have hplain : Balanced serving := balanced_of_plain fun op hop => by
    rcases hserving op hop with rfl | ⟨pkt, rfl⟩ | ⟨response, rfl⟩ <;> rfl
  have hlen := hwb.2 trivial
  have hsum := hplain.1
  simp only [map_append, map_cons, sum_append_nat, sum_cons, sum_rise_writebackOps.1, rise, drop]
  omega

theorem balanced_sent (h : Cache.Sent True now r ops out) :
    Balanced ops := by
  cases h with
  | failed h => exact balanced_response h
  | above pkt | made b pkt => exact balanced_of_plain (by simp [rise])
  | passed pkt => exact balanced_of_plain (by simp)

theorem balanced_sending
    (h : Cache.Sending True now offer ops out) :
    ∃ first rest, ops = first ++ rest ∧ Cache.Prefetched now offer first ∧ Balanced rest := by
  cases h with
  | idle hpre => exact ⟨ops, [], by simp, hpre, balanced_of_plain (by simp)⟩
  | settled hpre hsent _ | refused hpre hsent => exact ⟨_, _, rfl, hpre, balanced_sent hsent⟩
  | issued pkt' hpre hsent =>
    exact ⟨_, _, append_assoc .., hpre,
      (balanced_sent hsent).append (balanced_of_plain (by simp [rise]))⟩

end MissPath

namespace CacheWorld

variable {σ : Type} {w w' : CacheWorld σ} {e : CacheEvent} {ops : List PathOp}

def Ample (w : CacheWorld σ) : Prop :=
  w.cache.path.writeBuffer.allocated + 2 * w.cache.path.mshrQueue.allocated + 3 ≤
    w.cache.path.writeBuffer.numEntries

/-- Requests and prefetches find room for what could come of them. With less than a
thousand registers, requests always do. -/
def Spacious (w : CacheWorld σ) : CacheEvent → Prop
  | .request .. => w.cache.path.mshrQueue.numEntries ≤ 1002 ∨ w.Ample
  | .send now offer _ _ _ _ => offer.isSome = true → w.cache.prefetches now = true → w.Ample
  | _ => True

instance (w : CacheWorld σ) : Decidable w.Ample := inferInstanceAs (Decidable (_ ≤ _))

instance (w : CacheWorld σ) (e : CacheEvent) : Decidable (w.Spacious e) := by
  rcases e <;> unfold Spacious <;> infer_instance

structure SaysWhy (w : CacheWorld σ) : Prop where
  noMSHRs : w.cache.path.blocked.noMSHRs = w.cache.path.mshrQueue.isFull
  noWBBuffers : w.cache.path.blocked.noWBBuffers = w.cache.path.writeBuffer.isFull
  noTargets : w.cache.path.blocked.noTargets = w.cache.path.noTargetMSHR.isSome
  port : w.cache.path.portBlocked = w.cache.path.blocked.any

structure Stocked (mshrs writeBuffers : Nat) (w : CacheWorld σ) : Prop where
  sizes : w.cache.path.mshrQueue.numEntries = mshrs + 3 ∧ w.cache.path.mshrQueue.numReserve = 4 ∧
    w.cache.path.writeBuffer.numEntries = writeBuffers + mshrs + 999 ∧
    w.cache.path.writeBuffer.numReserve = mshrs + 1000
  mshrs : w.cache.path.mshrQueue.live.length ≤ mshrs
  settled : w.cache.path.Settled
  load : w.cache.path.load < w.cache.path.writeBuffer.numEntries

theorem ample_iff (h : w.Sane) : w.Ample ↔ w.cache.path.writeBuffer.live.length +
    2 * w.cache.path.mshrQueue.live.length + 3 ≤ w.cache.path.writeBuffer.numEntries := by
  have hwb : w.cache.path.writeBuffer.allocated = w.cache.path.writeBuffer.live.length :=
    (h.path.good .writeBuffer).allocated
  have hmshrs : w.cache.path.mshrQueue.allocated = w.cache.path.mshrQueue.live.length :=
    (h.path.good .mshrs).allocated
  rw [Ample, hwb, hmshrs]
  omega

namespace Stocked

variable {mshrs writeBuffers : Nat}

variable (hst : w.Stocked mshrs writeBuffers) (h : w.Sane)
include hst h

theorem room (ix : MSHRQueueIndex) : (w.cache.path.queue ix).freeList ≠ [] := by
  suffices hlt : (w.cache.path.queue ix).live.length < (w.cache.path.queue ix).numEntries by
    have hlen := (h.path.good ix).length
    intro hnil
    rw [hnil, length_nil] at hlen
    omega
  cases ix with
  | mshrs =>
    have hle := hst.mshrs
    have hsize := hst.sizes.1
    change w.cache.path.mshrQueue.live.length < w.cache.path.mshrQueue.numEntries
    omega
  | writeBuffer => exact (le_add_right _ _).trans_lt hst.load

theorem ample (hm : mshrs ≤ 999) (hfull : ∀ ix, (w.cache.path.queue ix).isFull = false) : w.Ample := by
  have hmshrs := (notFull_iff h.path .mshrs).mp (hfull .mshrs)
  have hwb := (notFull_iff h.path .writeBuffer).mp (hfull .writeBuffer)
  obtain ⟨h1, h2, h3, h4⟩ := hst.sizes
  rw [ample_iff h]
  simp only [queue] at hmshrs hwb
  omega

theorem next (hr : w.cache.Reaches ops w'.cache)
    (hload : (ops.map rise).sum ≤ (ops.map drop).sum ∨ w.Ample ∧
      (ops.map rise).sum ≤ (ops.map drop).sum + 2)
    (hfills : ops.countP (·.fills .mshrs) = 0 ∨
      ops.countP (·.fills .mshrs) ≤ 1 ∧ w.cache.path.mshrQueue.isFull = false) : w'.Stocked mshrs
        writeBuffers := by
  obtain ⟨hset, hle⟩ := run_load hr.runs h.path hst.settled
  obtain ⟨hsize, hlen⟩ := run_length hr.runs h.path .mshrs
  obtain ⟨hsize', -⟩ := run_length hr.runs h.path .writeBuffer
  simp only [queue, MSHRQueue.SameSize] at hsize hlen hsize'
  obtain ⟨h1, h2, h3, h4⟩ := hst.sizes
  refine ⟨⟨hsize.1.trans h1, hsize.2.trans h2, hsize'.1.trans h3, hsize'.2.trans h4⟩, ?_, hset, ?_⟩
  · have hmshrs := hst.mshrs
    rcases hfills with hzero | ⟨hone, hfull⟩
    · omega
    · have hroom := (notFull_iff h.path .mshrs).mp hfull
      simp only [queue] at hroom
      omega
  · rw [hsize'.1]
    rcases hload with hload | ⟨hample, hload⟩
    · exact lt_of_le_of_lt (by omega) hst.load
    · have hbound := w.cache.path.load_le
      rw [ample_iff h] at hample
      omega

theorem balanced (hr : w.cache.Reaches ops w'.cache) (hops : Balanced ops) :
    w'.Stocked mshrs writeBuffers :=
  hst.next h hr (.inl hops.1) (.inl (by simpa [countP_eq_zero] using hops.2))

theorem request
    (hr : w.cache.Reaches ops w'.cache) (hample : w.Ample)
    (hfull : w.cache.path.mshrQueue.isFull = false)
    (hops : Cache.Request True w.cache.params.numTarget now pkt ops) :
    w'.Stocked mshrs writeBuffers := by
  obtain ⟨own, time, pkts, rfl, hasked, hwb, -⟩ := hops
  have hlen := hwb.2 trivial
  have hown : (own.map rise).sum ≤ 1 ∧ own.countP (·.fills .mshrs) ≤ 1 := by
    cases hasked with
    | silent _ => simp
    | answered resp time _ _ | joined i pkt' time _ => simp [rise, PathOp.fills]
    | allocated ix addr size pkt' time _ => exact ⟨by simp [rise], countP_le_length⟩
  have hcount : (writebackOps now time pkts).countP (·.fills .mshrs) = 0 := by
    simpa [countP_eq_zero] using sum_rise_writebackOps.2
  refine hst.next h hr (.inr ⟨hample, ?_⟩) (.inr ⟨?_, hfull⟩)
  · simp only [map_append, sum_append_nat, sum_rise_writebackOps.1]
    omega
  · rw [countP_append, hcount]
    exact hown.2

theorem step (h1 : 1 ≤ mshrs) (h2 : 1 ≤ writeBuffers)
    (hspace : w.Spacious e) (hh : Happens True w e ops w') : w'.Stocked mshrs writeBuffers := by
  have hr := hh.reaches
  have hops := hh.operations
  obtain ⟨hs1, hs2, hs3, hs4⟩ := hst.sizes
  cases e with
  | request now pkt =>
    simp only [Operations] at hops
    split at hops
    · exact hst.balanced h hr (balanced_of_plain (by simp [hops]))
    · split at hops
      · exact hst.balanced h hr (balanced_of_plain (by simp [hops, rise]))
      · rename_i hport
        have hopen : ∀ ix, (w.cache.path.queue ix).isFull = false := by
          intro ix
          have hsize : (w.cache.path.queue ix).numReserve ≤ (w.cache.path.queue ix).numEntries := by
            cases ix <;> simp only [queue] <;> omega
          rw [← h.path.full ix id hsize, ← Bool.not_eq_true]
          intro hget
          rw [h.path.port, BlockedMask.any_eq_true.mpr ⟨_, hget⟩] at hport
          exact hport rfl
        refine hst.request h hr ?_ (hopen .mshrs) hops
        rcases hspace with hfew | hample
        · exact hst.ample h (by omega) hopen
        · exact hample
  | response now pkt replies =>
    obtain ⟨r, -, hresp⟩ := hops
    exact hst.balanced h hr (balanced_response hresp)
  | snoopResponse now pkt replies =>
    obtain rfl | ⟨r, -, hresp⟩ := hops
    · exact hst.balanced h hr (balanced_of_plain (by simp))
    · exact hst.balanced h hr (balanced_response hresp)
  | snoop now pkt reply =>
    obtain ⟨rest, hsupplied, rfl⟩ := hops
    refine hst.balanced h hr (Balanced.append (balanced_of_plain ?_)
      (balanced_of_plain (by cases hsupplied <;> simp [rise])))
    cases w.cache.snooped pkt <;> simp [rise]
  | downstream r b =>
    cases hops
    exact hst.balanced h hr (balanced_of_plain (by simp [rise]))
  | send now offer above replies sent reply =>
    obtain ⟨out, hsend, hpre⟩ := hops
    obtain ⟨first, rest, rfl, hfirst, hrest⟩ := balanced_sending hsend
    rcases hfirst with rfl | ⟨addr, size, pkt, rfl, rfl⟩
    · exact hst.balanced h hr hrest
    · have hasked := hpre ⟨_, mem_append_left _ (mem_singleton_self _), rfl⟩
      have hcount : rest.countP (·.fills .mshrs) = 0 := by simpa [countP_eq_zero] using hrest.2
      have hsum := hrest.1
      refine hst.next h hr (.inr ⟨hspace rfl hasked, ?_⟩) (.inr ⟨?_, ?_⟩)
      · simp only [map_append, sum_append_nat, map_singleton, sum_singleton, rise, drop]
        omega
      · rw [countP_append, hcount]
        exact countP_le_length
      · simp only [Cache.prefetches, Bool.and_eq_true, Bool.not_eq_true'] at hasked
        exact hasked.1.2

end Stocked

theorem create_stocked (params : CacheParams) (tags : σ) (mshrs writeBuffers : Nat) :
    (create params tags mshrs writeBuffers).Stocked mshrs writeBuffers := by
  refine ⟨⟨rfl, rfl, by simp [create, MissPath.create, MSHRQueue.create]; omega, rfl⟩,
    zero_le _, nofun, ?_⟩
  simp [create, MissPath.create, MSHRQueue.create, load, MSHRQueue.gather, MSHRQueue.live]

variable [TagStore σ]

/-- In runs that leave room for what could come of each request, the mask says why
the cache is blocked, and no event fails for want of a register or at the
assertions of the port. -/
theorem run_saysWhy {params : CacheParams} {tags : σ} {mshrs writeBuffers : Nat}
    {events : List CacheEvent} (hσ : TagStore.Behaves σ (fun f => ¬ PathFault f) True)
    (h1 : 1 ≤ mshrs) (h2 : 1 ≤ writeBuffers)
    (hr : Runs (fun w e w' => Step w e w' ∧ w.Spacious e)
      (create params tags mshrs writeBuffers) events w) :
    w.SaysWhy ∧ ∀ e, w.Admits e → ∀ f, w.apply e = .error f → ¬ PathFault f := by
  have hmeets : ∀ {w : CacheWorld σ} {e}, w.Sane → w.Stocked mshrs writeBuffers → w.Admits e →
      Meets (fun w' => ∃ ops, Happens True w e ops w') (fun f => ¬ PathFault f) (w.apply e) :=
    fun hsane hst ha => apply_meets (.of_spares fun _ => id) (by simp [PathFault, tempFault]) hσ
      hsane ha fun ix => .inr ⟨trivial, hst.room hsane ix⟩
  obtain ⟨hsane, hst⟩ : w.Sane ∧ w.Stocked mshrs writeBuffers := by
    refine hr.invariant (P := fun w => w.Sane ∧ w.Stocked mshrs writeBuffers)
      ⟨create_sane params tags mshrs writeBuffers, create_stocked params tags mshrs writeBuffers⟩ ?_
    rintro w e w' ⟨hsane, hst⟩ ⟨hs, hspace⟩
    obtain ⟨ops, hh⟩ := (hmeets hsane hst hs.1).result hs.2
    exact ⟨hh.sane, hst.step hsane h1 h2 hspace hh⟩
  obtain ⟨hs1, hs2, hs3, hs4⟩ := hst.sizes
  refine ⟨⟨?_, ?_, hsane.path.targets, hsane.path.port⟩,
    fun e ha f hf => (hmeets hsane hst ha).fault hf⟩
  · refine hsane.path.full .mshrs id ?_
    simp only [queue]
    omega
  · refine hsane.path.full .writeBuffer id ?_
    simp only [queue]
    omega

/-- A cache made without registers is full from the start, and does not say so. -/
theorem not_saysWhy_without_mshrs :
    ∃ w, Runs Step (create sampleParams LRU.sampleStore 0 2)
      [.snoop 0 (sampleRequest 9 .readReq 0) {}] w ∧
      w.cache.path.mshrQueue.isFull = true ∧ w.cache.path.portBlocked = false ∧ ¬ w.SaysWhy := by
  obtain ⟨w, hr, hfull, hport, hbit⟩ : ∃ w,
      Runs Step (create sampleParams LRU.sampleStore 0 2) [.snoop 0
        (sampleRequest 9 .readReq 0) {}] w ∧
      w.cache.path.mshrQueue.isFull = true ∧ w.cache.path.portBlocked = false ∧
      w.cache.path.blocked.noMSHRs = false := runs_of_play Admits apply (by decide +kernel)
  refine ⟨w, hr, hfull, hport, fun h => ?_⟩
  have hsays := h.noMSHRs
  rw [hbit, hfull] at hsays
  cases hsays

theorem run_saysWhy_miss :
    ∃ events w, Runs (fun w e w' => Step w e w' ∧ w.Spacious e)
      (create sampleParams LRU.sampleStore 1 1) events w ∧
      w.cache.path.mshrQueue.isFull = true ∧ w.SaysWhy := by
  have hσ := LRU.behaves (E := fun f => ¬ PathFault f) (.of_spares fun _ => id)
  exact ⟨[.request 0 (sampleRequest 1 .readReq 0), .send 10 none {} (fun _ => {}) true {}],
    runs_of_play_under Admits apply Spacious (by decide +kernel) fun _ hrun =>
    (run_saysWhy hσ (by decide) (by decide) hrun).1⟩

end CacheWorld

end Gem5
