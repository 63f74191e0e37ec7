import Gem5.Cpu.O3.IssueWake
import Gem5.Cpu.O3.MemDepBarriers

/-!
# Runs of the instruction queue

Squashes, and what holds in every state of a run in which no register becomes a destination
while an instruction that is not retired reads it.
-/

namespace Gem5

open Lib List Meets Function

namespace IssueWorld

variable {σ : Type} {w w' : IssueWorld σ} {q : InstructionQueue σ} {sn tid : Nat}

section Squash

structure Drops (w : IssueWorld σ) (q : InstructionQueue σ) (tid sn : Nat) : Prop where
  same : q = { w.queue with
    insts := update w.queue.insts sn { (w.inst sn).setSquashedInIQ with issued := true }
    dependGraph := q.dependGraph, nonSpecInsts := q.nonSpecInsts
    count := update w.queue.count tid (w.queue.count tid - 1)
    freeEntries := w.queue.freeEntries + 1
    instList := update w.queue.instList tid ((w.queue.instList tid).erase sn) }
  chain : ∀ reg n, (q.dependGraph reg).count n = if n = sn then 0
    else (w.queue.dependGraph reg).count n
  nonSpec : ∀ n ∈ q.nonSpecInsts, n ∈ w.queue.nonSpecInsts

theorem Ids.eraseInst (h : w.Ids) (hl : sn ∈ w.queue.instList tid) :
    update w.queue.instList tid ((w.queue.instList tid).erase sn) = fun t =>
      (w.queue.instList t).erase sn := by
  refine funext fun t => (update_apply ..).trans ?_
  split
  · subst t; rfl
  · rename_i ht
    exact (erase_of_not_mem (h.thread_unique hl ht)).symm

theorem Drops.core (hd : Drops w q tid sn) (h : w.Core [] w.queue.regScoreboard 0 [])
    (hl : sn ∈ w.queue.instList tid) (hin : (w.inst sn).inQueue = true) :
    ((w.setQueue q).retire (· == sn)).Core [] w.queue.regScoreboard 0 [] := by
  obtain ⟨hins, hthread, -⟩ := h.ids.list tid sn hl
  have hmem : ∀ {t n}, n ∈ (w.queue.instList t).erase sn ↔ n ≠ sn ∧
    n ∈ w.queue.instList t := fun {t n} =>
    (h.ids.sorted t).nodup.mem_erase_iff
  have hsame := hd.same
  rw [h.ids.eraseInst hl] at hsame
  refine h.leave hsame (fun n => ?_) (fun n hn => update_of_ne (by simpa using hn) ..) hd.nonSpec
    (fun n hn _ => ?_) (fun t => erase_sublist)
    (fun t n hn _ hne => hmem.mpr ⟨by simpa using hne, hn⟩)
    (fun t n hn heq => absurd (beq_iff_eq.mp heq) (hmem.mp hn).1)
    (fun reg n => ?_) ⟨fun t => ?_, ?_⟩
  · rw [update_apply]
    split
    · subst n; exact ⟨rfl, rfl, rfl, rfl, rfl, rfl, rfl⟩
    · exact .refl _
  · rw [beq_iff_eq.mp hn, update_self]
    rfl
  · rw [hd.chain]
    simp
  all_goals
    have hone : w.queue.count tid = ((w.queue.instList tid).erase sn).countP
        (fun n => (w.inst n).inQueue) + 1 := by
      have hpos : 0 < (w.queue.instList tid).countP fun n => (w.inst n).inQueue :=
        countP_pos_iff.mpr ⟨sn, hl, hin⟩
      rw [h.counts.count, countP_erase, if_pos ⟨hl, hin⟩]
      omega
  · show q.count t = (q.instList t).countP fun n => (q.insts n).inQueue
    rw [hsame]
    dsimp only
    refine Eq.trans ?_ (countP_congr fun n hn => by rw [update_of_ne (hmem.mp hn).1]).symm
    rw [update_apply]
    split
    · subst t
      rw [hone, Nat.add_sub_cancel]
      rfl
    · rename_i ht
      rw [h.counts.count, erase_of_not_mem (h.ids.thread_unique hl ht)]
      rfl
  · show q.freeEntries + ∑ t ∈ Finset.range q.numThreads, q.count t = q.numEntries
    have htid := Finset.mem_range.mpr (hthread ▸ h.ids.thread sn hins)
    rw [hsame]
    rw [← h.counts.total, Finset.sum_update_of_mem htid, ← Finset.sum_erase_add _ _ htid,
      Finset.sdiff_singleton_eq_erase, hone]
    simp only [Nat.add_sub_cancel]
    ring

theorem Core.removable (h : w.Core [] w.queue.regScoreboard 0 []) (hreader : w.Reader sn) :
    ∀ reg < w.queue.numPhysRegs, w.queue.dependGraph reg = [] ∨
      (w.inst sn).unmarked reg ≤ (w.queue.dependGraph reg).count sn := by
  intro reg hlt
  have hchain := h.chains reg
  simp only [count_nil, ite_self, Nat.add_zero] at hchain
  cases hb : w.queue.regScoreboard reg with
  | false =>
    refine .inr ?_
    rw [hchain sn, if_pos ⟨⟨hlt, hb⟩, hreader⟩]
  | true =>
    refine .inl (eq_nil_iff_forall_not_mem.mpr fun n hn => ?_)
    have hpos := count_pos_iff.mpr hn
    rw [hchain n, if_neg (by simp [hb])] at hpos
    exact absurd hpos (lt_irrefl 0)

theorem squashInst_drops (h : w.Core [] w.queue.regScoreboard 0 []) (hl : sn ∈ w.queue.instList tid)
    (hin : (w.inst sn).inQueue = true) :
    Meets (fun q => Drops w (q.eraseInst tid sn) tid sn) Apart (w.queue.squashInst sn) := by
  obtain ⟨-, hthread, -⟩ := h.ids.list tid sn hl
  have hu : sn ∈ w.unretired := by
    by_contra hnr
    exact Bool.false_ne_true ((h.ids.retired tid sn hl hnr).symm.trans hin)
  have hthread : (w.queue.insts sn).threadNumber = tid := hthread
  unfold InstructionQueue.squashInst
  refine bind (P := fun q => q = { w.queue with
    dependGraph := q.dependGraph, nonSpecInsts := q.nonSpecInsts } ∧
      (∀ reg n, (q.dependGraph reg).count n = if n = sn then 0
        else (w.queue.dependGraph reg).count n) ∧
      ∀ n ∈ q.nonSpecInsts, n ∈ w.queue.nonSpecInsts) ?_ fun q ⟨hsame, hchain, hnonspec⟩ => pure ?_
  · refine ite (fun hwaits => ?_) fun hwaits => ?_
    · have hreader : w.Reader sn :=
        ⟨hu, show (w.queue.insts sn).waitsForCommit = false by simpa using hwaits⟩
      obtain ⟨chains, hok, hcount⟩ := InstructionQueue.foldlM_removeOperand_eq (h.removable hreader)
      rw [show (w.queue.insts sn).srcRegs.zipIdx = (w.inst sn).srcRegs.zipIdx from rfl, hok]
      refine ok ⟨rfl, fun reg n => ?_, fun _ => id⟩
      rw [hcount]
      have hbefore := h.chains reg n
      simp only [count_nil, ite_self, Nat.add_zero] at hbefore
      by_cases hn : n = sn
      · subst hn
        rw [if_pos rfl, hbefore]
        refine Nat.sub_eq_zero_of_le ?_
        split
        · rename_i hc
          rw [if_pos ⟨hc.1.1, rfl⟩]
          exact le_rfl
        · exact Nat.zero_le _
      · rw [if_neg hn, if_neg fun hc => hn hc.2, Nat.sub_zero]
    · -- It is in no chain.
      have hreader : ¬ w.Reader sn := by
        rintro ⟨-, hno : (w.queue.insts sn).waitsForCommit = false⟩
        exact hwaits (by simpa using hno)
      have hzero : ∀ reg n, (w.queue.dependGraph reg).count n = if n = sn then 0
          else (w.queue.dependGraph reg).count n := by
        intro reg n
        split
        · rename_i hn
          rw [h.chains reg n, hn]
          simp [hreader]
        · rfl
      refine ite (fun _ => ite (fun _ => ?_) fun _ => ?_) fun _ => ?_
      · exact pure ⟨rfl, hzero, fun _ => mem_of_mem_filter⟩
      · exact bind (ensure (apart_assertion (by decide))) fun _ _ => pure ⟨rfl, hzero, fun _ => id⟩
      · exact pure ⟨rfl, hzero, fun _ => id⟩
  · refine ⟨?_, hchain, hnonspec⟩
    rw [hsame, hthread]
    rfl

structure Spares (q q' : InstructionQueue σ) : Prop where
  insts : ∀ n, Alike (q.insts n) (q'.insts n) ∧
    (q'.insts n).sourcesReady = (q.insts n).sourcesReady
  readied : q'.readied = q.readied
  memDepUnit : q'.memDepUnit = q.memDepUnit
  regScoreboard : q'.regScoreboard = q.regScoreboard

theorem Spares.refl (q : InstructionQueue σ) : Spares q q := ⟨fun _ => ⟨.refl _, rfl⟩, rfl, rfl, rfl⟩

theorem Spares.trans (h : Spares q q') (h' : Spares q' q'') : Spares q q'' :=
  ⟨fun n => ⟨(h.insts n).1.trans (h'.insts n).1, (h'.insts n).2.trans (h.insts n).2⟩,
    h'.readied.trans h.readied, h'.memDepUnit.trans h.memDepUnit,
    h'.regScoreboard.trans h.regScoreboard⟩

theorem Drops.spares (hd : Drops w q tid sn) : Spares w.queue q := by
  refine ⟨fun n => ?_, ?_, ?_, ?_⟩
  · rw [hd.same]
    show Alike _ (update w.queue.insts sn _ n) ∧ (update w.queue.insts sn _ n).sourcesReady = _
    rw [update_apply]
    split
    · subst n; exact ⟨⟨rfl, rfl, rfl, rfl, rfl, rfl, rfl⟩, rfl⟩
    · exact ⟨.refl _, rfl⟩
  · rw [hd.same]
  · rw [hd.same]
  · rw [hd.same]

theorem retire_congr (p' : Nat → Bool) (h : ∀ n ∈ w.unretired, p n = p' n) :
    w.retire p = w.retire p' := by
  unfold retire
  rw [filter_congr fun n hn => congrArg (!·) (h n hn)]

theorem retire_retire (p p' : Nat → Bool) :
    (w.retire p).retire p' = w.retire fun n => p n || p' n := by
  simp [retire, filter_filter, Bool.and_comm]

theorem Core.squashFrom (h : w.Core [] w.queue.regScoreboard 0 [])
    (hsorted : l.Pairwise (· > ·)) (hl : ∀ n ∈ l, n ∈ w.queue.instList tid) :
    Meets (fun q => ((w.setQueue q).retire fun n => decide (n ∈ l ∧ squashedSeqNum < n)).Core []
      w.queue.regScoreboard 0 [] ∧
      Spares w.queue q) Apart (w.queue.squashFrom squashedSeqNum tid l) := by
  induction l generalizing w with
  | nil =>
    refine pure ⟨h.retire (fun n _ hp => ?_) _ (fun _ => .refl _) fun _ _ hn _ _ => hn, .refl _⟩
    simp at hp
  | cons sn older ih =>
    rw [pairwise_cons] at hsorted
    have hsn := hl sn mem_cons_self
    obtain ⟨-, hthread, hsq⟩ := h.ids.list tid sn hsn
    unfold InstructionQueue.squashFrom
    refine ite (fun hle => pure ⟨h.retire (fun n _ hp => ?_) _ (fun _ => .refl _) fun _ _ hn _ _ =>
      hn, .refl _⟩) fun hlt =>
      ite (fun hskip => ?_) fun _ => ?_
    · obtain ⟨hn, hlt⟩ := of_decide_eq_true hp
      rcases mem_cons.mp hn with rfl | hn
      · exact absurd hle (not_le.mpr hlt)
      · exact absurd ((hsorted.1 n hn).le.trans hle) (not_le.mpr hlt)
    · rcases hskip with hne | hyes
      · exact absurd hthread hne
      · exact absurd (hsq.symm.trans hyes) Bool.false_ne_true
    · have hlt := not_le.mp hlt
      -- The instruction is squashed or has no entry any more; either way it leaves.
      refine bind (P := fun q => ((w.setQueue (q.eraseInst tid sn)).retire (· == sn)).Core []
        w.queue.regScoreboard 0 [] ∧
          Spares w.queue (q.eraseInst tid sn) ∧ ∀ n ∈ older, n ∈ (q.eraseInst tid sn).instList tid) ?_
        fun q ⟨hcore, hspares, hmem⟩ => ?_
      · have holder : ∀ {q : InstructionQueue σ},
          (q.eraseInst tid sn).instList tid = (w.queue.instList tid).erase sn →
            ∀ n ∈ older, n ∈ (q.eraseInst tid sn).instList tid := fun hq n hn => by
          rw [hq, (h.ids.sorted tid).nodup.mem_erase_iff]
          exact ⟨(hsorted.1 n hn).ne, hl n (mem_cons_of_mem _ hn)⟩
        refine ite (fun hin => (squashInst_drops h hsn hin).mono fun q hd =>
          ⟨hd.core h hsn hin, hd.spares, holder ?_⟩) fun hout => pure ⟨?_, ?_, holder ?_⟩
        · rw [hd.same]
          exact update_self ..
        · refine h.retire (p := (· == sn)) (fun n _ hp => ?_) _ (fun t => ?_) fun t n hn _ hne => ?_
          · rw [beq_iff_eq.mp hp]
            exact Bool.eq_false_iff.mpr hout
          · rw [h.ids.eraseInst hsn]
            exact erase_sublist
          · rw [h.ids.eraseInst hsn]
            exact (h.ids.sorted t).nodup.mem_erase_iff.mpr ⟨by simpa using hne, hn⟩
        · exact ⟨fun _ => ⟨.refl _, rfl⟩, rfl, rfl, rfl⟩
        · exact update_self ..
      · have hboard : (q.eraseInst tid sn).regScoreboard = w.queue.regScoreboard :=
          hspares.regScoreboard
        rw [← hboard] at hcore
        refine (ih (w := (w.setQueue (q.eraseInst tid sn)).retire (· == sn)) hcore hsorted.2
          hmem).mono fun q' ⟨hc, hs⟩ => ?_
        refine ⟨?_, hspares.trans hs⟩
        have heq : ((w.setQueue q').retire fun n => decide (n ∈ sn :: older ∧ squashedSeqNum < n)) =
            (((w.setQueue (q.eraseInst tid sn)).retire (· == sn)).setQueue q').retire
              fun n => decide (n ∈ older ∧ squashedSeqNum < n) := by
          rw [show ((w.setQueue (q.eraseInst tid sn)).retire (· == sn)).setQueue q' =
            (w.setQueue q').retire (· == sn) from rfl, retire_retire]
          refine retire_congr _ fun n _ => ?_
          by_cases hn : n = sn
          · simp [hn, hlt]
          · simp [hn]
        rw [heq, ← hboard]
        exact hc

theorem Inv.squash (h : w.Inv []) (squashedSeqNum tid : Nat) :
    Meets (fun q => ((w.setQueue q).retire fun n => (w.inst n).threadNumber == tid &&
      decide (squashedSeqNum < n)).Inv [])
      Apart (w.queue.squash squashedSeqNum tid) := by
  set p : Nat → Bool := fun n => (w.inst n).threadNumber == tid && decide (squashedSeqNum < n) with hp
  have hpn : ∀ n, p n = true ↔ (w.inst n).threadNumber = tid ∧ squashedSeqNum < n :=
    fun n => by simp [hp]
  refine bind (P := fun q => ((w.setQueue q).retire p).Core [] w.queue.regScoreboard 0 [] ∧
    Spares w.queue q) ?_
    fun q ⟨hcore, hspares⟩ => ?_
  · refine ite (fun _ => ?_) fun hcount => pure ⟨?_, .refl _⟩
    · refine (h.core.squashFrom (pairwise_reverse.mpr (h.core.ids.sorted tid)) fun n hn =>
        mem_reverse.mp hn).mono
        fun q ⟨hc, hs⟩ => ⟨?_, hs⟩
      rw [retire_congr p fun n hn => ?_] at hc
      · exact hc
      · obtain ⟨-, hlist⟩ := h.core.ids.unretired n hn
        have hiff : n ∈ w.queue.instList tid ↔ (w.inst n).threadNumber = tid :=
          ⟨fun hmem => (h.core.ids.list tid n hmem).2.1, fun ht => ht ▸ hlist⟩
        rw [Bool.eq_iff_iff, hpn, decide_eq_true_iff, mem_reverse, hiff]
    · -- No instruction of the thread has an entry.
      refine h.core.retire (fun n hn hpn' => ?_) _ (fun _ => .refl _) fun _ _ hn _ _ => hn
      have hzero : w.queue.count tid = 0 := Nat.eq_zero_of_not_pos hcount
      rw [h.core.counts.count, countP_eq_zero] at hzero
      obtain ⟨-, hlist⟩ := h.core.ids.unretired n hn
      rw [((hpn n).mp hpn').1] at hlist
      exact Bool.eq_false_iff.mpr (hzero n hlist)
  · refine InstructionQueue.bind_inUnit fun unit hok => pure ?_
    rw [hspares.memDepUnit] at hok
    obtain ⟨hready, hhands⟩ := MemDepUnit.squash_hands (h.units tid).2 hok
    set q' : InstructionQueue σ := { q with memDepUnit := update q.memDepUnit tid unit } with hq'
    set w' := (w.setQueue q').retire p with hw'
    have hcore' : w'.Core [] q'.regScoreboard 0 [] := by
      rw [show q'.regScoreboard = w.queue.regScoreboard from hspares.regScoreboard]
      exact ⟨{ hcore.ids with }, { hcore.counts with }, hcore.chains, { hcore.account with },
        { hcore.produces with }, { hcore.lists with }⟩
    refine ⟨hcore', fun t => ?_⟩
    have hreader : ∀ n, w'.Reader n ↔ w.Reader n ∧ p n = false := fun n => by
      show n ∈ w'.unretired ∧ (q.insts n).waitsForCommit = false ↔ _
      rw [hw', mem_retire, (hspares.insts n).1.waitsForCommit]
      exact and_right_comm
    have hclients : ∀ {unit : MemDepUnit σ} {c : MemDepUnit.Clients}, unit.Hands c →
      c.known = (w.clients t).known →
        (∀ n, c.active n ↔ (w.clients t).active n ∧ p n = false) → c.regs = (w.clients t).regs →
        c.given = (w.clients t).given → c.done = (w.clients t).done → unit.Hands (w'.clients t) := by
      intro unit c hh hknown hactive hregs hgiven hdone
      refine hh.congr (fun n => ?_) (fun n => ?_) (fun n _ => ?_) (fun n _ => ?_) fun n _ => by
        rw [hdone]; rfl
      · rw [hknown]
        show n ∈ w.inserted ∧ (q.insts n).threadNumber = t ↔ _
        rw [(hspares.insts n).1.threadNumber]
        rfl
      · rw [hactive]
        show w'.Reader n ∧ (q.insts n).isMemRef = true ∧ (q.insts n).threadNumber = t ↔ _
        rw [hreader, (hspares.insts n).1.isMemRef, (hspares.insts n).1.threadNumber]
        exact and_right_comm
      · rw [hregs]
        show n ∈ w.inserted ∧ (q.insts n).sourcesReady = true ↔ _
        rw [(hspares.insts n).2]
        rfl
      · rw [hgiven]
        show n ∈ q.readied ↔ _
        rw [hspares.readied]
        rfl
    have hunits : w'.queue.memDepUnit t = if t = tid then unit else w.queue.memDepUnit t := by
      show update q.memDepUnit tid unit t = _
      rw [update_apply, hspares.memDepUnit]
    rw [hunits]
    split
    · rename_i ht
      subst ht
      refine ⟨hready.trans (h.units t).1,
        hclients hhands rfl (fun n => and_congr_right fun ha => ?_) rfl rfl rfl⟩
      rw [Bool.eq_false_iff, Ne, hpn, not_and, not_lt]
      exact ⟨fun hle _ => hle, fun hle => hle ha.2.2⟩
    · rename_i ht
      refine ⟨(h.units t).1, hclients (h.units t).2
        rfl (fun n => (and_iff_left_of_imp fun ha => ?_).symm) rfl rfl rfl⟩
      rw [Bool.eq_false_iff, Ne, hpn]
      exact fun hc => ht (ha.2.2.symm.trans hc.1)

end Squash

section Runs

theorem inv_create (numEntries numPhysRegs numThreads totalWidth : Nat)
    (predictor : MemDepPred σ) (depPred : σ) :
    (create numEntries numPhysRegs numThreads totalWidth predictor depPred).Inv [] where
  core := {
    ids := ⟨forall_mem_nil _, forall_mem_nil _, forall_mem_nil _, fun _ => forall_mem_nil _,
      fun _ => List.Pairwise.nil, fun _ => forall_mem_nil _, forall_mem_nil _, forall_mem_nil _⟩
    counts := ⟨fun _ => rfl, by simp [create]⟩
    chains := fun reg n => by simp [create, Reader]
    account := ⟨fun n hn => absurd hn.1 not_mem_nil,
      fun n hn => absurd hn.1 not_mem_nil, forall_mem_nil _⟩
    produces := ⟨by simp [create], by simp [create, Produced], forall_mem_nil _, forall_mem_nil _,
      by simp [create], forall_mem_nil _⟩
    lists := ⟨nodup_nil, forall_mem_nil _, fun n hn => absurd hn.1 not_mem_nil,
      fun n hn => absurd hn.1 not_mem_nil, forall_mem_nil _, forall_mem_nil _, forall_mem_nil _,
      fun _ => forall_mem_nil _, fun _ => nodup_nil⟩ }
  units tid := by
    have hnone : ∀ {P : Nat → Prop} n,
        ((create numEntries numPhysRegs numThreads totalWidth predictor depPred).clients tid).active
          n → P n :=
      fun n hn => absurd hn.1.1 not_mem_nil
    exact ⟨rfl, fun _ => nodup_nil, fun _ _ _ hn => absurd hn not_mem_nil,
      fun _ _ hn => absurd hn not_mem_nil, fun _ _ => rfl, forall_mem_nil _,
      fun n hn => hn.elim (hnone n) fun hm => absurd hm not_mem_nil, hnone, hnone, hnone, hnone,
      hnone, hnone, List.Pairwise.nil, forall_mem_nil _⟩

theorem Inv.apply (h : w.Inv []) (hadmits : w.Admits e) (hunread : w.DestsUnread e) :
    Meets (·.Inv []) Apart (w.apply e) := by
  cases e with
  | insert inst => exact bind (h.insert hadmits.1 hunread hadmits.2) fun _ hq => pure hq
  | insertNonSpec inst =>
    refine bind (h.insertNonSpec hadmits.1 hunread hadmits.2 w.queue.memDepUnit fun t => ?_)
      fun _ hq => pure hq
    exact ⟨(h.units t).1, fun _ => (h.units t).2, fun _ => .inl (h.units t).2⟩
  | insertBarrier inst =>
    have hwaits : inst.waitsForCommit = true := by
      rcases hadmits.2.1 with h | h <;> simp [DynInst.waitsForCommit, h]
    exact bind (h.insertBarrier hadmits.1 hunread hwaits hadmits.2.2) fun _ hq => pure hq
  | wakeDependents sn =>
    exact bind (h.wakeDependents hadmits.1 hadmits.2.1 hadmits.2.2) fun _ hq => pure hq
  | scheduleReadyInsts slots => exact bind (h.scheduleFrom slots _ _ _) fun _ hq => pure hq
  | scheduleNonSpec sn => exact bind (h.scheduleNonSpec hadmits.1 hadmits.2) fun _ hq => pure hq
  | commit sn tid => exact bind (h.commit hadmits) fun _ hq => pure hq
  | squash sn tid => exact bind (h.squash sn tid) fun _ hq => pure hq
  | mark sn hasFault completed squashed => exact pure (h.mark rfl)

instance (w : IssueWorld σ) (producer : Option Nat) : Decidable (w.Produced producer) := by
  unfold Produced
  infer_instance

/-- The operands of an instruction that wait for the register: not marked, and the producer
the register had when the instruction came in is not complete. -/
def waiting (w : IssueWorld σ) (sn reg : Nat) : Nat :=
  (w.inst sn).srcRegs.zipIdx.countP fun operand =>
    operand.1 = reg ∧ operand.2 ∉ (w.inst sn).readySrcRegIdx ∧ ¬ w.Produced (w.awaits sn reg)

def Ready (w : IssueWorld σ) (sn : Nat) : Prop :=
  (∀ operand ∈ (w.inst sn).srcRegs.zipIdx, operand.2 ∈ (w.inst sn).readySrcRegIdx ∨
    operand.1 < w.queue.numPhysRegs ∧ w.Produced (w.awaits sn operand.1)) ∧
  ((w.inst sn).isMemRef = true → (w.queue.memDepUnit (w.inst sn).threadNumber).Free sn)

structure Tracks (w : IssueWorld σ) : Prop where
  chains : ∀ reg sn, (w.queue.dependGraph reg).count sn =
    if reg < w.queue.numPhysRegs ∧ w.Reader sn then w.waiting sn reg else 0
  once : w.queue.readied.Nodup
  ready : ∀ sn, w.Reader sn → (sn ∈ w.queue.readied ↔ w.Ready sn)
  supplied : ∀ sn ∈ w.queue.readied, w.Supplied (w.inst sn).srcRegs (w.awaits sn)
  entries : w.queue.freeEntries + ∑ tid ∈ Finset.range w.queue.numThreads,
    w.queue.count tid = w.queue.numEntries

theorem Inv.scoreboard_iff (h : w.Inv []) (hu : sn ∈ w.unretired) (hreg : reg ∈ (w.inst sn).srcRegs)
    (hlt : reg < w.queue.numPhysRegs) :
    w.queue.regScoreboard reg = true ↔ w.Produced (w.awaits sn reg) := by
  rw [h.core.produces.awaits sn hu reg hreg hlt]
  exact ⟨h.core.produces.scoreboard reg hlt, h.core.produces.produced reg hlt (by simp)⟩

theorem Inv.sourcesReady_iff (h : w.Inv []) (hreader : w.Reader sn) :
    (w.inst sn).sourcesReady = true ↔
    ∀ operand ∈ (w.inst sn).srcRegs.zipIdx, operand.2 ∈ (w.inst sn).readySrcRegIdx ∨
      operand.1 < w.queue.numPhysRegs ∧ w.Produced (w.awaits sn operand.1) := by
  have hready := h.core.account.readyRegs sn hreader
  rw [count_nil, Nat.add_zero] at hready
  have hall : (w.inst sn).available (fun reg => reg < w.queue.numPhysRegs ∧
    w.queue.regScoreboard reg = true) =
      (w.inst sn).srcRegs.zipIdx.length ↔ _ := countP_eq_length
  rw [DynInst.sourcesReady, beq_iff_eq, hready, ← length_zipIdx, hall]
  refine forall₂_congr fun o ho => ?_
  rw [decide_eq_true_iff]
  refine or_congr_right (and_congr_right fun hlt => ?_)
  exact h.scoreboard_iff hreader.1 (fst_mem_of_mem_zipIdx ho) hlt

theorem Inv.tracks (h : w.Inv []) : w.Tracks where
  chains reg sn := by
    rw [h.core.chains reg sn]
    simp only [count_nil, ite_self, Nat.add_zero]
    by_cases hc : reg < w.queue.numPhysRegs ∧ w.Reader sn
    · rw [if_pos hc]
      have hwaiting : w.waiting sn reg = if w.queue.regScoreboard reg = false then
          (w.inst sn).unmarked reg else 0 := by
        by_cases hsrc : reg ∈ (w.inst sn).srcRegs
        · have hiff := h.scoreboard_iff hc.2.1 hsrc hc.1
          by_cases hp : w.Produced (w.awaits sn reg)
          · rw [if_neg (by simp [hiff.mpr hp]), waiting, countP_eq_zero]
            simp [hp]
          · rw [if_pos (Bool.eq_false_iff.mpr fun hb => hp (hiff.mp hb))]
            exact countP_congr fun o _ => by simp [hp]
        · rw [DynInst.unmarked_eq_zero hsrc, ite_self, waiting, countP_eq_zero]
          intro o ho
          rw [decide_eq_true_iff]
          rintro ⟨rfl, -⟩
          exact hsrc (fst_mem_of_mem_zipIdx ho)
      rw [hwaiting]
      simp [hc.1, hc.2]
    · rw [if_neg hc, if_neg fun hc' => hc ⟨hc'.1.1, hc'.2⟩]
  once := h.core.lists.once
  ready sn hreader := by
    rw [Ready, ← h.sourcesReady_iff hreader]
    cases hmem : (w.inst sn).isMemRef with
    | false =>
      simp only [Bool.false_eq_true, false_implies, and_true]
      exact ⟨h.core.lists.sound sn hreader, h.core.lists.complete sn hreader hmem⟩
    | true =>
      simp only [true_implies]
      have hgiven := (h.units (w.inst sn).threadNumber).2.given sn ⟨hreader, hmem, rfl⟩
      refine hgiven.trans (and_congr_left fun _ => ?_)
      exact and_iff_right (h.core.ids.unretired sn hreader.1).1
  supplied sn hsn := (h.core.lists.readied sn hsn).2
  entries := h.core.counts.total

/-- In every state reached, the chains hold what waits, what is ready was put on a ready list
once, and the entries add up; and no call made then runs into the assertion of
`DependencyGraph::remove` or the panic of `addToProducers`. -/
theorem run_tracks {numEntries numPhysRegs numThreads totalWidth : Nat}
    {predictor : MemDepPred σ} {depPred : σ} {es : List IssueEvent}
    (hrun : Runs (fun w e w' => w.Step e w' ∧ w.DestsUnread e)
      (create numEntries numPhysRegs numThreads totalWidth predictor depPred) es w) :
    w.Tracks ∧ ∀ e f, w.Admits e → w.DestsUnread e → w.apply e = .error f → Apart f := by
  have hinv : w.Inv [] := hrun.invariant (P := (·.Inv [])) (inv_create ..) fun _ _ _ hinv hstep =>
    (hinv.apply hstep.1.1 hstep.2).result hstep.1.2
  exact ⟨hinv.tracks, fun e f hadmits hunread hfault => (hinv.apply hadmits hunread).fault hfault⟩

end Runs

section Decide

instance (w : IssueWorld σ) (regs : List Nat) (producer : Nat → Option Nat) :
    Decidable (w.Supplied regs producer) :=
  inferInstanceAs (Decidable (∀ reg ∈ regs, reg < w.queue.numPhysRegs → ∀ sn ∈ producer reg,
    sn ∈ w.completed))

instance (w : IssueWorld σ) (inst : DynInst) : Decidable (w.Enters inst) :=
  decidable_of_iff _ (w.enters_iff inst).symm

instance (w : IssueWorld σ) (e : IssueEvent) : Decidable (w.Admits e) := by
  rcases e <;> unfold Admits <;> infer_instance

instance (w : IssueWorld σ) (e : IssueEvent) : Decidable (w.DestsUnread e) := by
  rcases e <;> unfold DestsUnread <;> infer_instance

end Decide

/-- A destination that an instruction of another thread still reads: instruction 3 has its
first operand from the retired instruction 1, but the operand is not marked, and the register
has a new producer and a new reader when instruction 3 is squashed. -/
theorem squash_finds_other_chain :
    ∃ w : IssueWorld Unit, Runs Step (create 8 3 2 4 MemDepWorld.noPrediction ())
    [.insert { seqNum := 1, destRegs := [1], canIssue := true },
      .insert { seqNum := 2, destRegs := [2], canIssue := true },
      .insert { seqNum := 3, srcRegs := [1, 2] }, .scheduleReadyInsts [{}],
      .wakeDependents 1, .commit 1 0, .insert
      { seqNum := 4, threadNumber := 1, destRegs := [1], canIssue := true },
      .insert { seqNum := 5, threadNumber := 1, srcRegs := [1] }] w ∧
    w.Admits (.squash 2 0) ∧ w.apply (.squash 2 0) = .error (.assertion "curr != NULL") :=
  runs_of_play Admits apply (by decide +kernel)

theorem run_tracks_squash : ∃ w : IssueWorld Unit, Runs (fun w e w' => w.Step e w' ∧ w.DestsUnread e)
    (create 8 4 1 4 MemDepWorld.noPrediction ())
    [.insert { seqNum := 1, destRegs := [1], canIssue := true },
      .insert { seqNum := 2, isLoad := true, isMemRef := true, srcRegs := [1], destRegs := [2] },
      .insert { seqNum := 3, srcRegs := [1, 2], destRegs := [3] }, .scheduleReadyInsts [{}],
      .wakeDependents 1, .squash 2 0, .commit 1 0] w ∧
    w.queue.readied = [1, 2] ∧ w.Tracks :=
  runs_of_play_under Admits apply DestsUnread (by decide +kernel) fun _ hrun => (run_tracks hrun).1

end IssueWorld

end Gem5
