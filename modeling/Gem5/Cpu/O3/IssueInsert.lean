import Gem5.Cpu.O3.IssueSteps

/-!
# New instructions in the queue
-/

namespace Gem5

open Lib List InstructionQueue Meets Function

namespace IssueWorld

variable {σ : Type} {w : IssueWorld σ} {q : InstructionQueue σ} {inst inst' : DynInst} {sns : List Nat}

abbrev after (w : IssueWorld σ) (q : InstructionQueue σ) (inst : DynInst) : IssueWorld σ :=
  (w.setQueue q).noteInsert inst

/-- The queue after an insertion, but for the memory dependence units: the new instruction is
at the end of its thread's list and in the chains of the operands that wait, and `sns` were put
on the ready lists. -/
structure Entered (w : IssueWorld σ) (q : InstructionQueue σ) (inst inst' : DynInst)
    (sns : List Nat) : Prop where
  insts : q.insts = update w.queue.insts inst.seqNum inst'
  instList : q.instList =
    update w.queue.instList inst.threadNumber (w.queue.instList inst.threadNumber ++ [inst.seqNum])
  count : q.count = update w.queue.count inst.threadNumber (w.queue.count inst.threadNumber + 1)
  freeEntries : q.freeEntries + 1 = w.queue.freeEntries
  numEntries : q.numEntries = w.queue.numEntries
  numPhysRegs : q.numPhysRegs = w.queue.numPhysRegs
  numThreads : q.numThreads = w.queue.numThreads
  scoreboard : ∀ reg, q.regScoreboard reg =
    if reg ∈ inst.destRegs ∧ reg < w.queue.numPhysRegs then false else w.queue.regScoreboard reg
  chain : ∀ reg n, (q.dependGraph reg).count n = (w.queue.dependGraph reg).count n +
    if (reg < w.queue.numPhysRegs ∧ w.queue.regScoreboard reg = false) ∧ n = inst.seqNum ∧
      inst.waitsForCommit = false then
      inst'.unmarked reg else 0
  alike : Alike inst inst'
  issued : inst'.issued = false
  squashedInIQ : inst'.squashedInIQ = false
  memOpDone : inst'.memOpDone = false
  readyRegs : inst'.readyRegs = inst'.available fun _ => False
  canIssue : inst'.canIssue = true → inst'.sourcesReady = true
  marked : ∀ o ∈ inst.srcRegs.zipIdx, o.2 ∈ inst'.readySrcRegIdx →
    o.2 ∈ inst.readySrcRegIdx ∨ o.1 < w.queue.numPhysRegs ∧ w.queue.regScoreboard o.1 = true
  waiting : inst.waitsForCommit = false → ∀ o ∈ inst.srcRegs.zipIdx, o.2 ∉ inst'.readySrcRegIdx →
    o.1 < w.queue.numPhysRegs → w.queue.regScoreboard o.1 = false
  nonSpecInsts : ∀ n ∈ q.nonSpecInsts, n ∈ w.queue.nonSpecInsts ∨ n = inst.seqNum ∧
    inst.waitsForCommit = true
  readied : q.readied = w.queue.readied ++ sns
  readyInsts : ∀ op, (q.readyInsts op).Perm
    (sns.filter (fun n => (q.insts n).opClass = op) ++ w.queue.readyInsts op)
  put : ∀ n ∈ sns, n = inst.seqNum ∧ inst.waitsForCommit = false ∧ inst'.sourcesReady = true
  nodup : sns.Nodup
  complete : inst.waitsForCommit = false → inst.isMemRef = false → inst'.sourcesReady = true →
    inst.seqNum ∈ sns

theorem Enters.ne (h : w.Enters inst) (hn : n ∈ w.inserted) : n ≠ inst.seqNum := by
  rintro rfl
  exact h.fresh hn

namespace Entered

variable (h : Entered w q inst inst' sns) (hcore : w.Core [] w.queue.regScoreboard 0 [])
  (henters : w.Enters inst) (hunread : ∀ reg ∈ inst.destRegs, reg < w.queue.numPhysRegs →
    reg ∉ inst.srcRegs ∧ ∀ sn ∈ w.unretired, reg ∉ (w.inst sn).srcRegs)
include h

theorem inst_self : (w.after q inst).inst inst.seqNum = inst' := by
  show q.insts inst.seqNum = inst'
  rw [h.insts, update_self]

theorem inst_of_ne (hn : n ≠ inst.seqNum) : (w.after q inst).inst n = w.inst n := by
  show q.insts n = w.inst n
  rw [h.insts, update_of_ne hn]
  rfl

include henters in
theorem old (hn : n ∈ w.inserted) : (w.after q inst).inst n = w.inst n :=
  h.inst_of_ne (henters.ne hn)

include hcore henters

theorem ids : (w.after q inst).Ids := by
  have hnew := h.inst_self
  have hold := fun {n} => h.old henters (n := n)
  have hlist : ∀ tid, (w.after q inst).queue.instList tid =
      if tid = inst.threadNumber then w.queue.instList tid ++ [inst.seqNum]
        else w.queue.instList tid := by
    intro tid
    show q.instList tid = _
    rw [h.instList, update_apply]
    split
    · subst tid; rfl
    · rfl
  have hthread : inst'.threadNumber = inst.threadNumber := h.alike.threadNumber
  have hmem : ∀ {tid n}, n ∈ (w.after q inst).queue.instList tid →
      n ∈ w.queue.instList tid ∨ n = inst.seqNum ∧ tid = inst.threadNumber := by
    intro tid n hn
    rw [hlist] at hn
    split at hn
    · rcases mem_append.mp hn with hn | hn
      · exact .inl hn
      · exact .inr ⟨mem_singleton.mp hn, ‹_›⟩
    · exact .inl hn
  refine ⟨fun n hn => ?_, fun n hn => ?_, fun n hn => ?_, fun tid n hn => ?_, fun tid => ?_,
    fun tid n hn hnr => ?_, fun n hn => ?_, fun n hn hd => ?_⟩
  · rcases mem_cons.mp hn with rfl | hn
    · rw [hnew, h.alike.toMemDepInst]
    · rw [hold hn]
      exact hcore.ids.seqNum n hn
  · rw [show (w.after q inst).queue.numThreads = w.queue.numThreads from h.numThreads]
    rcases mem_cons.mp hn with rfl | hn
    · rw [hnew, hthread]
      exact henters.thread
    · rw [hold hn]
      exact hcore.ids.thread n hn
  · rcases mem_cons.mp hn with rfl | hn
    · refine ⟨mem_cons_self, ?_⟩
      rw [hnew, hthread, hlist, if_pos rfl]
      exact mem_append_right _ mem_cons_self
    · obtain ⟨hins, hl⟩ := hcore.ids.unretired n hn
      refine ⟨mem_cons_of_mem _ hins, ?_⟩
      rw [hold hins, hlist]
      split
      · exact mem_append_left _ hl
      · exact hl
  · rcases hmem hn with hn | ⟨rfl, rfl⟩
    · obtain ⟨hins, ht, hsq⟩ := hcore.ids.list tid n hn
      rw [hold hins]
      exact ⟨mem_cons_of_mem _ hins, ht, hsq⟩
    · rw [hnew]
      exact ⟨mem_cons_self, hthread, h.squashedInIQ⟩
  · rw [hlist]
    split
    · rename_i ht
      refine pairwise_append.mpr ⟨hcore.ids.sorted tid, pairwise_singleton .., fun m hm n hn => ?_⟩
      rw [mem_singleton.mp hn]
      obtain ⟨hins, hthr, -⟩ := hcore.ids.list tid m hm
      exact henters.last m hins (hthr.trans ht)
    · exact hcore.ids.sorted tid
  · rcases hmem hn with hn | ⟨rfl, rfl⟩
    · obtain ⟨hins, -, -⟩ := hcore.ids.list tid n hn
      rw [hold hins]
      exact hcore.ids.retired tid n hn fun hu => hnr (mem_cons_of_mem _ hu)
    · exact absurd mem_cons_self hnr
  · obtain ⟨hins, hout⟩ := hcore.ids.completed n hn
    refine ⟨mem_cons_of_mem _ hins, fun hu => ?_⟩
    rw [hold hins]
    exact hout ((mem_cons.mp hu).resolve_left (henters.ne hins))
  · rcases mem_cons.mp hn with rfl | hn
    · rw [hnew, h.memOpDone] at hd
      exact absurd hd Bool.false_ne_true
    · rw [hold (hcore.ids.unretired n hn).1] at hd
      exact hcore.ids.memOpDone n hn hd

theorem counts : (w.after q inst).Counts := by
  have hin : inst'.inQueue = true := inQueue_of_not_issued h.issued
  have hlist : ∀ tid, ((w.queue.instList tid).countP fun n => ((w.after q inst).inst n).inQueue) =
      (w.queue.instList tid).countP fun n => (w.inst n).inQueue :=
        fun tid => countP_congr fun n hn => by
    rw [h.old henters (hcore.ids.list tid n hn).1]
  refine ⟨fun tid => ?_, ?_⟩
  · show q.count tid = (q.instList tid).countP _
    rw [h.count, h.instList, update_apply, update_apply]
    split
    · rw [countP_append, hlist, hcore.counts.count]
      simp [h.inst_self, hin]
    · rw [hlist, hcore.counts.count]
  · show q.freeEntries + ∑ tid ∈ Finset.range q.numThreads, q.count tid = q.numEntries
    have htid := Finset.mem_range.mpr henters.thread
    have htotal := hcore.counts.total
    rw [← h.freeEntries, ← Finset.sum_erase_add _ _ htid] at htotal
    rw [h.numThreads, h.numEntries, h.count, Finset.sum_update_of_mem htid,
      Finset.sdiff_singleton_eq_erase, ← htotal]
    ring

include hunread

theorem chains : (w.after q inst).Chains q.regScoreboard 0 [] := by
  intro reg n
  show (q.dependGraph reg).count n =
    (if (reg < q.numPhysRegs ∧ q.regScoreboard reg = false) ∧ _ then _ else 0) + _
  simp only [h.chain, hcore.chains reg n, h.numPhysRegs, h.scoreboard, count_nil,
    ite_self, Nat.add_zero]
  by_cases hn : n = inst.seqNum
  · subst hn
    have hnot : ¬ w.Reader inst.seqNum := fun hr => henters.fresh (hcore.ids.unretired _ hr.1).1
    have hreader : (w.after q inst).Reader inst.seqNum ↔ inst.waitsForCommit = false := by
      rw [Reader, h.inst_self, h.alike.waitsForCommit]
      exact and_iff_right mem_cons_self
    rw [if_neg fun hc => hnot hc.2, Nat.zero_add, h.inst_self]
    simp only [true_and, hreader]
    by_cases hdest : reg ∈ inst.destRegs ∧ reg < w.queue.numPhysRegs
    · have hzero : inst'.unmarked reg = 0 :=
        DynInst.unmarked_eq_zero (h.alike.srcRegs ▸ (hunread reg hdest.1 hdest.2).1)
      simp [hzero]
    · rw [if_neg hdest]
  · have hreader : (w.after q inst).Reader n ↔ w.Reader n := by
      rw [Reader, Reader, h.inst_of_ne hn]
      exact and_congr_left fun _ => ⟨fun hu => (mem_cons.mp hu).resolve_left hn, mem_cons_of_mem _⟩
    simp only [hreader, h.inst_of_ne hn, hn, false_and, and_false, if_false, Nat.add_zero]
    by_cases hdest : reg ∈ inst.destRegs ∧ reg < w.queue.numPhysRegs
    · by_cases hr : w.Reader n
      · simp [DynInst.unmarked_eq_zero ((hunread reg hdest.1 hdest.2).2 n hr.1)]
      · simp [hr]
    · rw [if_neg hdest]

omit hcore henters in
theorem scoreboard_src (hn : n ∈ w.unretired ∧ reg ∈ (w.inst n).srcRegs ∨ reg ∈ inst.srcRegs)
    (hlt : reg < w.queue.numPhysRegs) :
    q.regScoreboard reg = w.queue.regScoreboard reg ∧ reg ∉ inst.destRegs := by
  have hnot : reg ∉ inst.destRegs := by
    intro hdest
    obtain ⟨hself, hothers⟩ := hunread reg hdest hlt
    exact hn.elim (fun hn => hothers n hn.1 hn.2) hself
  exact ⟨by rw [h.scoreboard, if_neg fun hc => hnot hc.1], hnot⟩

omit henters in
theorem account : (w.after q inst).Account q.regScoreboard [] := by
  have hnum : (w.after q inst).queue.numPhysRegs = w.queue.numPhysRegs := h.numPhysRegs
  have hcases : ∀ n, (w.after q inst).Reader n →
      n = inst.seqNum ∧ inst.waitsForCommit = false ∨ n ≠ inst.seqNum ∧ w.Reader n := by
    intro n hn
    by_cases hne : n = inst.seqNum
    · subst hne
      exact .inl ⟨rfl, h.alike.waitsForCommit ▸ h.inst_self ▸ hn.2⟩
    · exact .inr ⟨hne, (mem_cons.mp hn.1).resolve_left hne, h.inst_of_ne hne ▸ hn.2⟩
  refine ⟨fun n hn => ?_, fun n hn => ?_, nofun⟩
  · rcases hcases n hn with ⟨rfl, hwaits⟩ | ⟨hne, hold⟩
    · rw [h.inst_self, h.readyRegs, count_nil, Nat.add_zero, hnum]
      -- What is not marked and tracked was not available, and is not made so.
      refine countP_congr fun o ho => ?_
      rw [decide_eq_true_iff, decide_eq_true_iff]
      refine or_congr_right' fun hnm => ⟨False.elim, fun ⟨hlt, hb⟩ => ?_⟩
      rw [h.alike.srcRegs] at ho
      have hsrc : o.1 ∈ inst.srcRegs := fst_mem_of_mem_zipIdx ho
      rw [(h.scoreboard_src hunread (n := 0) (.inr hsrc) hlt).1, h.waiting hwaits o ho hnm hlt] at hb
      exact absurd hb Bool.false_ne_true
    · rw [h.inst_of_ne hne, hnum]
      refine (hcore.account.readyRegs n hold).trans (available_congr rfl rfl fun reg hreg => ?_)
      refine and_congr_right fun hlt => ?_
      rw [(h.scoreboard_src hunread (.inl ⟨hold.1, hreg⟩) hlt).1]
  · rcases hcases n hn with ⟨rfl, -⟩ | ⟨hne, hold⟩
    · rw [h.inst_self]
      exact h.canIssue
    · rw [h.inst_of_ne hne]
      exact hcore.account.canIssue n hold

theorem produces : (w.after q inst).Produces [] := by
  have hnum : (w.after q inst).queue.numPhysRegs = w.queue.numPhysRegs := h.numPhysRegs
  have hproducer : ∀ reg, (w.after q inst).producer reg =
      if reg ∈ inst.destRegs then some inst.seqNum else w.producer reg := fun _ => rfl
  have hnotdone : inst.seqNum ∉ w.completed := fun hc => henters.fresh (hcore.ids.completed _ hc).1
  have hawaits : ∀ n, (w.after q inst).awaits n = if n = inst.seqNum then w.producer else w.awaits n :=
    fun n => update_apply ..
  refine ⟨fun reg hlt hb => ?_, fun reg hlt _ hp => ?_, fun n hn reg hreg hlt => ?_,
    fun n hn hnc reg hreg hlt => ?_, fun reg n hn => ?_, fun n hn o ho hm => ?_⟩
  · rw [hnum] at hlt
    have hb : q.regScoreboard reg = true := hb
    rw [h.scoreboard] at hb
    split at hb
    · exact absurd hb Bool.false_ne_true
    · rename_i hnot
      rw [hproducer, if_neg fun hd => hnot ⟨hd, hlt⟩]
      exact hcore.produces.scoreboard reg hlt hb
  · rw [hnum] at hlt
    show q.regScoreboard reg = true
    obtain ⟨p, hp, heq⟩ := hp
    rw [hproducer] at heq
    split at heq
    · cases Option.some.inj heq
      exact absurd hp hnotdone
    · rename_i hnot
      rw [h.scoreboard, if_neg fun hc => hnot hc.1]
      exact hcore.produces.produced reg hlt (by simp) ⟨p, hp, heq⟩
  · rw [hnum] at hlt
    by_cases hne : n = inst.seqNum
    · subst hne
      rw [h.inst_self, h.alike.srcRegs] at hreg
      rw [hawaits, if_pos rfl, hproducer, if_neg (h.scoreboard_src hunread (n := 0) (.inr hreg) hlt).2]
    · rw [h.inst_of_ne hne] at hreg
      have hold := (mem_cons.mp hn).resolve_left hne
      rw [hawaits, if_neg hne, hproducer, if_neg (h.scoreboard_src hunread (.inl ⟨hold, hreg⟩) hlt).2]
      exact hcore.produces.awaits n hold reg hreg hlt
  · rw [hnum] at hlt
    rw [hproducer]
    by_cases hne : n = inst.seqNum
    · subst hne
      rw [h.inst_self, h.alike.destRegs] at hreg
      rw [if_pos hreg]
    · rw [h.inst_of_ne hne] at hreg
      have hold := (mem_cons.mp hn).resolve_left hne
      rw [if_neg fun hd => henters.dests reg hd hlt n hold hreg]
      exact hcore.produces.dests n hold hnc reg hreg hlt
  · rw [hproducer] at hn
    split at hn
    · cases Option.some.inj hn
      rw [h.inst_self, h.alike.destRegs]
      exact ⟨mem_cons_self, ‹_›⟩
    · obtain ⟨hins, hreg⟩ := hcore.produces.producer reg n hn
      rw [h.old henters hins]
      exact ⟨mem_cons_of_mem _ hins, hreg⟩
  · have hsup : ∀ {regs : List Nat} {f : Nat → Option Nat}, w.Supplied regs f →
        (w.after q inst).Supplied regs f :=
      fun hs reg hreg hlt => hs reg hreg (hnum ▸ hlt)
    by_cases hne : n = inst.seqNum
    · subst hne
      rw [h.inst_self] at ho hm
      rw [h.alike.srcRegs] at ho
      rw [hawaits, if_pos rfl]
      rcases h.marked o ho hm with hm | ⟨hlt, hb⟩
      · exact hsup (henters.marked o ho hm)
      · obtain ⟨p, hp, heq⟩ := hcore.produces.scoreboard o.1 hlt hb
        intro reg hreg _ p' hp'
        rw [mem_singleton.mp hreg, heq] at hp'
        exact Option.some.inj hp' ▸ hp
    · rw [h.inst_of_ne hne] at ho hm
      rw [hawaits, if_neg hne]
      exact hsup (hcore.produces.marked n ((mem_cons.mp hn).resolve_left hne) o ho hm)

theorem lists : (w.after q inst).Lists := by
  have haccount := h.account hcore hunread
  have hproduces := h.produces hcore henters hunread
  have hreadied : (w.after q inst).queue.readied = w.queue.readied ++ sns := h.readied
  have hnotput : inst.seqNum ∉ w.queue.readied := fun hr => henters.fresh (hcore.lists.readied _ hr).1
  have hreader : ∀ {n}, n ≠ inst.seqNum → (w.after q inst).Reader n → w.Reader n :=
    fun hne hn => ⟨(mem_cons.mp hn.1).resolve_left hne, h.inst_of_ne hne ▸ hn.2⟩
  have hself : ∀ {n}, n ∈ sns → n = inst.seqNum := fun hn => (h.put _ hn).1
  refine ⟨?_, fun n hn => ?_, fun n hn hr => ?_, fun n hn hm hc => ?_, fun n hn => ?_,
    fun n hn hns => ?_, fun n hn hi => ?_, fun op n hn => ?_, fun op => ?_⟩
  · rw [hreadied]
    refine hcore.lists.once.append h.nodup fun n hn hn' => ?_
    cases hself hn'
    exact hnotput hn
  · rw [hreadied] at hn
    rcases mem_append.mp hn with hn | hn
    · obtain ⟨hins, hs⟩ := hcore.lists.readied n hn
      rw [h.old henters hins, show (w.after q inst).awaits n = w.awaits n from
        update_of_ne (henters.ne hins) ..]
      exact ⟨mem_cons_of_mem _ hins, fun reg hreg hlt => hs reg hreg (h.numPhysRegs ▸ hlt)⟩
    · obtain ⟨rfl, hwaits, hcan⟩ := h.put n hn
      refine ⟨mem_cons_self, haccount.supplied ⟨mem_cons_self, ?_⟩ ?_ hproduces hproduces.scoreboard⟩
      · rw [h.inst_self, h.alike.waitsForCommit, hwaits]
      · rw [h.inst_self, hcan]
  · rw [hreadied] at hr
    by_cases hne : n = inst.seqNum
    · subst hne
      rw [h.inst_self]
      exact (h.put _ ((mem_append.mp hr).resolve_left hnotput)).2.2
    · rw [h.inst_of_ne hne]
      exact hcore.lists.sound n (hreader hne hn)
        ((mem_append.mp hr).resolve_right fun hs => hne (hself hs))
  · rw [hreadied]
    by_cases hne : n = inst.seqNum
    · subst hne
      have hwaits := hn.2
      rw [h.inst_self] at hm hc hwaits
      exact mem_append_right _ (h.complete (h.alike.waitsForCommit ▸ hwaits)
        (h.alike.isMemRef ▸ hm) hc)
    · rw [h.inst_of_ne hne] at hm hc
      exact mem_append_left _ (hcore.lists.complete n (hreader hne hn) hm hc)
  · rcases h.nonSpecInsts n hn with hn | ⟨rfl, -⟩
    · exact mem_cons_of_mem _ (hcore.lists.held n hn)
    · exact mem_cons_self
  · rw [hreadied]
    rcases h.nonSpecInsts n hns with hns | ⟨rfl, hw⟩
    · have hne := henters.ne (hcore.lists.held n hns)
      obtain ⟨hw, hnr⟩ := hcore.lists.nonSpec n ((mem_cons.mp hn).resolve_left hne) hns
      rw [h.inst_of_ne hne]
      exact ⟨hw, fun hmem => (mem_append.mp hmem).elim hnr fun hs => hne (hself hs)⟩
    · rw [h.inst_self, h.alike.waitsForCommit]
      refine ⟨hw, fun hmem => (mem_append.mp hmem).elim hnotput fun hs => ?_⟩
      exact Bool.false_ne_true ((h.put _ hs).2.1.symm.trans hw)
  · rw [hreadied]
    by_cases hne : n = inst.seqNum
    · subst hne
      rw [h.inst_self, h.issued] at hi
      exact absurd hi Bool.false_ne_true
    · rw [h.inst_of_ne hne] at hi
      exact mem_append_left _ (hcore.lists.issued n ((mem_cons.mp hn).resolve_left hne) hi)
  · rw [hreadied]
    rcases mem_append.mp ((h.readyInsts op).subset hn) with hn | hn
    · obtain ⟨hmem, hop⟩ := mem_filter.mp hn
      obtain rfl := hself hmem
      refine ⟨of_decide_eq_true hop, mem_append_right _ hmem, .inr ⟨mem_cons_self, ?_⟩⟩
      rw [h.inst_self, h.issued]
    · obtain ⟨hop, hr, hor⟩ := hcore.lists.ready op n hn
      rw [h.old henters (hcore.lists.readied n hr).1]
      exact ⟨hop, mem_append_left _ hr, hor.imp_right fun hu => ⟨mem_cons_of_mem _ hu.1, hu.2⟩⟩
  · refine (h.readyInsts op).nodup_iff.mpr
      ((h.nodup.filter _).append (hcore.lists.nodup op) fun n hn hn' => ?_)
    cases hself (mem_of_mem_filter hn)
    exact hnotput (hcore.lists.ready op _ hn').2.1

theorem core : (w.after q inst).Core [] q.regScoreboard 0 [] :=
  ⟨h.ids hcore henters, h.counts hcore henters, h.chains hcore henters hunread,
    h.account hcore hunread, h.produces hcore henters hunread, h.lists hcore henters hunread⟩

end Entered

theorem operand_unique {l : List Nat} {o o' : Nat × Nat} (h : o ∈ l.zipIdx) (h' : o' ∈ l.zipIdx)
    (hidx : o.2 = o'.2) :
    o = o' := by
  rw [mem_zipIdx_iff_getElem?] at h h'
  rw [hidx, h', Option.some.injEq] at h
  exact Prod.ext h.symm hidx

/-- A new instruction took its entry, which left the queue `q1`, and its operands were
looked at, which left `q2`. -/
structure Arrival (w : IssueWorld σ) (inst : DynInst) (q1 q2 : InstructionQueue σ) : Prop where
  renamed : inst.Renamed
  free : w.queue.freeEntries ≠ 0
  entry : q1 = { w.queue with
    insts := update w.queue.insts inst.seqNum inst
    instList := update w.queue.instList inst.threadNumber
      (w.queue.instList inst.threadNumber ++ [inst.seqNum])
    freeEntries := w.queue.freeEntries - 1
    nonSpecInsts := q1.nonSpecInsts
    memDepUnit := q1.memDepUnit }
  nonSpec : ∀ n ∈ q1.nonSpecInsts,
    n ∈ w.queue.nonSpecInsts ∨ n = inst.seqNum ∧ inst.waitsForCommit = true
  linked : q1.Linked q2 inst.seqNum (if inst.waitsForCommit then [] else inst.srcRegs.zipIdx)

/-- Then come its destinations and the memory dependence unit, which may clear `canIssue`
and leaves `q3`; in `q4`, `sns` are on the ready lists. -/
structure Insertion (w : IssueWorld σ) (inst inst' : DynInst) (q1 q2 q3 q4 : InstructionQueue σ)
    (sns : List Nat) : Prop extends Arrival w inst q1 q2 where
  cleared : inst' = { q2.insts inst.seqNum with canIssue := inst'.canIssue }
  canIssue : inst'.canIssue = true → (q2.insts inst.seqNum).canIssue = true
  produced : q3 = { q2.produce inst.seqNum with
    insts := update q2.insts inst.seqNum inst'
    memDepUnit := q3.memDepUnit }
  push : q3.Pushes q4 sns
  put : ∀ n ∈ sns, n = inst.seqNum ∧ inst.waitsForCommit = false ∧ inst'.sourcesReady = true
  nodup : sns.Nodup
  complete : inst.waitsForCommit = false → inst.isMemRef = false → inst'.sourcesReady = true →
    inst.seqNum ∈ sns

namespace Arrival

variable {q1 q2 : InstructionQueue σ} (h : Arrival w inst q1 q2)
include h

theorem inst_self : q1.insts inst.seqNum = inst := by
  rw [h.entry]
  exact update_self ..

theorem inst_eq : q2.insts inst.seqNum = { inst with
    readySrcRegIdx := (q2.insts inst.seqNum).readySrcRegIdx
    readyRegs := (q2.insts inst.seqNum).readyRegs
    canIssue := (q2.insts inst.seqNum).canIssue } := by
  have hinst := h.linked.inst
  rwa [h.inst_self] at hinst

theorem frame : q2 = { w.queue with
    insts := update w.queue.insts inst.seqNum (q2.insts inst.seqNum)
    instList := update w.queue.instList inst.threadNumber
      (w.queue.instList inst.threadNumber ++ [inst.seqNum])
    freeEntries := w.queue.freeEntries - 1
    dependGraph := q2.dependGraph
    nonSpecInsts := q1.nonSpecInsts
    memDepUnit := q1.memDepUnit } := by
  have hsame := h.linked.same
  rw [h.entry] at hsame
  simpa using hsame

end Arrival

namespace Insertion

variable {q1 q2 q3 q4 : InstructionQueue σ} (h : Insertion w inst inst' q1 q2 q3 q4 sns)
include h

theorem inst'_eq : inst' = { inst with
    readySrcRegIdx := inst'.readySrcRegIdx, readyRegs := inst'.readyRegs
    canIssue := inst'.canIssue } := by
  rw [h.cleared, h.inst_eq]

theorem alike : Alike inst inst' := by
  rw [h.inst'_eq]
  exact ⟨rfl, rfl, rfl, rfl, rfl, rfl, rfl⟩

theorem marked_iff (idx : Nat) : idx ∈ inst'.readySrcRegIdx ↔ idx ∈ inst.readySrcRegIdx ∨
    ∃ o ∈ if inst.waitsForCommit then [] else inst.srcRegs.zipIdx, o.2 = idx ∧
      q1.arrived inst.readySrcRegIdx o = true := by
  rw [h.cleared, h.linked.marked, h.inst_self]

theorem waits_iff (o : Nat × Nat) : q1.waits inst.readySrcRegIdx o = true ↔
    o.2 ∉ inst.readySrcRegIdx ∧ o.1 < w.queue.numPhysRegs ∧ w.queue.regScoreboard o.1 = false := by
  rw [h.entry]
  exact decide_eq_true_iff

theorem arrived_iff (o : Nat × Nat) : q1.arrived inst.readySrcRegIdx o = true ↔
    o.2 ∉ inst.readySrcRegIdx ∧ o.1 < w.queue.numPhysRegs ∧ w.queue.regScoreboard o.1 = true := by
  rw [h.entry]
  exact decide_eq_true_iff

theorem accounted : (q2.insts inst.seqNum).Accounted := h.linked.accounted

theorem readyRegs : inst'.readyRegs = inst'.available fun _ => False := by
  rw [h.cleared]
  exact h.accounted.readyRegs

theorem sourcesReady_of_canIssue (hcan : inst'.canIssue = true) : inst'.sourcesReady = true := by
  have hready := h.accounted.canIssue.mp (h.canIssue hcan)
  rw [h.cleared]
  exact beq_iff_eq.mpr hready

theorem marked (o : Nat × Nat) (ho : o ∈ inst.srcRegs.zipIdx) (hm : o.2 ∈ inst'.readySrcRegIdx) :
    o.2 ∈ inst.readySrcRegIdx ∨ o.1 < w.queue.numPhysRegs ∧ w.queue.regScoreboard o.1 = true := by
  refine ((h.marked_iff o.2).mp hm).imp_right ?_
  rintro ⟨o', ho', hidx, harrived⟩
  have hmem : o' ∈ inst.srcRegs.zipIdx := by
    split at ho'
    · simp at ho'
    · exact ho'
  cases operand_unique hmem ho hidx
  exact ((h.arrived_iff o).mp harrived).2

theorem waiting (hwaits : inst.waitsForCommit = false) (o : Nat × Nat) (ho : o ∈ inst.srcRegs.zipIdx)
    (hnot : o.2 ∉ inst'.readySrcRegIdx) (hlt : o.1 < w.queue.numPhysRegs) :
    w.queue.regScoreboard o.1 = false := by
  rw [Bool.eq_false_iff]
  intro hboard
  refine hnot ((h.marked_iff o.2).mpr (or_iff_not_imp_left.mpr fun hn => ⟨o, ?_, rfl, ?_⟩))
  · rw [hwaits]
    exact ho
  · exact (h.arrived_iff o).mpr ⟨hn, hlt, hboard⟩

theorem countP_waits (reg : Nat) :
    (inst.srcRegs.zipIdx.countP fun o =>
      q1.waits inst.readySrcRegIdx o && decide (o.1 = reg)) =
    if reg < w.queue.numPhysRegs ∧ w.queue.regScoreboard reg = false then inst'.unmarked reg
    else 0 := by
  split
  · rename_i hreg
    rw [DynInst.unmarked, h.alike.srcRegs]
    refine countP_congr fun o ho => ?_
    rw [Bool.and_eq_true, h.waits_iff, decide_eq_true_iff, decide_eq_true_iff]
    constructor
    · rintro ⟨⟨hnot, hlt, hboard⟩, rfl⟩
      refine ⟨rfl, fun hm => ?_⟩
      rcases h.marked o ho hm with hm | ⟨-, hyes⟩
      · exact hnot hm
      · exact Bool.false_ne_true (hboard.symm.trans hyes)
    · rintro ⟨rfl, hnot⟩
      exact ⟨⟨fun hm => hnot ((h.marked_iff o.2).mpr (.inl hm)), hreg⟩, rfl⟩
  · rename_i hreg
    rw [countP_eq_zero]
    intro o ho
    rw [Bool.and_eq_true, h.waits_iff, decide_eq_true_iff]
    rintro ⟨⟨-, hwait⟩, rfl⟩
    exact hreg hwait

theorem chain (reg n : Nat) : (q2.dependGraph reg).count n = (w.queue.dependGraph reg).count n +
    if (reg < w.queue.numPhysRegs ∧ w.queue.regScoreboard reg = false) ∧ n = inst.seqNum ∧
      inst.waitsForCommit = false then inst'.unmarked reg else 0 := by
  have hgraph : q1.dependGraph reg = w.queue.dependGraph reg := by rw [h.entry]
  rw [h.linked.chain, count_append, count_replicate, Nat.add_comm, h.inst_self, hgraph]
  refine congrArg ((w.queue.dependGraph reg).count n + ·) ?_
  cases hwaits : inst.waitsForCommit with
  | true => simp
  | false =>
    rw [if_neg Bool.false_ne_true, h.countP_waits]
    by_cases hn : n = inst.seqNum
    · subst hn; simp
    · simp [hn, Ne.symm hn]

theorem after_eq : q4 = { w.queue with
    insts := update w.queue.insts inst.seqNum inst'
    instList := update w.queue.instList inst.threadNumber
      (w.queue.instList inst.threadNumber ++ [inst.seqNum])
    freeEntries := w.queue.freeEntries - 1
    dependGraph := q2.dependGraph
    regScoreboard := (q2.produce inst.seqNum).regScoreboard
    nonSpecInsts := q1.nonSpecInsts
    memDepUnit := q3.memDepUnit
    readyInsts := q4.readyInsts
    listOrder := q4.listOrder
    queueOnList := q4.queueOnList
    readied := w.queue.readied ++ sns } := by
  rw [h.push.same, h.produced, h.frame]
  simp [produce]

theorem scoreboard (reg : Nat) : q4.regScoreboard reg =
    if reg ∈ inst.destRegs ∧ reg < w.queue.numPhysRegs then false
    else w.queue.regScoreboard reg := by
  have hdests : (q2.insts inst.seqNum).destRegs = inst.destRegs := by rw [h.inst_eq]
  rw [h.after_eq]
  show (if reg ∈ (q2.insts inst.seqNum).destRegs ∧ reg < q2.numPhysRegs then false
    else q2.regScoreboard reg) = _
  rw [hdests, h.frame]

theorem readyInsts (op : Nat) : (q4.readyInsts op).Perm
    (sns.filter (fun n => (q4.insts n).opClass = op) ++ w.queue.readyInsts op) := by
  have hinsts : q4.insts = q3.insts := by rw [h.push.same]
  have hready : q3.readyInsts = w.queue.readyInsts := by rw [h.produced, h.frame]; rfl
  rw [hinsts, ← hready]
  exact h.push.perm op

theorem entered (hq : q = { q4 with
      count := update q4.count inst.threadNumber (q4.count inst.threadNumber + 1) }) :
    Entered w q inst inst' sns where
  insts := by rw [hq, h.after_eq]
  instList := by rw [hq, h.after_eq]
  count := by rw [hq, h.after_eq]
  freeEntries := by
    rw [hq, h.after_eq]
    exact Nat.succ_pred h.free
  numEntries := by rw [hq, h.after_eq]
  numPhysRegs := by rw [hq, h.after_eq]
  numThreads := by rw [hq, h.after_eq]
  scoreboard := by rw [hq]; exact h.scoreboard
  chain := by rw [hq, h.after_eq]; exact h.chain
  alike := h.alike
  issued := by rw [h.inst'_eq]; exact h.renamed.issued
  squashedInIQ := by rw [h.inst'_eq]; exact h.renamed.squashedInIQ
  memOpDone := by rw [h.inst'_eq]; exact h.renamed.memOpDone
  readyRegs := h.readyRegs
  canIssue := h.sourcesReady_of_canIssue
  marked := h.marked
  waiting := h.waiting
  nonSpecInsts n hn := by
    rw [hq, h.after_eq] at hn
    exact h.nonSpec n hn
  readied := by rw [hq, h.after_eq]
  readyInsts := by rw [hq]; exact h.readyInsts
  put := h.put
  nodup := h.nodup
  complete := h.complete

end Insertion

section Units

variable (hcore : w.Core [] w.queue.regScoreboard 0 []) (henters : w.Enters inst)
include hcore henters

theorem Enters.fresh_clients : MemDepUnit.Fresh (w.clients inst.threadNumber) inst.seqNum where
  known hk := henters.fresh hk.1
  active ha := henters.fresh (hcore.ids.unretired _ ha.1.1).1
  regs hr := henters.fresh hr.1
  given hg := henters.fresh (hcore.lists.readied _ hg).1
  done hd := henters.fresh (hcore.ids.completed _ hd).1
  last n hn := henters.last n hn.1 hn.2

variable (h : Entered w q inst inst' sns)
include h

omit hcore in
theorem Entered.known_iff (t n : Nat) : ((w.after q inst).clients t).known n ↔
    (w.clients t).known n ∨ n = inst.seqNum ∧ t = inst.threadNumber := by
  show n ∈ inst.seqNum :: w.inserted ∧ _ ↔ (n ∈ w.inserted ∧ _) ∨ _
  by_cases hn : n = inst.seqNum
  · subst hn
    rw [h.inst_self, h.alike.threadNumber]
    simp [henters.fresh, eq_comm]
  · rw [h.inst_of_ne hn]
    simp [hn]

theorem Entered.active_iff (t n : Nat) : ((w.after q inst).clients t).active n ↔
    (w.clients t).active n ∨ n = inst.seqNum ∧ t = inst.threadNumber ∧ inst.waitsForCommit = false ∧
      inst.isMemRef = true := by
  show (n ∈ inst.seqNum :: w.unretired ∧ _) ∧ _ ∧ _ ↔ ((n ∈ w.unretired ∧ _) ∧ _) ∨ _
  by_cases hn : n = inst.seqNum
  · subst hn
    rw [h.inst_self, h.alike.threadNumber, h.alike.waitsForCommit, h.alike.isMemRef]
    have hnot : inst.seqNum ∉ w.unretired := fun hu => henters.fresh (hcore.ids.unretired _ hu).1
    tauto
  · rw [h.inst_of_ne hn]
    simp [hn]

theorem Entered.active_old (hn : (w.clients t).active n) :
    ((w.after q inst).inst n = w.inst n) ∧ n ∈ w.inserted ∧ n ∉ sns := by
  have hins := (hcore.ids.unretired n hn.1.1).1
  exact ⟨h.old henters hins, hins, fun hs => henters.ne hins (h.put n hs).1⟩

theorem Entered.hands_enter {t : Nat} {unit : MemDepUnit σ}
    (hunit : t ≠ inst.threadNumber ∧ unit.Hands (w.clients t) ∨
      unit.Hands ((w.clients t).enter inst.seqNum) ∧ t = inst.threadNumber ∧
      ¬ (inst.waitsForCommit = false ∧ inst.isMemRef = true)) :
    unit.Hands ((w.after q inst).clients t) := by
  have hregs : ∀ n, (w.clients t).active n →
      (((w.after q inst).clients t).regs n ↔ (w.clients t).regs n) := by
    intro n hn
    obtain ⟨hsame, hins, -⟩ := h.active_old hcore henters hn
    show n ∈ inst.seqNum :: w.inserted ∧ _ ↔ n ∈ w.inserted ∧ _
    rw [hsame]
    simp [hins]
  have hgiven : ∀ n, (w.clients t).active n →
      (((w.after q inst).clients t).given n ↔ (w.clients t).given n) := by
    intro n hn
    obtain ⟨-, -, hns⟩ := h.active_old hcore henters hn
    show n ∈ q.readied ↔ n ∈ w.queue.readied
    rw [h.readied]
    simp [hns]
  rcases hunit with ⟨ht, hunit⟩ | ⟨hunit, ht, hnot⟩
  · refine hunit.congr (fun n => ?_) (fun n => ?_) hregs hgiven fun _ _ => Iff.rfl
    · rw [h.known_iff henters]
      exact or_iff_left fun hn => ht hn.2
    · rw [h.active_iff hcore henters]
      exact or_iff_left fun hn => ht hn.2.1
  · refine hunit.congr (fun n => ?_) (fun n => ?_) hregs hgiven fun _ _ => Iff.rfl
    · rw [h.known_iff henters]
      exact or_congr_right (and_iff_left ht)
    · rw [h.active_iff hcore henters]
      exact or_iff_left fun hn => hnot hn.2.2

theorem Entered.hands_add {unit : MemDepUnit σ} (hwaits : inst.waitsForCommit = false)
    (hmem : inst.isMemRef = true) (hunit : unit.Hands
      (((w.clients inst.threadNumber).add inst.seqNum (inst'.sourcesReady = true)).give sns)) :
    unit.Hands ((w.after q inst).clients inst.threadNumber) := by
  refine hunit.congr (fun n => ?_) (fun n => ?_) (fun n hn => ?_) (fun n _ => ?_) fun _ _ => Iff.rfl
  · rw [h.known_iff henters]
    exact or_congr_right (and_iff_left rfl)
  · rw [h.active_iff hcore henters]
    exact or_congr_right (and_iff_left ⟨rfl, hwaits, hmem⟩)
  · show n ∈ inst.seqNum :: w.inserted ∧ _ ↔ (n ∈ w.inserted ∧ _) ∨ _
    by_cases hne : n = inst.seqNum
    · subst hne
      rw [h.inst_self]
      simp [henters.fresh]
    · rw [h.inst_of_ne hne]
      simp [hne]
  · show n ∈ q.readied ↔ n ∈ w.queue.readied ∨ n ∈ sns
    rw [h.readied, mem_append]

end Units

section Events

theorem after_units (w : IssueWorld σ) (q : InstructionQueue σ) (inst : DynInst) :
    (w.after q inst).queue.memDepUnit = q.memDepUnit := rfl

theorem enter_meets (q : InstructionQueue σ) (inst : DynInst) :
    Meets (fun q' => q.freeEntries ≠ 0 ∧ q' = { q with
      insts := update q.insts inst.seqNum inst
      instList := update q.instList inst.threadNumber (q.instList inst.threadNumber ++ [inst.seqNum])
      freeEntries := q.freeEntries - 1 }) Apart (q.enter inst) :=
  Meets.bind (ensure (apart_assertion (by decide))) fun _ hfree => pure ⟨by simpa using hfree, rfl⟩

theorem entered_meets (q : InstructionQueue σ) (tid : Nat) :
    Meets (fun q' => q' = { q with count := update q.count tid (q.count tid + 1) }) Apart
      (q.entered tid) :=
  Meets.bind (ensure (apart_assertion (by decide))) fun _ _ => pure rfl

theorem Inv.chain_dest (hinv : w.Inv []) (hreg : ∀ sn ∈ w.unretired, reg ∉ (w.inst sn).srcRegs) :
    w.queue.dependGraph reg = [] := by
  rw [eq_nil_iff_forall_not_mem]
  intro n hn
  have hcount := hinv.core.chains reg n
  have hpos := count_pos_iff.mpr hn
  rw [hcount] at hpos
  simp only [count_nil, ite_self, Nat.add_zero] at hpos
  split at hpos
  · rename_i hc
    exact absurd hpos (by simp [DynInst.unmarked_eq_zero (hreg n hc.2.1)])
  · exact absurd hpos (lt_irrefl 0)

variable (hinv : w.Inv []) (henters : w.Enters inst)
  (hunread : ∀ reg ∈ inst.destRegs, reg < w.queue.numPhysRegs →
    reg ∉ inst.srcRegs ∧ ∀ sn ∈ w.unretired, reg ∉ (w.inst sn).srcRegs)
include hinv henters hunread

def Landed (w : IssueWorld σ) (inst : DynInst) (q4 : InstructionQueue σ) : Prop :=
  ∃ inst' q1 q2 q3 sns, Insertion w inst inst' q1 q2 q3 q4 sns ∧
    ∀ q, Entered w q inst inst' sns → ∀ t, (q4.memDepUnit t).ready = [] ∧
      (q4.memDepUnit t).Hands ((w.after q inst).clients t)

theorem Inv.land (h : w.Landed inst q4) :
    Meets (fun q => (w.after q inst).Inv []) Apart (q4.entered inst.threadNumber) := by
  obtain ⟨inst', q1, q2, q3, sns, hins, hunits⟩ := h
  refine (entered_meets q4 inst.threadNumber).mono fun q hq => ?_
  have hentered := hins.entered hq
  refine ⟨hentered.core hinv.core henters hunread, ?_⟩
  rw [Units, after_units, hq]
  rw [hq] at hentered
  exact hunits _ hentered

omit henters in
theorem Arrival.dests_empty (h : Arrival w inst q1 q2) :
    ∀ reg ∈ (q2.insts inst.seqNum).destRegs, reg < q2.numPhysRegs → q2.dependGraph reg = [] := by
  intro reg hreg hlt
  have hgraph : q1.dependGraph reg = w.queue.dependGraph reg := by rw [h.entry]
  rw [h.inst_eq] at hreg
  rw [h.frame] at hlt
  obtain ⟨hnot, hothers⟩ := hunread reg hreg hlt
  rw [h.linked.chain, hgraph, hinv.chain_dest hothers, append_nil, replicate_eq_nil_iff,
    countP_eq_zero]
  intro o ho
  have hne : o.1 ≠ reg := by
    split at ho
    · simp at ho
    · exact fun heq => hnot (heq ▸ fst_mem_of_mem_zipIdx ho)
  simp [hne]

section Insert

variable {q1 q2 : InstructionQueue σ} (harrival : Arrival w inst q1 q2)
  (hunits : q2.memDepUnit = w.queue.memDepUnit) (hwaits : inst.waitsForCommit = false)
include harrival hunits hwaits

omit hunread in
theorem Inv.insert_memRef (hmem : inst.isMemRef = true) : Meets (Landed w inst) Apart (do
    let (unit, canIssue) ← inUnit (((q2.produce inst.seqNum).memDepUnit inst.threadNumber).insert
      inst.toMemDepInst ((q2.produce inst.seqNum).insts inst.seqNum).canIssue)
    ((q2.produce inst.seqNum).setInst inst.seqNum
      { (q2.produce inst.seqNum).insts inst.seqNum with canIssue }).takeUnit
        inst.threadNumber unit) := by
  refine bind_inUnit fun ⟨unit, canIssue⟩ hok => ?_
  have hok : (w.queue.memDepUnit inst.threadNumber).insert inst.toMemDepInst
      (q2.insts inst.seqNum).canIssue = .ok (unit, canIssue) := hunits ▸ hok
  obtain ⟨hready, hhands⟩ := hinv.units inst.threadNumber
  obtain ⟨hcan, sns, hsns, hnodup, hself, hnew⟩ :=
    MemDepUnit.insert_hands hhands (henters.fresh_clients hinv.core) hok hready
  set inst' : DynInst := { q2.insts inst.seqNum with canIssue }
  have hsources : (q2.insts inst.seqNum).canIssue = true ↔ inst'.sourcesReady = true :=
    harrival.linked.accounted.canIssue.trans beq_iff_eq.symm
  refine (takeUnit_meets hsns).mono fun q4 hpush => ⟨inst', q1, q2, _, sns, { harrival with
    cleared := rfl
    canIssue := hcan
    produced := rfl
    push := hpush
    put := fun n hn => ⟨(hself n hn).1, hwaits, hsources.mp (hself n hn).2⟩
    nodup := hnodup
    complete := fun _ hno => absurd (hno.symm.trans hmem) Bool.false_ne_true }, fun q hq t => ?_⟩
  have hafter : q4.memDepUnit =
      update w.queue.memDepUnit inst.threadNumber { unit with ready := [] } := by
    rw [hpush.same, ← hunits]
    rfl
  rw [hafter, update_apply]
  split
  · subst t
    rw [hsources] at hnew
    have hadd := hq.hands_add hinv.core henters hwaits hmem hnew
    exact ⟨rfl, hadd.of_entries rfl (fun _ => id) rfl⟩
  · rename_i ht
    exact ⟨(hinv.units t).1, hq.hands_enter hinv.core henters (.inl ⟨ht, (hinv.units t).2⟩)⟩

omit hunread in
theorem Inv.insert_other (hmem : inst.isMemRef = false) :
    Meets (Landed w inst) Apart ((q2.produce inst.seqNum).addIfReady inst.seqNum) := by
  have hsources : (q2.insts inst.seqNum).canIssue = true ↔
      (q2.insts inst.seqNum).sourcesReady = true :=
    harrival.linked.accounted.canIssue.trans beq_iff_eq.symm
  have hlanded : ∀ {q4 sns}, (q2.produce inst.seqNum).Pushes q4 sns → sns.Nodup →
      (∀ n, n ∈ sns ↔ n = inst.seqNum ∧ (q2.insts inst.seqNum).canIssue = true) →
      Landed w inst q4 := by
    intro q4 sns hpush hnodup hput
    refine ⟨_, q1, q2, _, sns, { harrival with
      cleared := rfl
      canIssue := id
      produced := by simp [produce]
      push := hpush
      put := fun n hn => ⟨((hput n).mp hn).1, hwaits, hsources.mp ((hput n).mp hn).2⟩
      nodup := hnodup
      complete := fun _ _ hs => (hput _).mpr ⟨rfl, hsources.mpr hs⟩ }, fun q hq t => ?_⟩
    have hafter : q4.memDepUnit = w.queue.memDepUnit := by
      rw [hpush.same, ← hunits]
      rfl
    rw [hafter]
    refine ⟨(hinv.units t).1, hq.hands_enter hinv.core henters ?_⟩
    by_cases ht : t = inst.threadNumber
    · exact .inr ⟨(hinv.units t).2.enter, ht, fun hno => Bool.false_ne_true (hmem.symm.trans hno.2)⟩
    · exact .inl ⟨ht, (hinv.units t).2⟩
  have hnot : ((q2.produce inst.seqNum).insts inst.seqNum).isMemRef = false := by
    show (q2.insts inst.seqNum).isMemRef = false
    rw [harrival.inst_eq]
    exact hmem
  unfold addIfReady
  refine ite (fun hcan => ?_) fun hcan => pure ?_
  · have hcan : (q2.insts inst.seqNum).canIssue = true := hcan
    rw [hnot, if_neg Bool.false_ne_true]
    exact (pushReady_meets inst.seqNum).mono fun q4 hpush =>
      hlanded hpush (nodup_singleton _) fun n => by simp [hcan]
  · have hcan : ¬ (q2.insts inst.seqNum).canIssue = true := hcan
    exact hlanded (.nil _) nodup_nil fun n => by simp [hcan]

end Insert

theorem Inv.insert (hwaits : inst.waitsForCommit = false) :
    Meets (fun q => (w.after q inst).Inv []) Apart (w.queue.insert inst) := by
  unfold InstructionQueue.insert
  refine Meets.bind (enter_meets w.queue inst) fun q1 ⟨hfree, hq1⟩ => ?_
  dsimp only
  have hself : q1.insts inst.seqNum = inst := by rw [hq1]; exact update_self ..
  have hlinked : Linked q1 (q1.addToDependents inst.seqNum) inst.seqNum _ :=
    addToDependents_linked (by rw [hself]; exact henters.renamed.toAccounted)
  have harrival : Arrival w inst q1 (q1.addToDependents inst.seqNum) :=
    { renamed := henters.renamed
      free := hfree
      entry := by rw [hq1]
      nonSpec := fun n hn => .inl (by rwa [hq1] at hn)
      linked := by rwa [hwaits, if_neg Bool.false_ne_true, ← congrArg DynInst.srcRegs hself] }
  have hunits : (q1.addToDependents inst.seqNum).memDepUnit = w.queue.memDepUnit := by
    rw [harrival.frame, hq1]
  rw [addToProducers_eq (harrival.dests_empty hinv hunread), ok_bind]
  refine Meets.bind (P := Landed w inst) (ite (fun hmem => ?_) fun hmem => ?_)
    fun q4 hlanded => hinv.land henters hunread hlanded
  · exact hinv.insert_memRef henters harrival hunits hwaits hmem
  · exact hinv.insert_other henters harrival hunits hwaits (Bool.eq_false_iff.mpr hmem)

/-- Instructions that are held back until commit: `units` are the memory dependence units,
which know the new instruction already or do not need to. -/
theorem Inv.insertNonSpec (hwaits : inst.waitsForCommit = true) (units : Nat → MemDepUnit σ)
    (hunits : ∀ t, (units t).ready = [] ∧
      (t ≠ inst.threadNumber → (units t).Hands (w.clients t)) ∧
      (t = inst.threadNumber → (units t).Hands (w.clients t) ∨
        (units t).Hands ((w.clients t).enter inst.seqNum) ∧ inst.isMemRef = false)) :
    Meets (fun q => (w.after q inst).Inv []) Apart
      (InstructionQueue.insertNonSpec { w.queue with memDepUnit := units } inst) := by
  unfold InstructionQueue.insertNonSpec
  refine Meets.bind (enter_meets _ inst) fun q1 ⟨hfree, hq1⟩ => ?_
  have hself : q1.insts inst.seqNum = inst := by rw [hq1]; exact update_self ..
  have harrival : Arrival w inst q1 q1 :=
    { renamed := henters.renamed
      free := hfree
      entry := by rw [hq1]
      nonSpec := fun n hn => by
        rw [hq1] at hn
        exact (mem_cons.mp hn).symm.imp_right fun heq => ⟨heq, hwaits⟩
      linked := by
        rw [hwaits, if_pos rfl]
        exact ⟨by simp, fun _ => by simp, by simp, fun _ => by simp,
          by rw [hself]; exact henters.renamed.toAccounted⟩ }
  rw [addToProducers_eq (harrival.dests_empty hinv hunread), ok_bind]
  -- Nothing is put on the ready lists, and the unit of the thread knows the instruction then.
  have hlanded : ∀ units' {q4}, InstructionQueue.Pushes
        { q1.produce inst.seqNum with memDepUnit := units' } q4 [] →
      (∀ t, (units' t).ready = [] ∧ (t ≠ inst.threadNumber → (units' t).Hands (w.clients t)) ∧
        (t = inst.threadNumber → (units' t).Hands ((w.clients t).enter inst.seqNum))) →
      Landed w inst q4 := by
    intro units' q4 hpush hunits'
    refine ⟨_, q1, q1, _, [], { harrival with
      cleared := rfl
      canIssue := id
      produced := by simp [produce]
      push := hpush
      put := nofun
      nodup := nodup_nil
      complete := fun hno => absurd (hwaits.symm.trans hno) Bool.false_ne_true.symm },
        fun q hq t => ?_⟩
    have hafter : q4.memDepUnit = units' := by rw [hpush.same]
    rw [hafter]
    refine ⟨(hunits' t).1, hq.hands_enter hinv.core henters ?_⟩
    by_cases ht : t = inst.threadNumber
    · exact .inr ⟨(hunits' t).2.2 ht, ht,
        fun hno => absurd (hwaits.symm.trans hno.1) Bool.false_ne_true.symm⟩
    · exact .inl ⟨ht, (hunits' t).2.1 ht⟩
  have hunits1 : (q1.produce inst.seqNum).memDepUnit = units := by rw [hq1]; rfl
  refine Meets.bind (P := Landed w inst) (ite (fun hmem => ?_) fun hmem => pure ?_)
    fun q4 hlanded => hinv.land henters hunread hlanded
  · refine bind_inUnit fun unit hok => ?_
    rw [hunits1] at hok
    obtain ⟨hready, -, hhands⟩ := hunits inst.threadNumber
    have hhands := (hhands rfl).resolve_right fun hno =>
      Bool.false_ne_true (hno.2.symm.trans hmem)
    obtain ⟨hready', hnew⟩ :=
      MemDepUnit.insertNonSpec_hands hhands (henters.fresh_clients hinv.core) hok
    have hnone : unit.ready.map (·.seqNum) = [] := by rw [hready', hready]; rfl
    refine (takeUnit_meets hnone).mono fun q4 hpush => hlanded _ hpush fun t => ?_
    rw [hunits1, update_apply]
    split
    · subst t
      exact ⟨rfl, fun hne => absurd rfl hne, fun _ => hnew.of_entries rfl (fun _ => id) rfl⟩
    · rename_i ht
      exact ⟨(hunits t).1, (hunits t).2.1, fun heq => absurd heq ht⟩
  · refine hlanded units (by rw [← hunits1]; exact .nil _) fun t =>
      ⟨(hunits t).1, (hunits t).2.1, fun ht => ?_⟩
    exact ((hunits t).2.2 ht).elim (fun hold => hold.enter) And.left

theorem Inv.insertBarrier (hwaits : inst.waitsForCommit = true) (hmem : inst.isMemRef = false) :
    Meets (fun q => (w.after q inst).Inv []) Apart (w.queue.insertBarrier inst) := by
  unfold InstructionQueue.insertBarrier
  refine hinv.insertNonSpec henters hunread hwaits _ fun t => ?_
  obtain ⟨hready, hnew⟩ := MemDepUnit.insertBarrier_hands (hinv.units inst.threadNumber).2
    (henters.fresh_clients hinv.core)
  rw [update_apply]
  split
  · subst t
    exact ⟨hready.trans (hinv.units _).1, fun hne => absurd rfl hne, fun _ => .inr ⟨hnew, hmem⟩⟩
  · rename_i ht
    exact ⟨(hinv.units t).1, fun _ => (hinv.units t).2, fun heq => absurd heq ht⟩

end Events

end IssueWorld

end Gem5
