import Gem5.Cpu.O3.IssueTracking
import Mathlib.Data.List.TakeWhile

/-!
# How the parts of the instruction queue's invariant change
-/

namespace Gem5

open Lib List DynInst Meets
open Function (update update_self update_of_ne update_apply)

namespace IssueWorld

variable {σ : Type} {w w' : IssueWorld σ} {avail : Nat → Bool} {owed pending : List Nat} {sn : Nat}

@[simp] theorem setQueue_queue (w : IssueWorld σ) (q : InstructionQueue σ) :
    (w.setQueue q).queue = q := rfl

theorem mem_retire : sn ∈ (w.retire p).unretired ↔ sn ∈ w.unretired ∧ p sn = false := by
  simp [retire]

structure Alike (inst inst' : DynInst) : Prop where
  toMemDepInst : inst'.toMemDepInst = inst.toMemDepInst
  threadNumber : inst'.threadNumber = inst.threadNumber
  opClass : inst'.opClass = inst.opClass
  isMemRef : inst'.isMemRef = inst.isMemRef
  waitsForCommit : inst'.waitsForCommit = inst.waitsForCommit
  srcRegs : inst'.srcRegs = inst.srcRegs
  destRegs : inst'.destRegs = inst.destRegs

theorem Alike.refl (inst : DynInst) : Alike inst inst := ⟨rfl, rfl, rfl, rfl, rfl, rfl, rfl⟩

theorem Alike.trans (h : Alike i j) (h' : Alike j k) : Alike i k :=
  ⟨h'.1.trans h.1, h'.2.trans h.2, h'.3.trans h.3, h'.4.trans h.4, h'.5.trans h.5,
    h'.6.trans h.6, h'.7.trans h.7⟩

structure Knows (w w' : IssueWorld σ) : Prop where
  inserted : w'.inserted = w.inserted
  unretired : w'.unretired = w.unretired
  completed : ∀ sn ∈ w.completed, sn ∈ w'.completed
  producer : w'.producer = w.producer
  awaits : w'.awaits = w.awaits
  numPhysRegs : w'.queue.numPhysRegs = w.queue.numPhysRegs
  numThreads : w'.queue.numThreads = w.queue.numThreads
  numEntries : w'.queue.numEntries = w.queue.numEntries
  insts : ∀ sn, Alike (w.inst sn) (w'.inst sn)

theorem Knows.reader (h : Knows w w') : w'.Reader sn ↔ w.Reader sn := by
  rw [Reader, Reader, h.unretired, (h.insts sn).waitsForCommit]

theorem Knows.supplied (h : Knows w w') {regs : List Nat} {producer : Nat → Option Nat}
    (hs : w.Supplied regs producer) :
    w'.Supplied regs producer :=
  fun reg hreg hlt p hp => h.completed p (hs reg hreg (h.numPhysRegs ▸ hlt) p hp)

theorem Ids.knows (h : w.Ids) (hk : Knows w w') (hlist : w'.queue.instList = w.queue.instList)
    (hsq : ∀ n, (w'.inst n).squashedInIQ = (w.inst n).squashedInIQ)
    (hinq : ∀ n, (w.inst n).inQueue = false → (w'.inst n).inQueue = false)
    (hcompleted : ∀ n ∈ w'.completed, n ∈ w.completed ∨ n ∈ w.inserted ∧ (w'.inst n).inQueue = false)
    (hdone : ∀ n ∈ w.unretired, (w'.inst n).memOpDone = true → (w.inst n).memOpDone = true ∨
      n ∈ w'.completed) :
    w'.Ids where
  seqNum n hn := by
    rw [(hk.insts n).toMemDepInst]
    exact h.seqNum n (hk.inserted ▸ hn)
  thread n hn := by
    rw [(hk.insts n).threadNumber, hk.numThreads]
    exact h.thread n (hk.inserted ▸ hn)
  unretired n hn := by
    rw [hk.inserted, hlist, (hk.insts n).threadNumber]
    exact h.unretired n (hk.unretired ▸ hn)
  list tid n hn := by
    rw [hk.inserted, (hk.insts n).threadNumber, hsq]
    exact h.list tid n (hlist ▸ hn)
  sorted tid := hlist ▸ h.sorted tid
  retired tid n hn hnr := hinq n (h.retired tid n (hlist ▸ hn) (hk.unretired ▸ hnr))
  completed n hn := by
    rw [hk.inserted, hk.unretired]
    rcases hcompleted n hn with hold | hnew
    · exact ⟨(h.completed n hold).1, fun hu => hinq n ((h.completed n hold).2 hu)⟩
    · exact ⟨hnew.1, fun _ => hnew.2⟩
  memOpDone n hn hd := by
    rw [hk.unretired] at hn
    exact (hdone n hn hd).elim (fun hold => hk.completed n (h.memOpDone n hn hold)) id

theorem Chains.knows (h : w.Chains avail woken owed) (hk : Knows w w')
    (hchain : w'.queue.dependGraph = w.queue.dependGraph) (hmarked : ∀ n,
      (w'.inst n).readySrcRegIdx = (w.inst n).readySrcRegIdx) : w'.Chains avail woken owed := by
  intro reg n
  have hunmarked : (w'.inst n).unmarked reg = (w.inst n).unmarked reg := by
    rw [unmarked, unmarked, (hk.insts n).srcRegs, hmarked]
  simp only [hchain, hk.numPhysRegs, hk.reader, hunmarked]
  exact h reg n

theorem available_congr {inst inst' : DynInst} {p p' : Nat → Prop} [DecidablePred p] [DecidablePred p']
    (hsrc : inst'.srcRegs = inst.srcRegs) (hmarked : inst'.readySrcRegIdx = inst.readySrcRegIdx)
    (hp : ∀ reg ∈ inst.srcRegs, p' reg ↔ p reg) : inst'.available p' = inst.available p := by
  rw [available, available, hsrc, hmarked]
  refine countP_congr fun o ho => ?_
  rw [decide_eq_true_iff, decide_eq_true_iff, hp o.1 (fst_mem_of_mem_zipIdx ho)]

theorem Account.knows (h : w.Account avail owed) (hk : Knows w w')
    (hmarked : ∀ n, (w'.inst n).readySrcRegIdx = (w.inst n).readySrcRegIdx)
    (hready : ∀ n, (w'.inst n).readyRegs = (w.inst n).readyRegs)
    (hcan : ∀ n, w.Reader n → (w'.inst n).canIssue = (w.inst n).canIssue) : w'.Account avail owed where
  readyRegs n hn := by
    rw [hready, available_congr (hk.insts n).srcRegs (hmarked n) fun _ _ => by rw [hk.numPhysRegs]]
    exact h.readyRegs n (hk.reader.mp hn)
  canIssue n hn := by
    rw [hcan n (hk.reader.mp hn), sourcesReady, hready, (hk.insts n).srcRegs]
    exact h.canIssue n (hk.reader.mp hn)
  owed n hn := hk.reader.mpr (h.owed n hn)

theorem Produces.knows (h : w.Produces pending) (hk : Knows w w')
    (hboard : w'.queue.regScoreboard = w.queue.regScoreboard)
    (hpending : ∀ reg < w.queue.numPhysRegs, reg ∉ pending' → reg ∉ pending ∧
      (w'.Produced (w.producer reg) → w.Produced (w.producer reg)))
    (hmarked : ∀ n, (w'.inst n).readySrcRegIdx = (w.inst n).readySrcRegIdx) :
    w'.Produces pending' where
  scoreboard reg hreg hb := by
    obtain ⟨p, hp, heq⟩ := h.scoreboard reg (hk.numPhysRegs ▸ hreg) (hboard ▸ hb)
    exact ⟨p, hk.completed p hp, hk.producer ▸ heq⟩
  produced reg hreg hnp hp := by
    rw [hk.numPhysRegs] at hreg
    rw [hk.producer] at hp
    obtain ⟨hnp, hback⟩ := hpending reg hreg hnp
    rw [hboard]
    exact h.produced reg hreg hnp (hback hp)
  awaits n hn reg hreg hlt := by
    rw [hk.awaits, hk.producer]
    exact h.awaits n (hk.unretired ▸ hn) reg ((hk.insts n).srcRegs ▸ hreg) (hk.numPhysRegs ▸ hlt)
  dests n hn hnc reg hreg hlt := by
    rw [hk.producer]
    exact h.dests n (hk.unretired ▸ hn) (fun hc => hnc (hk.completed n hc)) reg
      ((hk.insts n).destRegs ▸ hreg)
      (hk.numPhysRegs ▸ hlt)
  producer reg n hn := by
    rw [hk.inserted, (hk.insts n).destRegs]
    exact h.producer reg n (hk.producer ▸ hn)
  marked n hn o ho hidx := by
    rw [hk.awaits]
    rw [(hk.insts n).srcRegs] at ho
    exact hk.supplied (h.marked n (hk.unretired ▸ hn) o ho (hmarked n ▸ hidx))

theorem Counts.release (h : w.Counts) (htid : tid < w.queue.numThreads)
    (hmem : sn ∈ w.queue.instList tid) (hnodup : (w.queue.instList tid).Nodup)
    (honly : ∀ t, t ≠ tid → sn ∉ w.queue.instList t) (hin : (w.inst sn).inQueue = true)
    (hout : (w'.inst sn).inQueue = false)
    (hsame : ∀ n, n ≠ sn → (w'.inst n).inQueue = (w.inst n).inQueue)
    (hlist : w'.queue.instList = w.queue.instList)
    (hcount : w'.queue.count = update w.queue.count tid (w.queue.count tid - 1))
    (hfree : w'.queue.freeEntries = w.queue.freeEntries + 1)
    (hthreads : w'.queue.numThreads = w.queue.numThreads)
    (hentries : w'.queue.numEntries = w.queue.numEntries) : w'.Counts := by
  obtain ⟨before, after, hl⟩ := append_of_mem hmem
  rw [hl, nodup_append, nodup_cons] at hnodup
  have hother : ∀ l : List Nat, sn ∉ l →
      (l.countP fun n => (w'.inst n).inQueue) = l.countP fun n => (w.inst n).inQueue :=
    fun l hl => countP_congr fun n hn => by rw [hsame n (ne_of_mem_of_not_mem hn hl)]
  have hb : sn ∉ before := fun hb => hnodup.2.2 sn hb sn mem_cons_self rfl
  have hone : w.queue.count tid = (w'.queue.instList tid).countP
      (fun n => (w'.inst n).inQueue) + 1 := by
    rw [h.count, hlist, hl, countP_append, countP_append, countP_cons, countP_cons,
      hother before hb, hother after hnodup.2.1.1, hin, hout]
    simp [Nat.add_assoc]
  refine ⟨fun t => ?_, ?_⟩
  · rw [hcount, update_apply]
    split
    · subst tid
      rw [hone, Nat.add_sub_cancel]
    · rename_i ht
      rw [h.count, hlist, hother _ (honly t ht)]
  · rw [hfree, hthreads, hentries, hcount, ← h.total,
      Finset.sum_update_of_mem (Finset.mem_range.mpr htid), ← Finset.sum_erase_add
      _ _ (Finset.mem_range.mpr htid), Finset.sdiff_singleton_eq_erase, hone]
    simp only [Nat.add_sub_cancel]
    ring

theorem Counts.knows (h : w.Counts) (hk : Knows w w') (hlist : w'.queue.instList = w.queue.instList)
    (hinq : ∀ n, (w'.inst n).inQueue = (w.inst n).inQueue) (hcount : w'.queue.count = w.queue.count)
    (hfree : w'.queue.freeEntries = w.queue.freeEntries) : w'.Counts where
  count tid := by
    simp only [hcount, hlist, hinq]
    exact h.count tid
  total := by
    rw [hcount, hfree, hk.numThreads, hk.numEntries]
    exact h.total

theorem Lists.push (h : w.Lists) (hk : Knows w w')
    (hreadied : w'.queue.readied = w.queue.readied ++ sns)
    (hperm : ∀ op, (w'.queue.readyInsts op).Perm
      (sns.filter (fun n => (w.inst n).opClass = op) ++ w.queue.readyInsts op))
    (hnodup : sns.Nodup)
    (hnew : ∀ n ∈ sns, n ∉ w.queue.readied ∧ n ∈ w'.unretired ∧
      (w'.inst n).issued = false ∧ n ∈ w'.inserted ∧
      w'.Supplied (w'.inst n).srcRegs (w'.awaits n))
    (hsquashed : ∀ n, (w.inst n).squashed = true → (w'.inst n).squashed = true)
    (hissued : ∀ n ∈ w.unretired, (w'.inst n).issued = true → (w.inst n).issued = true ∨
      n ∈ w.queue.readied)
    (hunissued : ∀ op, ∀ n ∈ w.queue.readyInsts op, (w'.inst n).issued = (w.inst n).issued)
    (hsound : ∀ n, w'.Reader n → n ∈ w'.queue.readied → (w'.inst n).sourcesReady = true)
    (hcomplete : ∀ n, w'.Reader n → (w'.inst n).isMemRef = false →
      (w'.inst n).sourcesReady = true → n ∈ w'.queue.readied)
    (hnonspec : ∀ n ∈ w'.queue.nonSpecInsts, n ∈ w.queue.nonSpecInsts ∧ n ∉ sns) : w'.Lists where
  once := by
    rw [hreadied]
    exact h.once.append hnodup fun n hn hn' => (hnew n hn').1 hn
  readied n hn := by
    rw [hreadied] at hn
    rcases mem_append.mp hn with hn | hn
    · rw [hk.inserted, (hk.insts n).srcRegs, hk.awaits]
      exact ⟨(h.readied n hn).1, hk.supplied (h.readied n hn).2⟩
    · exact (hnew n hn).2.2.2
  sound := hsound
  complete := hcomplete
  held n hn := hk.inserted ▸ h.held n (hnonspec n hn).1
  nonSpec n hn hns := by
    obtain ⟨hold, hnot⟩ := hnonspec n hns
    obtain ⟨hw, hnr⟩ := h.nonSpec n (hk.unretired ▸ hn) hold
    rw [hreadied]
    exact ⟨(hk.insts n).waitsForCommit.trans hw, fun hmem => (mem_append.mp hmem).elim hnr hnot⟩
  issued n hn hi := by
    rw [hreadied]
    rw [hk.unretired] at hn
    exact mem_append_left _ ((hissued n hn hi).elim (h.issued n hn) id)
  ready op n hn := by
    rw [(hk.insts n).opClass, hreadied]
    rcases mem_append.mp ((hperm op).subset hn) with hn | hn
    · obtain ⟨hmem, hop⟩ := mem_filter.mp hn
      obtain ⟨-, hu, hi, -⟩ := hnew n hmem
      exact ⟨of_decide_eq_true hop, mem_append_right _ hmem, .inr ⟨hu, hi⟩⟩
    · rw [hunissued op n hn]
      obtain ⟨hop, hr, hor⟩ := h.ready op n hn
      exact ⟨hop, mem_append_left _ hr, hor.imp (hsquashed n) fun hu =>
        ⟨hk.unretired.symm ▸ hu.1, hu.2⟩⟩
  nodup op := by
    rw [(hperm op).nodup_iff]
    refine (hnodup.filter _).append (h.nodup op) fun n hn hn' => ?_
    exact (hnew n (mem_of_mem_filter hn)).1 (h.ready op n hn').2.1

theorem inQueue_of_not_issued {inst : DynInst} (h : inst.issued = false) : inst.inQueue = true := by
  simp [inQueue, h]

theorem issued_of_not_inQueue {inst : DynInst} (h : inst.inQueue = false) : inst.issued = true := by
  cases hi : inst.issued with
  | true => rfl
  | false => simp [inQueue, hi] at h

section

variable (h : w.Account avail owed) (hreader : w.Reader sn)
  (hsources : (w.inst sn).sourcesReady = true)
include h hreader hsources

theorem Account.all_available :
    ∀ o ∈ (w.inst sn).srcRegs.zipIdx, o.2 ∈ (w.inst sn).readySrcRegIdx ∨ o.1 < w.queue.numPhysRegs ∧
      avail o.1 = true := by
  have hready := h.readyRegs sn hreader
  rw [beq_iff_eq.mp hsources] at hready
  have hle := (w.inst sn).available_le fun reg => reg < w.queue.numPhysRegs ∧ avail reg = true
  have hall : (w.inst sn).available (fun reg => reg < w.queue.numPhysRegs ∧ avail reg = true) =
      (w.inst sn).srcRegs.zipIdx.length := by
    rw [length_zipIdx]
    omega
  intro o ho
  exact of_decide_eq_true (countP_eq_length.mp hall o ho)

theorem Account.unmarked_eq_zero (hreg : avail reg = false) : (w.inst sn).unmarked reg = 0 := by
  rw [unmarked, countP_eq_zero]
  intro o ho
  rw [decide_eq_true_iff]
  rintro ⟨rfl, hnot⟩
  rcases h.all_available hreader hsources o ho with hm | ⟨-, ha⟩
  · exact hnot hm
  · exact absurd ha (by simp [hreg])

theorem Account.supplied (hp : w.Produces pending)
    (havail : ∀ reg < w.queue.numPhysRegs, avail reg = true → w.Produced (w.producer reg)) :
    w.Supplied (w.inst sn).srcRegs (w.awaits sn) := by
  intro reg hreg hlt p heq
  obtain ⟨idx, hidx⟩ := exists_operand hreg
  rcases h.all_available hreader hsources (reg, idx) hidx with hm | ⟨-, ha⟩
  · exact hp.marked sn hreader.1 (reg, idx) hidx hm reg mem_cons_self hlt p heq
  · obtain ⟨p', hp', heq'⟩ := havail reg hlt ha
    rw [hp.awaits sn hreader.1 reg hreg hlt, heq'] at heq
    exact Option.some.inj heq ▸ hp'

end

structure Touches (w w' : IssueWorld σ) (sn : Nat) (inst : DynInst) : Prop where
  inserted : w'.inserted = w.inserted
  unretired : w'.unretired = w.unretired
  completed : ∀ n ∈ w.completed, n ∈ w'.completed
  producer : w'.producer = w.producer
  awaits : w'.awaits = w.awaits
  numPhysRegs : w'.queue.numPhysRegs = w.queue.numPhysRegs
  numThreads : w'.queue.numThreads = w.queue.numThreads
  numEntries : w'.queue.numEntries = w.queue.numEntries
  instList : w'.queue.instList = w.queue.instList
  regScoreboard : w'.queue.regScoreboard = w.queue.regScoreboard
  insts : w'.queue.insts = update w.queue.insts sn inst
  alike : Alike (w.inst sn) inst

theorem Touches.of_setInst {inst : DynInst} (q : InstructionQueue σ)
    (hq : q = { w.queue.setInst sn inst with
      dependGraph := q.dependGraph, nonSpecInsts := q.nonSpecInsts, readyInsts := q.readyInsts,
      listOrder := q.listOrder
      queueOnList := q.queueOnList, freeEntries := q.freeEntries, count := q.count,
      memDepUnit := q.memDepUnit
      readied := q.readied }) (h : Alike (w.inst sn) inst) : Touches w (w.setQueue q) sn inst := by
  rw [hq]
  exact ⟨rfl, rfl, fun _ => id, rfl, rfl, rfl, rfl, rfl, rfl, rfl, rfl, h⟩

namespace Touches

variable {inst : DynInst} (ht : Touches w w' sn inst)
include ht

theorem inst_cases (n : Nat) : w'.inst n = if n = sn then inst else w.inst n := by
  show w'.queue.insts n = _
  rw [ht.insts]
  exact update_apply ..

theorem read {β : Type} (g : DynInst → β) (hg : g inst = g (w.inst sn)) (n : Nat) :
    g (w'.inst n) = g (w.inst n) := by
  rw [ht.inst_cases]
  split
  · subst n; exact hg
  · rfl

theorem knows : Knows w w' := by
  refine { ht with insts := fun n => ?_ }
  rw [ht.inst_cases]
  split
  · subst n; exact ht.alike
  · exact .refl _

theorem core (h : w.Core pending avail woken owed)
    (hchain : w'.queue.dependGraph = w.queue.dependGraph)
    (hmarked : inst.readySrcRegIdx = (w.inst sn).readySrcRegIdx)
    (hready : inst.readyRegs = (w.inst sn).readyRegs) (hcan : w.Reader sn →
      inst.canIssue = (w.inst sn).canIssue) (hsq : inst.squashedInIQ = (w.inst sn).squashedInIQ)
    (hinq : (w.inst sn).inQueue = false → inst.inQueue = false)
    (hcompleted : ∀ n ∈ w'.completed, n ∈ w.completed ∨ n ∈ w.inserted ∧ (w'.inst n).inQueue = false)
    (hdone : inst.memOpDone = true → (w.inst sn).memOpDone = true ∨ sn ∈ w'.completed)
    (hpending : ∀ reg < w.queue.numPhysRegs, reg ∉ pending' → reg ∉ pending ∧
      (w'.Produced (w.producer reg) → w.Produced (w.producer reg)))
    (hcounts : w'.Counts) (hlists : w'.Lists) : w'.Core pending' avail woken owed := by
  have hk := ht.knows
  have hmarked := ht.read (·.readySrcRegIdx) hmarked
  refine ⟨h.ids.knows hk ht.instList (ht.read (·.squashedInIQ) hsq) (fun n hn => ?_) hcompleted
    (fun n _ hd => ?_), hcounts, h.chains.knows hk hchain hmarked,
    h.account.knows hk hmarked (ht.read (·.readyRegs) hready) fun n hn => ?_,
    h.produces.knows hk ht.regScoreboard hpending hmarked, hlists⟩
  · rw [ht.inst_cases]
    split
    · subst n; exact hinq hn
    · exact hn
  · rw [ht.inst_cases] at hd
    split at hd
    · subst n; exact hdone hd
    · exact .inl hd
  · rw [ht.inst_cases]
    split
    · subst n; exact hcan hn
    · rfl

variable (hsquashed : (w.inst sn).squashed = true → inst.squashed = true)
  (hissued : inst.issued = true → (w.inst sn).issued = true ∨ sn ∈ w.queue.readied)
  (hunissued : inst.issued = (w.inst sn).issued ∨ ∀ op, sn ∉ w.queue.readyInsts op)
include hsquashed hissued hunissued

theorem lists (h : w.Lists) (hids : w.Ids) (hreadied : w'.queue.readied = w.queue.readied ++ sns)
    (hperm : ∀ op, (w'.queue.readyInsts op).Perm
      (sns.filter (fun n => (w.inst n).opClass = op) ++ w.queue.readyInsts op))
    (hnodup : sns.Nodup) (hns : w'.queue.nonSpecInsts = w.queue.nonSpecInsts)
    (hsns : ∀ n ∈ sns, w.Reader n ∧ n ∉ w.queue.readied ∧ (w'.inst n).sourcesReady = true ∧
      w'.Supplied (w'.inst n).srcRegs (w'.awaits n))
    (hsound : ∀ n, w.Reader n → n ∈ w.queue.readied → (w'.inst n).sourcesReady = true)
    (hcomplete : ∀ n, w.Reader n → (w.inst n).isMemRef = false →
      (w'.inst n).sourcesReady = true → n ∈ w.queue.readied ∨ n ∈ sns) : w'.Lists := by
  have hk := ht.knows
  have hissued : ∀ n, (w'.inst n).issued = true → (w.inst n).issued = true ∨ n ∈ w.queue.readied := by
    intro n hi
    rw [ht.inst_cases] at hi
    split at hi
    · subst n; exact hissued hi
    · exact .inl hi
  refine h.push hk hreadied hperm hnodup (fun n hn => ?_) (fun n hn => ?_) (fun n _ => hissued n)
    (fun op n hn => ?_)
    (fun n hn hr => ?_) (fun n hn hm hc => ?_) fun n hn => ?_
  · obtain ⟨hreader, hnr, -, hsupplied⟩ := hsns n hn
    refine ⟨hnr, hk.unretired ▸ hreader.1, ?_, hk.inserted ▸ (hids.unretired n hreader.1).1, hsupplied⟩
    rw [Bool.eq_false_iff]
    exact fun hi => hnr ((hissued n hi).elim (h.issued n hreader.1) id)
  · rw [ht.inst_cases]
    split
    · subst n; exact hsquashed hn
    · exact hn
  · rcases hunissued with hsame | hgone
    · exact ht.read (·.issued) hsame n
    · rw [ht.inst_cases, if_neg]
      rintro rfl
      exact hgone op hn
  · rw [hreadied] at hr
    exact (mem_append.mp hr).elim (hsound n (hk.reader.mp hn)) fun hs => (hsns n hs).2.2.1
  · rw [hreadied, mem_append]
    exact hcomplete n (hk.reader.mp hn) ((hk.insts n).isMemRef ▸ hm) hc
  · rw [hns] at hn
    refine ⟨hn, fun hs => ?_⟩
    obtain ⟨hreader, -⟩ := hsns n hs
    exact Bool.false_ne_true (hreader.2.symm.trans (h.nonSpec n hreader.1 hn).1)

theorem lists_nil (h : w.Lists) (hids : w.Ids)
    (hsources : inst.sourcesReady = (w.inst sn).sourcesReady)
    (hreadied : w'.queue.readied = w.queue.readied) (hready : w'.queue.readyInsts = w.queue.readyInsts)
    (hns : w'.queue.nonSpecInsts = w.queue.nonSpecInsts) : w'.Lists := by
  have hsources := ht.read (·.sourcesReady) hsources
  refine ht.lists hsquashed hissued hunissued h hids (hreadied.trans (append_nil _).symm)
    (fun op => by rw [hready]; exact .refl _) nodup_nil hns
    nofun (fun n hn hr => (hsources n).trans (h.sound n hn hr))
    (fun n hn hm hc => .inl (h.complete n hn hm ((hsources n).symm.trans hc)))

end Touches

section Retire

section

variable {q : InstructionQueue σ} {insts : Nat → DynInst} {left : Nat → List Nat} {p : Nat → Bool}
  (hq : q = { w.queue with
    insts := insts, dependGraph := graph, nonSpecInsts := specs, count := entries,
    freeEntries := free, instList := left })
  (halike : ∀ n, Alike (w.inst n) (insts n)) (hkept : ∀ n, p n = false → insts n = w.inst n)
  (hns : ∀ n ∈ specs, n ∈ w.queue.nonSpecInsts)
  (hsquashed : ∀ n, p n = true →
    (w.inst n).squashed = true ∨ n ∈ w.unretired ∧ (w.inst n).issued = false →
      (insts n).squashed = true)
  (hsub : ∀ t, (left t).Sublist (w.queue.instList t))
  (hkeep : ∀ t, ∀ n ∈ w.queue.instList t, n ∈ w.unretired → p n = false → n ∈ left t)
  (hout : ∀ t, ∀ n ∈ left t, p n = true → (insts n).inQueue = false ∧ (insts n).squashedInIQ = false)
include hq

theorem inst_leave (n : Nat) : ((w.setQueue q).retire p).inst n = insts n := by
  subst hq
  rfl

include halike

theorem reader_leave (n : Nat) : ((w.setQueue q).retire p).Reader n ↔ w.Reader n ∧ p n = false := by
  rw [Reader, Reader, mem_retire, inst_leave hq, (halike n).waitsForCommit]
  exact and_right_comm

include hkept

include hns hsquashed in
theorem Lists.leave (h : w.Lists) : ((w.setQueue q).retire p).Lists := by
  have hinst := inst_leave (p := p) hq
  have hreader := fun {n} => reader_leave (p := p) hq halike n
  subst hq
  refine ⟨h.once, fun n hn => ?_, fun n hn hr => ?_, fun n hn hm hc => ?_,
    fun n hn => h.held n (hns n hn), fun n hn hn' => ?_, fun n hn hi => ?_, fun op n hn => ?_, h.nodup⟩
  · rw [hinst, (halike n).srcRegs]
    exact h.readied n hn
  · rw [hinst, hkept n (hreader.mp hn).2]
    exact h.sound n (hreader.mp hn).1 hr
  · rw [hinst, hkept n (hreader.mp hn).2] at hm hc
    exact h.complete n (hreader.mp hn).1 hm hc
  · rw [hinst, (halike n).waitsForCommit]
    exact h.nonSpec n (mem_retire.mp hn).1 (hns n hn')
  · obtain ⟨hu, hp⟩ := mem_retire.mp hn
    rw [hinst, hkept n hp] at hi
    exact h.issued n hu hi
  · obtain ⟨hop, hr, hor⟩ := h.ready op n hn
    refine ⟨(halike n).opClass.trans hop, hr, ?_⟩
    rw [hinst]
    cases hp : p n with
    | true => exact .inl (hsquashed n hp hor)
    | false =>
      rw [hkept n hp]
      exact hor.imp_right fun hu => ⟨mem_retire.mpr ⟨hu.1, hp⟩, hu.2⟩

include hsub hkeep hout

theorem Ids.leave (h : w.Ids) : ((w.setQueue q).retire p).Ids := by
  have hinst := inst_leave (p := p) hq
  subst hq
  refine ⟨fun n hn => ?_, fun n hn => ?_, fun n hn => ?_, fun t n hn => ?_,
    fun t => (h.sorted t).sublist (hsub t), fun t n hn hnr => ?_,
    fun n hn => ⟨(h.completed n hn).1, fun hu => ?_⟩, fun n hn hd => ?_⟩
  · rw [hinst, (halike n).toMemDepInst]
    exact h.seqNum n hn
  · rw [hinst, (halike n).threadNumber]
    exact h.thread n hn
  · obtain ⟨hu, hp⟩ := mem_retire.mp hn
    rw [hinst, hkept n hp]
    exact ⟨(h.unretired n hu).1, hkeep _ n (h.unretired n hu).2 hu hp⟩
  · obtain ⟨hins, hthread, hsq⟩ := h.list t n ((hsub t).subset hn)
    refine ⟨hins, (halike n).threadNumber.trans hthread, ?_⟩
    rw [hinst]
    cases hp : p n with
    | false => rwa [hkept n hp]
    | true => exact (hout t n hn hp).2
  · rw [hinst]
    cases hp : p n with
    | false =>
      rw [hkept n hp]
      exact h.retired t n ((hsub t).subset hn) fun hu => hnr (mem_retire.mpr ⟨hu, hp⟩)
    | true => exact (hout t n hn hp).1
  · obtain ⟨hu, hp⟩ := mem_retire.mp hu
    rw [hinst, hkept n hp]
    exact (h.completed n hn).2 hu
  · obtain ⟨hu, hp⟩ := mem_retire.mp hn
    rw [hinst, hkept n hp] at hd
    exact h.memOpDone n hu hd

include hns hsquashed

/-- Instructions are retired. They leave the chains, and the list of their thread if they
still have an entry. -/
theorem Core.leave (h : w.Core pending avail woken [])
    (hchain : ∀ reg n, (graph reg).count n = if p n then 0 else (w.queue.dependGraph reg).count n)
    (hcounts : ((w.setQueue q).retire p).Counts) :
    ((w.setQueue q).retire p).Core pending avail woken [] := by
  have hinst := inst_leave (p := p) hq
  have hreader := fun {n} => reader_leave (p := p) hq halike n
  have hlists := h.lists.leave hq halike hkept hns hsquashed
  have hids := h.ids.leave hq halike hkept hsub hkeep hout
  subst hq
  refine ⟨hids, hcounts, fun reg n => ?_, ⟨fun n hn => ?_, fun n hn => ?_, nofun⟩,
    ⟨h.produces.scoreboard, h.produces.produced, fun n hn r hr => ?_, fun n hn hnc r hr => ?_,
      fun r n hn => ?_, fun n hn o ho hm => ?_⟩, hlists⟩
  · refine (hchain reg n).trans ?_
    simp only [hreader, count_nil, ite_self, Nat.add_zero]
    cases hp : p n with
    | true => simp
    | false =>
      rw [if_neg Bool.false_ne_true, h.chains reg n, hinst, hkept n hp]
      simp only [and_true, count_nil, ite_self, Nat.add_zero]
      rfl
  · rw [hinst, hkept n (hreader.mp hn).2]
    exact h.account.readyRegs n (hreader.mp hn).1
  · rw [hinst, hkept n (hreader.mp hn).2]
    exact h.account.canIssue n (hreader.mp hn).1
  · exact h.produces.awaits n (mem_retire.mp hn).1 r ((halike n).srcRegs ▸ hr)
  · exact h.produces.dests n (mem_retire.mp hn).1 hnc r ((halike n).destRegs ▸ hr)
  · rw [hinst, (halike n).destRegs]
    exact h.produces.producer r n hn
  · obtain ⟨hu, hp⟩ := mem_retire.mp hn
    rw [hinst, hkept n hp] at ho hm
    exact h.produces.marked n hu o ho hm

end

theorem countP_sublist {l l' : List Nat} {f : Nat → Bool} (hsub : l'.Sublist l) (hnodup : l.Nodup)
    (hkeep : ∀ n ∈ l, f n = true → n ∈ l') : l'.countP f = l.countP f := by
  induction hsub with
  | slnil => rfl
  | @cons l' l n hsub ih =>
    rw [nodup_cons] at hnodup
    have hn : f n = false := by
      rw [Bool.eq_false_iff]
      exact fun hf => hnodup.1 (hsub.subset (hkeep n mem_cons_self hf))
    rw [countP_cons_of_neg (by simp [hn])]
    exact ih hnodup.2 fun m hm => hkeep m (mem_cons_of_mem _ hm)
  | @cons_cons l' l n hsub ih =>
    rw [nodup_cons] at hnodup
    have hrest := ih hnodup.2 fun m hm hf =>
      (mem_cons.mp (hkeep m (mem_cons_of_mem _ hm) hf)).resolve_left
      (ne_of_mem_of_not_mem hm hnodup.1)
    rw [countP_cons, countP_cons, hrest]

theorem Core.retire (h : w.Core pending avail woken [])
    (hp : ∀ n ∈ w.unretired, p n = true → (w.inst n).inQueue = false) (lists : Nat → List Nat)
    (hsub : ∀ tid, (lists tid).Sublist (w.queue.instList tid))
    (hkeep : ∀ tid, ∀ n ∈ w.queue.instList tid, n ∈ w.unretired → p n = false → n ∈ lists tid) :
    ((w.setQueue { w.queue with instList := lists }).retire p).Core pending avail woken [] := by
  have hinq : ∀ t, ∀ n ∈ w.queue.instList t, (n ∈ w.unretired → p n = true) →
      (w.inst n).inQueue = false := by
    intro t n hn hpn
    by_cases hu : n ∈ w.unretired
    · exact hp n hu (hpn hu)
    · exact h.ids.retired t n hn hu
  refine h.leave rfl (fun _ => .refl _) (fun _ _ => rfl) (fun _ => id)
    (fun n hpn hor => hor.elim id fun hu => ?_) hsub hkeep
    (fun t n hn hpn => ⟨hinq t n ((hsub t).subset hn) fun _ => hpn,
      (h.ids.list t n ((hsub t).subset hn)).2.2⟩) (fun reg n => ?_) ⟨fun t => ?_, h.counts.total⟩
  · exact absurd (hu.2.symm.trans (issued_of_not_inQueue (hp n hu.1 hpn))) Bool.false_ne_true
  · -- a reader without an entry was issued, and waits for nothing
    split
    · rename_i hpn
      rw [h.chains reg n, count_nil, ite_self, Nat.add_zero]
      refine ite_eq_right_iff.mpr fun ⟨⟨_, hreg⟩, hr⟩ => ?_
      have hissued := issued_of_not_inQueue (hp n hr.1 hpn)
      exact h.account.unmarked_eq_zero hr (h.lists.sound n hr (h.lists.issued n hr.1 hissued)) hreg
    · rfl
  · refine (h.counts.count t).trans (countP_sublist (hsub t) (h.ids.sorted t).nodup
      fun n hn hin => ?_).symm
    by_contra hnot
    refine Bool.false_ne_true ((hinq t n hn fun hu => ?_).symm.trans hin)
    by_contra hpn
    exact hnot (hkeep t n hn hu (Bool.eq_false_iff.mpr hpn))

end Retire

section Simple

structure Tells (w w' : IssueWorld σ) (sns : List Nat) (t : Nat) (c : MemDepUnit.Clients) : Prop where
  known : c.known = (w.clients t).known
  active : c.active = (w.clients t).active
  regs : ∀ n, (w.clients t).active n → (c.regs n ↔ (w'.inst n).sourcesReady = true)
  given : ∀ n, (w.clients t).active n → (c.given n ↔ n ∈ w.queue.readied ∨ n ∈ sns)
  done : ∀ n, (w.clients t).active n → (c.done n ↔ n ∈ w'.completed)

def Skips (w w' : IssueWorld σ) (sns : List Nat) (n : Nat) : Prop :=
  (w'.inst n).sourcesReady = (w.inst n).sourcesReady ∧ n ∉ sns ∧ (n ∈ w'.completed → n ∈ w.completed)

section

variable (hk : Knows w w') (hids : w.Ids)
include hk hids

theorem Knows.tells (h : ∀ n, (w.clients t).active n → Skips w w' sns n) :
    Tells w w' sns t (w.clients t) where
  known := rfl
  active := rfl
  regs n hn := by
    rw [(h n hn).1]
    exact and_iff_right (hids.unretired n hn.1.1).1
  given n hn := (or_iff_left (h n hn).2.1).symm
  done n hn := ⟨hk.completed n, (h n hn).2.2⟩

variable (hreadied : w'.queue.readied = w.queue.readied ++ sns)
include hreadied

theorem Knows.hands
    (ht : Tells w w' sns t c) {unit : MemDepUnit σ} (hunit : unit.Hands c) :
    unit.Hands (w'.clients t) := by
  refine hunit.congr (fun n => ?_) (fun n => ?_) (fun n hn => ?_) (fun n hn => ?_) fun n hn => ?_
  · rw [ht.known]
    show n ∈ w'.inserted ∧ _ ↔ n ∈ w.inserted ∧ _
    rw [hk.inserted, (hk.insts n).threadNumber]
  · rw [ht.active]
    show w'.Reader n ∧ _ ∧ _ ↔ w.Reader n ∧ _ ∧ _
    rw [hk.reader, (hk.insts n).isMemRef, (hk.insts n).threadNumber]
  all_goals rw [ht.active] at hn
  · rw [ht.regs n hn]
    show n ∈ w'.inserted ∧ _ ↔ _
    rw [hk.inserted]
    exact and_iff_right (hids.unretired n hn.1.1).1
  · rw [ht.given n hn, ← mem_append, ← hreadied]
    rfl
  · exact (ht.done n hn).symm

theorem Units.knows (h : w.Units) (hskips : ∀ t n, (w.clients t).active n → Skips w w' sns n)
    (hunit : ∀ tid, (w.queue.memDepUnit tid).ready = [] →
      (w.queue.memDepUnit tid).Hands (w.clients tid) →
      (w'.queue.memDepUnit tid).ready = [] ∧
      (w'.queue.memDepUnit tid).Hands (w.clients tid)) : w'.Units := by
  intro t
  obtain ⟨hready, hhands⟩ := hunit t (h t).1 (h t).2
  exact ⟨hready, hk.hands hids hreadied (hk.tells hids (hskips t)) hhands⟩

theorem Units.update (h : w.Units) {unit : MemDepUnit σ} (hunit : unit.Hands c)
    (hunits : ∀ t, w'.queue.memDepUnit t = if t = tid then unit else w.queue.memDepUnit t)
    (hready : unit.ready = []) (htells : Tells w w' sns tid c)
    (hskips : ∀ n, ¬ (w.inst n).threadNumber = tid → Skips w w' sns n) : w'.Units := by
  intro t
  rw [hunits t]
  split
  · subst t
    exact ⟨hready, hk.hands hids hreadied htells hunit⟩
  · rename_i ht
    exact ⟨(h t).1, hk.hands hids hreadied (hk.tells hids fun n hn => hskips n (hn.2.2 ▸ ht)) (h t).2⟩

end

theorem Inv.mark (h : w.Inv pending) {hasFault completed squashed : Bool} {inst : DynInst}
    (hinst : inst = { w.inst sn with
      hasFault := (w.inst sn).hasFault || hasFault
      completed := (w.inst sn).completed || completed
      squashed := (w.inst sn).squashed || squashed }) : (w.setQueue (w.queue.setInst sn inst)).Inv
        pending := by
  have ht := Touches.of_setInst (w.queue.setInst sn inst)
    rfl (by rw [hinst]; exact ⟨rfl, rfl, rfl, rfl, rfl, rfl, rfl⟩)
  have hsources : inst.sourcesReady = (w.inst sn).sourcesReady := by rw [hinst]; rfl
  have hinq : inst.inQueue = (w.inst sn).inQueue := by rw [hinst]; rfl
  have hissued : inst.issued = (w.inst sn).issued := by rw [hinst]
  -- Nothing that the invariant reads changes, but for `squashed`, which can only become true.
  refine ⟨ht.core h.core rfl (by rw [hinst]) (by rw [hinst]) (fun _ => by rw [hinst])
    (by rw [hinst]) hinq.trans (fun _ => .inl)
    (fun hd => .inl (by rwa [hinst] at hd)) (fun _ _ hp => ⟨hp, id⟩)
    (h.core.counts.knows ht.knows rfl (ht.read (·.inQueue) hinq) rfl rfl) ?_,
    h.units.knows ht.knows h.core.ids (append_nil _).symm
    (fun _ n _ => ⟨ht.read (·.sourcesReady) hsources n, not_mem_nil, id⟩)
      fun _ h1 h2 => ⟨h1, h2⟩⟩
  exact ht.lists_nil (fun hs => by simp [hinst, hs]) (fun hi => .inl (hissued ▸ hi)) (.inl hissued)
    h.core.lists h.core.ids hsources
    rfl rfl rfl

theorem Inv.commit (h : w.Inv pending)
    (hcompleted : ∀ n ∈ w.unretired, (w.inst n).threadNumber = tid → n ≤ sn → n ∈ w.completed) :
    Meets (fun q => ((w.setQueue q).retire fun n => (w.inst n).threadNumber == tid &&
      decide (n ≤ sn)).Inv pending) Apart
      (w.queue.commit sn tid) := by
  refine bind (ensure (apart_assertion (by decide))) fun _ _ => pure ?_
  set p : Nat → Bool := fun n => (w.inst n).threadNumber == tid && decide (n ≤ sn) with hp
  have hpn : ∀ n, p n = true ↔ (w.inst n).threadNumber = tid ∧ n ≤ sn := fun n => by simp [hp]
  have hforget := h.core.retire (p := p) (fun n hn hp =>
      (h.core.ids.completed n (hcompleted n hn ((hpn n).mp hp).1 ((hpn n).mp hp).2)).2 hn)
    (update w.queue.instList tid ((w.queue.instList tid).dropWhile (· ≤ sn))) (fun t => ?_)
      fun t n hn hu hno => ?_
  · refine ⟨hforget, fun t => ⟨(h.units t).1, ?_⟩⟩
    refine ((h.units t).2.retire ((w.retire p).clients t).active
      (fun n hn => ⟨⟨(mem_retire.mp hn.1.1).1, hn.1.2⟩, hn.2⟩)
      fun n hn hnot => ?_).congr (fun _ => Iff.rfl) (fun _ => Iff.rfl) (fun _ _ => Iff.rfl)
        (fun _ _ => Iff.rfl) fun _ _ => Iff.rfl
    refine (h.units t).2.done n hn (hcompleted n hn.1.1 ?_ ?_)
    all_goals
      have hyes : p n = true := by
        by_contra hno
        exact hnot ⟨⟨mem_retire.mpr ⟨hn.1.1, Bool.eq_false_iff.mpr hno⟩, hn.1.2⟩, hn.2⟩
    · exact ((hpn n).mp hyes).1
    · exact ((hpn n).mp hyes).2
  · rw [update_apply]
    split
    · subst tid
      exact dropWhile_sublist _
    · rfl
  · rw [update_apply]
    split
    · subst tid
      have hle : ¬ n ≤ sn := fun hle => by
        rw [(hpn n).mpr ⟨(h.core.ids.list t n hn).2.1, hle⟩] at hno
        exact absurd hno (by simp)
      have hn : n ∈ w.queue.instList t := hn
      rw [← takeWhile_append_dropWhile (p := fun m => decide (m ≤ sn)) (l := w.queue.instList t)] at hn
      refine (mem_append.mp hn).resolve_left fun hn => hle ?_
      simpa using mem_takeWhile_imp hn
    · exact hn

end Simple

section Schedule

theorem Inv.pop (h : w.Inv pending) (hsub : ∀ op, (lists op).Sublist (w.queue.readyInsts op))
    (order : List ListOrderEntry) (onList : Nat → Bool) :
    (w.setQueue { w.queue with readyInsts := lists, listOrder := order, queueOnList := onList }).Inv
      pending := by
  have hk : Knows w (w.setQueue { w.queue with
      readyInsts := lists, listOrder := order, queueOnList := onList }) :=
    ⟨rfl, rfl, fun _ => id, rfl, rfl, rfl, rfl, rfl, fun _ => .refl _⟩
  exact ⟨⟨h.core.ids.knows hk rfl (fun _ => rfl) (fun _ => id) (fun _ hn => .inl hn)
    (fun _ _ hd => .inl hd), h.core.counts.knows hk rfl (fun _ => rfl) rfl rfl,
    h.core.chains.knows hk rfl fun _ => rfl,
    h.core.account.knows hk (fun _ => rfl) (fun _ => rfl) fun _ _ => rfl,
    h.core.produces.knows hk rfl (fun _ _ hp => ⟨hp, id⟩) fun _ => rfl,
    ⟨h.core.lists.once, h.core.lists.readied, h.core.lists.sound, h.core.lists.complete,
      h.core.lists.held, h.core.lists.nonSpec, h.core.lists.issued,
      fun op n hn => h.core.lists.ready op n ((hsub op).subset hn),
      fun op => (h.core.lists.nodup op).sublist (hsub op)⟩⟩,
    h.units.knows hk h.core.ids (append_nil _).symm (fun _ _ _ => ⟨rfl, not_mem_nil, id⟩)
    fun _ h1 h2 => ⟨h1, h2⟩⟩

theorem Ids.thread_unique (h : w.Ids) (hn : sn ∈ w.queue.instList tid) (ht : t ≠ tid) :
    sn ∉ w.queue.instList t :=
  fun hn' => ht ((h.list t sn hn').2.1.symm.trans (h.list tid sn hn).2.1)

theorem Inv.issue (h : w.Inv pending) (hu : sn ∈ w.unretired) (hissued : (w.inst sn).issued = false)
    (hreadied : sn ∈ w.queue.readied) (hgone : ∀ op, sn ∉ w.queue.readyInsts op) :
    Meets (fun q => (w.setQueue q).Inv pending) Apart (w.queue.issue sn) := by
  set inst : DynInst := { w.inst sn with issued := true } with hinst
  have hmem := (h.core.ids.unretired sn hu).2
  have hin : (w.inst sn).inQueue = true := inQueue_of_not_issued hissued
  have hdone : (w.inst sn).memOpDone = false := by
    rw [Bool.eq_false_iff]
    intro hd
    have hout := (h.core.ids.completed sn (h.core.ids.memOpDone sn hu hd)).2 hu
    exact Bool.false_ne_true (hout.symm.trans hin)
  -- Whatever else the issue does, the instruction is marked.
  have hall : ∀ {q : InstructionQueue σ}, q = { w.queue.setInst sn inst with
        freeEntries := q.freeEntries, count := q.count, memDepUnit := q.memDepUnit } →
      (w.setQueue q).Counts → (∀ tid, (w.queue.memDepUnit tid).ready = [] →
        (w.queue.memDepUnit tid).Hands (w.clients tid) →
        (q.memDepUnit tid).ready = [] ∧ (q.memDepUnit tid).Hands (w.clients tid)) →
          (w.setQueue q).Inv pending := by
    intro q hq hcounts hunits
    have ht : Touches w (w.setQueue q) sn inst :=
      .of_setInst q (by rw [hq]) ⟨rfl, rfl, rfl, rfl, rfl, rfl, rfl⟩
    have hsame : q.dependGraph = w.queue.dependGraph ∧ q.readied = w.queue.readied ∧
      q.readyInsts = w.queue.readyInsts ∧
        q.nonSpecInsts = w.queue.nonSpecInsts := by
      rw [hq]
      exact ⟨rfl, rfl, rfl, rfl⟩
    obtain ⟨hdg, hrd, hri, hns⟩ := hsame
    have hcore := ht.core h.core hdg rfl rfl (fun _ => rfl)
      rfl (fun hout => absurd hout (by simp [hin])) (fun _ => .inl) .inl
      (fun _ _ hp => ⟨hp, id⟩) hcounts
      (ht.lists_nil id (fun _ => .inr hreadied) (.inr hgone) h.core.lists h.core.ids rfl hrd hri hns)
    exact ⟨ht.regScoreboard ▸ hcore, h.units.knows ht.knows h.core.ids (hrd.trans (append_nil _).symm)
      (fun _ n _ => ⟨ht.read (·.sourcesReady) rfl n, not_mem_nil, id⟩) hunits⟩
  have hself : (w.queue.setInst sn inst).insts sn = inst := update_self ..
  have hother : ∀ n, n ≠ sn → (w.queue.setInst sn inst).insts n = w.inst n :=
    fun n hne => update_of_ne hne ..
  unfold InstructionQueue.issue
  refine ite (fun hmemRef => pure ?_) fun hmemRef => ?_
  · have hmemRef : (w.queue.insts sn).isMemRef = false := by simpa using hmemRef
    refine hall rfl ?_ fun _ h1 h2 => ⟨h1, h2⟩
    refine h.core.counts.release (h.core.ids.thread sn (h.core.ids.unretired sn hu).1) hmem
      (h.core.ids.sorted _).nodup
      (fun t ht => h.core.ids.thread_unique hmem ht) hin ?_ (fun n hne => ?_) rfl rfl rfl rfl rfl
    · refine (congrArg inQueue hself).trans ?_
      simp [hinst, inQueue, IssueWorld.inst, hmemRef]
    · exact congrArg inQueue (hother n hne)
  · have hmemRef : (w.queue.insts sn).isMemRef = true := by simpa using hmemRef
    set tid := (w.queue.insts sn).threadNumber
    refine InstructionQueue.bind_inUnit fun unit hok => pure ?_
    refine hall rfl ⟨fun t => (h.core.counts.count t).trans (countP_congr fun n _ => ?_),
      h.core.counts.total⟩
      fun t h1 h2 => ?_
    · refine iff_of_eq (congrArg (· = true) (Eq.symm ?_))
      by_cases hne : n = sn
      · subst hne
        refine (congrArg inQueue hself).trans (Eq.trans ?_ hin.symm)
        simp only [hinst, inQueue, hdone]
        simp [IssueWorld.inst, hmemRef]
      · exact congrArg inQueue (hother n hne)
    · show (update w.queue.memDepUnit tid unit t).ready = [] ∧
        (update w.queue.memDepUnit tid unit t).Hands _
      rw [update_apply]
      split
      · subst t
        obtain ⟨hready, hhands⟩ := MemDepUnit.issue_hands h2 hok
        exact ⟨hready.trans h1, hhands⟩
      · exact ⟨h1, h2⟩

theorem popReady_eq (q : InstructionQueue σ) (op : Nat) (rest : List ListOrderEntry) :
    ∃ onList, (q.popReady op rest).1 = { q with
      readyInsts := update q.readyInsts op (q.readyInsts op).tail, queueOnList := onList } := by
  unfold InstructionQueue.popReady
  dsimp only
  split
  · exact ⟨_, rfl⟩
  · exact ⟨_, rfl⟩

theorem Inv.scheduleFrom (h : w.Inv pending) (slots : List IssueSlot) (width : Nat)
    (done rest : List ListOrderEntry) :
    Meets (fun q => (w.setQueue q).Inv pending) Apart
      (w.queue.scheduleFrom width done rest slots) := by
  have hstop : ∀ order, (w.setQueue { w.queue with listOrder := order }).Inv pending := fun order =>
    h.pop (fun _ => .refl _) order w.queue.queueOnList
  induction slots generalizing w width done rest with
  | nil => exact pure (hstop _)
  | cons slot slots ih =>
    unfold InstructionQueue.scheduleFrom
    cases rest with
    | nil => exact pure (hstop _)
    | cons entry rest =>
      refine ite (fun _ => pure (hstop _)) fun _ => ?_
      refine bind (need (apart_assertion (by decide))) fun sn htop => ?_
      refine bind (ensure (apart_assertion (by decide))) fun _ _ => ?_
      obtain ⟨onList, hpop⟩ := popReady_eq w.queue entry.queueType rest
      obtain ⟨ready, hready⟩ : ∃ ready, w.queue.readyInsts entry.queueType = sn :: ready :=
        List.head?_eq_some_iff.mp htop
      have hmem : sn ∈ w.queue.readyInsts entry.queueType := hready ▸ mem_cons_self
      have hpopped : (w.setQueue (w.queue.popReady entry.queueType rest).1).Inv pending := by
        rw [hpop]
        refine h.pop (fun op => ?_) w.queue.listOrder onList
        rw [update_apply]
        split
        · subst op
          exact tail_sublist _
        · rfl
      refine ite (fun _ => ?_) fun hsquashed => ?_
      · exact ih hpopped _ _ _ fun order => hpopped.pop (fun _ => .refl _) order _
      · refine ite (fun _ => ?_) fun _ => ih h _ _ _ hstop
        obtain ⟨-, hreadied, hor⟩ := h.core.lists.ready entry.queueType sn hmem
        obtain ⟨hu, hissued⟩ := hor.resolve_left hsquashed
        have hgone : ∀ op, sn ∉ (w.queue.popReady entry.queueType rest).1.readyInsts op := by
          intro op hop
          rw [hpop] at hop
          by_cases heq : op = entry.queueType
          · subst heq
            simp only [update_self, hready, tail_cons] at hop
            have hnodup := h.core.lists.nodup entry.queueType
            rw [hready, nodup_cons] at hnodup
            exact hnodup.1 hop
          · simp only [update_of_ne heq] at hop
            exact heq ((h.core.lists.ready op sn hop).1.symm.trans (h.core.lists.ready _ sn hmem).1)
        have hissue := hpopped.issue hu (by rw [hpop]; exact hissued)
          (by rw [hpop]; exact hreadied) hgone
        refine bind hissue fun q hq => ?_
        exact ih hq _ _ _ fun order => hq.pop (fun _ => .refl _) order _

end Schedule

end IssueWorld

end Gem5
