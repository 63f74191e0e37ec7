import Gem5.Cpu.O3.IssueInsert

/-!
# Completed instructions wake what waits for them
-/

namespace Gem5

open Lib InstructionQueue List Meets MemDepUnit Bool Function

namespace IssueWorld

variable {σ : Type} {w : IssueWorld σ} {avail : Nat → Bool}
  {owed pending sns : List Nat} {sn reg : Nat}

section Owed

variable (h : w.Core pending avail reg (sn :: owed))
include h

theorem Core.not_sourcesReady : (w.inst sn).sourcesReady = false := by
  have hready := h.account.readyRegs sn (h.account.owed sn mem_cons_self)
  have hle := (w.inst sn).available_le fun reg => reg < w.queue.numPhysRegs ∧ avail reg = true
  rw [count_cons_self] at hready
  rw [eq_false_iff, Ne, DynInst.sourcesReady, beq_iff_eq]
  omega

theorem Core.not_canIssue : (w.inst sn).canIssue = false := by
  rw [eq_false_iff]
  intro hcan
  have hsources := h.account.canIssue sn (h.account.owed sn mem_cons_self) hcan
  exact false_ne_true (h.not_sourcesReady.symm.trans hsources)

theorem Core.countReady_canIssue :
    (w.inst sn).countReady.canIssue = (w.inst sn).countReady.sourcesReady := by
  simp [DynInst.countReady, DynInst.sourcesReady, h.not_canIssue]

end Owed

structure Told (w : IssueWorld σ) (q : InstructionQueue σ) (reg sn : Nat)
    (owed sns : List Nat) : Prop where
  same : q = { w.queue with
    insts := update w.queue.insts sn (w.inst sn).countReady
    dependGraph := update w.queue.dependGraph reg owed
    readyInsts := q.readyInsts, listOrder := q.listOrder, queueOnList := q.queueOnList
    readied := w.queue.readied ++ sns, memDepUnit := q.memDepUnit }
  perm : ∀ op, (q.readyInsts op).Perm
    (sns.filter (fun n => (w.inst n).opClass = op) ++ w.queue.readyInsts op)

namespace Told

variable {q : InstructionQueue σ} (ht : Told w q reg sn owed sns)
include ht

theorem touches : Touches w (w.setQueue q) sn (w.inst sn).countReady :=
  .of_setInst q (by rw [ht.same]; rfl) ⟨rfl, rfl, rfl, rfl, rfl, rfl, rfl⟩

variable (h : w.Core pending avail reg (sn :: owed))
include h

theorem account : (w.setQueue q).Account avail owed := by
  have hk := ht.touches.knows
  have hmarked := ht.touches.read (·.readySrcRegIdx) rfl
  refine ⟨fun n hn => ?_, fun n hn => ?_,
    fun n hn => hk.reader.mpr (h.account.owed n (mem_cons_of_mem _ hn))⟩
  · rw [available_congr (hk.insts n).srcRegs (hmarked n) fun _ _ => by rw [hk.numPhysRegs],
      ← h.account.readyRegs n (hk.reader.mp hn), ht.touches.inst_cases]
    split
    · subst n
      rw [count_cons_self]
      exact (Nat.add_assoc ..).trans (congrArg _ (Nat.add_comm ..))
    · rename_i hne
      rw [count_cons_of_ne (Ne.symm hne)]
  · rw [ht.touches.inst_cases]
    split
    · subst n
      rw [h.countReady_canIssue]
      exact id
    · exact h.account.canIssue n (hk.reader.mp hn)

theorem core (hgraph : w.queue.dependGraph reg = sn :: owed)
    (havail : ∀ r < w.queue.numPhysRegs, avail r = true → w.Produced (w.producer r))
    (hnodup : sns.Nodup) (hsns : ∀ n ∈ sns, w.Reader n ∧ n ∉ w.queue.readied ∧
      ((w.setQueue q).inst n).sourcesReady = true)
    (hcomplete : (w.inst sn).isMemRef = false → (w.inst sn).countReady.sourcesReady = true →
      sn ∈ sns) :
    (w.setQueue q).Core pending avail reg owed := by
  have hk := ht.touches.knows
  have hmarked := ht.touches.read (·.readySrcRegIdx) rfl
  have hfields : q.count = w.queue.count ∧ q.freeEntries = w.queue.freeEntries ∧
    q.readied = w.queue.readied ++ sns ∧
      q.nonSpecInsts = w.queue.nonSpecInsts := by
    rw [ht.same]
    exact ⟨rfl, rfl, rfl, rfl⟩
  obtain ⟨hct, hfe, hrd, hns⟩ := hfields
  have haccount := ht.account h
  have hproduces : (w.setQueue q).Produces pending :=
    h.produces.knows hk ht.touches.regScoreboard (fun _ _ hp => ⟨hp, id⟩) hmarked
  refine ⟨h.ids.knows hk ht.touches.instList (ht.touches.read (·.squashedInIQ) rfl)
      (fun n hn => (ht.touches.read (·.inQueue) rfl n).trans hn) (fun n hn => .inl hn)
      (fun n _ hd => .inl ((ht.touches.read (·.memOpDone) rfl n).symm.trans hd)),
    h.counts.knows hk ht.touches.instList (ht.touches.read (·.inQueue) rfl) hct hfe, fun r n => ?_,
    haccount, hproduces, ?_⟩
  · have hunmarked : ((w.setQueue q).inst n).unmarked r = (w.inst n).unmarked r := by
      rw [DynInst.unmarked, DynInst.unmarked, (hk.insts n).srcRegs, hmarked]
    have hchain := h.chains r n
    have hq : q.dependGraph r = update w.queue.dependGraph reg owed r := by rw [ht.same]
    simp only [setQueue_queue, hq, hk.reader, hunmarked]
    have hnum : q.numPhysRegs = w.queue.numPhysRegs := hk.numPhysRegs
    rw [hnum]
    by_cases hr : r = reg
    · subst hr
      rw [update_self, if_pos rfl]
      rw [hgraph, if_pos rfl] at hchain
      have hzero := Nat.add_eq_right.mp hchain.symm
      rw [hzero, Nat.zero_add]
    · rw [update_of_ne hr, if_neg hr]
      rw [if_neg hr] at hchain
      exact hchain
  · refine ht.touches.lists id .inl (.inl rfl) h.lists h.ids hrd ht.perm hnodup hns (fun n hn => ?_)
      (fun n hn hr => ?_)
      fun n hn hm hc => ?_
    · obtain ⟨hreader, hnr, hcan⟩ := hsns n hn
      exact ⟨hreader, hnr, hcan, haccount.supplied (hk.reader.mpr hreader) hcan hproduces
        fun r hlt ha => havail r (hk.numPhysRegs ▸ hlt) ha⟩
    · have hcan := h.lists.sound n hn hr
      rw [ht.touches.inst_cases]
      split
      · subst n
        exact absurd (h.not_sourcesReady.symm.trans hcan) false_ne_true
      · exact hcan
    · rw [ht.touches.inst_cases] at hc
      split at hc
      · subst n
        exact .inr (hcomplete hm hc)
      · exact .inl (h.lists.complete n hn hm hc)

omit h in
theorem readied : (w.setQueue q).queue.readied = w.queue.readied ++ sns := by
  rw [setQueue_queue, ht.same]

end Told

theorem addIfReady_told (h : w.Core pending avail reg (sn :: owed)) (hu : w.Units) :
    Meets (fun q => ∃ sns, Told w q reg sn owed sns ∧ sns.Nodup ∧
        (∀ n ∈ sns, w.Reader n ∧ n ∉ w.queue.readied ∧
          ((w.setQueue q).inst n).sourcesReady = true) ∧
        ((w.inst sn).isMemRef = false → (w.inst sn).countReady.sourcesReady = true → sn ∈ sns) ∧
        (w.setQueue q).Units)
      Apart (((w.queue.setChain reg owed).setInst sn (w.inst sn).countReady).addIfReady sn) := by
  set q1 := (w.queue.setChain reg owed).setInst sn (w.inst sn).countReady with hq1
  have hself : q1.insts sn = (w.inst sn).countReady := update_self ..
  have hreader : w.Reader sn := h.account.owed sn mem_cons_self
  have hnr : sn ∉ w.queue.readied := fun hr =>
    false_ne_true (h.not_sourcesReady.symm.trans (h.lists.sound sn hreader hr))
  have htold : ∀ (units : Nat → MemDepUnit σ) {q : InstructionQueue σ} {sns : List Nat},
      InstructionQueue.Pushes { q1 with memDepUnit := units } q sns → Told w q reg sn owed sns := by
    intro units q sns hpush
    refine ⟨?_, fun op => (hpush.perm op).trans
      (.of_eq (congrArg (· ++ _) (filter_congr fun n _ => ?_)))⟩
    · rw [hpush.same]
      rfl
    · show decide ((q1.insts n).opClass = op) = _
      rw [show q1.insts n = if n = sn then (w.inst sn).countReady else w.inst n from update_apply ..]
      split
      · subst n; rfl
      · rfl
  have hother : ∀ {q : InstructionQueue σ} {sns : List Nat}, Told w q reg sn owed sns → ∀ n, n ≠ sn →
      ((w.setQueue q).inst n).sourcesReady = (w.inst n).sourcesReady :=
    fun ht n hne => by rw [ht.touches.inst_cases, if_neg hne]
  unfold addIfReady
  rw [hself]
  dsimp only
  rw [h.countReady_canIssue]
  refine Meets.ite (fun hcan => Meets.ite (fun hmem => ?_) fun hmem => ?_) fun hcan => Meets.pure ?_
  · have hmem : (w.inst sn).isMemRef = true := hmem
    set tid := (w.inst sn).threadNumber with htid
    refine bind_inUnit fun unit hok => ?_
    have hactive : (w.clients tid).active sn := ⟨hreader, hmem, rfl⟩
    obtain ⟨sns, hsns, hhanded, hnew⟩ := regsReady_hands (hu tid).2
      (h.ids.seqNum sn (h.ids.unretired sn hreader.1).1) hactive
        (fun hr => false_ne_true (h.not_sourcesReady.symm.trans hr.2))
      hok (hu tid).1
    refine (takeUnit_meets hsns).mono fun q hpush => ?_
    have ht : Told w q reg sn owed sns := htold _ hpush
    have hready : ∀ n, n ∈ w.inserted → (((w.clients tid).ready sn).regs n ↔
        ((w.setQueue q).inst n).sourcesReady = true) := by
      intro n hn
      show (n ∈ w.inserted ∧ _) ∨ _ ↔ _
      by_cases hne : n = sn
      · subst hne
        rw [ht.touches.inst_cases, if_pos rfl]
        simp [hcan]
      · rw [hother ht n hne]
        simp [hne, hn]
    have hcleared : MemDepUnit.Hands { unit with ready := [] } _ :=
      hnew.of_entries rfl (fun _ => id) rfl
    refine ⟨sns, ht, hhanded.nodup, fun n hn => ?_,
      fun hno => absurd (hno.symm.trans hmem) false_ne_true,
      hu.update ht.touches.knows h.ids ht.readied hcleared (fun t => ?_) rfl
        ⟨rfl, rfl, fun n hn => hready n (h.ids.unretired n hn.1.1).1, fun _ _ => Iff.rfl,
          fun _ _ => Iff.rfl⟩
        fun n htt => ⟨hother ht n ?_, fun hs => htt (hhanded.new n hs).1.2.2, id⟩⟩
    · obtain ⟨ha, hg, hr⟩ := hhanded.new n hn
      exact ⟨ha.1, hg, (hready n (h.ids.unretired n ha.1.1).1).mp hr⟩
    · rw [setQueue_queue, hpush.same]
      exact update_apply ..
    · rintro rfl
      exact htt rfl
  · have hmem : (w.inst sn).isMemRef = false := eq_false_iff.mpr hmem
    refine (pushReady_meets sn).mono fun q hpush => ?_
    have ht : Told w q reg sn owed [sn] := htold q1.memDepUnit hpush
    have hactive : ∀ {t n}, (w.clients t).active n → n ≠ sn := by
      rintro t n hn rfl
      exact false_ne_true (hmem.symm.trans hn.2.1)
    refine ⟨[sn], ht, nodup_singleton sn, fun n hn => ?_, fun _ _ => mem_cons_self,
      hu.knows ht.touches.knows h.ids ht.readied
      (fun t n hn => ⟨hother ht n (hactive hn), by simpa using hactive hn, id⟩) fun t h1 h2 => ?_⟩
    · rw [mem_singleton.mp hn, ht.touches.inst_cases, if_pos rfl]
      exact ⟨hreader, hnr, hcan⟩
    · rw [setQueue_queue, hpush.same]
      exact ⟨h1, h2⟩
  · have ht : Told w q1 reg sn owed [] := htold q1.memDepUnit (.nil _)
    refine ⟨[], ht, nodup_nil, nofun, fun _ hyes => absurd hyes hcan,
      hu.knows ht.touches.knows h.ids ht.readied
      (fun t n _ => ⟨?_, not_mem_nil, id⟩) fun _ h1 h2 => ⟨h1, h2⟩⟩
    rw [ht.touches.inst_cases]
    split
    · subst n
      rw [h.not_sourcesReady]
      exact eq_false_iff.mpr hcan
    · rfl

section Registers

theorem wakeChain_meets (h : w.Core pending avail reg owed) (hu : w.Units)
    (hgraph : w.queue.dependGraph reg = owed)
    (havail : ∀ r < w.queue.numPhysRegs, avail r = true → w.Produced (w.producer r)) :
    Meets (fun q => (w.setQueue q).Core pending avail reg [] ∧ (w.setQueue q).Units ∧
        q.numPhysRegs = w.queue.numPhysRegs ∧ q.regScoreboard = w.queue.regScoreboard)
      Apart (InstructionQueue.wakeChain reg w.queue owed) := by
  induction owed generalizing w with
  | nil => exact Meets.pure ⟨h, hu, rfl, rfl⟩
  | cons sn owed ih =>
    unfold wakeChain
    refine bind (addIfReady_told h hu) fun q ⟨sns, ht, hnodup, hsns, hcomplete, hunits⟩ => ?_
    have hcore := ht.core h hgraph havail hnodup hsns hcomplete
    have hq : q.dependGraph reg = owed := by rw [ht.same]; exact update_self ..
    have hnum : q.numPhysRegs = w.queue.numPhysRegs := by rw [ht.same]
    have hboard : q.regScoreboard = w.queue.regScoreboard := by rw [ht.same]
    refine (ih (w := w.setQueue q) hcore hunits hq fun r hlt => havail r (hnum ▸ hlt)).mono
      fun q' ⟨hcore', hunits', hnum', hboard'⟩ =>
        ⟨hcore', hunits', hnum'.trans hnum, hboard'.trans hboard⟩

theorem available_update {inst : DynInst} {num : Nat} {board : Nat → Bool} (hreg : reg < num) :
    inst.available (fun r => r < num ∧ update board reg true r = true) =
      inst.available (fun r => r < num ∧ board r = true) + if board reg = false then
        inst.unmarked reg else 0 := by
  unfold DynInst.available DynInst.unmarked
  induction inst.srcRegs.zipIdx with
  | nil => simp
  | cons o operands ih =>
    simp only [countP_cons, ih]
    by_cases hmarked : o.2 ∈ inst.readySrcRegIdx
    · cases hb : board reg <;> simp [hmarked, Nat.add_right_comm]
    · by_cases ho : o.1 = reg
      · cases hb : board reg with
        | false => simp [hmarked, ho, hreg, hb, Nat.add_assoc]
        | true => simp [hmarked, ho, hreg, hb]
      · cases hb : board reg <;> simp [hmarked, ho, Nat.add_right_comm]

theorem Core.awake (h : w.Core pending w.queue.regScoreboard 0 []) (hreg : reg < w.queue.numPhysRegs) :
    w.Core pending (update w.queue.regScoreboard reg true) reg (w.queue.dependGraph reg) := by
  have hchain : ∀ n, (w.queue.dependGraph reg).count n =
      if w.queue.regScoreboard reg = false ∧ w.Reader n then (w.inst n).unmarked reg else 0 := by
    intro n
    rw [h.chains reg n]
    simp [hreg]
  refine ⟨h.ids, h.counts, fun r n => ?_, ⟨fun n hn => ?_, h.account.canIssue, fun n hn => ?_⟩,
    h.produces, h.lists⟩
  · by_cases hr : r = reg
    · subst hr
      simp
    · rw [h.chains r n]
      simp [hr]
  · rw [available_update hreg, hchain, ← h.account.readyRegs n hn]
    simp [hn]
  · have hpos := count_pos_iff.mpr hn
    rw [hchain] at hpos
    by_contra hno
    simp [hno] at hpos

theorem Inv.wakeReg (h : w.Inv (reg :: pending))
    (hpending : reg < w.queue.numPhysRegs → w.Produced (w.producer reg)) :
    Meets (fun q => (w.setQueue q).Inv pending ∧ q.numPhysRegs = w.queue.numPhysRegs) Apart
      (w.queue.wakeReg reg) := by
  unfold InstructionQueue.wakeReg
  refine Meets.ite (fun hmisc => Meets.pure ⟨?_, rfl⟩) fun htracked => ?_
  · have hproduces : w.Produces pending :=
      { h.core.produces with produced := fun r hlt hnp => h.core.produces.produced r hlt fun hmem =>
          (mem_cons.mp hmem).elim (fun heq => absurd (heq ▸ hlt) (not_lt.mpr hmisc)) hnp }
    exact ⟨{ h.core with produces := hproduces }, h.units⟩
  · have hlt := not_le.mp htracked
    refine bind (wakeChain_meets (h.core.awake hlt) h.units rfl fun r hr ha => ?_)
      fun q ⟨hcore, hunits, hnum, hboard⟩ => ?_
    · by_cases heq : r = reg
      · subst heq
        exact hpending hlt
      · rw [update_of_ne heq] at ha
        exact h.core.produces.scoreboard r hr ha
    refine bind (ensure (apart_assertion (by decide))) fun _ _ => Meets.pure ⟨?_, hnum⟩
    rw [← hboard] at hcore
    have hset : ∀ r, r ≠ reg → (w.setQueue { q with
        regScoreboard := update q.regScoreboard reg true }).queue.regScoreboard r =
          q.regScoreboard r :=
      fun r heq => update_of_ne heq ..
    have hproduces : (w.setQueue { q with
        regScoreboard := update q.regScoreboard reg true }).Produces pending := by
      refine ⟨fun r hr hb => ?_, fun r hr hnp hp => ?_, hcore.produces.awaits, hcore.produces.dests,
        hcore.produces.producer, hcore.produces.marked⟩
      · by_cases heq : r = reg
        · subst heq
          exact hpending (hnum ▸ hr)
        · rw [hset r heq] at hb
          exact hcore.produces.scoreboard r hr hb
      · by_cases heq : r = reg
        · subst heq
          exact update_self ..
        · rw [hset r heq]
          exact hcore.produces.produced r hr (fun hmem => (mem_cons.mp hmem).elim heq hnp) hp
    refine ⟨⟨?_, ?_, fun r n => ?_, ?_, hproduces, ?_⟩, hunits⟩
    · exact { hcore.ids with }
    · exact { hcore.counts with }
    · have hchain := hcore.chains r n
      simp only [count_nil, ite_self] at hchain ⊢
      exact hchain
    · exact { hcore.account with }
    · exact { hcore.lists with }

theorem Inv.wakeRegs (h : w.Inv pending)
    (hpending : ∀ r ∈ pending, r < w.queue.numPhysRegs → w.Produced (w.producer r)) :
    Meets (fun q => (w.setQueue q).Inv []) Apart
      (pending.foldlM InstructionQueue.wakeReg w.queue) := by
  induction pending generalizing w with
  | nil => exact Meets.pure h
  | cons reg pending ih =>
    rw [foldlM_cons]
    refine bind (h.wakeReg (hpending reg mem_cons_self)) fun q ⟨hinv, hnum⟩ => ?_
    exact ih (w := w.setQueue q) hinv fun r hr hlt => hpending r (mem_cons_of_mem _ hr) (hnum ▸ hlt)

end Registers

section Complete

/-- An instruction is complete: it may have been the last to use its entry, and its
destinations are pending. -/
structure Completes (w : IssueWorld σ) (q : InstructionQueue σ) (sn : Nat)
    (sns : List Nat) : Prop where
  same : q = { w.queue with
    insts := update w.queue.insts sn { w.inst sn with memOpDone := (q.insts sn).memOpDone }
    readyInsts := q.readyInsts, listOrder := q.listOrder, queueOnList := q.queueOnList
    readied := w.queue.readied ++ sns, freeEntries := q.freeEntries, count := q.count,
      memDepUnit := q.memDepUnit }
  perm : ∀ op, (q.readyInsts op).Perm
    (sns.filter (fun n => (w.inst n).opClass = op) ++ w.queue.readyInsts op)
  nodup : sns.Nodup
  handed : ∀ n ∈ sns, w.Reader n ∧ n ∉ w.queue.readied ∧ (w.inst n).sourcesReady = true

def noteCompleted (w : IssueWorld σ) (q : InstructionQueue σ) (sn : Nat) : IssueWorld σ :=
  { w.setQueue q with completed := sn :: w.completed }

namespace Completes

variable {q : InstructionQueue σ} (hc : Completes w q sn sns)
include hc

theorem touches : Touches w (w.noteCompleted q sn) sn
    { w.inst sn with memOpDone := (q.insts sn).memOpDone } := by
  have ht : Touches w (w.setQueue q) sn { w.inst sn with memOpDone := (q.insts sn).memOpDone } :=
    .of_setInst q (by rw [hc.same]; simp [setInst]) ⟨rfl, rfl, rfl, rfl, rfl, rfl, rfl⟩
  exact { ht with completed := fun _ => mem_cons_of_mem _ }

theorem inv (h : w.Inv []) (hu : sn ∈ w.unretired)
    (hout : ((w.noteCompleted q sn).inst sn).inQueue = false)
    (hcounts : (w.noteCompleted q sn).Counts) (hunits : (w.noteCompleted q sn).Units) :
    (w.noteCompleted q sn).Inv (w.inst sn).destRegs := by
  have hk := hc.touches.knows
  have hsources := hc.touches.read (·.sourcesReady) rfl
  have hfields : q.readied = w.queue.readied ++ sns ∧ q.nonSpecInsts = w.queue.nonSpecInsts ∧
      q.dependGraph = w.queue.dependGraph := by
    rw [hc.same]
    exact ⟨rfl, rfl, rfl⟩
  obtain ⟨hrd, hns, hdg⟩ := hfields
  refine ⟨?_, hunits⟩
  rw [hc.touches.regScoreboard]
  refine hc.touches.core h.core hdg rfl rfl (fun _ => rfl) rfl (fun _ => ?_) (fun n hn => ?_)
    (fun _ => .inr mem_cons_self) (fun r hlt hnp => ⟨by simp, fun hp => ?_⟩) hcounts ?_
  · rwa [hc.touches.inst_cases, if_pos rfl] at hout
  · rcases mem_cons.mp hn with rfl | hn
    · exact .inr ⟨(h.core.ids.unretired n hu).1, hout⟩
    · exact .inl hn
  · -- What this instruction produces is pending.
    obtain ⟨p, hp, heq⟩ := hp
    rcases mem_cons.mp hp with rfl | hp
    · exact absurd (h.core.produces.producer r p heq).2 hnp
    · exact ⟨p, hp, heq⟩
  · refine hc.touches.lists id .inl (.inl rfl) h.core.lists h.core.ids hrd hc.perm hc.nodup
      hns (fun n hn => ?_)
      (fun n hn hr => (hsources n).trans (h.core.lists.sound n hn hr))
      fun n hn hm hs => .inl (h.core.lists.complete n hn hm ((hsources n).symm.trans hs))
    obtain ⟨hreader, hnr, hready⟩ := hc.handed n hn
    refine ⟨hreader, hnr, (hsources n).trans hready, ?_⟩
    rw [(hk.insts n).srcRegs]
    exact hk.supplied
      (h.core.account.supplied hreader hready h.core.produces h.core.produces.scoreboard)

theorem readied : (w.noteCompleted q sn).queue.readied = w.queue.readied ++ sns := by
  show q.readied = _
  rw [hc.same]

theorem skips (hn : n ≠ sn) (hs : n ∉ sns) : Skips w (w.noteCompleted q sn) sns n :=
  ⟨hc.touches.read (·.sourcesReady) rfl n, hs, fun hd => (mem_cons.mp hd).resolve_left hn⟩

theorem tells {c : MemDepUnit.Clients} (hknown : c.known = (w.clients t).known)
    (hactive : c.active = (w.clients t).active) (hregs : c.regs = (w.clients t).regs) (h : w.Ids)
    (hgiven : ∀ n, (w.clients t).active n → (c.given n ↔ n ∈ w.queue.readied ∨ n ∈ sns))
    (hdone : ∀ n, (w.clients t).active n → (c.done n ↔ n ∈ w.completed ∨ n = sn)) :
    Tells w (w.noteCompleted q sn) sns t c := by
  refine ⟨hknown, hactive, fun n hn => ?_, hgiven,
    fun n hn => (hdone n hn).trans (or_comm.trans mem_cons.symm)⟩
  rw [hregs, hc.touches.read (·.sourcesReady) rfl n]
  exact and_iff_right (h.unretired n hn.1.1).1

end Completes

structure Woken (w : IssueWorld σ) (sn : Nat) (q : InstructionQueue σ) : Prop where
  inv : (w.noteCompleted q sn).Inv (w.inst sn).destRegs
  destRegs : (q.insts sn).destRegs = (w.inst sn).destRegs
  numPhysRegs : q.numPhysRegs = w.queue.numPhysRegs

section Memory

variable (h : w.Inv []) (hu : sn ∈ w.unretired)
include h hu

theorem Completes.woken (hc : Completes w q sn sns)
    (hout : ((w.noteCompleted q sn).inst sn).inQueue = false)
    (hcounts : (w.noteCompleted q sn).Counts) (hunits : (w.noteCompleted q sn).Units) :
    w.Woken sn q :=
  ⟨hc.inv h hu hout hcounts hunits, hc.touches.read (·.destRegs) rfl sn,
    hc.touches.knows.numPhysRegs⟩

variable (hissued : (w.inst sn).issued = true)
include hissued

theorem Completes.woken_other (hmem : (w.inst sn).isMemRef = false) (hc : Completes w q sn sns)
    (hq : q.insts = w.queue.insts ∧ q.instList = w.queue.instList ∧ q.count = w.queue.count ∧
      q.freeEntries = w.queue.freeEntries)
    (hunits : (w.noteCompleted q sn).Units) : w.Woken sn q := by
  obtain ⟨hinsts, hlist, hcount, hfree⟩ := hq
  have hsame : ∀ n, (w.noteCompleted q sn).inst n = w.inst n := fun n => congrFun hinsts n
  refine hc.woken h hu ?_ ?_ hunits
  · rw [hsame]
    simp [DynInst.inQueue, hissued, hmem]
  · exact h.core.counts.knows hc.touches.knows hlist (fun n => by rw [hsame]) hcount hfree

omit h hu hissued in
theorem handed_readers (hhanded : MemDepUnit.Handed (w.clients tid) sns) :
    ∀ n ∈ sns, w.Reader n ∧ n ∉ w.queue.readied ∧ (w.inst n).sourcesReady = true := by
  intro n hn
  obtain ⟨hactive, hgiven, hregs⟩ := hhanded.new n hn
  exact ⟨hactive.1, hgiven, hregs.2⟩

theorem Completes.release (hnc : sn ∉ w.completed) (hmem : (w.inst sn).isMemRef = true)
    (hc : Completes w q sn sns) (hdone : (q.insts sn).memOpDone = true)
    (hcount : q.count = update w.queue.count (w.inst sn).threadNumber
      (w.queue.count (w.inst sn).threadNumber - 1))
    (hfree : q.freeEntries = w.queue.freeEntries + 1) (hunits : (w.noteCompleted q sn).Units) :
    w.Woken sn q := by
  have hlist := (h.core.ids.unretired sn hu).2
  have hnot : (w.inst sn).memOpDone = false := by
    rw [eq_false_iff]
    exact fun hd => hnc (h.core.ids.memOpDone sn hu hd)
  have hin : (w.inst sn).inQueue = true := by simp [DynInst.inQueue, hmem, hnot]
  have hout : ((w.noteCompleted q sn).inst sn).inQueue = false := by
    rw [hc.touches.inst_cases, if_pos rfl]
    simp [DynInst.inQueue, hissued, hdone]
  refine hc.woken h hu hout ?_ hunits
  refine h.core.counts.release (h.core.ids.thread sn (h.core.ids.unretired sn hu).1) hlist
    (h.core.ids.sorted _).nodup (fun t ht => h.core.ids.thread_unique hlist ht) hin hout
    (fun n hne => ?_) hc.touches.instList hcount hfree hc.touches.numThreads hc.touches.numEntries
  rw [hc.touches.inst_cases, if_neg hne]

theorem Inv.wake_memRef (hnc : sn ∉ w.completed) (hmem : (w.inst sn).isMemRef = true) :
    Meets (w.Woken sn) Apart (do
      let unit ← inUnit ((w.queue.memDepUnit (w.inst sn).threadNumber).wakeDependents
        (w.inst sn).toMemDepInst)
      let q ← w.queue.takeUnit (w.inst sn).threadNumber unit
      q.completeMemInst sn) := by
  have hreadied : sn ∈ w.queue.readied := h.core.lists.issued sn hu hissued
  have hseq : (w.inst sn).seqNum = sn := h.core.ids.seqNum sn (h.core.ids.unretired sn hu).1
  set tid := (w.inst sn).threadNumber with htid
  refine bind_inUnit fun unit hok => ?_
  obtain ⟨sns, hsns, hhanded, hgive⟩ := wakeDependents_hands (h.units tid).2 hok (h.units tid).1
  refine bind (takeUnit_meets hsns) fun q1 hpush => ?_
  have hq1 : q1.insts sn = w.inst sn := by rw [hpush.same]; rfl
  have hunit1 : q1.memDepUnit tid = { unit with ready := [] } := by
    rw [hpush.same]
    exact update_self ..
  refine bind_inUnit fun unit' hok' => Meets.pure ?_
  rw [hq1, ← htid, hunit1] at hok'
  have hcleared : MemDepUnit.Hands { unit with ready := [] } _ :=
    hgive.of_entries rfl (fun _ => id) rfl
  obtain ⟨hready', hnew⟩ :=
    completed_hands hcleared (fun _ => .inl (by rw [hseq]; exact hreadied)) hok'
  rw [hq1, ← htid]
  set q2 : InstructionQueue σ := { q1 with
    insts := update q1.insts sn { w.inst sn with memOpDone := true }
    freeEntries := q1.freeEntries + 1
    count := update q1.count tid (q1.count tid - 1)
    memDepUnit := update q1.memDepUnit tid unit' } with hq2
  have hc : Completes w q2 sn sns := by
    refine ⟨?_, fun op => hpush.perm op, hhanded.nodup, handed_readers hhanded⟩
    rw [hq2, hpush.same]
    simp [setUnit]
  have hunits : ∀ t, q2.memDepUnit t = if t = tid then unit' else w.queue.memDepUnit t := by
    intro t
    show update q1.memDepUnit tid unit' t = _
    rw [update_apply]
    split
    · rfl
    · rename_i ht
      rw [hpush.same]
      exact update_of_ne ht ..
  refine hc.release h hu hissued hnc hmem (by simp [hq2]) (by rw [hq2, hpush.same]; rfl)
    (by rw [hq2, hpush.same]; rfl) (h.units.update hc.touches.knows h.core.ids hc.readied hnew
      hunits hready' ?_ fun n ht => hc.skips ?_ fun hs => ht (hhanded.new n hs).1.2.2)
  · exact hc.tells rfl rfl rfl h.core.ids (fun _ _ => Iff.rfl) fun n _ => by rw [hseq]; rfl
  · rintro rfl
    exact ht rfl

section Other

variable (hmem : (w.inst sn).isMemRef = false)
include hmem

omit h hu hissued in
theorem active_ne (hn : (w.clients t).active n) : n ≠ sn := by
  rintro rfl
  exact false_ne_true (hmem.symm.trans hn.2.1)

theorem Inv.wake_barrier : Meets (w.Woken sn) Apart (do
    let unit ← inUnit ((w.queue.memDepUnit (w.inst sn).threadNumber).completeBarrier
      (w.inst sn).toMemDepInst)
    w.queue.takeUnit (w.inst sn).threadNumber unit) := by
  have hseq : (w.inst sn).seqNum = sn := h.core.ids.seqNum sn (h.core.ids.unretired sn hu).1
  set tid := (w.inst sn).threadNumber with htid
  refine bind_inUnit fun unit hok => ?_
  obtain ⟨sns, hsns, hhanded, hgive⟩ := completeBarrier_hands (h.units tid).2
    (fun ha => active_ne hmem ha hseq) hok (h.units tid).1
  refine (takeUnit_meets hsns).mono fun q hpush => ?_
  have hc : Completes w q sn sns := by
    refine ⟨?_, fun op => hpush.perm op, hhanded.nodup, handed_readers hhanded⟩
    rw [hpush.same]
    simp [setUnit, IssueWorld.inst]
  have hcleared : MemDepUnit.Hands { unit with ready := [] } _ :=
    hgive.of_entries rfl (fun _ => id) rfl
  refine hc.woken_other h hu hissued hmem (by rw [hpush.same]; exact ⟨rfl, rfl, rfl, rfl⟩)
    (h.units.update hc.touches.knows h.core.ids hc.readied hcleared (fun t => ?_) rfl
      (hc.tells rfl rfl rfl h.core.ids (fun _ _ => Iff.rfl)
        fun n hn => (or_iff_left (active_ne hmem hn)).symm)
      fun n ht => hc.skips ?_ fun hs => ht (hhanded.new n hs).1.2.2)
  · show q.memDepUnit t = _
    rw [hpush.same]
    exact update_apply ..
  · rintro rfl
    exact ht rfl

theorem Inv.wake_nothing : w.Woken sn w.queue := by
  have hc : Completes w w.queue sn [] :=
    ⟨by simp [IssueWorld.inst], fun op => by simp, nodup_nil, forall_mem_nil _⟩
  refine hc.woken_other h hu hissued hmem ⟨rfl, rfl, rfl, rfl⟩ ?_
  exact h.units.knows hc.touches.knows h.core.ids hc.readied
    (fun t n hn => hc.skips (active_ne hmem hn) not_mem_nil) fun _ h1 h2 => ⟨h1, h2⟩

end Other

theorem Inv.wakeMemory (hnc : sn ∉ w.completed) :
    Meets (w.Woken sn) Apart (w.queue.wakeMemory sn) := by
  unfold InstructionQueue.wakeMemory
  refine Meets.ite (fun hmem => ?_) fun hmem => Meets.ite (fun _ => ?_) fun _ => Meets.pure ?_
  · exact h.wake_memRef hu hissued hnc hmem
  · exact h.wake_barrier hu hissued (eq_false_iff.mpr hmem)
  · exact h.wake_nothing hu hissued (eq_false_iff.mpr hmem)

end Memory

theorem Inv.wakeDependents (h : w.Inv []) (hu : sn ∈ w.unretired) (hnc : sn ∉ w.completed)
    (hissued : (w.inst sn).issued = true) :
    Meets (fun q => (w.noteCompleted q sn).Inv []) Apart (w.queue.wakeDependents sn) := by
  refine bind (ensure (apart_assertion (by decide))) fun _ _ => ?_
  refine bind (h.wakeMemory hu hissued hnc) fun q ⟨hinv, hdests, hnum⟩ => ?_
  rw [hdests]
  refine (hinv.wakeRegs fun r hr hlt => ⟨sn, mem_cons_self, ?_⟩).mono fun q' hq' => hq'
  exact h.core.produces.dests sn hu hnc r hr (hnum ▸ hlt)

end Complete

section NonSpec

theorem Inv.scheduleNonSpec (h : w.Inv []) (hu : sn ∈ w.unretired)
    (hsupplied : w.Supplied (w.inst sn).srcRegs (w.awaits sn)) :
    Meets (fun q => (w.setQueue q).Inv []) Apart (w.queue.scheduleNonSpec sn) := by
  refine bind (ensure (apart_assertion (by decide))) fun _ hmem => ?_
  obtain ⟨hwaits, hnr⟩ := h.core.lists.nonSpec sn hu (of_decide_eq_true hmem)
  set inst : DynInst := { w.queue.insts sn with canIssue := true } with hinst
  set q1 := w.queue.setInst sn inst with hq1
  have hself : q1.insts sn = inst := update_self ..
  have hseq : (w.inst sn).seqNum = sn := h.core.ids.seqNum sn (h.core.ids.unretired sn hu).1
  have hnot : ∀ {n}, w.Reader n → n ≠ sn := by
    rintro n hn rfl
    exact false_ne_true (hn.2.symm.trans hwaits)
  -- Both kinds of instructions are put on a ready list, memory instructions by their unit.
  refine bind (P := fun q => ∃ units, InstructionQueue.Pushes { q1 with memDepUnit := units } q [sn] ∧
      ∀ t, (units t).ready = [] ∧
      ((units t).Hands (w.clients t) ∨ (units t).Hands ((w.clients t).give [sn]))) ?_
    fun q ⟨units, hpush, hunits⟩ => Meets.pure ?_
  · refine Meets.ite (fun hno => ?_) fun hyes => ?_
    · unfold addIfReady
      rw [hself, if_pos rfl, if_neg (by simpa using hno)]
      exact (pushReady_meets sn).mono fun q hpush =>
        ⟨w.queue.memDepUnit, hpush, fun t => ⟨(h.units t).1, .inl (h.units t).2⟩⟩
    · set tid := (w.queue.insts sn).threadNumber
      refine bind_inUnit fun unit hok => ?_
      obtain ⟨hsns, hhands⟩ := nonSpecInstReady_hands (h.units tid).2
        (fun ha => hnot ha.1 hseq) hok (h.units tid).1
      rw [hseq] at hsns hhands
      refine (takeUnit_meets hsns).mono fun q hpush => ⟨_, hpush, fun t => ?_⟩
      rw [update_apply]
      split
      · subst t
        exact ⟨rfl, .inr (hhands.of_entries rfl (fun _ => id) rfl)⟩
      · exact ⟨(h.units t).1, .inl (h.units t).2⟩
  set q2 : InstructionQueue σ := { q with nonSpecInsts := q.nonSpecInsts.filter (· ≠ sn) } with hq2
  have hfields : q.count = w.queue.count ∧ q.freeEntries = w.queue.freeEntries ∧
    q.readied = w.queue.readied ++ [sn] ∧
      q.dependGraph = w.queue.dependGraph ∧ q.nonSpecInsts = w.queue.nonSpecInsts ∧
        q.memDepUnit = units := by
    rw [hpush.same]
    exact ⟨rfl, rfl, rfl, rfl, rfl, rfl⟩
  obtain ⟨hct, hfe, hrd, hdg, hns, hun⟩ := hfields
  have ht : Touches w (w.setQueue q2) sn inst :=
    .of_setInst q2 (by rw [hq2, hpush.same]) ⟨rfl, rfl, rfl, rfl, rfl, rfl, rfl⟩
  have hk := ht.knows
  have hsources : ∀ n, w.Reader n →
      ((w.setQueue q2).inst n).sourcesReady = (w.inst n).sourcesReady :=
    fun n hn => by rw [ht.inst_cases, if_neg (hnot hn)]
  have hreadied : (w.setQueue q2).queue.readied = w.queue.readied ++ [sn] := hrd
  refine ⟨?_, fun t => ?_⟩
  · rw [ht.regScoreboard]
    refine ht.core h.core hdg rfl rfl (fun hr => absurd rfl (hnot hr)) rfl id (fun _ => .inl) .inl
      (fun _ _ hp => ⟨hp, id⟩)
      (h.core.counts.knows hk ht.instList (ht.read (·.inQueue) rfl) hct hfe) ?_
    refine h.core.lists.push hk hreadied (fun op => ?_) (nodup_singleton sn) (fun n hn => ?_)
      (fun n hn => (ht.read (·.squashed) rfl n).trans hn)
        (fun n _ hi => .inl ((ht.read (·.issued) rfl n).symm.trans hi))
      (fun _ n _ => ht.read (·.issued) rfl n) (fun n hn hr => ?_) (fun n hn hm hc => ?_) fun n hn => ?_
    · refine (hpush.perm op).trans (.of_eq (congrArg (· ++ _) (filter_congr fun n _ => ?_)))
      exact congrArg (decide <| · = op) (by
        rw [show q1.insts n = if n = sn then inst else w.inst n from update_apply ..]
        split
        · subst n; rfl
        · rfl)
    · rw [mem_singleton.mp hn, (hk.insts sn).srcRegs]
      refine ⟨hnr, hu, ?_, (h.core.ids.unretired sn hu).1, hk.supplied hsupplied⟩
      rw [ht.read (·.issued) rfl, eq_false_iff]
      exact fun hi => hnr (h.core.lists.issued sn hu hi)
    · have hn := hk.reader.mp hn
      rw [hreadied] at hr
      rw [hsources n hn]
      exact h.core.lists.sound n hn ((mem_append.mp hr).resolve_right fun hs =>
        hnot hn (mem_singleton.mp hs))
    · have hn := hk.reader.mp hn
      rw [hreadied]
      exact mem_append_left _ (h.core.lists.complete n hn ((hk.insts n).isMemRef ▸ hm)
        (hsources n hn ▸ hc))
    · obtain ⟨hn, hne⟩ := mem_filter.mp hn
      exact ⟨hns ▸ hn, fun hs => of_decide_eq_true hne (mem_singleton.mp hs)⟩
  · rw [show (w.setQueue q2).queue.memDepUnit = units from hun]
    refine ⟨(hunits t).1, (hunits t).2.elim (fun hh => ?_) fun hh => ?_⟩
    · exact hk.hands h.core.ids hreadied (hk.tells h.core.ids fun n hn =>
        ⟨hsources n hn.1, fun hs => hnot hn.1 (mem_singleton.mp hs), id⟩) hh
    · refine hk.hands h.core.ids hreadied (c := (w.clients t).give [sn])
        ⟨rfl, rfl, fun n hn => ?_, fun _ _ => Iff.rfl, fun _ _ => Iff.rfl⟩ hh
      rw [hsources n hn.1]
      exact and_iff_right (h.core.ids.unretired n hn.1.1).1

end NonSpec

end IssueWorld

end Gem5
