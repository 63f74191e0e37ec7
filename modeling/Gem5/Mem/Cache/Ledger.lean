import Gem5.Mem.Cache.TagStores
import Gem5.Mem.Cache.TimingRun

/-!
# Every request is answered once

The ledger of the miss path lists the requests that were answered and those that
wait in a register. Every operation hands requests on within it, apart from those
that let one in.
-/

namespace Gem5

open Lib MissPath List Cache

namespace MissPath

variable {p p' : MissPath} {ix : MSHRQueueIndex}

def answered (p : MissPath) : List Nat := p.responses.map (·.1.id)

def ledger (p : MissPath) : List Nat := p.answered ++ (p.mshrQueue.waiting ++ p.writeBuffer.waiting)

def entry : PathOp → List Nat
  | .answer pkt _ => [pkt.id]
  | .enqueue _ _ _ _ pkt _ => if pkt.cmd ≠ .hardPFReq ∧ pkt.needsResponse = true then [pkt.id] else []
  | .join _ _ _ pkt _ => if pkt.needsResponse = true then [pkt.id] else []
  | _ => []

theorem ledger_perm (ix : MSHRQueueIndex) (new out : List Nat)
    (hother : ∀ iy, iy ≠ ix → p'.queue iy = p.queue iy) (hanswered : p'.answered = p.answered ++ out)
    (hself : (out ++ (p'.queue ix).waiting).Perm (new ++ (p.queue ix).waiting)) :
    p'.ledger.Perm (new ++ p.ledger) := by
  have hperm : ∀ rest : List Nat, (p.answered ++ out ++ ((p'.queue ix).waiting ++ rest)).Perm
      (new ++ (p.answered ++ ((p.queue ix).waiting ++ rest))) := by
    intro rest
    have hmid := (hself.append_right rest).append_left p.answered
    simp only [append_assoc] at hmid ⊢
    exact hmid.trans (perm_append_comm_assoc ..)
  cases ix with
  | mshrs =>
    have hwb : p'.writeBuffer = p.writeBuffer := hother .writeBuffer nofun
    rw [ledger, hanswered, hwb]
    exact hperm _
  | writeBuffer =>
    have hmshrs : p'.mshrQueue = p.mshrQueue := hother .mshrs nofun
    rw [ledger, hanswered, hmshrs]
    have hswap : (p.mshrQueue.waiting ++ p'.writeBuffer.waiting).Perm
        (p'.writeBuffer.waiting ++ p.mshrQueue.waiting) := perm_append_comm
    refine (hswap.append_left _).trans ((hperm _).trans ?_)
    exact (perm_append_comm.append_left _).append_left _

theorem ledger_of_same (hqueue : ∀ ix, p'.queue ix = p.queue ix) (hresp : p'.responses = p.responses) :
    p'.ledger = p.ledger := by
  have hmshrs : p'.mshrQueue = p.mshrQueue := hqueue .mshrs
  have hwb : p'.writeBuffer = p.writeBuffer := hqueue .writeBuffer
  rw [ledger, ledger, answered, answered, hresp, hmshrs, hwb]

theorem ledger_of_changed (new : List Nat) (h : p.Inv) (hi : i ∈ (p.queue ix).live)
    (honly : Only ix p p') (hself : (p.queue ix).Changed (p'.queue ix) i)
    (hwait : ((p'.queue ix).registers i).waiting.Perm (new ++ ((p.queue ix).registers i).waiting)) :
    p'.ledger.Perm (new ++ p.ledger) := by
  obtain ⟨rest, hq, hq'⟩ := hself.gather (h.good ix).nodup hi (f := MSHR.waiting)
  refine ledger_perm ix new [] honly.queue (by rw [answered, honly.responses, answered, append_nil]) ?_
  refine hq'.trans ((hwait.append_right rest).trans ?_)
  rw [append_assoc]
  exact hq.symm.append_left new

theorem ledger_of_freed (h : p.Inv) (hi : i ∈ (p.queue ix).live) (honly : Only ix p p')
    (hself : (p.queue ix).Freed (p'.queue ix) i) (hwait : ((p.queue ix).registers i).waiting = []) :
    p'.ledger.Perm p.ledger := by
  have hq := hself.gather (h.good ix).nodup hi (f := MSHR.waiting)
  rw [hwait, nil_append] at hq
  exact ledger_perm ix [] [] honly.queue
    (by rw [answered, honly.responses, answered, append_nil]) hq.symm

theorem step_ledger (h : p.Inv) (hs : p.Step op p') : p'.ledger.Perm (entry op ++ p.ledger) := by
  obtain ⟨hallow, -⟩ := id hs
  obtain ⟨-, heffect⟩ := step_spec h hs
  cases op with
  | answer pkt time =>
    cases heffect
    have hout : (p.schedTimingResp pkt time).answered = p.answered ++ [pkt.id] := by
      simp [answered, schedTimingResp]
    exact ledger_perm .mshrs [pkt.id] [pkt.id] (fun iy _ => by cases iy <;> rfl) hout (.refl _)
  | enqueue now ix addr size pkt time =>
    obtain ⟨honly, -, i, htaken, hfresh⟩ := heffect
    have hnot : i ∉ (p.queue ix).live := (h.good ix).not_live (htaken.free ▸ mem_cons_self)
    refine ledger_perm ix _ [] honly.queue (by rw [answered, honly.responses, answered, append_nil]) ?_
    rw [nil_append, MSHRQueue.waiting, htaken.gather hnot, hfresh.waiting]
    exact perm_append_comm
  | join numTarget now i pkt time =>
    obtain ⟨honly, hchanged, -, hjoined⟩ := heffect
    exact ledger_of_changed _ h hallow honly hchanged hjoined.waiting
  | snoop now i pkt | absorb r pkt | forward r b | downstream r b | amend i b =>
    obtain ⟨honly, hchanged, -, halike, -⟩ := heffect
    exact ledger_of_changed [] h hallow honly hchanged (.of_eq halike.waiting)
  | release r =>
    obtain ⟨hqueue, hresp, -⟩ := heffect
    exact .of_eq (ledger_of_same hqueue hresp)
  | serve r response =>
    obtain ⟨hother, hresp, hchanged, -, -, hdef, t, ht, hserved⟩ := heffect
    obtain ⟨rest, hq, hq'⟩ := hchanged.gather (h.good r.queue).nodup hallow.1 (f := MSHR.waiting)
    have hwait : (p.register r).waiting = waitingIds [t] ++ (p'.register r).waiting := by
      rw [MSHR.waiting, MSHR.allTargets, ht, MSHR.waiting, MSHR.allTargets, hdef,
        cons_append, ← singleton_append, waitingIds_append]
    have hout : response.toList.map (·.1.id) = waitingIds [t] := by
      cases response with
      | none => simp [waitingIds, Target.awaited, show t.isCPU = false from hserved]
      | some a => simp [waitingIds, hserved.1, hserved.2]
    refine ledger_perm r.queue [] _ hother (by rw [answered, hresp, map_append, answered]) ?_
    rw [hout]
    refine (hq'.append_left _).trans ?_
    rw [← append_assoc]
    have hq : (p.queue r.queue).waiting.Perm ((p.register r).waiting ++ rest) := hq
    rw [hwait] at hq
    exact hq.symm
  | retire now wasFull r =>
    obtain ⟨honly, -, ⟨hfreed, hempty⟩ | ⟨hchanged, hpromoted⟩⟩ := heffect
    · exact ledger_of_freed h hallow.1 honly hfreed ((congrArg waitingIds hempty).trans waitingIds_nil)
    · refine ledger_of_changed [] h hallow.1 honly hchanged (.of_eq ?_)
      exact congrArg waitingIds hpromoted.allTargets
  | issue r pkt =>
    obtain ⟨honly, -, -, ⟨hfreed, t, ht, -, hneeds⟩ | ⟨hchanged, hissued⟩⟩ := heffect
    · refine ledger_of_freed h hallow honly hfreed ?_
      change (p.register r).waiting = []
      rw [MSHR.waiting, ht]
      simp [waitingIds, Target.awaited, hneeds]
    · exact ledger_of_changed [] h hallow honly hchanged
        (.of_eq (congrArg waitingIds hissued.allTargets))
  | refuse =>
    cases heffect
    exact .refl _

theorem run_ledger (hr : Runs Step p ops p') (h : p.Inv) :
    p'.ledger.Perm (ops.flatMap entry ++ p.ledger) := by
  induction hr with
  | nil => exact .refl _
  | snoc hr hs ih =>
    refine (step_ledger (run_inv hr h) hs).trans ?_
    rw [flatMap_append, flatMap_singleton]
    refine (ih.append_left _).trans ?_
    rw [← append_assoc]
    exact perm_append_comm.append_right _

end MissPath

namespace MSHRQueue

variable {q : MSHRQueue} {i j id : Nat}

theorem mem_waiting : id ∈ q.waiting ↔ ∃ i ∈ q.live, id ∈ (q.registers i).waiting := mem_flatMap

theorem waiting_unique (hn : q.waiting.Nodup) (hi : i ∈ q.live) (hj : j ∈ q.live)
    (hid : id ∈ (q.registers i).waiting) (hid' : id ∈ (q.registers j).waiting) : i = j := by
  by_contra hne
  have hsymm : Std.Symm (Function.onFun List.Disjoint fun i => (q.registers i).waiting) :=
    ⟨fun _ _ h => List.Disjoint.symm h⟩
  exact (nodup_flatMap.mp hn).2.forall hi hj hne hid hid'

end MSHRQueue

namespace CacheEvent

def Demands : CacheEvent → Prop
  | .request _ pkt => pkt.cmd ≠ .hardPFReq
  | _ => True

instance (e : CacheEvent) : Decidable e.Demands := by
  rcases e <;> unfold Demands <;> infer_instance

def answer? : CacheEvent → Option Packet
  | .response _ pkt _ | .snoopResponse _ pkt _ => some pkt
  | _ => none

end CacheEvent

namespace CacheWorld

variable {σ : Type} {quiet : Prop} {w w' : CacheWorld σ} {e : CacheEvent} {ops : List PathOp}

theorem entry_writebackOps (h : CacheStore.Writebacks quiet pkts) :
    (writebackOps now time pkts).flatMap entry = [] := by
  simp only [writebackOps, flatMap_eq_nil_iff, mem_map]
  rintro _ ⟨pkt, hpkt, rfl⟩
  refine if_neg fun hneeds => ?_
  have hcmd := hneeds.2
  rw [Packet.needsResponse, h.1 pkt hpkt] at hcmd
  cases hcmd

theorem entry_response (h : Cache.Response quiet now r ops) : ops.flatMap entry = [] := by
  obtain ⟨serving, wasFull, time, pkts, rfl, hserving, hwb⟩ := h
  have hnone : serving.flatMap entry = [] := by
    rw [flatMap_eq_nil_iff]
    intro op hop
    rcases hserving op hop with rfl | ⟨pkt, rfl⟩ | ⟨response, rfl⟩ <;> rfl
  rw [flatMap_append, hnone, flatMap_cons, entry_writebackOps hwb]
  rfl

theorem entry_sent (h : Cache.Sent quiet now r ops out) :
    ops.flatMap entry = [] := by
  cases h with
  | failed h => exact entry_response h
  | above pkt => rfl
  | passed pkt => rfl
  | made b pkt => rfl

theorem entry_sending
    (h : Cache.Sending quiet now offer ops out)
    (hoffer : ∀ pkt, offer = some pkt → pkt.cmd = .hardPFReq) :
    ops.flatMap entry = [] := by
  have hfirst : ∀ {first}, Cache.Prefetched now offer first → first.flatMap entry = [] := by
    rintro _ (rfl | ⟨addr, size, pkt, hpkt, rfl⟩)
    · rfl
    · simp [entry, hoffer pkt hpkt]
  cases h with
  | idle hpre => exact hfirst hpre
  | settled hpre hsent _ | refused hpre hsent =>
    rw [flatMap_append, hfirst hpre, entry_sent hsent, nil_append]
  | issued pkt' hpre hsent =>
    rw [flatMap_append, flatMap_append, hfirst hpre, entry_sent hsent]
    rfl

theorem entry_request (h : Cache.Request quiet numTarget now pkt ops)
    (hcmd : pkt.cmd ≠ .hardPFReq) : ops.flatMap entry = if pkt.needsResponse then [pkt.id]
      else [] := by
  obtain ⟨own, time, pkts, rfl, hasked, hwb, -⟩ := h
  rw [flatMap_append, entry_writebackOps hwb, append_nil]
  cases hasked with
  | silent hneeds => simp [hneeds]
  | answered resp time hneeds hid => simp [entry, hneeds, hid]
  | allocated ix addr size pkt' time hsame =>
    simp [entry, hsame.cmd, hcmd, hsame.needsResponse, hsame.id]
  | joined i pkt' time hsame => simp [entry, hsame.needsResponse, hsame.id]

theorem entry_happens (h : Happens quiet w e ops w') (ha : w.Admits e) (hd : e.Demands) :
    ops.flatMap entry = w.arrivals e := by
  have hops := h.operations
  cases e with
  | request now pkt =>
    simp only [Operations] at hops
    split at hops
    · rename_i hinh
      simp [hops, arrivals, hinh]
    · split at hops
      · rename_i hport
        simp [hops, arrivals, hport, entry]
      · rename_i hinh hport
        rw [entry_request hops hd]
        simp [arrivals, hinh, hport]
  | response now pkt replies =>
    obtain ⟨r, -, hresp⟩ := hops
    exact entry_response hresp
  | snoopResponse now pkt replies =>
    obtain rfl | ⟨r, -, hresp⟩ := hops
    · rfl
    · exact entry_response hresp
  | snoop now pkt reply =>
    obtain ⟨rest, hsupplied, rfl⟩ := hops
    have hrest : rest.flatMap entry = [] := by cases hsupplied <;> rfl
    rw [flatMap_append, hrest]
    cases w.cache.snooped pkt <;> rfl
  | downstream r b =>
    cases hops
    rfl
  | send now offer above replies sent reply =>
    obtain ⟨out, hsend, -⟩ := hops
    exact entry_sending hsend ha

def heldAt (w : CacheWorld σ) : Option MSHRRef → List Nat
  | none => w.cache.path.answered
  | some r => if r.index ∈ (w.cache.path.queue r.queue).live then
      (w.cache.path.register r).waiting else []

/-- Every request that was let in is in one place, once. -/
def AnsweredOnce (w : CacheWorld σ) : Prop :=
  ∀ id ∈ w.accepted, ∃ place, (w.heldAt place).count id = 1 ∧ ∀ place', place' ≠ place →
    id ∉ w.heldAt place'

theorem answeredOnce_of_ledger (hperm : w.cache.path.ledger.Perm w.accepted) (hn : w.accepted.Nodup) :
    w.AnsweredOnce := by
  have hledger := hperm.nodup_iff.mpr hn
  obtain ⟨hanswered, hrest, hapart⟩ := nodup_append'.mp hledger
  obtain ⟨hmshrs, hwb, hqueues⟩ := nodup_append'.mp hrest
  have hqueue : ∀ ix, (w.cache.path.queue ix).waiting.Nodup := by
    intro ix
    cases ix
    exacts [hmshrs, hwb]
  have hwaits : ∀ {r id}, id ∈ w.heldAt (some r) →
      r.index ∈ (w.cache.path.queue r.queue).live ∧ id ∈ (w.cache.path.register r).waiting ∧
        id ∈ (w.cache.path.queue r.queue).waiting := by
    intro r id hid
    simp only [heldAt] at hid
    split at hid
    · rename_i hlive
      exact ⟨hlive, hid, MSHRQueue.mem_waiting.mpr ⟨_, hlive, hid⟩⟩
    · simp at hid
  have hmem : ∀ {ix id}, id ∈ (w.cache.path.queue ix).waiting →
      id ∈ w.cache.path.mshrQueue.waiting ++ w.cache.path.writeBuffer.waiting := by
    intro ix id hid
    cases ix
    exacts [mem_append_left _ hid, mem_append_right _ hid]
  -- no request is in two places
  have hunique : ∀ {place place' id}, id ∈ w.heldAt place → id ∈ w.heldAt place' → place' = place := by
    rintro (_ | ⟨ix, i⟩) (_ | ⟨iy, j⟩) id hid hid'
    · rfl
    · exact absurd (hmem (hwaits hid').2.2) (hapart hid)
    · exact absurd (hmem (hwaits hid).2.2) (hapart hid')
    · obtain ⟨hi, hreg, hid⟩ := hwaits hid
      obtain ⟨hj, hreg', hid'⟩ := hwaits hid'
      have hix : iy = ix := by
        cases ix <;> cases iy
        · rfl
        · exact absurd hid' (hqueues hid)
        · exact absurd hid (hqueues hid')
        · rfl
      subst hix
      have hji : j = i := MSHRQueue.waiting_unique (hqueue iy) hj hi hreg' hreg
      rw [hji]
  intro id hid
  obtain ⟨place, hplace, hnodup⟩ : ∃ place, id ∈ w.heldAt place ∧ (w.heldAt place).Nodup := by
    rcases mem_append.mp (hperm.mem_iff.mpr hid) with hid | hid
    · exact ⟨none, hid, hanswered⟩
    · obtain ⟨ix, hid⟩ : ∃ ix, id ∈ (w.cache.path.queue ix).waiting :=
        (mem_append.mp hid).elim (⟨.mshrs, ·⟩) (⟨.writeBuffer, ·⟩)
      obtain ⟨i, hi, hid⟩ := MSHRQueue.mem_waiting.mp hid
      have hheld : w.heldAt (some ⟨ix, i⟩) = ((w.cache.path.queue ix).registers i).waiting := if_pos hi
      rw [← hheld] at hid
      exact ⟨_, hid, hheld ▸ (nodup_flatMap.mp (hqueue ix)).1 i hi⟩
  exact ⟨place, count_eq_one_of_mem hnodup hplace, fun place' hne hid' => hne (hunique hplace hid')⟩

theorem mem_ledger_of_heldAt {place : Option MSHRRef} {id : Nat} (h : id ∈ w.heldAt place) :
    id ∈ w.cache.path.ledger := by
  rcases place with _ | ⟨ix, i⟩
  · exact mem_append_left _ h
  · simp only [heldAt] at h
    split at h
    · rename_i hlive
      have hid := MSHRQueue.mem_waiting.mpr ⟨_, hlive, h⟩
      refine mem_append_right _ (mem_append.mpr ?_)
      cases ix
      exacts [.inl hid, .inr hid]
    · simp at h

variable [TagStore σ]

/-- In every run each request that was let in is answered once, or waits in one
register. Every answer that may come is to a register in use and in service, and
the one the cache answers itself is in use. -/
theorem run_answeredOnce {params : CacheParams} {tags : σ} {mshrs writeBuffers : Nat}
    {events : List CacheEvent} (hσ : TagStore.Behaves σ (fun _ => True) quiet)
    (hr : Runs (fun w e w' => Step w e w' ∧ e.Demands)
      (create params tags mshrs writeBuffers) events w) :
    w.AnsweredOnce ∧
      (∀ e pkt r, w.Admits e → e.answer? = some pkt → Cache.mshrOf pkt = .ok r →
        OnItsWay w.cache.path r) ∧
      ∀ now r, w.cache.path.nextPending now = some r → w.cache.path.Live r := by
  obtain ⟨hsane, hperm, hn⟩ : w.Sane ∧ w.cache.path.ledger.Perm w.accepted ∧ w.accepted.Nodup := by
    refine hr.invariant (P := fun w => w.Sane ∧ w.cache.path.ledger.Perm w.accepted ∧ w.accepted.Nodup)
      ⟨create_sane params tags mshrs writeBuffers, .refl _, nodup_nil⟩ ?_
    rintro w e w' ⟨hsane, hperm, hn⟩ ⟨hs, hd⟩
    obtain ⟨ops, hh⟩ := step_happens hσ hsane hs
    refine ⟨hh.sane, ?_, ?_⟩
    · have hledger := run_ledger hh.reaches.runs hsane.path
      rw [entry_happens hh hs.1 hd] at hledger
      rw [hh.accepted]
      exact hledger.trans (hperm.append_left _)
    · rw [hh.accepted]
      cases e with
      | request now pkt =>
        simp only [arrivals]
        split
        · exact nodup_cons.mpr ⟨hs.1.2, hn⟩
        · exact hn
      | _ => exact hn
  refine ⟨answeredOnce_of_ledger hperm hn, fun e pkt r ha he hr => ?_,
    fun now r hr => (pending_of_nextPending hsane.path hr).1⟩
  cases e with
  | response now pkt' replies =>
    cases he
    obtain ⟨r', hr', hof⟩ := ha
    cases hof.symm.trans hr
    exact hsane.expected r hr'
  | snoopResponse now pkt' replies =>
    cases he
    exact hsane.expected r (ha.2 r hr)
  | _ => cases he

def lostStoreEvents : List CacheEvent :=
  [.request 0 (sampleRequest 1 .readReq 0), .send 10 none {} (fun _ => {}) true {},
    .response 20 { sampleResponse .readResp 0 0 with shared := true } (fun _ => {}),
    .request 30 (sampleRequest 2 .storeCondReq 0), .snoop 31 (sampleRequest 9 .readExReq 0) {}]

/-- The cache answers the store conditional itself, while its register is not in
service; and the prefetch of another cache is forgotten. -/
theorem not_answeredOnce_asked :
    (∃ w t, Runs Step (create sampleParams LRU.sampleStore 2 2) lostStoreEvents w ∧
      (w.cache.path.register ⟨.mshrs, 0⟩).targets.list.head? = some t ∧ t.pkt.id = 2 ∧
      Cache.mshrOf (Cache.failResponse 50 ⟨.mshrs, 0⟩ t.pkt) = .ok ⟨.mshrs, 0⟩ ∧
      (w.cache.path.register ⟨.mshrs, 0⟩).inService = false ∧
      (w.cache.getTimingPacket 50 none {} fun _ => {}) =
        (do let c ← w.cache.handleResponse 50 (Cache.failResponse 50 ⟨.mshrs, 0⟩ t.pkt) fun _ => {}
            return (c, .nothing)) ∧
      ∃ c, (w.cache.handleResponse 50 (Cache.failResponse 50 ⟨.mshrs, 0⟩ t.pkt) fun _ => {}) = .ok c) ∧
    ∃ w, Runs Step (create sampleParams LRU.sampleStore 2 2)
      [.request 0 (sampleRequest 1 .hardPFReq 0)] w ∧
      ¬ w.AnsweredOnce := by
  constructor
  · obtain ⟨w, hr, hnext, hhead, hserv, hok⟩ : ∃ w,
        Runs Step (create sampleParams LRU.sampleStore 2 2) lostStoreEvents w ∧
        w.cache.path.nextPending 50 = some ⟨.mshrs, 0⟩ ∧
        (w.cache.path.register ⟨.mshrs, 0⟩).targets.list.head?.map (fun t => (t.pkt.cmd, t.pkt.id)) =
          some (.storeCondFailReq, 2) ∧
        (w.cache.path.register ⟨.mshrs, 0⟩).inService = false ∧
        (w.cache.getTimingPacket 50 none {} fun _ => {}).toOption.isSome = true :=
      runs_of_play Admits apply (by decide +kernel)
    obtain ⟨t, ht, hcmd⟩ := Option.map_eq_some_iff.mp hhead
    obtain ⟨hcmd, hid⟩ := Prod.mk.inj hcmd
    have hfirst : w.cache.getNextMSHR 50 none = .ok (w.cache, some ⟨.mshrs, 0⟩) := by
      rw [getNextMSHR, hnext]
      rfl
    -- a store conditional that has lost its block is answered when its turn comes
    have heq : w.cache.getTimingPacket 50 none {} (fun _ => {}) =
        (do let c ← w.cache.handleResponse 50 (Cache.failResponse 50 ⟨.mshrs, 0⟩ t.pkt) fun _ => {}
            return (c, .nothing)) := by
      simp [getTimingPacket, hfirst, packetFor, MSHR.getTarget, ht, need, hcmd]
    refine ⟨w, t, hr, ht, hid, rfl, hserv, heq, ?_⟩
    obtain ⟨a, ha⟩ := ok_of_isSome hok
    rw [heq] at ha
    obtain ⟨c, hc, -⟩ := bind_eq_ok.mp ha
    exact ⟨c, hc⟩
  · obtain ⟨w, hr, hacc, hledger⟩ : ∃ w,
        Runs Step (create sampleParams LRU.sampleStore 2 2) [.request 0
          (sampleRequest 1 .hardPFReq 0)] w ∧
        w.accepted = [1] ∧ w.cache.path.ledger = [] := runs_of_play Admits apply (by decide +kernel)
    refine ⟨w, hr, fun h => ?_⟩
    obtain ⟨place, hone, -⟩ := h 1 (by simp [hacc])
    have hmem := mem_ledger_of_heldAt (count_pos_iff.mp (hone ▸ Nat.one_pos))
    simp [hledger] at hmem

theorem run_answeredOnce_read :
    ∃ events w, Runs (fun w e w' => Step w e w' ∧ e.Demands)
      (create sampleParams LRU.sampleStore 2 2) events w ∧
      w.accepted = [1] ∧ w.cache.path.answered = [1] ∧ w.AnsweredOnce := by
  have hσ := LRU.behaves (E := fun _ => True) fun _ _ _ => trivial
  refine ⟨[.request 0 (sampleRequest 1 .readReq 0), .send 10 none {} (fun _ => {}) true {},
    .response 20 (sampleResponse .readResp 0 0) (fun _ => {})], ?_⟩
  exact (runs_of_play_under (P := fun w => w.accepted = [1] ∧ w.cache.path.answered = [1])
    Admits apply (fun _ e => e.Demands)
    (by decide +kernel) fun _ hrun => (run_answeredOnce hσ hrun).1).imp fun _ h =>
      ⟨h.1, h.2.1.1, h.2.1.2, h.2.2⟩

end CacheWorld

end Gem5
