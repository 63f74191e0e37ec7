import Gem5.Mem.Cache.MSHRTargets
import Gem5.Mem.Cache.MissPath

/-!
# Steps of the miss path

All that the handlers of a cache do to its miss path, as a machine of its own:
the operations they are made of, what each may rely on, and the invariant each
keeps. The mask says why the cache is blocked, and the port is blocked if the
mask says so.
-/

namespace Gem5

open Lib List MSHRHistory MSHR MissPath BlockedMask

namespace MissPath

/-- The target that is sent next no longer offers an exclusive copy, or keeps
offering it. -/
def amendHead (m : MSHR) (supplyExclusive : Bool) : MSHR :=
  { m with targets := { m.targets with list :=
    match m.targets.list with
    | [] => []
    | t :: ts => { t with pkt := { t.pkt with supplyExclusive := supplyExclusive } } :: ts } }

end MissPath

inductive PathOp
  | answer (pkt : Packet) (time : Nat)
  | enqueue (now : Nat) (ix : MSHRQueueIndex) (addr size : Nat) (pkt : Packet) (time : Nat)
  | join (numTarget now : Nat) (i : Nat) (pkt : Packet) (time : Nat)
  | snoop (now i : Nat) (pkt : Packet)
  | release (r : MSHRRef)
  | absorb (r : MSHRRef) (pkt : Packet)
  | serve (r : MSHRRef) (response : Option (Packet × Nat))
  | retire (now : Nat) (wasFull : Bool) (r : MSHRRef)
  | issue (r : MSHRRef) (pkt : Packet)
  | forward (r : MSHRRef) (isForward : Bool)
  | downstream (r : MSHRRef) (pending : Bool)
  | amend (i : Nat) (supplyExclusive : Bool)
  | refuse

def PathOp.fills (ix : MSHRQueueIndex) : PathOp → Bool
  | .enqueue _ iy _ _ _ _ => iy == ix
  | _ => false

def PathOp.Serving (r : MSHRRef) (op : PathOp) : Prop :=
  op = .release r ∨ (∃ pkt, op = .absorb r pkt) ∨ ∃ response, op = .serve r response

namespace MissPath

variable {p p' : MissPath} {ix : MSHRQueueIndex} {r : MSHRRef}

def respond (p : MissPath) : Option (Packet × Nat) → MissPath
  | none => p
  | some (pkt, time) => p.schedTimingResp pkt time

def apply (p : MissPath) : PathOp → Chk MissPath
  | .answer pkt time => return p.schedTimingResp pkt time
  | .enqueue now ix addr size pkt time => do
    let (p, _) ← p.allocateBufferInternal now ix addr size pkt time
    return p
  | .join numTarget now i pkt time => p.addTarget numTarget now ⟨.mshrs, i⟩ pkt time
  | .snoop now i pkt =>
    let m := ((p.mshrQueue.registers i).handleSnoop now pkt p.order).1
    return { p.setRegister ⟨.mshrs, i⟩ m with order := p.order + 1 }
  | .release r => p.clearNoTargets r
  | .absorb r pkt => do
    let m ← (p.register r).handleFill pkt
    return p.setRegister r m
  | .serve r response => return (p.respond response).setRegister r (p.register r).popTarget
  | .retire now wasFull r => do
    let (p, _) ← p.retire now wasFull r
    return p
  | .issue r pkt => p.markInServiceInternal r pkt
  | .forward r isForward => return p.setRegister r { p.register r with isForward := isForward }
  | .downstream r pending => do
    let m ← (p.register r).noteDownstream pending
    return p.setRegister r m
  | .amend i supplyExclusive =>
    return p.setRegister ⟨.writeBuffer, i⟩ (amendHead (p.writeBuffer.registers i) supplyExclusive)
  | .refuse => return { p with mustSendRetry := true }

def Live (p : MissPath) (r : MSHRRef) : Prop := r.index ∈ (p.queue r.queue).live

def Serves (p : MissPath) (r : MSHRRef) (response : Option (Packet × Nat)) : Prop :=
  ∃ t ts, (p.register r).targets.list = t :: ts ∧
    match response with
    | none => t.isCPU = false
    | some (pkt, _) => t.awaited = true ∧ pkt.id = t.pkt.id

def Allowed (p : MissPath) : PathOp → Prop
  | .answer .. | .enqueue .. | .release _ | .refuse => True
  | .join _ _ i _ _ | .snoop _ i _ => i ∈ p.mshrQueue.live
  | .amend i _ => i ∈ p.writeBuffer.live
  | .absorb r _ | .issue r _ | .forward r _ | .downstream r _ => p.Live r
  | .serve r response => p.Live r ∧ p.Serves r response
  | .retire _ wasFull r => p.Live r ∧ wasFull = (p.queue r.queue).isFull

def Step (p : MissPath) (op : PathOp) (p' : MissPath) : Prop :=
  p.Allowed op ∧ p.apply op = .ok p'

structure InvBut (but : MSHRQueueIndex → Prop) (p : MissPath) : Prop where
  good : ∀ ix, (p.queue ix).Good
  full : ∀ ix, ¬ but ix → (p.queue ix).numReserve ≤ (p.queue ix).numEntries →
    p.blocked.get (.ofQueue ix) = (p.queue ix).isFull
  targets : p.blocked.get .noTargets = p.noTargetMSHR.isSome
  port : p.portBlocked = p.blocked.any

/-- The mask says why the cache is blocked. A queue made for no entries at all is
always full, and says so only once something was put into it. -/
abbrev Inv : MissPath → Prop := InvBut fun _ => False

@[simp] theorem queue_setQueue_self (p : MissPath) (ix : MSHRQueueIndex) (q : MSHRQueue) :
    (p.setQueue ix q).queue ix = q := by
  cases ix <;> rfl

theorem queue_setQueue_ne (h : iy ≠ ix) (p : MissPath) (q : MSHRQueue) :
    (p.setQueue ix q).queue iy = p.queue iy := by
  cases ix <;> cases iy <;> first | rfl | exact absurd rfl h

theorem setQueue_rest (p : MissPath) (ix : MSHRQueueIndex) (q : MSHRQueue) :
    (p.setQueue ix q).blocked = p.blocked ∧ (p.setQueue ix q).noTargetMSHR = p.noTargetMSHR ∧
      (p.setQueue ix q).portBlocked = p.portBlocked ∧ (p.setQueue ix q).responses = p.responses := by
  cases ix <;> exact ⟨rfl, rfl, rfl, rfl⟩

theorem ofQueue_ne_noTargets : BlockedCause.ofQueue ix ≠ .noTargets := by
  cases ix <;> decide

theorem setBlocked_eq (h : p.portBlocked = p.blocked.any) (cause : BlockedCause) :
    p.setBlocked cause = .ok { p with blocked := p.blocked.set cause true, portBlocked := true } := by
  unfold setBlocked
  cases hany : p.blocked.any with
  | false => simp [h.trans hany]
  | true => simp [← h.trans hany]

theorem clearBlocked_eq (h : p.portBlocked = p.blocked.any)
    (hb : p.blocked.get cause = true) :
    ∃ retry, p.clearBlocked cause = .ok { p with
      blocked := p.blocked.set cause false
      portBlocked := (p.blocked.set cause false).any
      mustSendRetry := retry } := by
  have hport : p.portBlocked = true := h.trans (any_eq_true.mpr ⟨cause, hb⟩)
  unfold clearBlocked
  cases hany : (p.blocked.set cause false).any with
  | false => exact ⟨false, by simp [hany, hport]⟩
  | true => exact ⟨p.mustSendRetry, by simp [hany, ← hport]⟩

theorem InvBut.setBit (h : p.InvBut fun iy => but iy ∨ iy = ix) (retry : Bool)
    (hb : (p.queue ix).numReserve ≤ (p.queue ix).numEntries → b = (p.queue ix).isFull) :
    InvBut but { p with
      blocked := p.blocked.set (.ofQueue ix) b
      portBlocked := (p.blocked.set (.ofQueue ix) b).any
      mustSendRetry := retry } := by
  refine ⟨h.good, fun iy hbut hsize => ?_, ?_, rfl⟩
  · by_cases hiy : iy = ix
    · subst hiy
      exact (get_set_self ..).trans (hb hsize)
    · have hne : BlockedCause.ofQueue iy ≠ .ofQueue ix := by
        cases ix <;> cases iy <;> first | exact absurd rfl hiy | decide
      refine (get_set_ne hne ..).trans (h.full iy ?_ hsize)
      rintro (hbut' | rfl)
      · exact hbut hbut'
      · exact hiy rfl
  · exact (get_set_ne ofQueue_ne_noTargets.symm ..).trans h.targets

def PathFault : Fault → Prop
  | .assertion text => text = "!blocked" ∨ text = "blocked" ∨ text = "!freeList.empty()"
  | _ => False

def Spares (E : Fault → Prop) : Prop := ∀ e, ¬ PathFault e → E e

end MissPath

def tempFault : Fault := .assertion "blk != tempBlock"

def Mild (E : Fault → Prop) : Prop := ∀ e, ¬ MissPath.PathFault e → e ≠ tempFault → E e

/-- The faults that are not mild. -/
def severe : List Fault :=
  [.assertion "!blocked", .assertion "blocked", .assertion "!freeList.empty()", tempFault]

theorem Mild.pass (hE : Mild E) (h : severe.contains e = false) : E e := by
  simp only [severe, contains_eq_mem, decide_eq_false_iff_not, mem_cons, not_or] at h
  refine hE e (fun hpath => ?_) h.2.2.2.1
  cases e <;> simp_all [MissPath.PathFault]

theorem Mild.guard {P : α → Prop} {f : Unit → Chk α} (hE : Mild E)
    (htext : severe.contains (.assertion text) = false) (h : b = true → Meets P E (f ())) :
    Meets P E (ensure b text >>= f) :=
  (Meets.ensure (hE.pass htext)).bind fun _ => h

theorem Mild.of_spares (hE : MissPath.Spares E) : Mild E := fun e h _ => hE e h

namespace MissPath

variable {p p' : MissPath} {ix : MSHRQueueIndex} {r : MSHRRef}

section Faults

variable {E : Fault → Prop} {q : MSHRQueue} {m : MSHR} {i : Nat} {pkt : Packet}

variable (hE : Mild E)
include hE

theorem getTarget_faults : Meets (fun t => m.targets.list.head? = some t) E m.getTarget :=
  Meets.need (hE.pass rfl)

theorem allocateTarget_faults {now whenReady order : Nat} :
    Meets (fun _ => True) E (m.allocateTarget now pkt whenReady order) := by
  refine hE.guard rfl fun _ => ?_
  split <;> exact trivial

theorem hasPost_faults : Meets (fun b => b = m.postInvalidate) E m.hasPostInvalidate ∧
      Meets (fun b => b = m.postDowngrade) E m.hasPostDowngrade := by
  constructor
  · exact hE.guard rfl fun _ => rfl
  · exact hE.guard rfl fun _ => rfl

theorem handleFill_faults : Meets (fun _ => True) E (m.handleFill pkt) := by
  unfold handleFill
  split
  · exact trivial
  · refine (hasPost_faults hE).1.bind fun _ _ => ?_
    split
    · refine hE.guard rfl fun _ => ?_
      exact hE.guard rfl fun _ => trivial
    · exact trivial

theorem noteDownstream_faults : Meets (fun _ => True) E (m.noteDownstream b) := by
  cases b <;> exact hE.guard rfl fun _ => trivial

theorem isForwardNoResponse_faults : Meets (fun _ => True) E m.isForwardNoResponse := by
  unfold isForwardNoResponse
  split
  · exact trivial
  · exact (getTarget_faults hE).bind fun _ _ => trivial

theorem promote_faults {now : Nat} : Meets (fun _ => True) E (m.promoteDeferredTargets now) := by
  refine hE.guard rfl fun _ => ?_
  split
  · exact trivial
  · exact hE.guard rfl fun _ => trivial

theorem eraseNode_faults : Meets (fun _ => True) E (MSHRQueue.eraseNode l i) := by
  unfold MSHRQueue.eraseNode
  split
  · exact trivial
  · exact hE _ nofun nofun

theorem deallocateMSHR_faults : Meets (fun _ => True) E m.deallocate := by
  refine hE.guard rfl fun _ => ?_
  refine hE.guard rfl fun _ => ?_
  exact hE.guard rfl fun _ => trivial

theorem deallocate_faults : Meets (fun _ => True) E (q.deallocate i) := by
  refine (eraseNode_faults hE).bind fun _ _ => ?_
  split
  · exact (deallocateMSHR_faults hE).bind fun _ _ => trivial
  · refine (eraseNode_faults hE).bind fun _ _ => ?_
    exact (deallocateMSHR_faults hE).bind fun _ _ => trivial

theorem markInService_faults : Meets (fun _ => True) E (q.markInService i pkt) := by
  have hmark : Meets (fun _ => True) E ((q.registers i).markInService pkt) := by
    refine hE.guard rfl fun _ => ?_
    refine (isForwardNoResponse_faults hE).bind fun _ _ => ?_
    split
    · exact hE.guard rfl fun _ => trivial
    · exact trivial
  refine hmark.bind fun _ _ => ?_
  dsimp only
  split
  · exact deallocate_faults hE
  · exact (eraseNode_faults hE).bind fun _ _ => trivial

theorem markPending_faults : Meets (fun _ => True) E (q.markPending i) := by
  have hplace : ∀ q : MSHRQueue, Meets (fun _ => True) E (q.addToReadyList i) := by
    intro q
    have hplace : Meets (fun _ => True) E (q.readyPlace i) := by
      unfold MSHRQueue.readyPlace
      dsimp only
      split
      · exact trivial
      · exact (Meets.need (hE.pass rfl)).mono fun _ _ => trivial
    exact hplace.bind fun _ _ => trivial
  refine hE.guard rfl fun _ => ?_
  exact (hplace _).bind fun _ _ => trivial

end Faults

structure Only (ix : MSHRQueueIndex) (p p' : MissPath) : Prop where
  queue : ∀ iy, iy ≠ ix → p'.queue iy = p.queue iy
  responses : p'.responses = p.responses

theorem register_setRegister (p : MissPath) (r : MSHRRef) (m : MSHR) :
    (p.setRegister r m).register r = m := by
  simp [register, setRegister, MSHRQueue.set]

theorem InvBut.withQueue (h : p.Inv) (ix : MSHRQueueIndex) (hq : q.Good) :
    InvBut (fun iy => False ∨ iy = ix) (p.setQueue ix q) := by
  obtain ⟨hblocked, hno, hport, -⟩ := p.setQueue_rest ix q
  refine ⟨fun iy => ?_, fun iy hiy => ?_, ?_, ?_⟩
  · by_cases hix : iy = ix
    · subst hix
      rw [queue_setQueue_self]
      exact hq
    · rw [queue_setQueue_ne hix]
      exact h.good iy
  · have hix : iy ≠ ix := fun he => hiy (.inr he)
    rw [queue_setQueue_ne hix, hblocked]
    exact h.full iy id
  · rw [hblocked, hno]
    exact h.targets
  · rw [hblocked, hport]
    exact h.port

theorem Only.of_setQueue : Only ix p (p.setQueue ix q) :=
  ⟨fun _ h => queue_setQueue_ne h p q, (p.setQueue_rest ix q).2.2.2⟩

theorem InvBut.restore (h : p.InvBut fun iy => False ∨ iy = ix)
    (hbit : (p.queue ix).numReserve ≤ (p.queue ix).numEntries →
      p.blocked.get (.ofQueue ix) = (p.queue ix).isFull) :
    p.Inv := by
  refine ⟨h.good, fun iy _ => ?_, h.targets, h.port⟩
  by_cases hix : iy = ix
  · exact hix ▸ hbit
  · exact h.full iy fun hor => hor.elim id hix

section

variable (h : p.Inv)

include h

theorem InvBut.setRegister (hr : p.Live r)
    (hs : MSHRHistory.SamePlace (p.register r) m) (hm : m.Sound) :
    (p.setRegister r m).Inv ∧ Only r.queue p (p.setRegister r m) ∧
      (p.queue r.queue).Changed ((p.setRegister r m).queue r.queue) r.index ∧
      (p.setRegister r m).noTargetMSHR = p.noTargetMSHR ∧ (p.setRegister r m).register r = m := by
  obtain ⟨hgood, hchanged⟩ := (h.good r.queue).set hr hs hm
  obtain ⟨hblocked, hno, -⟩ := p.setQueue_rest r.queue ((p.queue r.queue).set r.index m)
  refine ⟨(h.withQueue r.queue hgood).restore ?_, Only.of_setQueue, ?_, hno, register_setRegister ..⟩
  · rw [queue_setQueue_self, hblocked]
    exact h.full r.queue id
  · rw [MissPath.setRegister, queue_setQueue_self]
    exact hchanged

theorem InvBut.blockIfFull (ix : MSHRQueueIndex) (hq : q.Good)
    (hsize : (p.queue ix).SameSize q)
    (hgrow : (p.queue ix).live.length ≤ q.live.length) :
    ∃ p', (p.setQueue ix q).blockIfFull ix = .ok p' ∧ p'.Inv ∧ p'.queue ix = q ∧ Only ix p p' ∧
      p'.noTargetMSHR = p.noTargetMSHR ∧ p'.order = (p.setQueue ix q).order := by
  have hinv := h.withQueue ix hq
  obtain ⟨hblocked, hno, hport, hresp⟩ := p.setQueue_rest ix q
  unfold MissPath.blockIfFull
  rw [queue_setQueue_self]
  cases hfull : q.isFull with
  | true =>
    rw [if_pos rfl, setBlocked_eq hinv.port]
    have hset := hinv.setBit (b := true) (p.setQueue ix q).mustSendRetry
      fun _ => by rw [queue_setQueue_self, hfull]
    rw [any_set_true] at hset
    refine ⟨_, rfl, hset, ?_, ⟨fun iy hiy => ?_, hresp⟩, hno, rfl⟩
    · exact queue_setQueue_self p ix q
    · exact queue_setQueue_ne hiy p q
  | false =>
    rw [if_neg (by simp)]
    refine ⟨_, rfl, hinv.restore ?_, queue_setQueue_self p ix q, Only.of_setQueue, hno, rfl⟩
    have hbefore : (p.queue ix).isFull = false := by
      rw [← Bool.not_eq_true, (h.good ix).isFull_iff, ← hsize.1, ← hsize.2]
      rw [← Bool.not_eq_true, hq.isFull_iff] at hfull
      omega
    rw [queue_setQueue_self, hfull, ← hbefore, hblocked, hsize.1, hsize.2]
    exact h.full ix id

theorem InvBut.unblockIfFreed (ix : MSHRQueueIndex) (hq : q.Good)
    (hsize : (p.queue ix).SameSize q) (hshrink : q.live.length ≤ (p.queue ix).live.length) :
    ∃ p', (p.setQueue ix q).unblockIfFreed (p.queue ix).isFull ix = .ok p' ∧ p'.Inv ∧
      p'.queue ix = q ∧ Only ix p p' ∧ p'.noTargetMSHR = p.noTargetMSHR := by
  have hinv := h.withQueue ix hq
  obtain ⟨hblocked, hno, hport, hresp⟩ := p.setQueue_rest ix q
  have hbit : q.numReserve ≤ q.numEntries →
      (p.setQueue ix q).blocked.get (.ofQueue ix) = (p.queue ix).isFull := by
    intro hsz
    rw [hblocked]
    exact h.full ix id (hsize.1 ▸ hsize.2 ▸ hsz)
  have hless : q.isFull = true → (p.queue ix).isFull = true := by
    intro hf
    rw [hq.isFull_iff] at hf
    rw [(h.good ix).isFull_iff, ← hsize.1, ← hsize.2]
    omega
  unfold MissPath.unblockIfFreed
  rw [queue_setQueue_self]
  cases hfreed : (p.queue ix).isFull && !q.isFull with
  | true =>
    simp only [Bool.and_eq_true, Bool.not_eq_true'] at hfreed
    -- a queue that can be not full at all was made for some entries
    have hsz : q.numReserve ≤ q.numEntries := by
      have hnot := hfreed.2
      rw [← Bool.not_eq_true, hq.isFull_iff] at hnot
      omega
    rw [if_pos rfl]
    obtain ⟨retry, hclear⟩ := clearBlocked_eq hinv.port ((hbit hsz).trans hfreed.1)
    rw [hclear]
    refine ⟨_, rfl, hinv.setBit _ fun _ => ?_, ?_, ⟨fun iy hiy => ?_, hresp⟩, hno⟩
    · rw [queue_setQueue_self, hfreed.2]
    · exact queue_setQueue_self p ix q
    · exact queue_setQueue_ne hiy p q
  | false =>
    rw [if_neg (by simp)]
    refine ⟨_, rfl, hinv.restore fun hsz => ?_, queue_setQueue_self p ix q, Only.of_setQueue, hno⟩
    rw [queue_setQueue_self] at hsz ⊢
    rw [hbit hsz]
    cases hqf : q.isFull with
    | true => exact hless hqf
    | false => simpa [hqf] using hfreed

structure Fresh (m : MSHR) (pkt : Packet) (addr : Nat) : Prop where
  inService : m.inService = false
  deferred : m.deferredTargets.list = []
  ntargets : m.ntargets = 1
  waiting : m.waiting = if pkt.cmd ≠ .hardPFReq ∧ pkt.needsResponse = true then [pkt.id] else []
  cpuTargets : m.cpuTargets = if pkt.cmd = .hardPFReq then 0 else 1
  addr : m.addr = addr
  target : ∃ t, m.targets.list = [t] ∧ t.pkt = pkt

structure Joined (m m' : MSHR) (pkt : Packet) : Prop where
  inService : m'.inService = m.inService
  length : m'.allTargets.length = m.allTargets.length + 1
  cpuTargets : m'.cpuTargets = m.cpuTargets + 1
  waiting : m'.waiting.Perm ((if pkt.needsResponse = true then [pkt.id] else []) ++ m.waiting)
  targets : m.targets.list.length ≤ m'.targets.list.length

structure Alike (m m' : MSHR) : Prop where
  inService : m'.inService = m.inService
  cpuTargets : m'.cpuTargets = m.cpuTargets
  waiting : m'.waiting = m.waiting
  deferred : m'.deferredTargets.list.length ≤ m.deferredTargets.list.length
  targets : m.targets.list.length ≤ m'.targets.list.length

structure Promoted (m m' : MSHR) : Prop where
  inService : m.inService = true
  pending : m'.inService = false
  allTargets : m'.allTargets = m.allTargets
  targets : m.targets.list = []
  deferred : m.deferredTargets.list ≠ []
  promoted : m'.deferredTargets.list = []

structure Issued (m m' : MSHR) : Prop where
  inService : m'.inService = true
  allTargets : m'.allTargets = m.allTargets
  ntargets : m'.ntargets = m.ntargets
  deferred : m'.deferredTargets.list = []

/-- What an operation does, one line for each part of the path it reaches. -/
def Effect (p p' : MissPath) : PathOp → Prop
  | .answer pkt time => p' = p.schedTimingResp pkt time
  | .enqueue _ ix addr _ pkt _ =>
    Only ix p p' ∧ p'.noTargetMSHR = p.noTargetMSHR ∧
      ∃ i, (p.queue ix).Taken (p'.queue ix) i ∧ Fresh ((p'.queue ix).registers i) pkt addr
  | .join numTarget _ i pkt _ =>
    Only .mshrs p p' ∧ p.mshrQueue.Changed p'.mshrQueue i ∧
      p'.noTargetMSHR = (if (p'.mshrQueue.registers i).ntargets = numTarget then some ⟨.mshrs, i⟩
        else p.noTargetMSHR) ∧
      Joined (p.mshrQueue.registers i) (p'.mshrQueue.registers i) pkt
  | .snoop _ i _ =>
    Only .mshrs p p' ∧ p.mshrQueue.Changed p'.mshrQueue i ∧ p'.noTargetMSHR = p.noTargetMSHR ∧
      Alike (p.mshrQueue.registers i) (p'.mshrQueue.registers i) ∧
      ((p'.mshrQueue.registers i).allTargets.length = (p.mshrQueue.registers i).allTargets.length ∨
        (p.mshrQueue.registers i).inService = true ∧
        (p'.mshrQueue.registers i).allTargets.length =
          (p.mshrQueue.registers i).allTargets.length + 1)
  | .release r =>
    (∀ ix, p'.queue ix = p.queue ix) ∧ p'.responses = p.responses ∧
      p'.noTargetMSHR = if p.noTargetMSHR = some r then none else p.noTargetMSHR
  | .absorb r _ | .forward r _ | .downstream r _ =>
    Only r.queue p p' ∧ (p.queue r.queue).Changed (p'.queue r.queue) r.index ∧
      p'.noTargetMSHR = p.noTargetMSHR ∧ Alike (p.register r) (p'.register r) ∧
      (p'.register r).allTargets = (p.register r).allTargets
  | .amend i _ =>
    Only .writeBuffer p p' ∧ p.writeBuffer.Changed p'.writeBuffer i ∧
      p'.noTargetMSHR = p.noTargetMSHR ∧
      Alike (p.writeBuffer.registers i) (p'.writeBuffer.registers i) ∧
      (p'.writeBuffer.registers i).allTargets.length = (p.writeBuffer.registers i).allTargets.length
  | .serve r response =>
    (∀ iy, iy ≠ r.queue → p'.queue iy = p.queue iy) ∧ p'.responses = p.responses ++ response.toList ∧
      (p.queue r.queue).Changed (p'.queue r.queue) r.index ∧ p'.noTargetMSHR = p.noTargetMSHR ∧
      (p'.register r).inService = (p.register r).inService ∧
      (p'.register r).deferredTargets = (p.register r).deferredTargets ∧
      ∃ t, (p.register r).targets.list = t :: (p'.register r).targets.list ∧
        match response with
        | none => t.isCPU = false
        | some (pkt, _) => t.awaited = true ∧ pkt.id = t.pkt.id
  | .retire _ _ r =>
    Only r.queue p p' ∧ p'.noTargetMSHR = p.noTargetMSHR ∧
      ((p.queue r.queue).Freed (p'.queue r.queue) r.index ∧ (p.register r).allTargets = [] ∨
        (p.queue r.queue).Changed (p'.queue r.queue) r.index ∧ Promoted (p.register r) (p'.register r))
  | .issue r _ =>
    Only r.queue p p' ∧ p'.noTargetMSHR = p.noTargetMSHR ∧ (p.register r).inService = false ∧
      ((p.queue r.queue).Freed (p'.queue r.queue) r.index ∧
          (∃ t, (p.register r).allTargets = [t] ∧ t.isCPU = true ∧ t.pkt.needsResponse = false) ∨
        (p.queue r.queue).Changed (p'.queue r.queue) r.index ∧ Issued (p.register r) (p'.register r))
  | .refuse => p' = { p with mustSendRetry := true }

theorem InvBut.withOrder (n : Nat) : Inv { p with order := n } :=
  ⟨fun ix => by cases ix; exacts [h.good .mshrs, h.good .writeBuffer],
    fun ix => by cases ix; exacts [h.full .mshrs, h.full .writeBuffer], h.targets, h.port⟩

theorem allocateBufferInternal_meets {now addr size time : Nat} {pkt : Packet}
    (hroom : E (.assertion "!freeList.empty()") ∨ (p.queue ix).freeList ≠ []) :
    Meets (fun a => a.1.Inv ∧ Only ix p a.1 ∧ a.1.noTargetMSHR = p.noTargetMSHR ∧ a.2.queue = ix ∧
        (p.queue ix).Taken (a.1.queue ix) a.2.index ∧
        Fresh ((a.1.queue ix).registers a.2.index) pkt addr)
      E (p.allocateBufferInternal now ix addr size pkt time) := by
  by_cases hfree : (p.queue ix).freeList = []
  · simp only [allocateBufferInternal, MSHRQueue.allocate, hfree, List.head?_nil, need, error_bind]
    exact hroom.resolve_right (not_not.mpr hfree)
  obtain ⟨⟨q, i⟩, hq⟩ := (h.good ix).allocate_ok hfree now addr size pkt time p.order
  obtain ⟨hgood, htaken, hempty, m, hm, a, b, hreg⟩ := (h.good ix).allocate hq
  have horder : { p.setQueue ix q with order := p.order + 1 } =
      setQueue { p with order := p.order + 1 } ix q := by
    cases ix <;> rfl
  have hqueue : MissPath.queue { p with order := p.order + 1 } ix = p.queue ix := by
    cases ix <;> rfl
  obtain ⟨p1, hp1, hinv, hix, honly, hno, -⟩ := (h.withOrder (p.order + 1)).blockIfFull ix hgood
    (by rw [hqueue]; exact htaken.size) (by rw [hqueue, htaken.live]; simp)
  simp only [allocateBufferInternal, hq, horder, hp1, ok_bind]
  obtain ⟨hsound, hserv, hn, hdef, hwait, hcpu, haddr, htarget⟩ := allocate_targets hempty hm
  refine ⟨hinv, ⟨fun iy hiy => ?_, honly.responses⟩, hno, rfl, hix.symm ▸ htaken, ?_⟩
  · rw [honly.queue iy hiy]
    cases iy <;> rfl
  · rw [hix, hreg]
    exact ⟨hserv, hdef, hn, hwait, hcpu, haddr, htarget⟩

theorem InvBut.setNoTarget (retry : Bool) (o : Option MSHRRef) :
    Inv { p with
      noTargetMSHR := o
      blocked := p.blocked.set .noTargets o.isSome
      portBlocked := (p.blocked.set .noTargets o.isSome).any
      mustSendRetry := retry } := by
  refine ⟨fun ix => ?_, fun ix _ hsize => ?_, p.blocked.get_set_self .noTargets o.isSome, rfl⟩
  · cases ix
    exacts [h.good .mshrs, h.good .writeBuffer]
  · refine (get_set_ne ofQueue_ne_noTargets ..).trans ?_
    cases ix
    exacts [h.full .mshrs id hsize, h.full .writeBuffer id hsize]

omit h in
theorem addTarget_meets (hE : Mild E) (h : p.Inv) (hi : i ∈ p.mshrQueue.live) :
    Meets (fun p' => p'.Inv ∧ p.Effect p' (.join numTarget now i pkt time)) E
      (p.addTarget numTarget now ⟨.mshrs, i⟩ pkt time) := by
  refine ((allocateTarget_faults hE).and fun _ hm => hm).bind fun m hm => ?_
  obtain ⟨hms, hjoined⟩ := allocateTarget_targets ((h.good .mshrs).sound i hi) hm.2
  obtain ⟨hinv, -, hchanged, -, hreg⟩ := h.setRegister (r := ⟨.mshrs, i⟩) hi
    (samePlace_of_apply (o := .allocateTarget now pkt time p.order) hm.2 nofun) hms
  have hinv := hinv.withOrder (p.order + 1)
  have hreg : (p.setRegister ⟨.mshrs, i⟩ m).mshrQueue.registers i = m := hreg
  -- blocking reaches neither the registers nor the responses
  have heffect : ∀ p', p'.mshrQueue = (p.setRegister ⟨.mshrs, i⟩ m).mshrQueue →
    p'.writeBuffer = p.writeBuffer →
      p'.responses = p.responses →
      p'.noTargetMSHR = (if m.ntargets = numTarget then some ⟨.mshrs, i⟩ else p.noTargetMSHR) →
      p.Effect p' (.join numTarget now i pkt time) := by
    intro p' hq hw hresp hno
    refine ⟨⟨fun iy hiy => ?_, hresp⟩, hq ▸ hchanged, ?_, ?_⟩
    · cases iy
      exacts [absurd rfl hiy, hw]
    · rw [hq, hreg, hno]
    · rw [hq, hreg]
      obtain ⟨hserv, hlen, hcpu, hwait, htargets⟩ := hjoined
      exact ⟨hserv, hlen, hcpu, hwait, htargets⟩
  split
  · rename_i hn
    rw [setBlocked_eq (by exact hinv.port)]
    have hset := hinv.setNoTarget p.mustSendRetry (some ⟨.mshrs, i⟩)
    rw [Option.isSome_some, any_set_true] at hset
    exact ⟨hset, heffect _ rfl rfl rfl (if_pos hn).symm⟩
  · rename_i hn
    exact ⟨hinv, heffect _ rfl rfl rfl (if_neg hn).symm⟩

theorem clearNoTargets_spec (r : MSHRRef) :
    ∃ p', p.clearNoTargets r = .ok p' ∧ p'.Inv ∧ p.Effect p' (.release r) := by
  unfold clearNoTargets
  by_cases hr : p.noTargetMSHR = some r
  · have hbit : p.blocked.get .noTargets = true := by rw [h.targets, hr]; rfl
    obtain ⟨retry, hclear⟩ := clearBlocked_eq h.port hbit
    simp only [if_pos hr, hclear, ok_bind]
    refine ⟨_, rfl, h.setNoTarget _ none, fun ix => ?_, rfl, ?_⟩
    · cases ix <;> rfl
    · rw [if_pos hr]
  · rw [if_neg hr]
    refine ⟨p, rfl, h, fun _ => rfl, rfl, ?_⟩
    rw [if_neg hr]

theorem snoop_spec (hi : i ∈ p.mshrQueue.live)
    (hs : p.apply (.snoop now i pkt) = .ok p') : p'.Inv ∧ p.Effect p' (.snoop now i pkt) := by
  cases hs
  have hsound : (p.mshrQueue.registers i).Sound := (h.good .mshrs).sound i hi
  have hplace := samePlace_of_apply
    (o := .handleSnoop now pkt p.order) (m := p.mshrQueue.registers i) rfl nofun
  generalize hm : ((p.mshrQueue.registers i).handleSnoop now pkt p.order).1 = m at *
  obtain ⟨hms, hserv, hwait, hcpu⟩ := handleSnoop_targets hsound hm
  obtain ⟨ts, ds, hts, hds, -, hd, hcases⟩ := handleSnoop_cases hm
  obtain ⟨hinv, honly, hchanged, -, hreg⟩ := h.setRegister (r := ⟨.mshrs, i⟩) hi hplace hms
  have hreg : (p.setRegister ⟨.mshrs, i⟩ m).mshrQueue.registers i = m := hreg
  refine ⟨hinv.withOrder _, ⟨fun iy hiy => ?_, rfl⟩, hchanged, rfl, ?_, ?_⟩
  · cases iy
    exacts [absurd rfl hiy, rfl]
  · change Alike _ ((p.setRegister ⟨.mshrs, i⟩ m).mshrQueue.registers i)
    rw [hreg]
    refine ⟨hserv, hcpu, hwait, Nat.le_of_eq (hd ▸ hds.length), ?_⟩
    rcases hcases with ⟨ht, -⟩ | ⟨-, -, t, -, ht⟩
    · exact Nat.le_of_eq (ht ▸ hts.length).symm
    · rw [ht, length_append, hts.length]
      exact Nat.le_add_right _ _
  · change ((p.setRegister ⟨.mshrs, i⟩ m).mshrQueue.registers i).allTargets.length = _ ∨
      _ ∧ ((p.setRegister ⟨.mshrs, i⟩ m).mshrQueue.registers i).allTargets.length = _
    rw [hreg]
    simp only [allTargets, length_append, hd, hds.length]
    rcases hcases with ⟨ht, -⟩ | ⟨hin, -, t, -, ht⟩
    · exact .inl (by rw [ht, hts.length])
    · refine .inr ⟨hin, ?_⟩
      rw [ht, length_append, hts.length, length_singleton]
      omega

omit h in
theorem absorb_meets (hE : Mild E) (h : p.Inv) (hr : p.Live r) :
    Meets (fun p' => p'.Inv ∧ p.Effect p' (.absorb r pkt)) E (p.apply (.absorb r pkt)) := by
  refine ((handleFill_faults hE).and fun _ hm => hm).bind fun m hm => ?_
  obtain ⟨hms, hserv, hall, hdef, htargets⟩ := handleFill_targets ((h.good r.queue).sound _ hr) hm.2
  obtain ⟨hinv, honly, hchanged, hno, hreg⟩ :=
    h.setRegister hr (samePlace_of_apply (o := .handleFill pkt) hm.2 nofun) hms
  have halike : Alike (p.register r) m :=
    ⟨hserv, congrArg (List.countP _) hall, congrArg waitingIds hall, hdef, htargets⟩
  exact ⟨hinv, honly, hchanged, hno, hreg.symm ▸ halike, by rw [hreg]; exact hall⟩

omit h in
theorem noteDownstream_targets {m m' : MSHR} {b : Bool} (hs : m.Sound)
    (hm : m.noteDownstream b = .ok m') :
    m'.Sound ∧ m'.allTargets = m.allTargets ∧ m'.deferredTargets = m.deferredTargets ∧
      m'.targets = m.targets ∧ m'.inService = m.inService := by
  cases b <;> cases of_guard hm <;> exact ⟨{ hs with }, rfl, rfl, rfl, rfl⟩

omit h in
theorem amendHead_targets (hs : m.Sound) (b : Bool) :
    (amendHead m b).Sound ∧ Alike m (amendHead m b) ∧
    (amendHead m b).allTargets.length = m.allTargets.length := by
  have hcount := hs.count
  have hdef := hs.deferred
  have hcpu := hs.fromCPU
  cases ht : m.targets.list with
  | nil =>
    refine ⟨⟨?_, hdef, hcpu⟩, ⟨rfl, ?_, ?_, Nat.le_refl _, ?_⟩, ?_⟩ <;>
      simp [amendHead, allTargets, cpuTargets, waiting, ht, hcount]
  | cons t ts =>
    simp only [allTargets, ht, length_append, length_cons] at hcount
    refine ⟨⟨?_, hdef, hcpu⟩, ⟨rfl, ?_, ?_, Nat.le_refl _, by simp [amendHead, ht]⟩, ?_⟩
    · simp [amendHead, allTargets, ht, hcount, Nat.add_right_comm]
    · simp [amendHead, cpuTargets, allTargets, ht, Target.isCPU, countP_cons]
    · simp [amendHead, waiting, allTargets, ht, waitingIds, Target.awaited, Target.isCPU,
        Packet.needsResponse, filter_cons, apply_ite]
    · simp [amendHead, allTargets, ht]

theorem InvBut.respond : (p.respond o).Inv := by
  cases o with
  | none => exact h
  | some resp =>
    exact ⟨fun ix => by cases ix; exacts [h.good .mshrs, h.good .writeBuffer],
      fun ix => by cases ix; exacts [h.full .mshrs, h.full .writeBuffer], h.targets, h.port⟩

omit h in
theorem respond_rest (p : MissPath) (o : Option (Packet × Nat)) :
    (∀ ix, (p.respond o).queue ix = p.queue ix) ∧ (p.respond o).responses = p.responses ++ o.toList ∧
      (p.respond o).noTargetMSHR = p.noTargetMSHR := by
  cases o with
  | none => exact ⟨fun _ => rfl, (append_nil _).symm, rfl⟩
  | some resp => exact ⟨fun ix => by cases ix <;> rfl, rfl, rfl⟩

theorem serve_spec (hr : p.Live r) (hsv : p.Serves r o) :
    Meets (fun p' => p'.Inv ∧ p.Effect p' (.serve r o)) E (p.apply (.serve r o)) := by
  obtain ⟨t, ts, hts, hmatch⟩ := hsv
  obtain ⟨hqueue, hresp, hno⟩ := p.respond_rest o
  have hreg : (p.respond o).register r = p.register r := by rw [register, hqueue]; rfl
  have hsound : (p.register r).Sound := (h.good r.queue).sound _ hr
  obtain ⟨hms, hserv, hrest, hdef⟩ := popTarget_targets hsound hts
  obtain ⟨hinv, honly, hchanged, hno', hself⟩ := h.respond.setRegister (p := p.respond o) (r := r)
    (m := (p.register r).popTarget) (by rw [Live, hqueue]; exact hr)
    (by rw [hreg]; exact samePlace_popTarget _) hms
  refine ⟨hinv, fun iy hiy => ?_, ?_, ?_, hno'.trans hno, ?_, ?_, t, ?_, hmatch⟩
  · rw [honly.queue iy hiy, hqueue]
  · rw [honly.responses, hresp]
  · rw [hqueue] at hchanged
    exact hchanged
  all_goals rw [hself]
  · exact hserv
  · exact hdef
  · rw [hrest, hts]

omit h in
theorem setRegister_register (p : MissPath) (r : MSHRRef) : p.setRegister r (p.register r) = p := by
  have hset : (p.queue r.queue).set r.index (p.register r) = p.queue r.queue := by
    simp [MSHRQueue.set, register]
  rw [setRegister, hset]
  cases r.queue <;> rfl

theorem InvBut.retired (hr : p.Live r)
    (hempty : (p.register r).targets.list = []) (hdef : (p.register r).deferredTargets.list = [])
    (hq : (p.queue r.queue).deallocate r.index = .ok q) :
    ∃ p', (p.setQueue r.queue q).unblockIfFreed (p.queue r.queue).isFull r.queue = .ok p' ∧ p'.Inv ∧
      Only r.queue p p' ∧ p'.noTargetMSHR = p.noTargetMSHR ∧
      (p.queue r.queue).Freed (p'.queue r.queue) r.index ∧ (p.register r).allTargets = [] := by
  obtain ⟨hgood, hfreed, -⟩ := (h.good r.queue).deallocate hr hq hdef
  obtain ⟨p', hp', hinv, hqueue, honly, hno⟩ := h.unblockIfFreed r.queue hgood hfreed.size
    (by rw [hfreed.live]; exact length_erase_le)
  exact ⟨p', hp', hinv, honly, hno, hqueue.symm ▸ hfreed, by simp [allTargets, hempty, hdef]⟩

theorem InvBut.pended (hr : p.Live r)
    (hplace : MSHRHistory.SamePlace (p.register r) m) (hm : m.Sound)
    (hmdef : m.deferredTargets.list = [])
    (hq : ((p.setRegister r m).queue r.queue).markPending r.index = .ok q)
    (hp' : p' = (p.setRegister r m).setQueue r.queue q) :
    p'.Inv ∧ Only r.queue p p' ∧ p'.noTargetMSHR = p.noTargetMSHR ∧
      (p.queue r.queue).Changed (p'.queue r.queue) r.index ∧ (p'.register r).inService = false ∧
      (p'.register r).allTargets = m.allTargets ∧ (p'.register r).deferredTargets.list = [] := by
  obtain ⟨hinv, honly, hchanged, hno, hreg⟩ := h.setRegister hr hplace hm
  have hreg : ((p.setRegister r m).queue r.queue).registers r.index = m := hreg
  obtain ⟨hgood, hchanged', -, hpend, hall, -, hdef⟩ := (hinv.good r.queue).markPending
    (hchanged.live.symm ▸ hr) hq (by rw [hreg]; exact hmdef)
  have hinv' := hinv.withQueue r.queue hgood
  obtain ⟨hblocked, hno', -, hresp⟩ := (p.setRegister r m).setQueue_rest r.queue q
  rw [← hp'] at hinv' hblocked hno' hresp
  have hqueue : p'.queue r.queue = q := hp' ▸ queue_setQueue_self ..
  rw [hreg] at hall
  simp only [register, hqueue]
  refine ⟨hinv'.restore ?_, ⟨fun iy hiy => ?_, hresp.trans honly.responses⟩, hno'.trans hno,
    ⟨?_, ?_, fun j hj => ?_, ?_, ?_⟩, hpend, hall, hdef⟩
  · have hfull : q.isFull = ((p.setRegister r m).queue r.queue).isFull := by
      have hbefore := (hinv.good r.queue).isFull_iff
      rw [← hchanged'.live, ← hchanged'.size.1, ← hchanged'.size.2] at hbefore
      exact Bool.eq_iff_iff.mpr (hgood.isFull_iff.trans hbefore.symm)
    rw [hqueue, hblocked, hfull, hchanged'.size.1, hchanged'.size.2]
    exact hinv.full r.queue id
  · rw [hp', queue_setQueue_ne hiy, honly.queue iy hiy]
  · rw [hchanged'.live, hchanged.live]
  · rw [hchanged'.free, hchanged.free]
  · rw [hchanged'.others j hj, hchanged.others j hj]
  · rw [hchanged'.size.1, hchanged.size.1]
  · rw [hchanged'.size.2, hchanged.size.2]

theorem promote_cases (hr : p.Live r)
    (hm : (p.register r).promoteDeferredTargets now = .ok (m, promoted)) :
    (p.register r).targets.list = [] ∧
      (promoted = false ∧ m = p.register r ∧ (p.register r).deferredTargets.list = [] ∨
        promoted = true ∧ (p.register r).deferredTargets.list ≠ [] ∧ (p.register r).inService = true ∧
          MSHRHistory.SamePlace (p.register r) m ∧ m.Sound ∧ m.deferredTargets.list = [] ∧
          m.allTargets = (p.register r).allTargets) := by
  have hsound : (p.register r).Sound := (h.good r.queue).sound _ hr
  obtain ⟨hms, hserv, hall, hmdef, hempty, hiff⟩ := promoteDeferredTargets_targets hsound hm
  refine ⟨hempty, ?_⟩
  cases promoted with
  | false =>
    have hdef : (p.register r).deferredTargets.list = [] := by simpa using hiff
    replace hm := of_guard hm
    rw [hdef] at hm
    cases hm
    exact .inl ⟨rfl, rfl, hdef⟩
  | true =>
    have hne : (p.register r).deferredTargets.list ≠ [] := hiff.mp rfl
    have hin : (p.register r).inService = true := by
      by_contra hin
      exact hne (hsound.deferred (by simpa using hin))
    refine .inr ⟨rfl, hne, hin, ?_, hms, hmdef, hall⟩
    refine samePlace_of_apply (o := .promoteDeferredTargets now) ?_ fun _ _ => hin
    simp only [TargetOp.apply, hm, ok_bind]
    rfl

omit h in
theorem retire_meets (hE : Mild E) (h : p.Inv) (hr : p.Live r) :
    Meets (fun a => a.1.Inv ∧ p.Effect a.1 (.retire now (p.queue r.queue).isFull r)) E
      (p.retire now (p.queue r.queue).isFull r) := by
  refine ((promote_faults hE).and fun _ hm => hm).bind fun result hm => ?_
  obtain ⟨m, b⟩ := result
  obtain ⟨hempty, ⟨rfl, rfl, hdef⟩ | ⟨rfl, hne, hin, hplace, hms, hmdef, hall⟩⟩ :=
    promote_cases h hr hm.2
  · simp only [setRegister_register, Bool.false_eq_true, if_false]
    refine ((deallocate_faults hE).and fun _ hq => hq).bind fun q hq => ?_
    obtain ⟨p1, hp1, hinv, honly, hno, hfreed⟩ := h.retired hr hempty hdef hq.2
    rw [hp1]
    exact ⟨hinv, honly, hno, .inl hfreed⟩
  · refine ((markPending_faults hE).and fun _ hq => hq).bind fun q hq => ?_
    obtain ⟨hinv, honly, hno, hchanged, hpend, hall', hdef'⟩ := h.pended hr hplace hms hmdef hq.2 rfl
    exact ⟨hinv, honly, hno, .inr ⟨hchanged, hin, hpend, hall'.trans hall, hempty, hne, hdef'⟩⟩

theorem InvBut.issued (hr : p.Live r)
    (hq : (p.queue r.queue).markInService r.index pkt = .ok q) :
    ∃ p', (p.setQueue r.queue q).unblockIfFreed (p.queue r.queue).isFull r.queue = .ok p' ∧ p'.Inv ∧
      p.Effect p' (.issue r pkt) := by
  obtain ⟨hgood, hpend, hcases⟩ := (h.good r.queue).markInService hr hq
  have hsize : (p.queue r.queue).SameSize q ∧ q.live.length ≤ (p.queue r.queue).live.length := by
    rcases hcases with ⟨hfreed, -⟩ | ⟨hchanged, -⟩
    · exact ⟨hfreed.size, by rw [hfreed.live]; exact length_erase_le⟩
    · exact ⟨hchanged.size, by rw [hchanged.live]⟩
  obtain ⟨p', hp', hinv, hqueue, honly, hno⟩ := h.unblockIfFreed r.queue hgood hsize.1 hsize.2
  refine ⟨p', hp', hinv, honly, hno, hpend, ?_⟩
  rw [hqueue, register, register, hqueue]
  rcases hcases with ⟨hfreed, ht⟩ | ⟨hchanged, hserv, hall, hn, hdef⟩
  · exact .inl ⟨hfreed, ht⟩
  · exact .inr ⟨hchanged, hserv, hall, hn, hdef⟩

omit h in
/-- An operation keeps the invariant and does what its effect says; it fails only by an
assertion of its own, or for want of a free register. -/
theorem apply_meets (op : PathOp) (hE : Mild E) (h : p.Inv) (hallow : p.Allowed op)
    (hroom : ∀ now ix addr size pkt time, op = .enqueue now ix addr size pkt time →
      E (.assertion "!freeList.empty()") ∨ (p.queue ix).freeList ≠ []) :
    Meets (fun p' => p'.Inv ∧ p.Effect p' op) E (p.apply op) := by
  cases op with
  | answer pkt time => exact ⟨h.respond (o := some (pkt, time)), rfl⟩
  | enqueue now ix addr size pkt time =>
    refine (allocateBufferInternal_meets h (hroom now ix addr size pkt time rfl)).bind fun a ha => ?_
    obtain ⟨hinv, honly, hno, -, htaken, hfresh⟩ := ha
    exact ⟨hinv, honly, hno, a.2.index, htaken, hfresh⟩
  | join numTarget now i pkt time => exact addTarget_meets hE h hallow
  | snoop now i pkt => exact snoop_spec h hallow rfl
  | release r =>
    obtain ⟨p1, hp1, hspec⟩ := clearNoTargets_spec h r
    rw [apply, hp1]
    exact hspec
  | absorb r pkt => exact absorb_meets hE h hallow
  | serve r response => exact serve_spec h hallow.1 hallow.2
  | retire now wasFull r =>
    obtain ⟨hlive, rfl⟩ := hallow
    exact (retire_meets hE h hlive).bind fun _ ha => ha
  | issue r pkt =>
    refine ((markInService_faults hE).and fun _ hq => hq).bind fun q hq => ?_
    obtain ⟨p1, hp1, hspec⟩ := h.issued hallow hq.2
    rw [hp1]
    exact hspec
  | forward r b =>
    have hsound : (p.register r).Sound := (h.good r.queue).sound _ hallow
    obtain ⟨hinv, honly, hchanged, hno, hreg⟩ :=
      h.setRegister (m := { p.register r with isForward := b }) hallow
      ⟨rfl, rfl, rfl, .inl rfl⟩ { hsound with }
    exact ⟨hinv, honly, hchanged, hno,
      hreg.symm ▸ ⟨rfl, rfl, rfl, Nat.le_refl _, Nat.le_refl _⟩, by rw [hreg]; rfl⟩
  | downstream r b =>
    have hsound : (p.register r).Sound := (h.good r.queue).sound _ hallow
    refine ((noteDownstream_faults hE).and fun _ hm => hm).bind fun m hm => ?_
    obtain ⟨hms, hall, hdef, htargets, hserv⟩ := noteDownstream_targets hsound hm.2
    obtain ⟨hinv, honly, hchanged, hno, hreg⟩ := h.setRegister hallow
      (samePlace_of_apply (o := .noteDownstream b) hm.2 nofun) hms
    have halike : Alike (p.register r) m := ⟨hserv, congrArg (List.countP _) hall,
      congrArg waitingIds hall, hdef ▸ Nat.le_refl _, htargets ▸ Nat.le_refl _⟩
    exact ⟨hinv, honly, hchanged, hno, hreg.symm ▸ halike, by rw [hreg]; exact hall⟩
  | amend i b =>
    have hsound : (p.writeBuffer.registers i).Sound := (h.good .writeBuffer).sound i hallow
    obtain ⟨hms, ha, hlen⟩ := amendHead_targets hsound b
    obtain ⟨hinv, honly, hchanged, hno, hreg⟩ := h.setRegister (r := ⟨.writeBuffer, i⟩)
      (m := amendHead (p.writeBuffer.registers i) b) hallow ⟨rfl, rfl, rfl, .inl rfl⟩ hms
    exact ⟨hinv, honly, hchanged, hno, (congrArg (Alike _) hreg).mpr ha,
      (congrArg (·.allTargets.length) hreg).trans hlen⟩
  | refuse =>
    exact ⟨⟨fun ix => by cases ix; exacts [h.good .mshrs, h.good .writeBuffer],
      fun ix => by cases ix; exacts [h.full .mshrs, h.full .writeBuffer], h.targets, h.port⟩, rfl⟩

theorem step_spec (hs : p.Step op p') : p'.Inv ∧ p.Effect p' op := by
  obtain ⟨hallow, hs⟩ := hs
  have hmeets := apply_meets (E := fun _ => True) op (fun _ _ _ => trivial) h hallow
    fun _ _ _ _ _ _ _ => .inl trivial
  exact hmeets.result hs

end

theorem run_inv (hr : Runs Step p ops p') (h : p.Inv) : p'.Inv :=
  hr.invariant h fun _ _ _ hi hs => (step_spec hi hs).1

theorem step_meets (op : PathOp) (hE : Mild E) (h : p.Inv) (hallow : p.Allowed op)
    (hroom : ∀ now ix addr size pkt time, op = .enqueue now ix addr size pkt time →
      E (.assertion "!freeList.empty()") ∨ (p.queue ix).freeList ≠ []) :
    Meets (fun p' => p.Step op p') E (p.apply op) :=
  ((apply_meets op hE h hallow hroom).and fun _ hs => hs).mono fun _ hs => ⟨hallow, hs.2⟩

theorem Effect.queue_cases (h : p.Effect p' op) (hop : op.fills ix = false) :
    p'.queue ix = p.queue ix ∨ ∃ i, (p.queue ix).Changed (p'.queue ix) i ∨
      (p.queue ix).Freed (p'.queue ix) i := by
  have honly : ∀ iy, (∀ iz, iz ≠ iy → p'.queue iz = p.queue iz) →
      (∃ i, (p.queue iy).Changed (p'.queue iy) i ∨ (p.queue iy).Freed (p'.queue iy) i) →
      p'.queue ix = p.queue ix ∨ ∃ i, (p.queue ix).Changed (p'.queue ix) i ∨
      (p.queue ix).Freed (p'.queue ix) i := by
    intro iy hother hself
    by_cases hix : ix = iy
    · subst hix
      exact .inr hself
    · exact .inl (hother ix hix)
  cases op with
  | answer pkt time | refuse =>
    cases h
    cases ix <;> exact .inl rfl
  | enqueue now iy addr size pkt time =>
    have hix : ix ≠ iy := by
      rintro rfl
      simp [PathOp.fills] at hop
    exact .inl (h.1.queue ix hix)
  | join numTarget now i pkt time | snoop now i pkt | absorb r pkt | forward r b | downstream r b
  | amend i b =>
    exact honly _ h.1.queue ⟨_, .inl h.2.1⟩
  | release r => exact .inl (h.1 ix)
  | serve r response => exact honly _ h.1 ⟨_, .inl h.2.2.1⟩
  | retire now wasFull r =>
    obtain ⟨hother, -, ⟨hfreed, -⟩ | ⟨hchanged, -⟩⟩ := h
    · exact honly _ hother.queue ⟨_, .inr hfreed⟩
    · exact honly _ hother.queue ⟨_, .inl hchanged⟩
  | issue r pkt =>
    obtain ⟨hother, -, -, ⟨hfreed, -⟩ | ⟨hchanged, -⟩⟩ := h
    · exact honly _ hother.queue ⟨_, .inr hfreed⟩
    · exact honly _ hother.queue ⟨_, .inl hchanged⟩

theorem run_free (hr : Runs Step p ops p') (h : p.Inv) (ix : MSHRQueueIndex)
    (hops : ∀ op ∈ ops, op.fills ix = false) (hfree : (p.queue ix).freeList ≠ []) :
    (p'.queue ix).freeList ≠ [] := by
  induction hr with
  | nil => exact hfree
  | snoc hr hs ih =>
    have hfree := ih fun op hop => hops op (mem_append_left _ hop)
    obtain ⟨-, heffect⟩ := step_spec (run_inv hr h) hs
    rcases heffect.queue_cases (hops _ (by simp)) with hsame | ⟨i, hchanged | hfreed⟩
    · rw [hsame]
      exact hfree
    · rw [hchanged.free]
      exact hfree
    · rw [hfreed.free]
      exact cons_ne_nil _ _

theorem serving_fills {op : PathOp} (hop : op.Serving r) (ix : MSHRQueueIndex) :
    op.fills ix = false := by
  rcases hop with rfl | ⟨pkt, rfl⟩ | ⟨response, rfl⟩ <;> rfl

theorem serving_step (h : p.Inv) (hs : p.Step op p') (hop : op.Serving r) :
    (p'.queue r.queue).live = (p.queue r.queue).live ∧
    (p.queue r.queue).SameSize (p'.queue r.queue) := by
  obtain ⟨-, heffect⟩ := step_spec h hs
  rcases hop with rfl | ⟨pkt, rfl⟩ | ⟨response, rfl⟩
  · rw [heffect.1 r.queue]
    exact ⟨rfl, rfl, rfl⟩
  · exact ⟨heffect.2.1.live, heffect.2.1.size⟩
  · exact ⟨heffect.2.2.1.live, heffect.2.2.1.size⟩

theorem serving_run (hr : Runs Step p ops p') (h : p.Inv)
    (hops : ∀ op ∈ ops, op.Serving r) :
    (p'.queue r.queue).live = (p.queue r.queue).live ∧
    (p.queue r.queue).SameSize (p'.queue r.queue) := by
  induction hr with
  | nil => exact ⟨rfl, rfl, rfl⟩
  | snoc hr hs ih =>
    obtain ⟨hlive, hsize⟩ := ih fun op hop => hops op (mem_append_left _ hop)
    obtain ⟨hlive', hsize'⟩ := serving_step (run_inv hr h) hs (hops _ (by simp))
    exact ⟨hlive'.trans hlive, hsize'.1.trans hsize.1, hsize'.2.trans hsize.2⟩

def Elsewhere (r : MSHRRef) (p p' : MissPath) : Prop :=
  ∀ r', r' ≠ r → p'.Live r' → p.Live r' ∧ p'.register r' = p.register r'

theorem elsewhere_of_queue (hq : ∀ ix, p'.queue ix = p.queue ix) (r : MSHRRef) : Elsewhere r p p' := by
  intro r' _ hr'
  rw [Live, hq] at hr'
  exact ⟨hr', by rw [register, hq]; rfl⟩

section

variable (hother : ∀ iy, iy ≠ ix → p'.queue iy = p.queue iy)
include hother

theorem Elsewhere.of_others (hlive : ∀ j, j ≠ i → j ∈ (p'.queue ix).live → j ∈ (p.queue ix).live)
    (hregs : ∀ j, j ≠ i → (p'.queue ix).registers j = (p.queue ix).registers j) :
    Elsewhere ⟨ix, i⟩ p p' := by
  rintro ⟨iy, j⟩ hne hr
  by_cases hiy : iy = ix
  · subst hiy
    have hj : j ≠ i := fun hj => hne (congrArg (MSHRRef.mk iy) hj)
    exact ⟨hlive j hj hr, hregs j hj⟩
  · rw [Live, hother iy hiy] at hr
    exact ⟨hr, by rw [register, hother iy hiy]; rfl⟩

theorem elsewhere_of_changed (hself : (p.queue ix).Changed (p'.queue ix) i) : Elsewhere ⟨ix, i⟩ p p' :=
  .of_others hother (fun _ _ hj => hself.live ▸ hj) hself.others

theorem elsewhere_of_taken (hself : (p.queue ix).Taken (p'.queue ix) i) : Elsewhere ⟨ix, i⟩ p p' := by
  refine .of_others hother (fun j hne hj => ?_) hself.others
  rw [hself.live] at hj
  exact (mem_append.mp hj).resolve_right fun hj => hne (mem_singleton.mp hj)

theorem elsewhere_of_freed (hself : (p.queue ix).Freed (p'.queue ix) i) : Elsewhere ⟨ix, i⟩ p p' :=
  .of_others hother (fun _ _ hj => mem_of_mem_erase (hself.live ▸ hj)) hself.others

end

theorem not_live_of_freed (h : p.Inv) (hself : (p.queue r.queue).Freed (p'.queue r.queue) r.index) :
    ¬ p'.Live r := by
  rw [Live, hself.live, (h.good r.queue).nodup.mem_erase_iff]
  exact fun hr => hr.1 rfl

def Pending (p : MissPath) (r : MSHRRef) : Prop := p.Live r ∧ (p.register r).inService = false

def OnItsWay (p : MissPath) (r : MSHRRef) : Prop := p.Live r ∧ (p.register r).inService = true

variable (h : p.OnItsWay r)
include h

theorem OnItsWay.not_pending : ¬ p.Pending r := by
  intro hpend
  have hboth := hpend.2.symm.trans h.2
  cases hboth

theorem OnItsWay.of_queue (hq : p'.queue r.queue = p.queue r.queue) : p'.OnItsWay r := by
  rw [OnItsWay, Live, register, hq]
  exact h

theorem OnItsWay.of_changed
    (hother : ∀ iy, iy ≠ ix → p'.queue iy = p.queue iy) (hself : (p.queue ix).Changed (p'.queue ix) i)
    (hserv : r = ⟨ix, i⟩ → (p'.register r).inService = true) : p'.OnItsWay r := by
  obtain ⟨iy, j⟩ := r
  by_cases hiy : iy = ix
  · subst hiy
    refine ⟨(congrArg (j ∈ ·) hself.live).mpr h.1, ?_⟩
    by_cases hj : j = i
    · subst hj
      exact hserv rfl
    · rw [register, hself.others j hj]
      exact h.2
  · exact h.of_queue (hother iy hiy)

theorem OnItsWay.of_freed (hinv : p.Inv)
    (hother : ∀ iy, iy ≠ ix → p'.queue iy = p.queue iy) (hself : (p.queue ix).Freed (p'.queue ix) i)
    (hne : r ≠ ⟨ix, i⟩) : p'.OnItsWay r := by
  obtain ⟨iy, j⟩ := r
  by_cases hiy : iy = ix
  · subst hiy
    have hj : j ≠ i := fun hj => hne (congrArg (MSHRRef.mk iy) hj)
    refine ⟨?_, ?_⟩
    · rw [Live, hself.live, (hinv.good iy).nodup.mem_erase_iff]
      exact ⟨hj, h.1⟩
    · rw [register, hself.others j hj]
      exact h.2
  · exact h.of_queue (hother iy hiy)

theorem OnItsWay.step (hinv : p.Inv) (hs : p.Step op p')
    (hop : ∀ now wasFull, op ≠ .retire now wasFull r) : p'.OnItsWay r := by
  obtain ⟨-, heffect⟩ := step_spec hinv hs
  cases op with
  | answer pkt time | refuse =>
    cases heffect
    exact h.of_queue (by cases r.queue <;> rfl)
  | enqueue now ix addr size pkt time =>
    obtain ⟨honly, -, i, htaken, -⟩ := heffect
    obtain ⟨iy, j⟩ := r
    by_cases hiy : iy = ix
    · subst hiy
      have hj : j ≠ i := by
        rintro rfl
        exact (hinv.good iy).not_live (htaken.free ▸ mem_cons_self) h.1
      refine ⟨?_, ?_⟩
      · rw [Live, htaken.live]
        exact mem_append_left _ h.1
      · rw [register, htaken.others j hj]
        exact h.2
    · exact h.of_queue (honly.queue iy hiy)
  | join numTarget now i pkt time =>
    obtain ⟨honly, hchanged, -, hjoined⟩ := heffect
    refine h.of_changed honly.queue hchanged ?_
    rintro rfl
    exact hjoined.inService.trans h.2
  | release r' => exact h.of_queue (heffect.1 _)
  | snoop now i pkt | absorb r' pkt | forward r' b | downstream r' b | amend i b =>
    obtain ⟨honly, hchanged, -, halike, -⟩ := heffect
    refine h.of_changed honly.queue hchanged ?_
    rintro rfl
    exact halike.inService.trans h.2
  | serve r' response =>
    obtain ⟨hother, -, hchanged, -, hserv, -⟩ := heffect
    refine h.of_changed hother hchanged ?_
    rintro rfl
    exact hserv.trans h.2
  | retire now wasFull r' =>
    have hne : r ≠ r' := by
      rintro rfl
      exact hop now wasFull rfl
    obtain ⟨honly, -, ⟨hfreed, -⟩ | ⟨hchanged, -⟩⟩ := heffect
    · exact h.of_freed hinv honly.queue hfreed hne
    · exact h.of_changed honly.queue hchanged fun he => absurd he hne
  | issue r' pkt =>
    obtain ⟨honly, -, hpend, ⟨hfreed, -⟩ | ⟨hchanged, hissued⟩⟩ := heffect
    · refine h.of_freed hinv honly.queue hfreed ?_
      rintro rfl
      exact absurd (hpend.symm.trans h.2) (by simp)
    · refine h.of_changed honly.queue hchanged ?_
      rintro rfl
      exact hissued.inService

theorem OnItsWay.run (hinv : p.Inv) (hr : Runs Step p ops p')
    (hops : ∀ op ∈ ops, ∀ now wasFull, op ≠ .retire now wasFull r) : p'.OnItsWay r := by
  induction hr with
  | nil => exact h
  | snoc hr hs ih =>
    exact (ih fun op hop => hops op (mem_append_left _ hop)).step (run_inv hr hinv) hs
      (hops _ (by simp))

end MissPath

end Gem5
