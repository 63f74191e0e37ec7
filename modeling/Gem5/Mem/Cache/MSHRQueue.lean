import Gem5.Lib.IterList
import Gem5.Lib.Run
import Gem5.Mem.Cache.MSHR

/-!
# The queue of miss status holding registers

`mem/cache/mshr_queue.cc`. The registers are numbered; each is on the free
list or on the allocated list, and an allocated register that is not in
service is on the ready list as well. A register keeps its positions in the
two lists, through which it is taken out again.
-/

namespace Gem5

open Lib IterList Function
open List hiding set

structure MSHRQueue where
  registers : Nat → MSHR
  allocatedList : IterList Nat
  readyList : IterList Nat
  freeList : List Nat
  numEntries : Nat
  numReserve : Nat
  allocated : Int
  inServiceEntries : Int

namespace MSHRQueue

def create (numEntries reserve : Nat) : MSHRQueue where
  registers := fun _ => {}
  allocatedList := .empty
  readyList := .empty
  freeList := List.range (numEntries + reserve - 1)
  numEntries := numEntries + reserve - 1
  numReserve := reserve
  allocated := 0
  inServiceEntries := 0

def set (q : MSHRQueue) (i : Nat) (m : MSHR) : MSHRQueue :=
  { q with registers := update q.registers i m }

def readyTime (q : MSHRQueue) (i : Nat) : Nat := (q.registers i).readyTime

def findMatch (q : MSHRQueue) (addr : Nat) : Option Nat :=
  q.allocatedList.values.find? fun i => (q.registers i).addr == addr

def findMatches (q : MSHRQueue) (addr : Nat) : List Nat :=
  q.allocatedList.values.filter fun i => (q.registers i).addr == addr

def findPending (q : MSHRQueue) (addr size : Nat) : Option Nat :=
  q.readyList.values.find? fun i =>
    let m := q.registers i
    if m.addr < addr then m.addr + m.size > addr else addr + size > m.addr

/-- Where `addToReadyList` puts register `i`: at the end, or in front of the
first register that is ready later. -/
def readyPlace (q : MSHRQueue) (i : Nat) : Chk Nat :=
  let ready := q.readyList.values
  if ready.getLast?.all fun j => q.readyTime j ≤ q.readyTime i then
    return ready.length
  else
    need (ready.findIdx? fun j => q.readyTime j > q.readyTime i) (.assertion "false")

def addToReadyList (q : MSHRQueue) (i : Nat) : Chk (MSHRQueue × Nat) := do
  let k ← q.readyPlace i
  return ({ q with readyList := q.readyList.insertAt k i }, q.readyList.next)

def allocate (q : MSHRQueue) (now addr size : Nat) (pkt : Packet) (tick order : Nat) :
    Chk (MSHRQueue × Nat) := do
  let i ← need q.freeList.head? (.assertion "!freeList.empty()")
  ensure ((q.registers i).ntargets == 0) "mshr->getNumTargets() == 0"
  let m ← (q.registers i).allocate now addr size pkt tick order
  let allocIter := q.allocatedList.next
  let q := { q with
    freeList := q.freeList.tail
    allocatedList := q.allocatedList.insertAt q.allocatedList.values.length i
    registers := update q.registers i { m with allocIter := allocIter } }
  let (q, readyIter) ← q.addToReadyList i
  let q := q.set i { q.registers i with readyIter := readyIter }
  return ({ q with allocated := q.allocated + 1 }, i)

def eraseNode (l : IterList Nat) (iter : Nat) : Chk (IterList Nat) :=
  if (l.deref iter).isSome then return l.erase iter
  else .error (.undefined "erase through an invalid iterator")

def deallocateOne (q : MSHRQueue) (i : Nat) : Chk MSHRQueue := do
  let m := q.registers i
  let allocatedList ← eraseNode q.allocatedList m.allocIter
  let q := { q with
    allocatedList := allocatedList
    freeList := i :: q.freeList
    allocated := q.allocated - 1 }
  if m.inService then
    let m ← m.deallocate
    return { q.set i m with inServiceEntries := q.inServiceEntries - 1 }
  else
    let readyList ← eraseNode q.readyList m.readyIter
    let m ← m.deallocate
    return { q.set i m with readyList := readyList }

def deallocate (q : MSHRQueue) (i : Nat) : Chk MSHRQueue := q.deallocateOne i

def markInService (q : MSHRQueue) (i : Nat) (pkt : Packet) : Chk MSHRQueue := do
  let (m, noResponse) ← (q.registers i).markInService pkt
  let q := q.set i m
  if noResponse then
    q.deallocate i
  else
    let readyList ← eraseNode q.readyList m.readyIter
    return { q with readyList := readyList, inServiceEntries := q.inServiceEntries + 1 }

def markPending (q : MSHRQueue) (i : Nat) : Chk MSHRQueue := do
  ensure (q.registers i).inService "mshr->inService"
  let q := q.set i { q.registers i with inService := false }
  let q := { q with inServiceEntries := q.inServiceEntries - 1 }
  let (q, readyIter) ← q.addToReadyList i
  return q.set i { q.registers i with readyIter := readyIter }

def isFull (q : MSHRQueue) : Bool := q.allocated > (q.numEntries : Int) - q.numReserve

def getNextMSHR (q : MSHRQueue) (now : Nat) : Option Nat :=
  q.readyList.values.head?.filter fun i => q.readyTime i ≤ now

variable {q q' : MSHRQueue} {i : Nat}

theorem readyPlace_congr (hl : q'.readyList = q.readyList) (ht : q'.readyTime = q.readyTime) :
    q'.readyPlace i = q.readyPlace i := by
  simp [readyPlace, hl, ht]

theorem readyPlace_spec (hs : q.readyList.values.Pairwise fun i j => q.readyTime i ≤ q.readyTime j) :
    ∃ k, q.readyPlace i = .ok k ∧ (∀ j ∈ q.readyList.values.take k, q.readyTime j ≤ q.readyTime i) ∧
      ∀ j ∈ q.readyList.values.drop k, q.readyTime i < q.readyTime j := by
  generalize hr : q.readyList.values = ready at hs
  simp only [readyPlace, hr]
  split
  · rename_i hlast
    refine ⟨ready.length, rfl, fun j hj => ?_, by simp⟩
    rw [take_length] at hj
    cases hl : ready.getLast? with
    | none => simp [List.getLast?_eq_none_iff.mp hl] at hj
    | some l =>
      rw [hl] at hlast
      obtain ⟨front, rfl⟩ := List.getLast?_eq_some_iff.mp hl
      have hlast : q.readyTime l ≤ q.readyTime i := by simpa using hlast
      rcases mem_append.mp hj with hj | hj
      · exact ((pairwise_append.mp hs).2.2 j hj l (mem_singleton_self l)).trans hlast
      · rw [mem_singleton.mp hj]
        exact hlast
  · rename_i hlast
    cases hfind : ready.findIdx? (fun j => decide (q.readyTime j > q.readyTime i)) with
    | none =>
      refine absurd ?_ hlast
      rw [List.findIdx?_eq_none_iff] at hfind
      cases hl : ready.getLast? with
      | none => rfl
      | some l =>
        have := hfind l (mem_of_getLast? hl)
        simpa using this
    | some k =>
      refine ⟨k, rfl, fun j hj => ?_, fun j hj => ?_⟩
      · obtain ⟨hk, hat, hbefore⟩ := List.findIdx?_eq_some_iff_getElem.mp hfind
        obtain ⟨n, hn, rfl⟩ := mem_take_iff_getElem.mp hj
        have := hbefore n (by omega)
        simpa using this
      · obtain ⟨hk, hat, hbefore⟩ := List.findIdx?_eq_some_iff_getElem.mp hfind
        rw [drop_eq_getElem_cons hk] at hj
        have hat : q.readyTime i < q.readyTime ready[k] := by simpa using hat
        rcases mem_cons.mp hj with rfl | hj
        · exact hat
        · rw [← take_append_drop k ready, drop_eq_getElem_cons hk] at hs
          exact lt_of_lt_of_le hat
            ((pairwise_cons.mp (pairwise_append.mp hs).2.1).1 j hj)

def Served (time stamp : Nat → Nat) (ready : List Nat) : Prop :=
  ready.Pairwise fun i j => time i < time j ∨ time i = time j ∧ stamp i < stamp j

theorem Served.sorted (h : Served time stamp ready) :
    ready.Pairwise fun i j => time i ≤ time j :=
  h.imp fun hij => by omega

theorem Served.congr
    (h : Served time stamp ready)
    (hs : ∀ j ∈ ready, time' j = time j ∧ stamp' j = stamp j) : Served time' stamp' ready := by
  refine h.imp_of_mem fun {a b} ha hb hab => ?_
  rw [(hs a ha).1, (hs b hb).1, (hs a ha).2, (hs b hb).2]
  exact hab

theorem Served.insert
    (h : Served time stamp ready) (hle : ∀ j ∈ ready.take k, time j ≤ time i)
    (hlt : ∀ j ∈ ready.drop k, time i < time j) (hstamp : ∀ j ∈ ready, stamp j < stamp i) :
    Served time stamp (ready.take k ++ i :: ready.drop k) := by
  have hsplit := h
  rw [Served, ← take_append_drop k ready, pairwise_append] at hsplit
  obtain ⟨htake, hdrop, hcross⟩ := hsplit
  refine pairwise_append.mpr ⟨htake, pairwise_cons.mpr ⟨fun b hb => ?_, hdrop⟩, ?_⟩
  · exact .inl (hlt b hb)
  · intro a ha b hb
    rcases mem_cons.mp hb with rfl | hb
    · have := hle a ha
      have := hstamp a (mem_of_mem_take ha)
      omega
    · exact hcross a ha b hb

end MSHRQueue

inductive TargetOp
  | allocateTarget (now : Nat) (pkt : Packet) (whenReady order : Nat)
  | popTarget
  | promoteDeferredTargets (now : Nat)
  | handleSnoop (now : Nat) (pkt : Packet) (order : Nat)
  | handleFill (pkt : Packet)
  | noteDownstream (pending : Bool)

namespace TargetOp

def apply (m : MSHR) : TargetOp → Chk MSHR
  | .allocateTarget now pkt whenReady order => m.allocateTarget now pkt whenReady order
  | .popTarget => return m.popTarget
  | .promoteDeferredTargets now => do
    let (m, _) ← m.promoteDeferredTargets now
    return m
  | .handleSnoop now pkt order => return (m.handleSnoop now pkt order).1
  | .handleFill pkt => m.handleFill pkt
  | .noteDownstream pending => m.noteDownstream pending

def putOff (m : MSHR) : TargetOp → Nat → Nat
  | .promoteDeferredTargets now, tick => m.deferredTargets.list.head?.elim tick (max now ·.readyTime)
  | _, tick => tick

end TargetOp

inductive MSHRCall
  | allocate (now addr size : Nat) (pkt : Packet) (tick order : Nat)
  | markInService (i : Nat) (pkt : Packet)
  | markPending (i : Nat)
  | deallocate (i : Nat)
  | onTargets (i : Nat) (op : TargetOp)

/-- What the calls made of an allocated register: the address and ready time it was allocated
with, the time being put off by promotions, and whether its request was sent. -/
structure MSHREntry where
  addr : Nat
  tick : Nat
  sent : Bool := false

/-- The queue with a record of the calls: the entry of each allocated register, and when a register
was last allocated and when it last became ready. -/
structure MSHRHistory where
  queue : MSHRQueue
  allocStamp : Nat → Nat
  readyStamp : Nat → Nat
  clock : Nat
  entry : Nat → Option MSHREntry

namespace MSHRHistory

open MSHRQueue

def create (numEntries reserve : Nat) : MSHRHistory :=
  ⟨MSHRQueue.create numEntries reserve, fun _ => 0, fun _ => 0, 0, fun _ => none⟩

def unanswered (m : MSHR) : Bool :=
  m.ntargets == 1 && m.targets.list.head?.any fun t => t.source == .fromCPU && !t.pkt.needsResponse

def step (h : MSHRHistory) : MSHRCall → Chk MSHRHistory
  | .allocate now addr size pkt tick order => do
    let (q, i) ← h.queue.allocate now addr size pkt tick order
    return { queue := q
             allocStamp := update h.allocStamp i h.clock
             readyStamp := update h.readyStamp i h.clock
             clock := h.clock + 1
             entry := update h.entry i (some { addr, tick }) }
  | .markInService i pkt => do
    let q ← h.queue.markInService i pkt
    return { h with
      queue := q
      -- a register that expects no response is free again
      entry := update h.entry i <| if unanswered (h.queue.registers i) then none
        else (h.entry i).map fun e => { e with sent := true } }
  | .markPending i => do
    let q ← h.queue.markPending i
    return { h with
      queue := q
      readyStamp := update h.readyStamp i h.clock
      clock := h.clock + 1
      entry := update h.entry i <| (h.entry i).map fun e => { e with sent := false } }
  | .deallocate i => do
    let q ← h.queue.deallocate i
    return { h with queue := q, entry := update h.entry i none }
  | .onTargets i op => do
    let m ← op.apply (h.queue.registers i)
    return { h with
      queue := h.queue.set i m
      entry := update h.entry i <| (h.entry i).map fun e =>
        { e with tick := op.putOff (h.queue.registers i) e.tick } }

/-- The register is allocated, and pending or in service as the call wants it;
deferred targets are promoted once the response is there. -/
def Allowed (h : MSHRHistory) : MSHRCall → Prop
  | .allocate .. => h.queue.freeList ≠ []
  | .markInService i _ => ∃ e, h.entry i = some e ∧ e.sent = false
  | .markPending i => ∃ e, h.entry i = some e ∧ e.sent = true
  | .deallocate i => h.entry i ≠ none
  | .onTargets i op => ∃ e, h.entry i = some e ∧
      (∀ now, op = .promoteDeferredTargets now → e.sent = true)

def Step (h : MSHRHistory) (a : MSHRCall) (h' : MSHRHistory) : Prop :=
  h.Allowed a ∧ h.step a = .ok h'

/-- Every register is on the free list or the allocated list; the ready list
holds the allocated registers not in service, first come, first served; the
counters count, the iterators point at their register, and the allocated list
is in the order of allocation. -/
structure Bookkeeping (h : MSHRHistory) : Prop where
  partition : (h.queue.freeList ++ h.queue.allocatedList.values).Perm
    (List.range h.queue.numEntries)
  readyOnce : h.queue.readyList.values.Nodup
  ready : ∀ i, i ∈ h.queue.readyList.values ↔
    i ∈ h.queue.allocatedList.values ∧ (h.queue.registers i).inService = false
  served : Served h.queue.readyTime h.readyStamp h.queue.readyList.values
  allocated : h.queue.allocated = h.queue.allocatedList.values.length
  inService : h.queue.inServiceEntries =
    h.queue.allocatedList.values.countP fun i => (h.queue.registers i).inService
  allocIter : ∀ i ∈ h.queue.allocatedList.values,
    h.queue.allocatedList.deref (h.queue.registers i).allocIter = some i
  readyIter : ∀ i ∈ h.queue.readyList.values,
    h.queue.readyList.deref (h.queue.registers i).readyIter = some i
  inOrder : h.queue.allocatedList.values.Pairwise fun i j => h.allocStamp i < h.allocStamp j

def Told (q : MSHRQueue) (i : Nat) : Option MSHREntry → Prop
  | none => i ∉ q.allocatedList.values
  | some e => i ∈ q.allocatedList.values ∧ (q.registers i).addr = e.addr ∧
      (q.registers i).readyTime = e.tick ∧ (q.registers i).inService = e.sent

def Idle (m : MSHR) : Prop :=
  m.ntargets = 0 ∧ m.targets.isReset = true ∧ m.deferredTargets.isReset = true

structure Inv (h : MSHRHistory) : Prop extends Bookkeeping h where
  stamped : ∀ i ∈ h.queue.allocatedList.values, h.allocStamp i < h.clock ∧ h.readyStamp i < h.clock
  idle : ∀ i ∈ h.queue.freeList, Idle (h.queue.registers i)

variable {h h' : MSHRHistory} {i : Nat} {m : MSHR} {a : MSHRCall} {calls : List MSHRCall}

theorem Bookkeeping.nodup (hb : h.Bookkeeping) :
    h.queue.freeList.Nodup ∧ h.queue.allocatedList.values.Nodup ∧
      ∀ i ∈ h.queue.freeList, i ∉ h.queue.allocatedList.values := by
  have hn := hb.partition.nodup_iff.mpr nodup_range
  obtain ⟨hf, ha, hd⟩ := nodup_append.mp hn
  exact ⟨hf, ha, fun i hi hm => hd i hi i hm rfl⟩

theorem inv_create (numEntries reserve : Nat) : (create numEntries reserve).Inv := by
  refine ⟨⟨?_, nodup_nil, ?_, .nil, rfl, rfl, nofun, nofun, .nil⟩, nofun, ?_⟩
  · simp [create, MSHRQueue.create]
  · simp [create, MSHRQueue.create]
  · intro i _
    exact ⟨rfl, rfl, rfl⟩

theorem countP_update {l : List Nat} {p p' : Nat → Bool} (hn : l.Nodup) (hi : i ∈ l)
    (hp : ∀ j, j ≠ i → p' j = p j) :
    l.countP p' + (if p i then 1 else 0) = l.countP p + if p' i then 1 else 0 := by
  have hperm := perm_cons_erase hi
  have hrest : (l.erase i).countP p' = (l.erase i).countP p :=
    countP_congr fun j hj => by rw [hp j (hn.mem_erase_iff.mp hj).1]
  rw [hperm.countP_eq, hperm.countP_eq, countP_cons, countP_cons, hrest]
  omega

def SamePlace (m m' : MSHR) : Prop :=
  m'.inService = m.inService ∧ m'.allocIter = m.allocIter ∧ m'.readyIter = m.readyIter ∧
    (m'.readyTime = m.readyTime ∨ m.inService = true)

theorem Inv.allocIter_update (hi : h.Inv) (hs : m.allocIter = (h.queue.registers i).allocIter) :
    ∀ j ∈ h.queue.allocatedList.values,
      h.queue.allocatedList.deref (update h.queue.registers i m j).allocIter = some j := by
  intro j hj
  rw [update_apply]
  split
  · subst i
    rw [hs]
    exact hi.allocIter j hj
  · exact hi.allocIter j hj

section

variable (hi : h.Inv) (hm : i ∈ h.queue.allocatedList.values)
include hi hm

theorem Inv.idle_update : ∀ j ∈ h.queue.freeList, Idle (update h.queue.registers i m j) := by
  intro j hj
  have hji : j ≠ i := by
    rintro rfl
    exact hi.nodup.2.2 j hj hm
  rw [update_of_ne hji]
  exact hi.idle j hj

theorem Inv.count_update (m : MSHR) : h.queue.allocatedList.values.countP
        (fun j => (update h.queue.registers i m j).inService) +
        (if (h.queue.registers i).inService then 1 else 0) =
      h.queue.allocatedList.values.countP (fun j => (h.queue.registers j).inService) +
        if m.inService then 1 else 0 := by
  have hcount := countP_update hi.nodup.2.1 hm
    (show ∀ j, j ≠ i → (update h.queue.registers i m j).inService =
      (h.queue.registers j).inService from fun j hj => by rw [update_of_ne hj])
  rw [update_self] at hcount
  exact hcount

theorem Inv.set (hs : SamePlace (h.queue.registers i) m) :
    Inv { h with queue := h.queue.set i m } := by
  obtain ⟨hin, halloc, hready, htime⟩ := hs
  have hsame : ∀ j, (update h.queue.registers i m j).inService = (h.queue.registers j).inService := by
    intro j
    rw [update_apply]
    split
    · subst i
      rw [hin]
    · rfl
  refine ⟨⟨hi.partition, hi.readyOnce, fun j => ?_, ?_, hi.allocated, ?_, ?_, ?_, hi.inOrder⟩,
    hi.stamped, ?_⟩
  · rw [show ((h.queue.set i m).registers j).inService = _ from hsame j]
    exact hi.ready j
  · refine hi.served.congr fun j hj => ⟨?_, rfl⟩
    simp only [MSHRQueue.readyTime, MSHRQueue.set]
    rw [update_apply]
    split
    · subst i
      refine htime.resolve_right fun hserv => ?_
      rw [((hi.ready j).mp hj).2] at hserv
      cases hserv
    · rfl
  · simp only [MSHRQueue.set, hsame]
    exact hi.inService
  · exact hi.allocIter_update halloc
  · intro j hj
    simp only [MSHRQueue.set] at hj ⊢
    rw [update_apply]
    split
    · subst i
      rw [hready]
      exact hi.readyIter j hj
    · exact hi.readyIter j hj
  · exact hi.idle_update hm

end

theorem idle_of_deallocate (hd : m.deallocate = .ok m') : Idle m' := by
  simp only [MSHR.deallocate, bind_eq_ok, ensure_eq_ok, beq_iff_eq, pure_eq_ok] at hd
  obtain ⟨_, -, _, hdef, _, hn, rfl⟩ := hd
  exact ⟨hn, rfl, hdef⟩

theorem eraseNode_ok {l l' : IterList Nat} {iter : Nat} (he : eraseNode l iter = .ok l') :
    l' = l.erase iter := by
  unfold eraseNode at he
  split at he
  · exact (pure_eq_ok.mp he).symm
  · cases he

theorem deallocateOne_ok {q q' : MSHRQueue} (hd : q.deallocateOne i = .ok q') :
    ∃ m, (q.registers i).deallocate = .ok m ∧ q' = { q with
        registers := update q.registers i m
        allocatedList := q.allocatedList.erase (q.registers i).allocIter
        freeList := i :: q.freeList
        allocated := q.allocated - 1
        readyList := if (q.registers i).inService then q.readyList
          else q.readyList.erase (q.registers i).readyIter
        inServiceEntries := q.inServiceEntries - if (q.registers i).inService then 1 else 0 } := by
  simp only [deallocateOne, bind_eq_ok] at hd
  obtain ⟨l, hl, hd⟩ := hd
  cases eraseNode_ok hl
  split at hd
  · rename_i hserv
    obtain ⟨m, hm, hd⟩ := bind_eq_ok.mp hd
    refine ⟨m, hm, ?_⟩
    rw [← pure_eq_ok.mp hd]
    simp [MSHRQueue.set, hserv]
  · rename_i hserv
    obtain ⟨r, hr, hd⟩ := bind_eq_ok.mp hd
    cases eraseNode_ok hr
    obtain ⟨m, hm, hd⟩ := bind_eq_ok.mp hd
    refine ⟨m, hm, ?_⟩
    rw [← pure_eq_ok.mp hd]
    simp [MSHRQueue.set, hserv]

section

variable (hi : h.Inv) (hm : i ∈ h.queue.allocatedList.values)
include hi hm

theorem Inv.issue (hpend : (h.queue.registers i).inService = false)
    (hs : m.inService = true ∧ m.allocIter = (h.queue.registers i).allocIter) :
    Inv { h with queue := { h.queue.set i m with
      readyList := h.queue.readyList.erase (h.queue.registers i).readyIter
      inServiceEntries := h.queue.inServiceEntries + 1 } } := by
  have hmem := (hi.ready i).mpr ⟨hm, hpend⟩
  have hvalues : (h.queue.readyList.erase (h.queue.registers i).readyIter).values =
      h.queue.readyList.values.erase i := values_erase (hi.readyIter i hmem) hi.readyOnce
  refine ⟨⟨hi.partition, ?_, ?_, ?_, hi.allocated, ?_, ?_, ?_, hi.inOrder⟩, hi.stamped, ?_⟩
  · simp only [hvalues]
    exact hi.readyOnce.erase i
  · intro j
    simp only [hvalues, hi.readyOnce.mem_erase_iff, MSHRQueue.set]
    by_cases hj : j = i
    · subst hj
      simp [hs.1]
    · rw [update_of_ne hj, ← hi.ready j, and_iff_right hj]
  · simp only [hvalues]
    have hrest : Served h.queue.readyTime h.readyStamp (h.queue.readyList.values.erase i) :=
      hi.served.sublist erase_sublist
    refine hrest.congr fun j hj => ⟨?_, rfl⟩
    simp [MSHRQueue.readyTime, MSHRQueue.set, update_of_ne (hi.readyOnce.mem_erase_iff.mp hj).1]
  · have hcount := hi.count_update hm m
    simp only [hpend, hs.1, if_true, Bool.false_eq_true, if_false] at hcount
    simp only [MSHRQueue.set, hi.inService]
    omega
  · exact hi.allocIter_update hs.2
  · intro j hj
    simp only [hvalues] at hj
    obtain ⟨hji, hj⟩ := hi.readyOnce.mem_erase_iff.mp hj
    simp only [MSHRQueue.set, update_of_ne hji]
    exact deref_erase (hi.readyIter j hj) (hi.readyIter i hmem) hji
  · exact hi.idle_update hm

theorem Inv.pend {c clock : Nat} (hserv : (h.queue.registers i).inService = true)
    (hs : m.inService = false ∧ m.allocIter = (h.queue.registers i).allocIter ∧
      m.readyIter = h.queue.readyList.next)
    (hc : ∀ j ∈ h.queue.readyList.values, h.readyStamp j < c) (hclock : c < clock)
    (hle : h.clock ≤ clock) :
    ∃ k, (h.queue.set i m).readyPlace i = .ok k ∧ Inv { h with
        queue := { h.queue.set i m with
          readyList := h.queue.readyList.insertAt k i
          inServiceEntries := h.queue.inServiceEntries - 1 }
        readyStamp := update h.readyStamp i c
        clock := clock } := by
  have hnot : i ∉ h.queue.readyList.values := fun hmem => by
    rw [((hi.ready i).mp hmem).2] at hserv
    cases hserv
  have hne : ∀ j ∈ h.queue.readyList.values, j ≠ i := fun j hj => by
    rintro rfl
    exact hnot hj
  have hserved : Served (h.queue.set i m).readyTime (update h.readyStamp i c)
      h.queue.readyList.values := by
    refine hi.served.congr fun j hj => ?_
    simp [MSHRQueue.readyTime, MSHRQueue.set, update_of_ne (hne j hj)]
  obtain ⟨k, hk, hbefore, hafter⟩ :=
    MSHRQueue.readyPlace_spec (q := h.queue.set i m) (i := i) hserved.sorted
  have hperm : (h.queue.readyList.insertAt k i).values.Perm (i :: h.queue.readyList.values) :=
    values_insertAt_perm
  refine ⟨k, hk, ⟨hi.partition, ?_, ?_, ?_, hi.allocated, ?_, ?_, ?_, hi.inOrder⟩, ?_, ?_⟩
  · exact hperm.nodup_iff.mpr (nodup_cons.mpr ⟨hnot, hi.readyOnce⟩)
  · intro j
    simp only [hperm.mem_iff, mem_cons, MSHRQueue.set]
    by_cases hj : j = i
    · subst hj
      simp [hs.1, hm]
    · rw [update_of_ne hj, ← hi.ready j, or_iff_right hj]
  · simp only [values_insertAt]
    refine hserved.insert hbefore hafter fun j hj => ?_
    rw [update_of_ne (hne j hj), update_self]
    exact hc j hj
  · have hcount := hi.count_update hm m
    simp only [hserv, hs.1, if_true, Bool.false_eq_true, if_false] at hcount
    simp only [MSHRQueue.set, hi.inService]
    omega
  · exact hi.allocIter_update hs.2.1
  · intro j hj
    simp only [MSHRQueue.set]
    rw [update_apply]
    split
    · subst i
      rw [hs.2.2]
      exact deref_insertAt_next
    · rename_i hji
      have hj := (mem_cons.mp (hperm.mem_iff.mp hj)).resolve_left hji
      exact deref_insertAt (hi.readyIter j hj)
  · intro j hj
    have := hi.stamped j hj
    simp only
    rw [update_apply]
    split
    · omega
    · omega
  · exact hi.idle_update hm

theorem Inv.free (hserv : (h.queue.registers i).inService = true) (hidle : Idle m) :
    Inv { h with queue := { h.queue.set i m with
      allocatedList := h.queue.allocatedList.erase (h.queue.registers i).allocIter
      freeList := i :: h.queue.freeList
      allocated := h.queue.allocated - 1
      inServiceEntries := h.queue.inServiceEntries - 1 } } := by
  have hnodup := hi.nodup.2.1
  have hvalues : (h.queue.allocatedList.erase (h.queue.registers i).allocIter).values =
      h.queue.allocatedList.values.erase i := values_erase (hi.allocIter i hm) hnodup
  have hne : ∀ j ∈ h.queue.allocatedList.values.erase i,
      j ≠ i ∧ j ∈ h.queue.allocatedList.values := fun j hj => hnodup.mem_erase_iff.mp hj
  have hready : ∀ j ∈ h.queue.readyList.values, j ≠ i := by
    rintro j hj rfl
    rw [((hi.ready j).mp hj).2] at hserv
    cases hserv
  refine ⟨⟨?_, hi.readyOnce, fun j => ?_, ?_, ?_, ?_, fun j hj => ?_, fun j hj => ?_, ?_⟩,
    fun j hj => ?_, fun j hj => ?_⟩
  · simp only [hvalues]
    refine List.Perm.trans ?_ hi.partition
    exact perm_middle.symm.trans ((perm_cons_erase hm).symm.append_left _)
  · simp only [hvalues, hnodup.mem_erase_iff, MSHRQueue.set]
    by_cases hj : j = i
    · subst hj
      simpa using fun hmem => hready j hmem rfl
    · rw [update_of_ne hj, and_iff_right hj]
      exact hi.ready j
  · refine hi.served.congr fun j hj => ⟨?_, rfl⟩
    simp [MSHRQueue.readyTime, MSHRQueue.set, update_of_ne (hready j hj)]
  · simp only [hvalues, length_erase_of_mem hm, hi.allocated]
    have := length_pos_of_mem hm
    omega
  · simp only [hvalues, hi.inService, MSHRQueue.set]
    have hcount := (perm_cons_erase hm).countP_eq fun j => (h.queue.registers j).inService
    have hrest : (h.queue.allocatedList.values.erase i).countP
        (fun j => (update h.queue.registers i m j).inService) =
        (h.queue.allocatedList.values.erase i).countP fun j => (h.queue.registers j).inService :=
      countP_congr fun j hj => by rw [update_of_ne (hne j hj).1]
    rw [hcount, hrest, countP_cons, if_pos hserv]
    omega
  · simp only [hvalues] at hj
    simp only [MSHRQueue.set, update_of_ne (hne j hj).1]
    exact deref_erase (hi.allocIter j (hne j hj).2) (hi.allocIter i hm) (hne j hj).1
  · simp only [MSHRQueue.set, update_of_ne (hready j hj)]
    exact hi.readyIter j hj
  · simp only [hvalues]
    exact hi.inOrder.sublist erase_sublist
  · simp only [hvalues] at hj
    exact hi.stamped j (hne j hj).2
  · rcases mem_cons.mp hj with rfl | hfree
    · simp only [MSHRQueue.set, update_self]
      exact hidle
    · exact hi.idle_update hm j hfree

theorem Inv.deallocate (hd : h.queue.deallocateOne i = .ok q') : Inv { h with queue := q' } := by
  obtain ⟨m, hdm, rfl⟩ := deallocateOne_ok hd
  have hidle := idle_of_deallocate hdm
  cases hserv : (h.queue.registers i).inService with
  | true => simpa [MSHRQueue.set] using hi.free hm hserv hidle
  | false =>
    have hissued := hi.issue (m := { h.queue.registers i with inService := true }) hm hserv ⟨rfl, rfl⟩
    simpa [MSHRQueue.set] using hissued.free (i := i) hm (by simp [MSHRQueue.set]) hidle

end

/-- The queue with register `i` moved from the free list to the allocated list,
as if it were in service. -/
def taken (q : MSHRQueue) (i : Nat) (m : MSHR) : MSHRQueue :=
  { q with
    registers := update q.registers i { m with
      inService := true
      allocIter := q.allocatedList.next }
    allocatedList := q.allocatedList.insertAt q.allocatedList.values.length i
    freeList := q.freeList.tail
    allocated := q.allocated + 1
    inServiceEntries := q.inServiceEntries + 1 }

theorem values_insertAt_length {l : IterList Nat} :
    (l.insertAt l.values.length i).values = l.values ++ [i] := by
  rw [values_insertAt, take_length, drop_length]

theorem Inv.take (hi : h.Inv) (hfree : h.queue.freeList = i :: rest) (m : MSHR) :
    Inv { h with
      queue := taken h.queue i m
      allocStamp := update h.allocStamp i h.clock
      readyStamp := update h.readyStamp i h.clock
      clock := h.clock + 1 } := by
  have hnot : i ∉ h.queue.allocatedList.values := hi.nodup.2.2 i (hfree ▸ mem_cons_self)
  have hne : ∀ j ∈ h.queue.allocatedList.values, j ≠ i := fun j hj => by
    rintro rfl
    exact hnot hj
  have hready : ∀ j ∈ h.queue.readyList.values, j ≠ i := fun j hj => hne j ((hi.ready j).mp hj).1
  refine ⟨⟨?_, hi.readyOnce, ?_, ?_, ?_, ?_, ?_, ?_, ?_⟩, ?_, ?_⟩
  · simp only [taken, values_insertAt_length, hfree, tail_cons]
    refine List.Perm.trans ?_ (hfree ▸ hi.partition)
    rw [← append_assoc, cons_append]
    exact perm_append_singleton ..
  · intro j
    simp only [taken, values_insertAt_length, mem_append, mem_singleton]
    by_cases hj : j = i
    · subst hj
      simpa using fun hmem => hready j hmem rfl
    · rw [update_of_ne hj, or_iff_left hj]
      exact hi.ready j
  · refine hi.served.congr fun j hj => ?_
    simp [taken, readyTime, update_of_ne (hready j hj)]
  · simp only [taken, values_insertAt_length, length_append, length_singleton, hi.allocated]
    rfl
  · have hrest : h.queue.allocatedList.values.countP
        (fun j => ((taken h.queue i m).registers j).inService) =
        h.queue.allocatedList.values.countP fun j => (h.queue.registers j).inService :=
      countP_congr fun j hj => by simp [taken, update_of_ne (hne j hj)]
    simp only [taken] at hrest ⊢
    rw [values_insertAt_length, countP_append, hrest, hi.inService]
    simp
  · intro j hj
    simp only [taken, values_insertAt_length, mem_append, mem_singleton] at hj ⊢
    rcases hj with hj | rfl
    · rw [update_of_ne (hne j hj)]
      exact deref_insertAt (hi.allocIter j hj)
    · rw [update_self]
      exact deref_insertAt_next
  · intro j hj
    simp only [taken, update_of_ne (hready j hj)]
    exact hi.readyIter j hj
  · simp only [taken, values_insertAt_length, pairwise_append]
    refine ⟨?_, pairwise_singleton .., fun a ha b hb => ?_⟩
    · refine hi.inOrder.imp_of_mem fun {a b} ha hb hab => ?_
      rw [update_of_ne (hne a ha), update_of_ne (hne b hb)]
      exact hab
    · rw [mem_singleton.mp hb, update_self, update_of_ne (hne a ha)]
      exact (hi.stamped a ha).1
  · intro j hj
    simp only [taken, values_insertAt_length, mem_append, mem_singleton] at hj ⊢
    rcases hj with hj | rfl
    · have := hi.stamped j hj
      rw [update_of_ne (hne j hj), update_of_ne (hne j hj)]
      omega
    · rw [update_self, update_self]
      omega
  · intro j hj
    simp only [taken, hfree, tail_cons] at hj ⊢
    have hji : j ≠ i := by
      rintro rfl
      exact (nodup_cons.mp (hfree ▸ hi.nodup.1)).1 hj
    rw [update_of_ne hji]
    exact hi.idle j (hfree ▸ mem_cons_of_mem _ hj)

theorem Inv.allocate (hi : h.Inv) (hfree : h.queue.freeList = i :: rest)
    (now addr size : Nat) (pkt : Packet) (tick order : Nat) :
    ∃ q', h.queue.allocate now addr size pkt tick order = .ok (q', i) ∧
      Inv { h with
        queue := q'
        allocStamp := update h.allocStamp i h.clock
        readyStamp := update h.readyStamp i h.clock
        clock := h.clock + 1 } := by
  obtain ⟨hn, ht, hd⟩ := hi.idle i (hfree ▸ mem_cons_self)
  obtain ⟨m, hm, hserv⟩ : ∃ m, (h.queue.registers i).allocate now addr size pkt tick order = .ok m ∧
      m.inService = false := by
    refine ⟨_, by simp only [MSHR.allocate, ht, hd, ensure_true, ok_bind]; rfl, rfl⟩
  have hstamps : ∀ j ∈ h.queue.readyList.values, update h.readyStamp i h.clock j < h.clock := by
    intro j hj
    have hmem := ((hi.ready j).mp hj).1
    have hji : j ≠ i := by
      rintro rfl
      exact hi.nodup.2.2 j (hfree ▸ mem_cons_self) hmem
    rw [update_of_ne hji]
    exact (hi.stamped j hmem).2
  let entry := { m with
    allocIter := h.queue.allocatedList.next
    readyIter := h.queue.readyList.next }
  obtain ⟨k, hk, hinv⟩ := (hi.take hfree m).pend (i := i) (m := entry) (c := h.clock)
    (by simp [taken, values_insertAt_length]) (by simp [taken]) (by simp [entry, taken, hserv])
    hstamps (Nat.lt_succ_self _) (Nat.le_refl _)
  rw [update_idem] at hinv
  refine ⟨_, ?_, hinv⟩
  -- `addToReadyList` looks at nothing that `taken` changes
  have hplace : MSHRQueue.readyPlace { h.queue with
      freeList := h.queue.freeList.tail
      allocatedList := h.queue.allocatedList.insertAt h.queue.allocatedList.values.length i
      registers := update h.queue.registers i { m with
        allocIter := h.queue.allocatedList.next } } i = .ok k := by
    rw [← hk]
    refine readyPlace_congr rfl (funext fun j => ?_)
    by_cases hj : j = i
    · subst hj
      simp [MSHRQueue.readyTime, MSHRQueue.set, entry]
    · simp [MSHRQueue.readyTime, MSHRQueue.set, taken, update_of_ne hj]
  simp only [MSHRQueue.allocate, hfree, List.head?_cons, need, hn, beq_self_eq_true, ensure_true,
    ok_bind, hm, addToReadyList]
  rw [hfree] at hplace
  rw [hplace]
  simp [MSHRQueue.set, taken, entry, update_idem, hfree]

theorem samePlace_popTarget (m : MSHR) : SamePlace m m.popTarget := by
  simp [SamePlace, MSHR.popTarget]

theorem apply_cases {o : TargetOp} {m m' : MSHR} (hop : o.apply m = .ok m') :
    m'.inService = m.inService ∧ m'.allocIter = m.allocIter ∧ m'.readyIter = m.readyIter ∧
      m'.addr = m.addr ∧ m'.readyTime = o.putOff m m.readyTime := by
  cases o with
  | allocateTarget now pkt whenReady order =>
    simp only [TargetOp.apply, MSHR.allocateTarget, bind_eq_ok] at hop
    obtain ⟨_, -, hop⟩ := hop
    split at hop <;> cases hop <;> exact ⟨rfl, rfl, rfl, rfl, rfl⟩
  | popTarget =>
    rw [← pure_eq_ok.mp hop]
    simp [MSHR.popTarget, TargetOp.putOff]
  | promoteDeferredTargets now =>
    simp only [TargetOp.apply, MSHR.promoteDeferredTargets, bind_eq_ok] at hop
    obtain ⟨_, ⟨_, -, hpro⟩, hop⟩ := hop
    split at hpro
    · rename_i hdef
      cases hpro
      cases hop
      simp [TargetOp.putOff, hdef]
    · rename_i hdef
      replace hpro := of_guard hpro
      cases hpro
      cases hop
      simp [TargetOp.putOff, hdef]
  | handleSnoop now pkt order =>
    cases hop
    simp only [MSHR.handleSnoop]
    split_ifs <;> exact ⟨rfl, rfl, rfl, rfl, rfl⟩
  | handleFill pkt =>
    simp only [TargetOp.apply, MSHR.handleFill] at hop
    split at hop
    · cases hop
      exact ⟨rfl, rfl, rfl, rfl, rfl⟩
    · obtain ⟨inv, -, hop⟩ := bind_eq_ok.mp hop
      split at hop
      · simp only [bind_eq_ok] at hop
        obtain ⟨_, -, _, -, hop⟩ := hop
        cases hop
        exact ⟨rfl, rfl, rfl, rfl, rfl⟩
      · cases hop
        exact ⟨rfl, rfl, rfl, rfl, rfl⟩
  | noteDownstream pending =>
    cases pending <;> cases of_guard hop <;> exact ⟨rfl, rfl, rfl, rfl, rfl⟩

theorem samePlace_of_apply {o : TargetOp} {m m' : MSHR} (hop : o.apply m = .ok m')
    (hprom : ∀ now, o = .promoteDeferredTargets now → m.inService = true) : SamePlace m m' := by
  obtain ⟨hserv, halloc, hready, -, htime⟩ := apply_cases hop
  refine ⟨hserv, halloc, hready, ?_⟩
  cases o with
  | promoteDeferredTargets now => exact .inr (hprom now rfl)
  | _ => exact .inl htime

theorem isForwardNoResponse_eq (h : m.isForwardNoResponse = .ok b) : b = unanswered m := by
  unfold MSHR.isForwardNoResponse at h
  split at h
  · cases h
    simp [unanswered, *]
  · simp only [MSHR.getTarget, bind_eq_ok, need_eq_ok] at h
    obtain ⟨t, ht, h⟩ := h
    cases h
    simp_all [unanswered]

theorem markInService_cases
    (hs : m.markInService pkt = .ok (m', noResponse)) :
    noResponse = unanswered m ∧ (noResponse = true ∧ SamePlace m m' ∨
      noResponse = false ∧ m' = { m with
        inService := true
        pendingDirty := m'.pendingDirty
        postInvalidate := false
        postDowngrade := false }) := by
  simp only [MSHR.markInService, bind_eq_ok] at hs
  obtain ⟨_, -, noResponse, hno, hs⟩ := hs
  have hunanswered := isForwardNoResponse_eq hno
  split at hs
  · rename_i htrue
    replace hs := of_guard hs
    obtain ⟨hm, hn⟩ := Prod.mk.inj (pure_eq_ok.mp hs)
    rw [← hm, ← hn, ← hunanswered, htrue]
    exact ⟨rfl, .inl ⟨rfl, samePlace_popTarget m⟩⟩
  · rename_i hfalse
    cases hs
    rw [← hunanswered]
    exact ⟨(Bool.eq_false_iff.mpr hfalse).symm, .inr ⟨rfl, rfl⟩⟩

theorem Inv.markInService (hi : h.Inv)
    (hm : i ∈ h.queue.allocatedList.values) (hpend : (h.queue.registers i).inService = false)
    (hs : h.queue.markInService i pkt = .ok q') : Inv { h with queue := q' } := by
  simp only [MSHRQueue.markInService, bind_eq_ok] at hs
  obtain ⟨⟨m, noResponse⟩, hmark, hs⟩ := hs
  obtain ⟨-, ⟨rfl, hsame⟩ | ⟨rfl, hm'⟩⟩ := markInService_cases hmark
  · exact (hi.set hm hsame).deallocate hm hs
  · simp only [Bool.false_eq_true, if_false, bind_eq_ok] at hs
    obtain ⟨l, hl, hs⟩ := hs
    cases eraseNode_ok hl
    cases hs
    rw [show m.readyIter = (h.queue.registers i).readyIter by rw [hm']]
    exact hi.issue hm hpend ⟨by rw [hm'], by rw [hm']⟩

theorem Inv.markPending (hi : h.Inv) (hm : i ∈ h.queue.allocatedList.values)
    (hserv : (h.queue.registers i).inService = true) :
    ∃ q', h.queue.markPending i = .ok q' ∧ Inv { h with
        queue := q'
        readyStamp := update h.readyStamp i h.clock
        clock := h.clock + 1 } := by
  let entry := { h.queue.registers i with inService := false, readyIter := h.queue.readyList.next }
  obtain ⟨k, hk, hinv⟩ := hi.pend (m := entry) (c := h.clock) hm hserv ⟨rfl, rfl, rfl⟩
    (fun j hj => (hi.stamped j ((hi.ready j).mp hj).1).2) (Nat.lt_succ_self _) (Nat.le_succ _)
  refine ⟨_, ?_, hinv⟩
  have hplace : MSHRQueue.readyPlace { h.queue.set i { h.queue.registers i with
      inService := false } with
      inServiceEntries := h.queue.inServiceEntries - 1 } i = .ok k := by
    rw [← hk]
    refine readyPlace_congr rfl (funext fun j => ?_)
    by_cases hj : j = i
    · subst hj
      simp [MSHRQueue.readyTime, MSHRQueue.set, entry]
    · simp [MSHRQueue.readyTime, MSHRQueue.set, update_of_ne hj]
  simp only [MSHRQueue.set] at hplace
  simp [MSHRQueue.markPending, hserv, addToReadyList, MSHRQueue.set, hplace, entry, update_idem]

def Frame (q q' : MSHRQueue) (i : Nat) : Prop :=
  ∀ j, j ≠ i → q'.registers j = q.registers j ∧
    (j ∈ q'.allocatedList.values ↔ j ∈ q.allocatedList.values)

def Logged (h : MSHRHistory) : Prop := ∀ i, Told h.queue i (h.entry i)

theorem Told.congr {o : Option MSHREntry} (ht : Told q i o) (hsame : q'.registers i = q.registers i)
    (hmem : i ∈ q'.allocatedList.values ↔ i ∈ q.allocatedList.values) : Told q' i o := by
  cases o with
  | none => exact fun hm => ht (hmem.mp hm)
  | some e =>
    rw [Told, hmem, hsame]
    exact ht

theorem Logged.update {o : Option MSHREntry} (hl : h.Logged) (hframe : Frame h.queue q' i)
    (ht : Told q' i o) (j : Nat) : Told q' j (update h.entry i o j) := by
  by_cases hj : j = i
  · subst hj
    rw [update_self]
    exact ht
  · rw [update_of_ne hj]
    exact (hl j).congr (hframe j hj).1 (hframe j hj).2

theorem Logged.entry_of_mem (hl : h.Logged) (hm : i ∈ h.queue.allocatedList.values) :
    ∃ e, h.entry i = some e ∧ (h.queue.registers i).addr = e.addr ∧
      (h.queue.registers i).readyTime = e.tick ∧ (h.queue.registers i).inService = e.sent := by
  have ht := hl i
  cases he : h.entry i with
  | none =>
    rw [he] at ht
    exact absurd hm ht
  | some e =>
    rw [he] at ht
    exact ⟨e, rfl, ht.2⟩

theorem Logged.mem_of_entry (hl : h.Logged) (he : h.entry i = some e) :
    i ∈ h.queue.allocatedList.values ∧ (h.queue.registers i).addr = e.addr ∧
      (h.queue.registers i).readyTime = e.tick ∧ (h.queue.registers i).inService = e.sent := by
  have ht := hl i
  rw [he] at ht
  exact ht

theorem allocate_eq {q : MSHRQueue} {now addr size tick order : Nat} {pkt : Packet}
    (h : q.allocate now addr size pkt tick order = .ok (q', i)) :
    ∃ m a r, (q.registers i).allocate now addr size pkt tick order = .ok m ∧
      q'.registers = update q.registers i { m with allocIter := a, readyIter := r } ∧
      q'.allocatedList.values = q.allocatedList.values ++ [i] ∧
      q.freeList = i :: q'.freeList ∧
      q'.numEntries = q.numEntries ∧ q'.numReserve = q.numReserve := by
  simp only [MSHRQueue.allocate, addToReadyList, bind_eq_ok, need_eq_ok, pure_eq_ok] at h
  obtain ⟨j, hfree, _, -, m, hm, ⟨q1, r⟩, ⟨k, -, hadd⟩, h⟩ := h
  cases hadd
  cases h
  obtain ⟨rest, hrest⟩ := List.head?_eq_some_iff.mp hfree
  refine ⟨m, q.allocatedList.next, q.readyList.next, hm, ?_, ?_, ?_, rfl, rfl⟩
  · simp [MSHRQueue.set]
  · exact values_insertAt_length
  · simp [MSHRQueue.set, hrest]

theorem allocate_told {q : MSHRQueue} {now addr size tick order : Nat} {pkt : Packet}
    (h : q.allocate now addr size pkt tick order = .ok (q', i)) :
    Frame q q' i ∧ Told q' i (some { addr, tick }) := by
  obtain ⟨m, a, r, hm, hregs, hlive, -⟩ := allocate_eq h
  refine ⟨fun j hj => ⟨by rw [hregs, update_of_ne hj], by simp [hlive, hj]⟩, by simp [hlive], ?_⟩
  simp only [MSHR.allocate, bind_eq_ok, pure_eq_ok] at hm
  obtain ⟨_, -, _, -, rfl⟩ := hm
  simp [hregs]

theorem Inv.deallocate_told (hi : h.Inv) (hm : i ∈ h.queue.allocatedList.values)
    (hd : h.queue.deallocateOne i = .ok q') : Frame h.queue q' i ∧ Told q' i none := by
  obtain ⟨m, -, rfl⟩ := deallocateOne_ok hd
  have hnodup := hi.nodup.2.1
  have hvalues : (h.queue.allocatedList.erase (h.queue.registers i).allocIter).values =
      h.queue.allocatedList.values.erase i := values_erase (hi.allocIter i hm) hnodup
  refine ⟨fun j hj => ⟨update_of_ne hj .., ?_⟩, ?_⟩
  · simp only [hvalues, hnodup.mem_erase_iff, and_iff_right hj]
  · simp only [Told, hvalues]
    exact hnodup.not_mem_erase

theorem frame_set {q : MSHRQueue} : Frame q (q.set i m) i :=
  fun _ hj => ⟨update_of_ne hj .., .rfl⟩

section

variable (hi : h.Inv) (hl : h.Logged)
include hi hl

theorem Logged.markInService (he : h.entry i = some e)
    (hs : h.queue.markInService i pkt = .ok q') : Frame h.queue q' i ∧
      Told q' i (if unanswered (h.queue.registers i) then none else some { e with sent := true }) := by
  obtain ⟨hm, haddr, htime, -⟩ := hl.mem_of_entry he
  simp only [MSHRQueue.markInService, bind_eq_ok] at hs
  obtain ⟨⟨m, noResponse⟩, hmark, hs⟩ := hs
  obtain ⟨hno, ⟨rfl, hsame⟩ | ⟨rfl, hm'⟩⟩ := markInService_cases hmark
  · obtain ⟨hframe, htold⟩ := (hi.set hm hsame).deallocate_told hm hs
    rw [← hno, if_pos rfl]
    refine ⟨fun j hj => ⟨(hframe j hj).1.trans (update_of_ne hj ..), (hframe j hj).2⟩, htold⟩
  · simp only [Bool.false_eq_true, if_false, bind_eq_ok] at hs
    obtain ⟨l, -, hs⟩ := hs
    cases hs
    rw [← hno, if_neg Bool.false_ne_true]
    refine ⟨frame_set, hm, ?_⟩
    simp only [MSHRQueue.set, update_self]
    rw [hm']
    exact ⟨haddr, htime, rfl⟩

omit hi in
theorem Logged.markPending (he : h.entry i = some e) (hs : h.queue.markPending i = .ok q') :
    Frame h.queue q' i ∧ Told q' i (some { e with sent := false }) := by
  obtain ⟨hm, haddr, htime, -⟩ := hl.mem_of_entry he
  simp only [MSHRQueue.markPending, addToReadyList, bind_eq_ok] at hs
  obtain ⟨_, -, _, ⟨_, -, hadd⟩, hs⟩ := hs
  cases hadd
  cases hs
  refine ⟨fun j hj => ⟨by simp [MSHRQueue.set, update_of_ne hj], .rfl⟩, hm, ?_⟩
  simp [MSHRQueue.set, haddr, htime]

omit hi in
theorem Logged.onTargets {op : TargetOp} (he : h.entry i = some e)
    (ho : op.apply (h.queue.registers i) = .ok m) : Told (h.queue.set i m) i
      (some { e with tick := op.putOff (h.queue.registers i) e.tick }) := by
  obtain ⟨hm, haddr, htime, hserv⟩ := hl.mem_of_entry he
  obtain ⟨hserv', -, -, haddr', htime'⟩ := apply_cases ho
  refine ⟨hm, ?_⟩
  simp only [MSHRQueue.set, update_self]
  exact ⟨haddr'.trans haddr, htime ▸ htime', hserv'.trans hserv⟩

end

theorem step_inv (hi : h.Inv ∧ h.Logged) (hs : Step h a h') : h'.Inv ∧ h'.Logged := by
  obtain ⟨hi, hl⟩ := hi
  obtain ⟨hallow, hs⟩ := hs
  cases a with
  | allocate now addr size pkt tick order =>
    obtain ⟨i, rest, hfree⟩ := exists_cons_of_ne_nil hallow
    obtain ⟨q', hq, hinv⟩ := hi.allocate hfree now addr size pkt tick order
    obtain ⟨hframe, htold⟩ := allocate_told hq
    simp only [step, hq, ok_bind] at hs
    cases hs
    exact ⟨{ hinv with }, hl.update hframe htold⟩
  | markInService i pkt =>
    obtain ⟨e, he, hsent⟩ := hallow
    obtain ⟨hm, -, -, hserv⟩ := hl.mem_of_entry he
    obtain ⟨q, hq, hs⟩ := bind_eq_ok.mp hs
    obtain ⟨hframe, htold⟩ := hl.markInService hi he hq
    cases hs
    rw [he]
    exact ⟨{ hi.markInService hm (hserv.trans hsent) hq with }, hl.update hframe htold⟩
  | markPending i =>
    obtain ⟨e, he, hsent⟩ := hallow
    obtain ⟨hm, -, -, hserv⟩ := hl.mem_of_entry he
    obtain ⟨q', hq, hinv⟩ := hi.markPending hm (hserv.trans hsent)
    obtain ⟨hframe, htold⟩ := hl.markPending he hq
    simp only [step, hq, ok_bind] at hs
    cases hs
    rw [he]
    exact ⟨{ hinv with }, hl.update hframe htold⟩
  | deallocate i =>
    obtain ⟨e, he⟩ := Option.ne_none_iff_exists'.mp hallow
    have hm := (hl.mem_of_entry he).1
    obtain ⟨q, hq, hs⟩ := bind_eq_ok.mp hs
    obtain ⟨hframe, htold⟩ := hi.deallocate_told hm hq
    cases hs
    exact ⟨{ hi.deallocate hm hq with }, hl.update hframe htold⟩
  | onTargets i op =>
    obtain ⟨e, he, hprom⟩ := hallow
    obtain ⟨hm, -, -, hserv⟩ := hl.mem_of_entry he
    obtain ⟨m, ho, hs⟩ := bind_eq_ok.mp hs
    have htold := hl.onTargets he ho
    cases hs
    rw [he]
    have hsame := samePlace_of_apply ho fun now hop => hserv.trans (hprom now hop)
    exact ⟨{ hi.set hm hsame with }, hl.update frame_set htold⟩

theorem run_inv {numEntries reserve : Nat} (hr : Runs Step (create numEntries reserve) calls h) :
    h.Inv ∧ h.Logged :=
  hr.invariant ⟨inv_create .., fun _ => not_mem_nil⟩ fun _ _ _ hi hs => step_inv hi hs

theorem step_numEntries (hs : Step h a h') : h'.queue.numEntries = h.queue.numEntries := by
  obtain ⟨-, hs⟩ := hs
  cases a with
  | allocate now addr size pkt tick order =>
    simp only [step, allocate, addToReadyList, bind_eq_ok] at hs
    obtain ⟨_, ⟨_, -, _, -, _, -, _, ⟨_, -, hadd⟩, hq⟩, hs⟩ := hs
    cases hadd
    cases hq
    cases hs
    rfl
  | markInService i pkt =>
    simp only [step, markInService, bind_eq_ok] at hs
    obtain ⟨_, ⟨⟨_, noResponse⟩, -, hq⟩, hs⟩ := hs
    cases hs
    cases noResponse with
    | true =>
      obtain ⟨_, -, rfl⟩ := deallocateOne_ok hq
      rfl
    | false =>
      obtain ⟨_, -, hq⟩ := bind_eq_ok.mp hq
      cases hq
      rfl
  | markPending i =>
    simp only [step, markPending, addToReadyList, bind_eq_ok] at hs
    obtain ⟨_, ⟨_, -, _, ⟨_, -, hadd⟩, hq⟩, hs⟩ := hs
    cases hadd
    cases hq
    cases hs
    rfl
  | deallocate i =>
    obtain ⟨_, hq, hs⟩ := bind_eq_ok.mp hs
    cases hs
    obtain ⟨_, -, rfl⟩ := deallocateOne_ok hq
    rfl
  | onTargets i op =>
    obtain ⟨_, -, hs⟩ := bind_eq_ok.mp hs
    cases hs
    rfl

def Oldest (h : MSHRHistory) (addr i : Nat) : Prop :=
  ∃ e, h.entry i = some e ∧ e.addr = addr ∧
    ∀ j e', h.entry j = some e' → e'.addr = addr → h.allocStamp i ≤ h.allocStamp j

section

variable (hb : h.Bookkeeping) (hl : h.Logged)
include hb hl

theorem Bookkeeping.findMatch_some (hf : h.queue.findMatch addr = some i) : h.Oldest addr i := by
  obtain ⟨hp, front, back, hvalues, hfront⟩ := List.find?_eq_some_iff_append.mp hf
  obtain ⟨e, he, haddr, -⟩ := hl.entry_of_mem (hvalues ▸ by simp : i ∈ h.queue.allocatedList.values)
  refine ⟨e, he, haddr.symm.trans (by simpa using hp), fun j e' he' haddr' => ?_⟩
  obtain ⟨hj, hreg, -⟩ := hl.mem_of_entry he'
  have horder := hb.inOrder
  rw [hvalues] at hj horder
  rcases mem_append.mp hj with hj | hj
  · have := hfront j hj
    simp [hreg, haddr'] at this
  · rcases mem_cons.mp hj with rfl | hj
    · exact Nat.le_refl _
    · exact ((pairwise_cons.mp (pairwise_append.mp horder).2.1).1 j hj).le

theorem Bookkeeping.getNextMSHR_none (hg : h.queue.getNextMSHR now = none)
    (he : h.entry j = some e) (hpend : e.sent = false) : now < e.tick := by
  obtain ⟨hj, -, htime, hserv⟩ := hl.mem_of_entry he
  have hmem := (hb.ready j).mpr ⟨hj, hserv.trans hpend⟩
  have hsorted := hb.served.sorted
  unfold getNextMSHR at hg
  rw [← htime]
  cases hr : h.queue.readyList.values with
  | nil => simp [hr] at hmem
  | cons i rest =>
    rw [hr] at hg hmem hsorted
    have hlate : now < h.queue.readyTime i := by simpa using hg
    rcases mem_cons.mp hmem with rfl | hmem
    · exact hlate
    · exact lt_of_lt_of_le hlate ((pairwise_cons.mp hsorted).1 j hmem)

end

/-- In every state reached, the lists, counters and iterators are in order, and the registers are
as the calls made them; allocating from a free list and making a register in service pending never
fail, so that the search of `addToReadyList` never comes out at its last assertion; and the queries
find what they look for. -/
theorem run_bookkeeping {numEntries reserve : Nat}
    (hr : Runs Step (create numEntries reserve) calls h) :
    h.Bookkeeping ∧ (∀ i, Told h.queue i (h.entry i)) ∧
      h.queue.numEntries = numEntries + reserve - 1 ∧
      (h.queue.freeList ≠ [] → ∀ now addr size pkt tick order,
        ∃ r, h.queue.allocate now addr size pkt tick order = .ok r) ∧
      (∀ i e, h.entry i = some e → e.sent = true → ∃ q, h.queue.markPending i = .ok q) ∧
      (∀ addr i, h.queue.findMatch addr = some i → h.Oldest addr i) ∧
      (∀ addr, h.queue.findMatch addr = none → ∀ j e, h.entry j = some e → e.addr ≠ addr) ∧
      ∀ now, h.queue.getNextMSHR now = none → ∀ j e, h.entry j = some e → e.sent = false →
        now < e.tick := by
  obtain ⟨hi, hl⟩ := run_inv hr
  refine ⟨hi.toBookkeeping, hl, ?_, ?_, ?_, ?_, ?_, ?_⟩
  · exact hr.invariant (P := fun t => t.queue.numEntries = numEntries + reserve - 1) rfl
      fun _ _ _ ht hs => (step_numEntries hs).trans ht
  · intro hfree now addr size pkt tick order
    obtain ⟨i, rest, hfree⟩ := exists_cons_of_ne_nil hfree
    obtain ⟨q', hq, -⟩ := hi.allocate hfree now addr size pkt tick order
    exact ⟨_, hq⟩
  · intro i e he hsent
    obtain ⟨hm, -, -, hserv⟩ := hl.mem_of_entry he
    obtain ⟨q', hq, -⟩ := hi.markPending hm (hserv.trans hsent)
    exact ⟨q', hq⟩
  · exact fun addr i hf => hi.findMatch_some hl hf
  · intro addr hf j e he haddr
    obtain ⟨hj, hreg, -⟩ := hl.mem_of_entry he
    have hnone := List.find?_eq_none.mp hf j hj
    simp [hreg, haddr] at hnone
  · exact fun now hg j e he hpend => hi.getNextMSHR_none hl hg he hpend

def sampleMiss (id addr : Nat) : Packet :=
  { id := id, cmd := .readReq, req := ⟨addr, 4, 0, none, false, false, false, false, 0⟩,
    addr := addr, size := 4 }

theorem run_bookkeeping_misses :
    ∃ h₂ h₅, Runs Step (create 2 1) [.allocate 0 64 64 (sampleMiss 1 64) 9 0,
        .allocate 0 128 64 (sampleMiss 2 128) 5 1] h₂ ∧
      h₂.queue.readyList.values = [1, 0] ∧ h₂.queue.findMatch 128 = some 1 ∧ h₂.Oldest 128 1 ∧
      Runs Step (create 2 1) [.allocate 0 64 64 (sampleMiss 1 64) 9 0,
        .allocate 0 128 64 (sampleMiss 2 128) 5 1, .markInService 1 (sampleMiss 2 128),
        .onTargets 1 .popTarget, .deallocate 1] h₅ ∧
      h₅.queue.allocatedList.values = [0] ∧ h₅.queue.freeList = [1] ∧
      h₅.queue.findMatch 64 = some 0 ∧ h₅.Oldest 64 0 ∧ h₅.queue.findMatch 128 = none ∧
      h₅.Bookkeeping := by
  have h1 : Runs Step (create 2 1) [.allocate 0 64 64 (sampleMiss 1 64) 9 0] _ :=
    .single ⟨cons_ne_nil 0 [1], rfl⟩
  have h2 := h1.snoc (a := MSHRCall.allocate 0 128 64 (sampleMiss 2 128) 5 1)
    ⟨cons_ne_nil 1 [], rfl⟩
  have h3 := h2.snoc (a := MSHRCall.markInService 1 (sampleMiss 2 128))
    ⟨⟨⟨128, 5, false⟩, rfl, rfl⟩, rfl⟩
  have h4 := h3.snoc (a := MSHRCall.onTargets 1 .popTarget) ⟨⟨⟨128, 5, true⟩, rfl, nofun⟩, rfl⟩
  have h5 := h4.snoc (a := MSHRCall.deallocate 1) ⟨nofun, rfl⟩
  obtain ⟨-, -, -, -, -, hfind, -⟩ := run_bookkeeping h2
  obtain ⟨hbook, -, -, -, -, hfind', -⟩ := run_bookkeeping h5
  exact ⟨_, _, h2, rfl, rfl, hfind _ _ rfl, h5, rfl, rfl, rfl, hfind' _ _ rfl, rfl, hbook⟩

end MSHRHistory

end Gem5
