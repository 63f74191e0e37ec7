import Gem5.Lib.Streams
import Gem5.Mem.Ruby.MessageBuffer

/-!
# The order of an ordered message buffer

The nodes that go through the heap are several streams: the messages as they were enqueued,
and the messages of a line each time they come back from the stall map. Within a stream the
nodes leave the heap in order, because later nodes have later times, or larger counters at
the same time.
-/

namespace Gem5

open Lib List MessageBuffer MessageBufferNode

namespace MessageBufferNode

def key (node : MessageBufferNode) : ℕ ×ₗ ℕ := toLex (node.time, node.msgCounter.toNat)

theorem greater_compares : Compares greater key := by
  intro n1 n2 hne
  have hlt : n2.key < n1.key ↔ n2.time < n1.time ∨ n2.time = n1.time ∧
      n2.msgCounter.toNat < n1.msgCounter.toNat := by
    rw [key, key, Prod.Lex.toLex_lt_toLex]
  unfold greater
  split
  · rename_i htime
    have hcounter : n1.msgCounter ≠ n2.msgCounter := fun heq => hne (by rw [key, key, htime, heq])
    rw [ensure_of (by simpa using hcounter), ok_bind]
    simp [hlt, htime, BitVec.lt_def]
  · rename_i htime
    have htime : n2.time ≠ n1.time := fun heq => htime heq.symm
    simp [hlt, htime]

def Behind (heap : List MessageBufferNode) (node : MessageBufferNode) : Prop :=
  ∀ old ∈ heap, old.time = node.time → old.msgCounter.toNat < node.msgCounter.toNat

instance (heap : List MessageBufferNode) (node : MessageBufferNode) : Decidable (node.Behind heap) :=
  inferInstanceAs (Decidable (∀ _ ∈ heap, _ → _))

theorem Behind.not_mem (h : Behind heap node) : node ∉ heap := fun hin => lt_irrefl _ (h node hin rfl)

theorem Behind.key_lt (h : Behind heap node) (hold : old ∈ heap) (htime : old.time ≤ node.time) :
    old.key < node.key := by
  rw [key, key, Prod.Lex.toLex_lt_toLex]
  rcases htime.lt_or_eq with hlt | heq
  · exact .inl hlt
  · exact .inr ⟨heq, h old hold heq⟩

end MessageBufferNode

namespace MessageBuffer

structure Keyed (b : MessageBuffer) : Prop where
  ordered : b.prioHeap.Ordered MessageBufferNode.key
  distinct : (b.prioHeap.toList.map MessageBufferNode.key).Nodup

section Keyed

variable {b : MessageBuffer} {sys : RubySystem} {messages : List Message}

def nextNode (b : MessageBuffer) (time : Nat) (message : Message) : MessageBufferNode :=
  .create time (b.msgCounter + 1) message

theorem Keyed.push (h : b.Keyed) (b' : MessageBuffer) (hcounter : b'.msgCounter = b.msgCounter + 1)
    (hheap : b'.prioHeap = b.prioHeap) (time : Nat) (message : Message)
    (hbehind : (b.nextNode time message).Behind b.prioHeap.toList) :
    ∃ v, b'.pushNode (.create time b'.msgCounter message) = .ok { b' with prioHeap := v } ∧
      Keyed { b' with prioHeap := v } ∧
      v.toList.Perm (b.prioHeap.toList ++ [b.nextNode time message]) := by
  have hdistinct : ((b.prioHeap.toList ++ [b.nextNode time message]).map key).Nodup := by
    rw [map_append, map_singleton, nodup_append]
    refine ⟨h.distinct, by simp, fun k hk k' hk' heq => ?_⟩
    obtain ⟨node, hnode, rfl⟩ := mem_map.mp hk
    rw [mem_singleton.mp hk'] at heq
    have htime : node.time = _ := congrArg (fun k => (ofLex k).1) heq
    exact (hbehind node hnode htime).ne (congrArg (fun k => (ofLex k).2) heq)
  obtain ⟨v, hpush, hordered, hperm⟩ := HeapArray.pushHeap_spec greater_compares h.ordered hdistinct
  refine ⟨v, ?_, ⟨hordered, (hperm.map _).nodup_iff.mpr hdistinct⟩, hperm⟩
  rw [pushNode, hheap, hcounter]
  exact bind_eq_ok.mpr ⟨v, hpush, rfl⟩

theorem Keyed.pop (h : b.Keyed) (hready : b.isReady sys) :
    ∃ v, b.pop sys = .ok { b.countPop sys with prioHeap := v } ∧
      Keyed { b.countPop sys with prioHeap := v } ∧
      b.prioHeap.toList.Perm (b.prioHeap.elem 0 :: v.toList) := by
  have hpos : 0 < b.prioHeap.size := by
    simp only [isReady, Bool.and_eq_true, decide_eq_true_eq] at hready
    exact hready.1
  obtain ⟨v, hpop, hordered, hperm⟩ :=
    HeapArray.popHeap_spec greater_compares h.ordered h.distinct hpos
  have hdistinct := (hperm.map _).nodup_iff.mp h.distinct
  refine ⟨v.popBack, ?_, ⟨hordered, (nodup_cons.mp hdistinct).2⟩, hperm⟩
  rw [MessageBuffer.pop, ensure_of hready, ok_bind, hpop]
  rfl

def unstalled (sys : RubySystem) (counter : BitVec 64) : List Message → List MessageBufferNode
  | [] => []
  | message :: messages => .create (sys.time + 1) (counter + 1) message ::
      unstalled sys (counter + 1) messages

theorem time_unstalled (h : node ∈ unstalled sys counter messages) :
    node.time = sys.time + 1 := by
  induction messages generalizing counter with
  | nil => simp [unstalled] at h
  | cons message messages ih =>
    rcases mem_cons.mp h with rfl | h
    · rfl
    · exact ih h

theorem msg_unstalled (sys : RubySystem) (counter : BitVec 64) (messages : List Message) :
    (unstalled sys counter messages).map (·.msg) = messages := by
  induction messages generalizing counter with
  | nil => rfl
  | cons message messages ih => rw [unstalled, map_cons, ih]; rfl

/-- Nodes that go onto the heap one after the other come behind what is there, and each
behind those before it. -/
def Queues (heap new : List MessageBufferNode) : Prop :=
  (∀ x ∈ new, x.Behind heap) ∧ new.Pairwise fun x y => x.msgCounter.toNat < y.msgCounter.toNat

instance (heap new : List MessageBufferNode) : Decidable (Queues heap new) :=
  inferInstanceAs (Decidable (_ ∧ _))

theorem Keyed.unstall (h : b.Keyed) (sys : RubySystem) (hconsumer : b.params.consumer)
    (htime : sys.time + 1 < 2 ^ 63)
    (hqueues : Queues b.prioHeap.toList (unstalled sys b.msgCounter messages)) :
    ∃ v counter, messages.foldlM (unstall sys) b = .ok
      { b with prioHeap := v, msgCounter := counter } ∧
      Keyed { b with prioHeap := v, msgCounter := counter } ∧
      v.toList.Perm (b.prioHeap.toList ++ unstalled sys b.msgCounter messages) := by
  induction messages generalizing b with
  | nil => exact ⟨b.prioHeap, b.msgCounter, rfl, h, by simp [unstalled]⟩
  | cons message messages ih =>
    obtain ⟨hbehind, hpairwise⟩ := hqueues
    rw [unstalled, pairwise_cons] at hpairwise
    obtain ⟨v1, hpush, hkeyed, hperm1⟩ := h.push { b with msgCounter := b.msgCounter + 1 } rfl rfl
      (sys.time + 1) message (hbehind _ mem_cons_self)
    -- the first node is now one of those that the others come behind
    have hnext : Queues v1.toList (unstalled sys (b.msgCounter + 1) messages) := by
      refine ⟨fun x hx old hold heq => ?_, hpairwise.2⟩
      rcases mem_append.mp (hperm1.mem_iff.mp hold) with hold | hfirst
      · exact hbehind x (mem_cons_of_mem _ hx) old hold heq
      · rw [mem_singleton.mp hfirst]
        exact hpairwise.1 x hx
    obtain ⟨v, counter, hfold, hkeyed', hperm⟩ := ih hkeyed hconsumer hnext
    refine ⟨v, counter, ?_, hkeyed', ?_⟩
    · rw [foldlM_cons]
      refine bind_eq_ok.mpr ⟨_, ?_, hfold⟩
      rw [unstall, refuse, decide_eq_false (not_le.mpr htime), if_neg Bool.false_ne_true, ok_bind,
        hpush, ok_bind, hconsumer]
      rfl
    · refine hperm.trans ((hperm1.append_right _).trans ?_)
      rw [append_assoc]
      exact .refl _

end Keyed

end MessageBuffer

structure FifoWorld where
  sys : RubySystem
  buffer : MessageBuffer
  arrivals : List MessageBufferNode := []
  /-- The nodes of the messages of a line that came back together. -/
  batches : List (List MessageBufferNode) := []
  left : List MessageBufferNode := []
  dequeued : List MessageBufferNode := []
  stalled : List MessageBufferNode := []

namespace FifoWorld

def create (sys : RubySystem) (params : BufferParams) : FifoWorld := { sys, buffer := { params } }

def arrival (w : FifoWorld) (message : Message) (delta random : Nat) : MessageBufferNode :=
  let time := (w.buffer.arrivalTime w.sys delta random).1
  w.buffer.nextNode time { message with
    delayedCycles := w.sys.time - message.lastEnqueueTime + message.delayedCycles
    lastEnqueueTime := time }

def note (w : FifoWorld) : MessageBufferEvent → FifoWorld
  | .enqueue message delta random =>
      { w with arrivals := w.arrivals ++ [w.arrival message delta random] }
  | .dequeue =>
    let head := w.buffer.prioHeap.elem 0
    { w with left := w.left ++ [head], dequeued := w.dequeued ++ [head] }
  | .stallMessage _ =>
    let head := w.buffer.prioHeap.elem 0
    { w with left := w.left ++ [head], stalled := w.stalled ++ [head] }
  | .reanalyzeMessages addr =>
    let messages := (w.buffer.stallMsgMap.lookup addr).getD []
    { w with batches := w.batches ++ [MessageBuffer.unstalled w.sys w.buffer.msgCounter messages] }
  | .cycle sys => { w with sys }
  | _ => w

def apply (w : FifoWorld) (e : MessageBufferEvent) : Chk FifoWorld := do
  let buffer ← w.buffer.apply w.sys e
  return { w.note e with buffer }

def Fixed (sys : RubySystem) (params : BufferParams) : Prop :=
  sys.randomization = false ∨ params.randomization = false

def Admits (w : FifoWorld) : MessageBufferEvent → Prop
  | .enqueue message delta _ =>
    0 < delta ∧ w.buffer.lastArrivalTime ≤ w.sys.time + delta ∧ message.lastEnqueueTime ≤ w.sys.time
  | .dequeue => w.buffer.isReady w.sys
  | .stallMessage addr => w.buffer.isReady w.sys ∧ addr % 2 ^ w.sys.blockSizeBits = 0
  | .reanalyzeMessages addr => (w.buffer.stallMsgMap.lookup addr).isSome
  | .clearStats => True
  | .areNSlotsAvailable _ => True
  | .cycle sys => w.sys.time ≤ sys.time ∧ Fixed sys w.buffer.params
  | .recycle | .reanalyzeAllMessages => False

def Step (w : FifoWorld) (e : MessageBufferEvent) (w' : FifoWorld) : Prop :=
  w.Admits e ∧ w.apply e = .ok w'

/-- A message that goes onto the heap gets a counter above those of the messages there that
arrive at the same time, times do not overflow, and the order of arrival is checked. -/
def Counted (w : FifoWorld) : MessageBufferEvent → Prop
  | .enqueue message delta _ => w.sys.time + delta < 2 ^ 63 ∧ w.sys.warmupEnabled = false ∧
      (w.buffer.nextNode (w.sys.time + delta) message).Behind w.buffer.prioHeap.toList
  | .reanalyzeMessages addr => w.sys.time + 1 < 2 ^ 63 ∧
      MessageBuffer.Queues w.buffer.prioHeap.toList (MessageBuffer.unstalled w.sys
        w.buffer.msgCounter ((w.buffer.stallMsgMap.lookup addr).getD []))
  | _ => True

def neverStalled (w : FifoWorld) (node : MessageBufferNode) : Bool :=
  w.stalled.all (·.msg.id ≠ node.msg.id)

structure Fifo (w : FifoWorld) : Prop where
  /-- Messages that were never put aside are dequeued in the order they were enqueued. -/
  arrivals : w.dequeued.filter w.neverStalled <+: w.arrivals.filter w.neverStalled
  /-- Messages that came back together are dequeued in their order, unless they are put
  aside again. -/
  batches : ∀ batch ∈ w.batches, w.dequeued.filter (· ∈ batch) <+: batch.filter (· ∉ w.stalled)
  /-- Their order is the one in which they were put aside. -/
  original : ∀ batch ∈ w.batches, (batch.map (·.msg)).Sublist (w.stalled.map (·.msg))
  first : (w.stalled.filter (· ∈ w.arrivals)).Sublist w.arrivals
  distinct : (w.buffer.prioHeap.toList.map fun node => (node.time, node.msgCounter)).Nodup
  serves : ∀ e, w.Admits e → w.Counted e → ∃ w', w.apply e = .ok w'

structure Inv (w : FifoWorld) : Prop where
  strictFifo : w.buffer.params.strictFifo = true
  orderingSet : w.buffer.params.orderingSet = true
  consumer : w.buffer.params.consumer = true
  fixed : Fixed w.sys w.buffer.params
  keyed : w.buffer.Keyed
  arrivals : Streamed MessageBufferNode.key w.left w.buffer.prioHeap.toList w.arrivals
  batches : ∀ batch ∈ w.batches, Streamed MessageBufferNode.key w.left w.buffer.prioHeap.toList batch
  last : ∀ node ∈ w.arrivals, node.time ≤ w.buffer.lastArrivalTime
  past : ∀ node ∈ w.left, node.time ≤ w.sys.time
  apart : ∀ node ∈ w.left, node ∉ w.buffer.prioHeap.toList
  dequeued : w.dequeued = w.left.filter (· ∉ w.stalled)
  stalled : w.stalled.Sublist w.left
  aside : ∀ p ∈ w.buffer.stallMsgMap, p.2.Sublist (w.stalled.map (·.msg))
  original : ∀ batch ∈ w.batches, (batch.map (·.msg)).Sublist (w.stalled.map (·.msg))
  origin : ∀ node ∈ w.left ++ w.buffer.prioHeap.toList, node ∈ w.arrivals ∨
    ∃ batch ∈ w.batches, node ∈ batch

theorem inv_create {sys : RubySystem} {params : BufferParams} (hstrict : params.strictFifo = true)
    (hset : params.orderingSet = true) (hconsumer : params.consumer = true)
    (hfixed : Fixed sys params) :
    (create sys params).Inv where
  strictFifo := hstrict
  orderingSet := hset
  consumer := hconsumer
  fixed := hfixed
  keyed := ⟨fun c _ hc => absurd hc (Nat.not_lt_zero c), .nil⟩
  arrivals := .nil
  batches := nofun
  last := nofun
  past := nofun
  apart := nofun
  dequeued := rfl
  stalled := .slnil
  aside := nofun
  original := nofun
  origin := nofun

section Events

variable {w w' : FifoWorld} {e : MessageBufferEvent}

section

variable (h : w.Inv)
include h

theorem Inv.mem_arrivals (hnode : node ∈ w.left) (hnever : w.neverStalled node) :
    node ∈ w.arrivals := by
  refine (h.origin node (mem_append_left _ hnode)).resolve_right ?_
  rintro ⟨batch, hbatch, hin⟩
  have hmsg := (h.original batch hbatch).subset (mem_map_of_mem hin)
  obtain ⟨node', hnode', heq⟩ := mem_map.mp hmsg
  rw [neverStalled, all_eq_true] at hnever
  have := hnever node' hnode'
  simp [heq] at this

theorem Inv.fifo_arrivals : w.dequeued.filter w.neverStalled <+: w.arrivals.filter w.neverStalled := by
  have hfilter : w.dequeued.filter w.neverStalled =
      (w.left.filter (· ∈ w.arrivals)).filter w.neverStalled := by
    rw [h.dequeued, filter_filter, filter_filter]
    refine filter_congr fun node hnode => ?_
    rw [Bool.eq_iff_iff]
    simp only [Bool.and_eq_true, decide_eq_true_eq]
    refine ⟨fun ⟨hnever, _⟩ => ⟨hnever, h.mem_arrivals hnode hnever⟩,
      fun ⟨hnever, _⟩ => ⟨hnever, fun hstalled => ?_⟩⟩
    rw [neverStalled, all_eq_true] at hnever
    simpa using hnever node hstalled
  rw [hfilter]
  exact h.arrivals.isPrefix.filter _

theorem Inv.fifo_batches (hbatch : batch ∈ w.batches) :
    w.dequeued.filter (· ∈ batch) <+: batch.filter (· ∉ w.stalled) := by
  have hcomm : w.dequeued.filter (· ∈ batch) = (w.left.filter (· ∈ batch)).filter (· ∉ w.stalled) := by
    rw [h.dequeued, filter_filter, filter_filter]
    exact filter_congr fun _ _ => Bool.and_comm ..
  rw [hcomm]
  exact (h.batches batch hbatch).isPrefix.filter _

section

variable (hready : w.buffer.isReady w.sys)
include hready

theorem Inv.leave {v : HeapArray MessageBufferNode}
    (hkeyed : MessageBuffer.Keyed { w.buffer.countPop w.sys with prioHeap := v })
    (hperm : w.buffer.prioHeap.toList.Perm (w.buffer.prioHeap.elem 0 :: v.toList))
    {dequeued stalled : List MessageBufferNode} {stallMsgMap : List (Nat × List Message)}
    (hdequeued : dequeued = (w.left ++ [w.buffer.prioHeap.elem 0]).filter (· ∉ stalled))
    (hstalled : stalled.Sublist (w.left ++ [w.buffer.prioHeap.elem 0]))
      (hmore : w.stalled.Sublist stalled)
    (haside : ∀ p ∈ stallMsgMap, p.2.Sublist (stalled.map (·.msg))) :
    Inv { w with
      buffer := { w.buffer.countPop w.sys with prioHeap := v, stallMsgMap := stallMsgMap }
      left := w.left ++ [w.buffer.prioHeap.elem 0]
      dequeued := dequeued
      stalled := stalled } := by
  have hmin : ∀ y ∈ w.buffer.prioHeap.toList, (w.buffer.prioHeap.elem 0).key ≤ y.key :=
    fun _ => h.keyed.ordered.front_le
  have hqueue : ∀ y, y ∈ w.buffer.prioHeap.toList ↔ y = w.buffer.prioHeap.elem 0 ∨
    y ∈ v.toList := fun y => by
    rw [hperm.mem_iff, mem_cons]
  have hout : w.buffer.prioHeap.elem 0 ∉ v.toList := fun hin =>
    (nodup_cons.mp ((hperm.map _).nodup_iff.mp h.keyed.distinct)).1 (mem_map_of_mem hin)
  have htime : (w.buffer.prioHeap.elem 0).time ≤ w.sys.time := by
    simp only [isReady, Bool.and_eq_true, decide_eq_true_eq] at hready
    exact hready.2
  exact { h with
    keyed := { hkeyed with }
    arrivals := h.arrivals.pop hmin hqueue hout
    batches := fun batch hbatch => (h.batches batch hbatch).pop hmin hqueue hout
    past := fun node hnode => by
      rcases mem_append.mp hnode with hnode | hnode
      · exact h.past node hnode
      · rw [mem_singleton.mp hnode]
        exact htime
    apart := fun node hnode hin => by
      rcases mem_append.mp hnode with hnode | hnode
      · exact h.apart node hnode ((hqueue node).mpr (.inr hin))
      · rw [mem_singleton.mp hnode] at hin
        exact hout hin
    dequeued := hdequeued
    stalled := hstalled
    aside := haside
    original := fun batch hbatch => (h.original batch hbatch).trans (hmore.map _)
    origin := fun node hnode => by
      refine h.origin node ?_
      rw [append_assoc] at hnode
      rcases mem_append.mp hnode with hleft | hheap
      · exact mem_append_left _ hleft
      · exact mem_append_right _ (hperm.mem_iff.mpr hheap) }

theorem Inv.head_not_left : w.buffer.prioHeap.elem 0 ∉ w.left := by
  intro hleft
  simp only [isReady, Bool.and_eq_true, decide_eq_true_eq] at hready
  exact h.apart _ hleft (mem_map_of_mem (mem_range.mpr hready.1))

theorem dequeue_spec : ∃ w', w.apply .dequeue = .ok w' ∧ w'.Inv := by
  obtain ⟨v, hpop, hkeyed, hperm⟩ := h.keyed.pop hready
  have hnew := h.head_not_left hready
  have hdequeued : w.dequeued ++ [w.buffer.prioHeap.elem 0] =
      (w.left ++ [w.buffer.prioHeap.elem 0]).filter (· ∉ w.stalled) := by
    have hout : w.buffer.prioHeap.elem 0 ∉ w.stalled := fun hin => hnew (h.stalled.subset hin)
    rw [filter_append, ← h.dequeued, filter_singleton, decide_eq_true hout, cond_true]
  have hstalled := h.stalled.trans (sublist_append_left w.left [w.buffer.prioHeap.elem 0])
  exact ⟨_, bind_eq_ok.mpr ⟨_, hpop, rfl⟩,
    h.leave hready hkeyed hperm hdequeued hstalled (.refl _) h.aside⟩

end

omit h in
theorem mem_putAside
    (h : p ∈ MessageBuffer.putAside addr message l) :
    p ∈ l ∨ p.2 = [message] ∨ ∃ q ∈ l, p.2 = q.2 ++ [message] := by
  induction l with
  | nil =>
    rw [putAside, mem_singleton] at h
    exact .inr (.inl (by rw [h]))
  | cons q rest ih =>
    unfold putAside at h
    split at h
    · rcases mem_cons.mp h with rfl | h
      · exact .inr (.inl rfl)
      · exact .inl h
    · split at h
      · rcases mem_cons.mp h with rfl | h
        · exact .inr (.inr ⟨_, mem_cons_self, rfl⟩)
        · exact .inl (List.mem_cons_of_mem _ h)
      · rcases mem_cons.mp h with rfl | h
        · exact .inl mem_cons_self
        · rcases ih h with hold | hone | ⟨q, hq, heq⟩
          · exact .inl (List.mem_cons_of_mem _ hold)
          · exact .inr (.inl hone)
          · exact .inr (.inr ⟨q, List.mem_cons_of_mem _ hq, heq⟩)

theorem stallMessage_spec (hadmits : w.Admits (.stallMessage addr)) :
    ∃ w', w.apply (.stallMessage addr) = .ok w' ∧ w'.Inv := by
  obtain ⟨hready, haddr⟩ := hadmits
  obtain ⟨v, hpop, hkeyed, hperm⟩ := h.keyed.pop hready
  have hnew := h.head_not_left hready
  have hstall : w.buffer.apply w.sys (.stallMessage addr) = .ok { w.buffer.countPop w.sys with
      prioHeap := v
      stallMsgMap := putAside addr (w.buffer.prioHeap.elem 0).msg w.buffer.stallMsgMap } := by
    rw [MessageBuffer.apply, MessageBuffer.stallMessage, ensure_of hready, ok_bind,
      ensure_of (by simpa using haddr), ok_bind, hpop, ok_bind]
    rfl
  have hdequeued : w.dequeued = (w.left ++ [w.buffer.prioHeap.elem 0]).filter
      (· ∉ w.stalled ++ [w.buffer.prioHeap.elem 0]) := by
    have hsame : w.left.filter (· ∉ w.stalled ++ [w.buffer.prioHeap.elem 0]) =
        w.left.filter (· ∉ w.stalled) := by
      refine filter_congr fun node hnode => decide_eq_decide.mpr ?_
      have hne : node ≠ w.buffer.prioHeap.elem 0 := by rintro rfl; exact hnew hnode
      simp [hne]
    rw [filter_append, hsame, filter_singleton, decide_eq_false (by simp), cond_false, append_nil]
    exact h.dequeued
  have haside : ∀ p ∈ putAside addr (w.buffer.prioHeap.elem 0).msg w.buffer.stallMsgMap,
      p.2.Sublist ((w.stalled ++ [w.buffer.prioHeap.elem 0]).map (·.msg)) := by
    intro p hp
    rw [map_append, map_singleton]
    rcases mem_putAside hp with hold | hone | ⟨q, hq, heq⟩
    · exact (h.aside p hold).trans (sublist_append_left _ _)
    · rw [hone]
      exact sublist_append_right _ _
    · rw [heq]
      exact (h.aside q hq).append_right _
  exact ⟨_, bind_eq_ok.mpr ⟨_, hstall, rfl⟩,
    h.leave hready hkeyed hperm hdequeued (h.stalled.append_right _)
    (sublist_append_left _ _) haside⟩

theorem Inv.fresh {xs : List MessageBufferNode} (htime : ∀ x ∈ xs, w.sys.time < x.time)
    (hbehind : ∀ x ∈ xs, x.Behind w.buffer.prioHeap.toList) :
    ∀ x ∈ xs, x ∉ w.left ∧ x ∉ w.buffer.prioHeap.toList := fun x hx =>
  ⟨fun hleft => absurd (h.past x hleft) (not_le.mpr (htime x hx)), (hbehind x hx).not_mem⟩

omit h in
theorem streamed_of_fresh {left heap heap' s xs : List MessageBufferNode}
    (h : Streamed MessageBufferNode.key left heap s) (hperm : heap'.Perm (heap ++ xs))
    (hfresh : ∀ x ∈ xs, x ∉ left ∧ x ∉ heap) :
    Streamed MessageBufferNode.key left heap' s := by
  refine h.congr fun x hx => ?_
  rw [hperm.mem_iff, mem_append]
  refine ⟨fun hin => hin.elim id fun hnew => ?_, .inl⟩
  exact (h.mem hx).resolve_left (hfresh x hnew).1

omit h in
theorem apart_of_fresh {left heap heap' xs : List MessageBufferNode} (h : ∀ node ∈ left, node ∉ heap)
    (hperm : heap'.Perm (heap ++ xs)) (hfresh : ∀ x ∈ xs, x ∉ left ∧ x ∉ heap) :
    ∀ node ∈ left, node ∉ heap' := by
  intro node hnode hin
  rcases mem_append.mp (hperm.mem_iff.mp hin) with hin | hin
  · exact h node hnode hin
  · exact (hfresh node hin).1 hnode

theorem arrivalTime_eq (delta random : Nat) :
    w.buffer.arrivalTime w.sys delta random = (w.sys.time + delta, w.buffer.lastArrivalTime) := by
  have hfixed : (!w.sys.randomization || !w.buffer.params.randomization) = true := by
    rcases h.fixed with hsys | hparams
    · simp [hsys]
    · simp [hparams]
  rw [arrivalTime, if_pos hfixed]

theorem enqueue_spec {message : Message} {delta random : Nat}
    (hadmits : w.Admits (.enqueue message delta random))
    (hcounted : w.Counted (.enqueue message delta random)) :
    ∃ w', w.apply (.enqueue message delta random) = .ok w' ∧ w'.Inv := by
  obtain ⟨hdelta, hlast, hearly⟩ := hadmits
  obtain ⟨hsmall, hwarmup, hbehind⟩ := hcounted
  have htime := arrivalTime_eq h delta random
  have hnode : w.arrival message delta random = w.buffer.nextNode (w.sys.time + delta) { message with
      delayedCycles := w.sys.time - message.lastEnqueueTime + message.delayedCycles
      lastEnqueueTime := w.sys.time + delta } := by
    rw [arrival, htime]
  obtain ⟨v, hpush, hkeyed, hperm⟩ := h.keyed.push
    { w.buffer.countEnqueue w.sys with lastArrivalTime := w.sys.time + delta }
      rfl rfl (w.sys.time + delta)
    { message with
      delayedCycles := w.sys.time - message.lastEnqueueTime + message.delayedCycles
      lastEnqueueTime := w.sys.time + delta } hbehind
  rw [← hnode] at hperm
  have hbehind : ∀ x ∈ [w.arrival message delta random], x.Behind w.buffer.prioHeap.toList := by
    intro x hx
    rw [mem_singleton.mp hx, hnode]
    exact hbehind
  have hlater : ∀ x ∈ [w.arrival message delta random], x.time = w.sys.time + delta := by
    intro x hx
    rw [mem_singleton.mp hx, hnode]
    rfl
  have hfresh := h.fresh (fun x hx => by rw [hlater x hx]; omega) hbehind
  have happly : w.buffer.apply w.sys (.enqueue message delta random) =
    .ok { w.buffer.countEnqueue w.sys with
      lastArrivalTime := w.sys.time + delta, prioHeap := v } := by
    have htime' : (w.buffer.countEnqueue w.sys).arrivalTime w.sys delta random = _ := htime
    have hset : (w.buffer.countEnqueue w.sys).params.orderingSet = true := h.orderingSet
    have hconsumer : (w.buffer.countEnqueue w.sys).params.consumer = true := h.consumer
    have hfifo : decide (w.sys.time + delta < w.buffer.lastArrivalTime) = false :=
      decide_eq_false (not_lt.mpr hlast)
    have hoverflow : decide (2 ^ 63 ≤ w.sys.time + delta) = false :=
      decide_eq_false (not_le.mpr hsmall)
    simp only [MessageBuffer.apply, enqueue, htime', hset, hfifo, hwarmup, hoverflow,
      Bool.not_true, refuse, ensure_of (decide_eq_true hdelta), ensure_of (decide_eq_true hearly),
      Bool.and_false, Bool.false_eq_true, if_false,
      ensure_of (decide_eq_true (Nat.lt_add_of_pos_right hdelta)), ok_bind]
    refine bind_eq_ok.mpr ⟨_, hpush, ?_⟩
    simp only [hconsumer, Bool.not_true, Bool.false_eq_true, if_false, ok_bind]
    rfl
  refine ⟨_, bind_eq_ok.mpr ⟨_, happly, rfl⟩, { h with
    keyed := hkeyed
    arrivals := h.arrivals.push (fun y => by rw [hperm.mem_iff, mem_append])
      (fun x hx => (hfresh x hx).1)
      (pairwise_singleton ..) fun y hy hin x hx => ?_
    batches := fun batch hbatch => streamed_of_fresh (h.batches batch hbatch) hperm hfresh
    last := fun node hin => ?_
    apart := apart_of_fresh h.apart hperm hfresh
    origin := fun node hin => ?_ }⟩
  · refine (hbehind x hx).key_lt hin ?_
    rw [hlater x hx]
    exact (h.last y hy).trans hlast
  · rcases mem_append.mp hin with hold | hnew
    · exact (h.last node hold).trans hlast
    · exact (hlater node hnew).le
  · rcases mem_append.mp hin with hleft | hheap
    · exact (h.origin node (mem_append_left _ hleft)).imp_left (mem_append_left _)
    · rcases mem_append.mp (hperm.mem_iff.mp hheap) with hold | hnew
      · exact (h.origin node (mem_append_right _ hold)).imp_left (mem_append_left _)
      · exact .inl (mem_append_right _ hnew)

theorem reanalyzeMessages_spec {addr : Nat} (hadmits : w.Admits (.reanalyzeMessages addr))
    (hcounted : w.Counted (.reanalyzeMessages addr)) :
    ∃ w', w.apply (.reanalyzeMessages addr) = .ok w' ∧ w'.Inv := by
  obtain ⟨messages, hlookup⟩ := Option.isSome_iff_exists.mp hadmits
  rw [Counted, hlookup, Option.getD_some] at hcounted
  obtain ⟨hsmall, hqueues⟩ := hcounted
  obtain ⟨v, counter, hfold, hkeyed, hperm⟩ := h.keyed.unstall w.sys h.consumer hsmall hqueues
  have hfresh := h.fresh (fun x hx => by rw [time_unstalled hx]; omega) hqueues.1
  have hpairwise : (unstalled w.sys w.buffer.msgCounter messages).Pairwise (·.key < ·.key) := by
    refine hqueues.2.imp_of_mem fun {x y} hx hy hlt => ?_
    rw [key, key, Prod.Lex.toLex_lt_toLex]
    exact .inr ⟨(time_unstalled hx).trans (time_unstalled hy).symm, hlt⟩
  have hmem : (addr, messages) ∈ w.buffer.stallMsgMap := by
    obtain ⟨l1, l2, heq, -⟩ := lookup_eq_some_iff.mp hlookup
    rw [heq]
    simp
  have happly : w.buffer.apply w.sys (.reanalyzeMessages addr) = .ok { w.buffer with
      prioHeap := v, msgCounter := counter,
        stallMsgMap := w.buffer.stallMsgMap.filter (·.1 ≠ addr) } := by
    rw [MessageBuffer.apply, MessageBuffer.reanalyzeMessages, hlookup]
    exact bind_eq_ok.mpr ⟨messages, rfl, bind_eq_ok.mpr ⟨_, hfold, rfl⟩⟩
  have hnote : w.note (.reanalyzeMessages addr) = { w with
      batches := w.batches ++ [unstalled w.sys w.buffer.msgCounter messages] } := by
    rw [note, hlookup]
    rfl
  have hback : Streamed key w.left v.toList
      (unstalled w.sys w.buffer.msgCounter messages) :=
    (Streamed.nil : Streamed key w.left w.buffer.prioHeap.toList []).push
      (fun y => by rw [hperm.mem_iff, mem_append]) (fun x hx => (hfresh x hx).1) hpairwise nofun
  refine ⟨_, bind_eq_ok.mpr ⟨_, happly, rfl⟩, ?_⟩
  rw [hnote]
  exact { h with
    keyed := { hkeyed with }
    arrivals := streamed_of_fresh h.arrivals hperm hfresh
    batches := fun batch hbatch => by
      rcases mem_append.mp hbatch with hold | hnew
      · exact streamed_of_fresh (h.batches batch hold) hperm hfresh
      · rw [mem_singleton.mp hnew]
        exact hback
    apart := apart_of_fresh h.apart hperm hfresh
    aside := fun p hp => h.aside p (mem_of_mem_filter hp)
    original := fun batch hbatch => by
      rcases mem_append.mp hbatch with hold | hnew
      · exact h.original batch hold
      · rw [mem_singleton.mp hnew, msg_unstalled]
        exact h.aside _ hmem
    origin := fun node hin => by
      rcases mem_append.mp hin with hleft | hheap
      · exact (h.origin node (mem_append_left _ hleft)).imp_right
          fun ⟨batch, hbatch, hin⟩ => ⟨batch, mem_append_left _ hbatch, hin⟩
      · rcases mem_append.mp (hperm.mem_iff.mp hheap) with hold | hnew
        · exact (h.origin node (mem_append_right _ hold)).imp_right
            fun ⟨batch, hbatch, hin⟩ => ⟨batch, mem_append_left _ hbatch, hin⟩
        · exact .inr ⟨_, mem_append_right _ (mem_singleton_self _), hnew⟩ }

theorem apply_spec (hadmits : w.Admits e) (hcounted : w.Counted e) :
    ∃ w', w.apply e = .ok w' ∧ w'.Inv := by
  cases e with
  | enqueue message delta random => exact enqueue_spec h hadmits hcounted
  | dequeue => exact dequeue_spec h hadmits
  | stallMessage addr => exact stallMessage_spec h hadmits
  | reanalyzeMessages addr => exact reanalyzeMessages_spec h hadmits hcounted
  | areNSlotsAvailable n => exact ⟨w, rfl, h⟩
  | clearStats => exact ⟨_, rfl, { h with keyed := { h.keyed with } }⟩
  | cycle sys =>
    exact ⟨_, rfl, { h with
      fixed := hadmits.2, past := fun node hnode => (h.past node hnode).trans hadmits.1 }⟩
  | recycle | reanalyzeAllMessages => exact hadmits.elim

theorem Inv.fifo : w.Fifo where
  arrivals := h.fifo_arrivals
  batches _ := h.fifo_batches
  original := h.original
  first := (h.stalled.filter _).trans h.arrivals.isPrefix.sublist
  distinct := by
    refine List.Nodup.of_map (fun p => toLex (p.1, p.2.toNat)) ?_
    rw [map_map]
    exact h.keyed.distinct
  serves _ hadmits hcounted := (apply_spec h hadmits hcounted).imp fun _ => And.left

end

end Events

/-- An ordered buffer whose counters do not fall back among messages for the same time is
FIFO. -/
theorem run_fifo {sys : RubySystem} {params : BufferParams}
    {es : List MessageBufferEvent} {w : FifoWorld} (hstrict : params.strictFifo = true)
    (hset : params.orderingSet = true) (hconsumer : params.consumer = true)
    (hfixed : Fixed sys params)
    (h : Runs (fun w e w' => Step w e w' ∧ w.Counted e) (create sys params) es w) :
    w.Fifo := by
  refine (h.invariant (inv_create hstrict hset hconsumer hfixed) fun w e w' hw hs => ?_).fifo
  exact of_returns (apply_spec hw hs.1.1 hs.2) hs.1.2

instance (sys : RubySystem) (params : BufferParams) : Decidable (Fixed sys params) :=
  inferInstanceAs (Decidable (_ ∨ _))

instance (w : FifoWorld) (e : MessageBufferEvent) : Decidable (w.Admits e) := by
  rcases e <;> unfold Admits <;> infer_instance

instance (w : FifoWorld) (e : MessageBufferEvent) : Decidable (w.Counted e) := by
  rcases e <;> unfold Counted <;> infer_instance

/-- The counter is reset while messages are in the heap: a message for the same cycle that
comes later is dequeued before them, or has the same counter and the comparison stops. -/
theorem clearStats_reorders :
    (∃ w, Runs Step (create ⟨0, false, false, 6⟩ {})
      [.enqueue ⟨0, 0, 0⟩ 1 1, .enqueue ⟨1, 0, 0⟩ 2 1, .clearStats, .enqueue ⟨2, 0, 0⟩ 2 1,
        .cycle ⟨2, false, false, 6⟩, .dequeue, .dequeue] w ∧
      w.arrivals.map (·.msg.id) = [0, 1, 2] ∧ w.dequeued.map (·.msg.id) = [0, 2] ∧ w.stalled = []) ∧
    ∃ w, Runs Step (create ⟨0, false, false, 6⟩ {}) [.enqueue ⟨0, 0, 0⟩ 1 1, .clearStats] w ∧
      w.Admits (.enqueue ⟨1, 0, 0⟩ 1 1) ∧
      w.buffer.enqueue w.sys ⟨1, 0, 0⟩ 1 1 = .error
        (.assertion "n1.m_msg_counter != n2.m_msg_counter") :=
  ⟨runs_of_play Admits apply (by decide +kernel), runs_of_play Admits apply (by decide +kernel)⟩

theorem run_fifo_stalled :
    ∃ w, Runs (fun w e w' => Step w e w' ∧ w.Counted e) (create ⟨0, false, false, 6⟩ {})
      [.enqueue ⟨0, 0, 0⟩ 1 1, .enqueue ⟨1, 0, 0⟩ 1 1, .enqueue ⟨2, 0, 0⟩ 1 1,
        .cycle ⟨1, false, false, 6⟩, .stallMessage 64, .stallMessage 64, .clearStats,
        .reanalyzeMessages 64, .cycle ⟨2, false, false, 6⟩, .dequeue, .dequeue, .dequeue] w ∧
      w.dequeued.map (·.msg.id) = [2, 0, 1] ∧ w.Fifo :=
  runs_of_play_under Admits apply Counted (by decide +kernel) fun _ => run_fifo rfl rfl rfl (.inl rfl)

end FifoWorld

end Gem5
