import Gem5.Mem.Ruby.MessageBuffer

/-!
# The room in a message buffer

A sender asks for room before it enqueues. The answer is to count the messages that were in
the buffer when the cycle began and those enqueued since, whatever has left it meanwhile.
-/

namespace Gem5

open Lib MessageBuffer

namespace MessageBuffer

variable {b b' : MessageBuffer} {sys : RubySystem} {node : MessageBufferNode} {message : Message}
  {delta random addr : Nat}

theorem popHeap_size {v v' : HeapArray α} (h : v.popHeap greater = .ok v') : v'.size = v.size := by
  obtain ⟨⟨_, _⟩, -, h⟩ := bind_eq_ok.mp h
  obtain ⟨_, -, h⟩ := bind_eq_ok.mp h
  cases h
  rfl

theorem pushHeap_size {v v' : HeapArray α} (h : v.pushHeap greater = .ok v') : v'.size = v.size := by
  obtain ⟨_, -, h⟩ := bind_eq_ok.mp h
  cases h
  rfl

theorem pushNode_eq (h : b.pushNode node = .ok b') :
    ∃ v, v.size = b.prioHeap.size + 1 ∧ b' = { b with prioHeap := v } := by
  obtain ⟨v, hpush, h⟩ := bind_eq_ok.mp h
  cases h
  exact ⟨v, pushHeap_size hpush, rfl⟩

theorem enqueue_eq (h : b.enqueue sys message delta random = .ok b') :
    ∃ v last, v.size = b.prioHeap.size + 1 ∧
      b' = { b.countEnqueue sys with prioHeap := v, lastArrivalTime := last } := by
  replace h := of_guard h
  replace h := of_guard h
  replace h := of_guard h
  replace h := of_guard h
  replace h := of_guard h
  replace h := of_guard h
  obtain ⟨_, hpush, h⟩ := bind_eq_ok.mp h
  obtain ⟨v, hv, rfl⟩ := pushNode_eq hpush
  replace h := of_guard h
  cases h
  exact ⟨v, _, hv, rfl⟩

theorem pop_eq (h : b.pop sys = .ok b') :
    ∃ v, v.size + 1 = b.prioHeap.size ∧ b' = { b.countPop sys with prioHeap := v } := by
  obtain ⟨_, hready, h⟩ := bind_eq_ok.mp h
  obtain ⟨v, hpop, h⟩ := bind_eq_ok.mp h
  cases h
  refine ⟨v.popBack, ?_, rfl⟩
  have hpos : 0 < b.prioHeap.size := by
    have := ensure_eq_ok.mp hready
    simp only [isReady, Bool.and_eq_true, decide_eq_true_eq] at this
    exact this.1
  rw [HeapArray.popBack, popHeap_size hpop]
  exact Nat.sub_add_cancel hpos

theorem recycle_eq (h : b.recycle sys = .ok b') :
    ∃ v, v.size = b.prioHeap.size ∧ b' = { b with prioHeap := v } := by
  replace h := of_guard h
  obtain ⟨_, hpop, h⟩ := bind_eq_ok.mp h
  replace h := of_guard h
  obtain ⟨v, hpush, h⟩ := bind_eq_ok.mp h
  replace h := of_guard h
  cases h
  have hsize := pushHeap_size hpush
  rw [HeapArray.setBack, popHeap_size hpop] at hsize
  exact ⟨v, hsize, rfl⟩

theorem stallMessage_eq (h : b.stallMessage sys addr = .ok b') :
    ∃ v stalled, v.size + 1 = b.prioHeap.size ∧
      b' = { b.countPop sys with prioHeap := v, stallMsgMap := stalled } := by
  replace h := of_guard h
  replace h := of_guard h
  obtain ⟨_, hpop, h⟩ := bind_eq_ok.mp h
  obtain ⟨v, hv, rfl⟩ := pop_eq hpop
  cases h
  exact ⟨v, _, hv, rfl⟩

end MessageBuffer

/-- A buffer in its system. The other fields say what a sender is to know of it. -/
structure CapacityWorld where
  sys : RubySystem
  buffer : MessageBuffer
  sizeAtStart : Nat := 0
  enqueued : Nat := 0
  slotFound : Bool := false
  alwaysFound : Bool := true

namespace CapacityWorld

def create (sys : RubySystem) (params : BufferParams) : CapacityWorld := { sys, buffer := { params } }

def note (w : CapacityWorld) : MessageBufferEvent → CapacityWorld
  | .enqueue .. => { w with
      enqueued := w.enqueued + 1, alwaysFound := w.alwaysFound && w.slotFound, slotFound := false }
  | .areNSlotsAvailable n =>
      { w with slotFound := w.slotFound || (n == 1 && w.buffer.areNSlotsAvailable w.sys n) }
  | .cycle sys =>
    if w.sys.time < sys.time then
      { w with sys, sizeAtStart := w.buffer.prioHeap.size, enqueued := 0, slotFound := false }
    else { w with sys }
  | _ => w

def apply (w : CapacityWorld) (e : MessageBufferEvent) : Chk CapacityWorld := do
  let buffer ← w.buffer.apply w.sys e
  return { w.note e with buffer }

def Admits (w : CapacityWorld) : MessageBufferEvent → Prop
  | .cycle sys => w.sys.time ≤ sys.time
  | _ => True

def Step (w : CapacityWorld) (e : MessageBufferEvent) (w' : CapacityWorld) : Prop :=
  w.Admits e ∧ w.apply e = .ok w'

/-- No message comes back from the stall map, and in a cycle of a bounded buffer no message
is enqueued before the first one leaves. -/
def Counts (w : CapacityWorld) : MessageBufferEvent → Prop
  | .dequeue | .stallMessage _ =>
    w.buffer.params.maxSize.isSome → w.buffer.timeLastTimePop < w.sys.time → w.enqueued = 0
  | .reanalyzeMessages addr => w.buffer.stallMsgMap.lookup addr = some []
  | .reanalyzeAllMessages => w.buffer.stallMsgMap.flatMap (·.2) = []
  | _ => True

structure Accounted (w : CapacityWorld) : Prop where
  size : w.buffer.size = w.buffer.prioHeap.size
  slots : ∀ maxSize, w.buffer.params.maxSize = some maxSize → ∀ n,
    w.buffer.areNSlotsAvailable w.sys n =
      decide ((w.sizeAtStart + w.enqueued : Int) + n.toInt ≤ maxSize)
  bound : ∀ maxSize, w.buffer.params.maxSize = some maxSize → w.alwaysFound →
    w.buffer.prioHeap.size ≤ maxSize

structure Inv (w : CapacityWorld) : Prop where
  size : w.buffer.size = w.buffer.prioHeap.size
  timePop : w.buffer.timeLastTimePop ≤ w.sys.time
  timeEnqueue : w.buffer.timeLastTimeEnqueue ≤ w.sys.time
  noPop : w.buffer.timeLastTimePop < w.sys.time → w.buffer.size = w.sizeAtStart + w.enqueued
  popped : w.buffer.size ≤ w.sizeAtStart + w.enqueued
  atStart : w.buffer.params.maxSize.isSome → w.buffer.timeLastTimePop = w.sys.time →
    w.buffer.sizeAtCycleStart = w.sizeAtStart
  noEnqueue : w.buffer.timeLastTimeEnqueue < w.sys.time → w.enqueued = 0
  enqueued : w.buffer.timeLastTimeEnqueue = w.sys.time → w.buffer.msgsThisCycle = w.enqueued
  slotFound : ∀ maxSize, w.buffer.params.maxSize = some maxSize → w.slotFound →
    w.sizeAtStart + w.enqueued + 1 ≤ maxSize
  bound : ∀ maxSize, w.buffer.params.maxSize = some maxSize → w.alwaysFound → w.buffer.size ≤ maxSize

theorem inv_create (sys : RubySystem) (params : BufferParams) : (create sys params).Inv where
  size := rfl
  timePop := Nat.zero_le _
  timeEnqueue := Nat.zero_le _
  noPop _ := rfl
  popped := le_rfl
  atStart _ _ := rfl
  noEnqueue _ := rfl
  enqueued _ := rfl
  slotFound _ _ := nofun
  bound maxSize _ _ := Int.natCast_nonneg maxSize

section Events

variable {w : CapacityWorld}

section

variable (h : w.Inv)
include h

theorem Inv.areNSlotsAvailable (hmax : w.buffer.params.maxSize = some maxSize) (n : Int32) :
    w.buffer.areNSlotsAvailable w.sys n = decide
      ((w.sizeAtStart + w.enqueued : Int) + n.toInt ≤ maxSize) := by
  have hstart := h.atStart (by simp [hmax])
  have hpop := h.timePop
  have henqueue := h.timeEnqueue
  simp only [MessageBuffer.areNSlotsAvailable, hmax]
  congr 2
  split
  · rw [h.noPop ‹_›]
  · rw [hstart (by omega)]
    split
    · rw [h.noEnqueue ‹_›]
      simp
    · rw [h.enqueued (by omega)]

theorem Inv.accounted : w.Accounted where
  size := h.size
  slots _ hmax := h.areNSlotsAvailable hmax
  bound maxSize hmax hfound := by
    have := h.bound maxSize hmax hfound
    rw [h.size] at this
    exact Int.ofNat_le.mp this

theorem Inv.enqueue (hv : v.size = w.buffer.prioHeap.size + 1)
     :
    Inv { w.note (.enqueue message delta random) with
      buffer := { w.buffer.countEnqueue w.sys with prioHeap := v, lastArrivalTime := last } } := by
  have htime := h.timeEnqueue
  have hsize := h.size
  constructor <;> simp only [note, countEnqueue, hv]
  · simp [hsize]
  · exact h.timePop
  · split <;> omega
  · intro hlt
    rw [h.noPop hlt]
    push_cast
    ring
  · have := h.popped
    push_cast
    linarith
  · exact h.atStart
  · split <;> omega
  · intro heq
    split
    · rw [h.noEnqueue ‹_›]
      rfl
    · rw [if_neg ‹_›] at heq
      rw [h.enqueued heq]
      rfl
  · nofun
  · intro maxSize hmax hfound
    simp only [Bool.and_eq_true] at hfound
    have hle := h.slotFound maxSize hmax hfound.2
    have := h.popped
    omega

theorem Inv.pop (hv : v.size + 1 = w.buffer.prioHeap.size)
    (hcounts : w.buffer.params.maxSize.isSome →
      w.buffer.timeLastTimePop < w.sys.time → w.enqueued = 0) :
    Inv { w with
      buffer := { w.buffer.countPop w.sys with prioHeap := v, stallMsgMap := stalled } } := by
  have htime := h.timePop
  have hsize := h.size
  have hpopped := h.popped
  constructor <;> simp only [countPop]
  · omega
  · split <;> omega
  · exact h.timeEnqueue
  · intro hlt
    split at hlt <;> omega
  · omega
  · intro hmax heq
    split
    · rename_i hlt
      rw [h.noPop hlt, hcounts hmax hlt]
      simp
    · rw [if_neg ‹_›] at heq
      exact h.atStart hmax heq
  · exact h.noEnqueue
  · exact h.enqueued
  · exact h.slotFound
  · intro maxSize hmax hfound
    have := h.bound maxSize hmax hfound
    omega

theorem Inv.keep (hv : v.size = w.buffer.prioHeap.size) :
    Inv { w with
      buffer := { w.buffer with prioHeap := v, stallMsgMap := stalled, msgCounter := counter } } :=
  { h with size := by simpa [hv] using h.size }

theorem Inv.cycle {sys : RubySystem} (hle : w.sys.time ≤ sys.time) : Inv (w.note (.cycle sys)) := by
  have hpop := h.timePop
  have henqueue := h.timeEnqueue
  rw [note]
  split
  · rename_i hlt
    exact { h with
      timePop := by simpa using by omega
      timeEnqueue := by simpa using by omega
      noPop := fun _ => by simpa using h.size
      popped := by simpa using h.size.le
      atStart := fun _ heq => by simp at heq; omega
      noEnqueue := fun _ => rfl
      enqueued := fun heq => by simp at heq; omega
      slotFound := fun _ _ => nofun }
  · have heq : sys.time = w.sys.time := by omega
    exact { h with
      timePop := by simpa [heq] using hpop
      timeEnqueue := by simpa [heq] using henqueue
      noPop := by simpa [heq] using h.noPop
      atStart := by simpa [heq] using h.atStart
      noEnqueue := by simpa [heq] using h.noEnqueue
      enqueued := by simpa [heq] using h.enqueued }

theorem Inv.ask (n : Int32) : Inv (w.note (.areNSlotsAvailable n)) :=
  { h with
    slotFound := fun maxSize hmax hfound => by
      simp only [note, Bool.or_eq_true, Bool.and_eq_true, beq_iff_eq] at hfound hmax
      rcases hfound with hfound | ⟨rfl, hfound⟩
      · exact h.slotFound maxSize hmax hfound
      · rw [h.areNSlotsAvailable hmax] at hfound
        have : (w.sizeAtStart + w.enqueued : Int) + 1 ≤ maxSize := of_decide_eq_true hfound
        simp only [note]
        omega }

theorem step_inv (hstep : Step w e w') (hcounts : w.Counts e) : w'.Inv := by
  obtain ⟨hadmits, happly⟩ := hstep
  obtain ⟨b, hb, hret⟩ := bind_eq_ok.mp happly
  cases hret
  cases e with
  | enqueue message delta random =>
    obtain ⟨v, last, hv, rfl⟩ := enqueue_eq hb
    exact h.enqueue hv
  | dequeue =>
    obtain ⟨v, hv, rfl⟩ := pop_eq hb
    exact h.pop hv hcounts
  | recycle =>
    obtain ⟨v, hv, rfl⟩ := recycle_eq hb
    exact h.keep hv
  | stallMessage addr =>
    obtain ⟨v, stalled, hv, rfl⟩ := stallMessage_eq hb
    exact h.pop hv hcounts
  | reanalyzeMessages addr =>
    have hlookup : w.buffer.stallMsgMap.lookup addr = some [] := hcounts
    simp only [MessageBuffer.apply, MessageBuffer.reanalyzeMessages, hlookup, need, ok_bind,
      List.foldlM_nil] at hb
    cases hb
    exact h.keep rfl
  | reanalyzeAllMessages =>
    have hnone : w.buffer.stallMsgMap.flatMap (·.2) = [] := hcounts
    simp only [MessageBuffer.apply, MessageBuffer.reanalyzeAllMessages, hnone, List.foldlM_nil] at hb
    cases hb
    exact h.keep rfl
  | areNSlotsAvailable n =>
    cases hb
    exact h.ask n
  | clearStats =>
    cases hb
    exact h.keep rfl
  | cycle sys =>
    cases hb
    have := h.cycle hadmits
    rw [note] at this ⊢
    split <;> simp_all

end

end Events

instance (w : CapacityWorld) (e : MessageBufferEvent) : Decidable (w.Admits e) := by
  rcases e <;> unfold Admits <;> infer_instance

instance (w : CapacityWorld) (e : MessageBufferEvent) : Decidable (w.Counts e) := by
  rcases e <;> unfold Counts <;> infer_instance

end CapacityWorld

end Gem5
