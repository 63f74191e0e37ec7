import Gem5.Lib.Run
import Gem5.Mem.Packet

/-!
# Bus layers

`BaseBus::Layer` of `mem/bus.cc`, and what the buses do around it when a packet
arrives. A call that the code makes to a port in the middle of a function is two
steps here, with whatever the ports do in between: `forwarding` is the packet whose
destination has been asked and has not answered, and `retrying` the port in the
midst of being sent a retry. Draining is left out.
-/

namespace Gem5

structure BusParams where
  clock : Nat
  headerCycles : Nat
  width : Nat
  clock_pos : 0 < clock
  width_pos : 0 < width

inductive LayerState
  | idle
  | busy
  | retry
  deriving DecidableEq, Repr

structure Layer (P : Type) where
  state : LayerState := .idle
  retryList : List P := []
  releaseEvent : Option Nat := none

open Lib List Layer

namespace Layer

variable {P : Type}

def occupyLayer (l : Layer P) (curTick untilTick : Nat) : Chk (Layer P) := do
  ensure (l.state != .idle) "state != IDLE"
  ensure (untilTick != 0) "until != 0"
  let event ← scheduleAt l.releaseEvent curTick untilTick
  return { l with releaseEvent := event }

def front (l : Layer P) : Chk P := need l.retryList.head? (.undefined "retryList.front()")

def popFront (l : Layer P) : Chk (Layer P) := do
  let _ ← l.front
  return { l with retryList := l.retryList.tail }

def othersRetry [DecidableEq P] (l : Layer P) (port : P) : Chk Bool :=
  if l.state = .retry then do
    let front ← l.front
    return port != front
  else return false

def tryTiming [DecidableEq P] (l : Layer P) (port : P) : Chk (Layer P × Bool) := do
  let others ← l.othersRetry port
  if l.state = .busy || others then return ({ l with retryList := l.retryList ++ [port] }, false)
  else return ({ l with state := if l.state = .idle then .busy else l.state }, true)

def succeededTiming (l : Layer P) (curTick busyTime : Nat) : Chk (Layer P) := do
  let l ← if l.state = .retry then do
      let l ← l.popFront
      pure { l with state := .busy }
    else pure l
  ensure (l.state == .busy) "state == BUSY"
  l.occupyLayer curTick busyTime

def failedTiming [DecidableEq P] (l : Layer P) (curTick : Nat) (port : P) (busyTime : Nat) :
    Chk (Layer P) := do
  let others ← l.othersRetry port
  let l := if l.state ≠ .retry || others then { l with retryList := l.retryList ++ [port] } else l
  { l with state := .busy }.occupyLayer curTick busyTime

def retryWaiting (l : Layer P) : Chk (Layer P × P) := do
  ensure (!l.retryList.isEmpty) "!retryList.empty()"
  ensure (l.state == .idle) "state == IDLE"
  let port ← l.front
  return ({ l with state := .retry }, port)

def retryWaited (l : Layer P) (params : BusParams) (curTick : Nat) : Chk (Layer P) :=
  if l.state = .retry then do
    let l ← l.popFront
    { l with state := .busy }.occupyLayer curTick
      (wrap64 (clockEdge params.clock curTick 0 + params.clock))
  else return l

def releaseLayer (l : Layer P) : Chk (Layer P × Option P) := do
  ensure (l.state == .busy) "state == BUSY"
  ensure l.releaseEvent.isNone "!releaseEvent.scheduled()"
  let l := { l with state := .idle }
  if l.retryList.isEmpty then return (l, none)
  else
    let (l, port) ← l.retryWaiting
    return (l, some port)

def recvRetry (l : Layer P) : Chk (Layer P × Option P) :=
  if l.retryList.isEmpty then return (l, none)
  else if l.state = .idle then do
    let (l, port) ← l.retryWaiting
    return (l, some port)
  else return (l, none)

def waiters (l : Layer P) : List P := if l.state = .retry then l.retryList.tail else l.retryList

end Layer

/-- When the header and when the whole of a packet that is sent now are through. Ticks are 64 bits
wide, and `numCycles` is an `int`. -/
def calcPacketTiming (params : BusParams) (curTick : Nat) (pkt : Packet) : Nat × Nat :=
  let headerTime := wrap64 (clockEdge params.clock curTick 0 + params.headerCycles * params.clock)
  let numCycles : Int := if pkt.hasData then
      int32 (pkt.size / params.width) + if pkt.size % params.width ≠ 0 then 1 else 0
    else 0
  (headerTime, ((headerTime + numCycles * params.clock) % 2 ^ 64).toNat)

def BusParams.words (params : BusParams) (pkt : Packet) : Nat :=
  if pkt.hasData then (pkt.size + params.width - 1) / params.width else 0

section

variable {params : BusParams} {curTick : Nat} {pkt : Packet}

theorem words_pos (hdata : pkt.hasData = true) (hsize : 0 < pkt.size) : 0 < params.words pkt := by
  rw [BusParams.words, if_pos hdata]
  exact Nat.div_pos (by omega) params.width_pos

theorem words_eq (params : BusParams) (size : Nat) : (size + params.width - 1) / params.width =
    size / params.width + if size % params.width ≠ 0 then 1 else 0 := by
  have hpos := params.width_pos
  have hlt := Nat.mod_lt size hpos
  have hdiv := Nat.div_add_mod' size params.width
  refine Nat.div_eq_of_lt_le ?_ ?_
  all_goals
    simp only [Nat.add_mul, Nat.one_mul]
    split <;> omega

theorem calcPacketTiming_header (hlt : clockEdge params.clock curTick params.headerCycles < 2 ^ 64) :
    (calcPacketTiming params curTick pkt).1 = clockEdge params.clock curTick params.headerCycles := by
  have hedge : clockEdge params.clock curTick 0 + params.headerCycles * params.clock =
      clockEdge params.clock curTick params.headerCycles := by
    rw [clockEdge, clockEdge, Nat.mul_zero, Nat.add_zero, Nat.mul_comm params.headerCycles]
  simp only [calcPacketTiming, hedge]
  exact Nat.mod_eq_of_lt hlt

theorem calcPacketTiming_finish (hsize : pkt.size < 2 ^ 31)
    (hlt : clockEdge params.clock curTick (params.headerCycles + params.words pkt) < 2 ^ 64) :
    (calcPacketTiming params curTick pkt).2 =
      clockEdge params.clock curTick (params.headerCycles + params.words pkt) := by
  have hsplit : clockEdge params.clock curTick (params.headerCycles + params.words pkt) =
      clockEdge params.clock curTick params.headerCycles + params.words pkt * params.clock := by
    rw [clockEdge, clockEdge, Nat.mul_add, Nat.add_assoc, Nat.mul_comm (params.words pkt)]
  have hcycles : (if pkt.hasData then
      int32 (pkt.size / params.width) + if pkt.size % params.width ≠ 0 then 1 else 0 else 0 : Int) =
        (params.words pkt : Int) := by
    rw [BusParams.words, int32_of_lt ((Nat.div_le_self ..).trans_lt hsize), words_eq]
    split_ifs <;> simp
  have hheader : (calcPacketTiming params curTick pkt).1 = _ :=
    calcPacketTiming_header (by rw [hsplit] at hlt; omega)
  simp only [calcPacketTiming] at hheader ⊢
  rw [hcycles, hheader, hsplit]
  rw [hsplit] at hlt
  omega

end

namespace Layer

variable {P : Type} {l : Layer P} {port p : P} {rest : List P} {curTick untilTick : Nat}

theorem waiters_of_ne (hs : l.state ≠ .retry) : l.waiters = l.retryList := if_neg hs

theorem waiters_of_busy (hs : l.state = .busy) : l.waiters = l.retryList :=
  waiters_of_ne (by simp [hs])

theorem waiters_of_retry (hs : l.state = .retry) (hl : l.retryList = p :: rest) :
    l.waiters = rest := by
  rw [waiters, if_pos hs, hl, tail_cons]

theorem popFront_eq (hl : l.retryList = p :: rest) :
    l.popFront = .ok { l with retryList := rest } := by
  simp only [popFront, front, hl, List.head?_cons, need, ok_bind, tail_cons]
  rfl

theorem occupyLayer_eq (hs : l.state ≠ .idle) (hpos : 0 < untilTick) (hle : curTick ≤ untilTick)
    (he : l.releaseEvent = none) : l.occupyLayer curTick untilTick = .ok
    { l with releaseEvent := some untilTick } := by
  have hne : (untilTick != 0) = true := by simpa using hpos.ne'
  have hidle : (l.state != .idle) = true := by simpa using hs
  simp only [occupyLayer, ensure, hne, hidle, he, scheduleAt_none hle, if_true, ok_bind]
  rfl

section

variable [DecidableEq P]

theorem othersRetry_of_ne (hs : l.state ≠ .retry) : l.othersRetry port = .ok false := if_neg hs

theorem othersRetry_of_retry (hs : l.state = .retry) (hl : l.retryList = p :: rest) :
    l.othersRetry port = .ok (port != p) := by
  simp only [othersRetry, hs, front, hl, List.head?_cons, need, if_true, ok_bind]
  rfl

theorem tryTiming_of_idle (hs : l.state = .idle) :
    l.tryTiming port = .ok ({ l with state := .busy }, true) := by
  simp only [tryTiming, othersRetry_of_ne (hs.trans_ne (by simp)), hs, ok_bind]
  rfl

theorem tryTiming_of_busy (hs : l.state = .busy) :
    l.tryTiming port = .ok ({ l with retryList := l.retryList ++ [port] }, false) := by
  simp only [tryTiming, othersRetry_of_ne (hs.trans_ne (by simp)), hs, ok_bind]
  rfl

theorem tryTiming_of_first (hs : l.state = .retry) (hl : l.retryList = port :: rest) :
    l.tryTiming port = .ok (l, true) := by
  simp only [tryTiming, othersRetry_of_retry hs hl, hs, ok_bind, bne_self_eq_false]
  cases l
  cases hs
  rfl

theorem tryTiming_of_other (hs : l.state = .retry) (hl : l.retryList = p :: rest) (hp : port ≠ p) :
    l.tryTiming port = .ok ({ l with retryList := l.retryList ++ [port] }, false) := by
  simp only [tryTiming, othersRetry_of_retry hs hl, ok_bind, bne_iff_ne.mpr hp, Bool.or_true, if_true]
  rfl

end

variable (he : l.releaseEvent = none)
include he

section

variable (hpos : 0 < untilTick) (hle : curTick ≤ untilTick)
include hpos hle

theorem succeededTiming_of_busy (hs : l.state = .busy) :
    l.succeededTiming curTick untilTick = .ok { l with releaseEvent := some untilTick } := by
  obtain ⟨state, retryList, releaseEvent⟩ := l
  cases hs
  exact occupyLayer_eq (by simp) hpos hle he

theorem succeededTiming_of_retry (hs : l.state = .retry) (hl : l.retryList = p :: rest) :
    l.succeededTiming curTick untilTick =
      .ok { l with state := .busy, retryList := rest, releaseEvent := some untilTick } := by
  simp only [succeededTiming, hs, if_true, popFront_eq hl, ensure]
  exact occupyLayer_eq (l := { l with state := .busy, retryList := rest }) (by simp) hpos hle he

theorem failedTiming_of_busy [DecidableEq P] (hs : l.state = .busy) :
    l.failedTiming curTick port untilTick =
      .ok { l with retryList := l.retryList ++ [port], releaseEvent := some untilTick } := by
  obtain ⟨state, retryList, releaseEvent⟩ := l
  cases hs
  exact occupyLayer_eq (l := ⟨.busy, retryList ++ [port], releaseEvent⟩) (by simp) hpos hle he

theorem failedTiming_of_retry [DecidableEq P] (hs : l.state = .retry)
    (hl : l.retryList = port :: rest) :
    l.failedTiming curTick port untilTick = .ok
      { l with state := .busy, releaseEvent := some untilTick } := by
  simp only [failedTiming, othersRetry_of_retry hs hl, ok_bind, hs, bne_self_eq_false]
  exact occupyLayer_eq (l := { l with state := .busy }) (by simp) hpos hle he

end

theorem releaseLayer_nil (hs : l.state = .busy) (hl : l.retryList = []) :
    l.releaseLayer = .ok ({ l with state := .idle }, none) := by
  simp only [releaseLayer, hs, he, hl, ensure]
  rfl

theorem releaseLayer_cons (hs : l.state = .busy) (hl : l.retryList = p :: rest) :
    l.releaseLayer = .ok ({ l with state := .retry }, some p) := by
  simp only [releaseLayer, retryWaiting, front, hs, he, hl, ensure]
  rfl

theorem retryWaited_of_retry (hlt : clockEdge params.clock curTick 1 < 2 ^ 64)
    (hs : l.state = .retry) (hl : l.retryList = p :: rest) :
    l.retryWaited params curTick = .ok { l with
      state := .busy, retryList := rest,
      releaseEvent := some (clockEdge params.clock curTick 1) } := by
  have hedge : wrap64 (clockEdge params.clock curTick 0 + params.clock) =
      clockEdge params.clock curTick 1 := by
    rw [← Nat.mod_eq_of_lt hlt, wrap64, clockEdge, clockEdge, Nat.mul_zero, Nat.add_zero, Nat.mul_one]
  simp only [retryWaited, hs, if_true, popFront_eq hl, hedge]
  exact occupyLayer_eq (l := { l with state := .busy, retryList := rest }) (by simp)
    (clockEdge_pos params.clock_pos (.inl Nat.one_pos)) (le_clockEdge params.clock_pos) he

end Layer

structure Forward (P : Type) where
  port : P
  pkt : Packet
  headerFinishTime : Nat
  packetFinishTime : Nat

def Forward.SentNow {P : Type} (f : Forward P) (params : BusParams) (curTick : Nat) : Prop :=
  (f.headerFinishTime, f.packetFinishTime) = calcPacketTiming params curTick f.pkt

/-- `waiting` are the ports that were refused and not sent a retry since. Ports are
added to `began` when they come to stand on the retry list, and to `ended` when they do
no longer. -/
structure LayerWorld (P : Type) where
  params : BusParams
  layer : Layer P := {}
  curTick : Nat := 0
  forwarding : Option (Forward P) := none
  retrying : Option P := none
  waiting : List P := []
  began : List P := []
  ended : List P := []

/-- `call` is a packet from a port, up to asking its destination, and `accepted` and
`rejected` are the answers of the destination; `recvRetry` is a retry from there. With
`returned` a port is done with the retry it was sent. -/
inductive LayerEvent (P : Type)
  | advance (now : Nat)
  | call (port : P) (pkt : Packet)
  | accepted
  | rejected
  | release
  | recvRetry
  | returned

namespace LayerWorld

variable {P : Type} [DecidableEq P]

def refuse (w : LayerWorld P) (port : P) : LayerWorld P :=
  { w with
    waiting := port :: w.waiting
    began := if port ∈ w.layer.retryList then w.began else w.began ++ [port] }

def setLayer (w : LayerWorld P) (layer : Layer P) : LayerWorld P :=
  { w with layer := layer, ended := w.ended ++ w.layer.retryList.filter (· ∉ layer.retryList) }

def sendRetry (w : LayerWorld P) (port : Option P) : LayerWorld P :=
  match port with
  | none => w
  | some port => { w with retrying := some port, waiting := w.waiting.filter (· ≠ port) }

def apply (w : LayerWorld P) : LayerEvent P → Chk (LayerWorld P)
  | .advance now => return { w with curTick := now }
  | .call port pkt => do
    let (layer, free) ← w.layer.tryTiming port
    if free then
      let (headerFinishTime, packetFinishTime) := calcPacketTiming w.params w.curTick pkt
      return { w.setLayer layer with
        forwarding := some ⟨port, pkt, headerFinishTime, packetFinishTime⟩ }
    else return (w.refuse port).setLayer layer
  | .accepted => do
    let forward ← need w.forwarding (.undefined "nothing is sent")
    let layer ← w.layer.succeededTiming w.curTick forward.packetFinishTime
    return { w.setLayer layer with forwarding := none }
  | .rejected => do
    let forward ← need w.forwarding (.undefined "nothing is sent")
    let layer ← w.layer.failedTiming w.curTick forward.port forward.headerFinishTime
    return { (w.refuse forward.port).setLayer layer with forwarding := none }
  | .release => do
    let (layer, port) ← { w.layer with releaseEvent := none }.releaseLayer
    return (w.setLayer layer).sendRetry port
  | .recvRetry => do
    let (layer, port) ← w.layer.recvRetry
    return (w.setLayer layer).sendRetry port
  | .returned => do
    let layer ← w.layer.retryWaited w.params w.curTick
    return { w.setLayer layer with retrying := none }

def Outside (w : LayerWorld P) : Prop := w.forwarding.isNone ∧ w.retrying.isNone

/-- What the surroundings keep to: a port that waits does not call, nor does one whose
packet is on its way, and events fire on time and one after the other. -/
def Admits (w : LayerWorld P) : LayerEvent P → Prop
  | .advance now => w.Outside ∧ w.curTick ≤ now ∧ ∀ t ∈ w.layer.releaseEvent, now ≤ t
  | .call port _ => port ∉ w.waiting ∧ ∀ f ∈ w.forwarding, f.port ≠ port
  | .accepted => w.forwarding.isSome
  | .rejected => w.forwarding.isSome
  | .release => w.Outside ∧ w.layer.releaseEvent = some w.curTick
  | .recvRetry => True
  | .returned => w.forwarding.isNone ∧ w.retrying.isSome

instance (w : LayerWorld P) : Decidable w.Outside := inferInstanceAs (Decidable (_ ∧ _))

instance (w : LayerWorld P) (e : LayerEvent P) : Decidable (w.Admits e) := by
  rcases e <;> unfold Admits <;> infer_instance

def Step (w : LayerWorld P) (e : LayerEvent P) (w' : LayerWorld P) : Prop :=
  w.Admits e ∧ w.apply e = .ok w'

/-- The layer is never occupied until tick 0, and the times fit into 64 bits. A packet takes its
header cycles and a cycle for each word of data if its destination accepts it, and the header
cycles if not. -/
def Timed (w : LayerWorld P) : LayerEvent P → Prop
  | .accepted => ∀ f ∈ w.forwarding,
      (0 < w.params.headerCycles ∨ 0 < w.curTick ∨ f.pkt.hasData = true ∧ 0 < f.pkt.size) ∧
        f.pkt.size < 2 ^ 31 ∧
        clockEdge w.params.clock w.curTick (w.params.headerCycles + w.params.words f.pkt) < 2 ^ 64
  | .rejected => (0 < w.params.headerCycles ∨ 0 < w.curTick) ∧
      clockEdge w.params.clock w.curTick w.params.headerCycles < 2 ^ 64
  | .returned => clockEdge w.params.clock w.curTick 1 < 2 ^ 64
  | _ => True

instance (w : LayerWorld P) (e : LayerEvent P) : Decidable (w.Timed e) := by
  rcases e <;> unfold Timed <;> infer_instance

/-- Where the layer is: it is idle, it is occupied until a time, it is busy with a packet
that came while it was idle, or it is in a retry. -/
inductive Phase (w : LayerWorld P) : Prop
  | idle (hs : w.layer.state = .idle) (hl : w.layer.retryList = []) (he : w.layer.releaseEvent = none)
      (hf : w.forwarding = none) (hr : w.retrying = none)
  | occupied (t : Nat) (hs : w.layer.state = .busy) (he : w.layer.releaseEvent = some t)
      (ht : w.curTick ≤ t) (hf : w.forwarding = none)
  | forward (f : Forward P) (hs : w.layer.state = .busy) (he : w.layer.releaseEvent = none)
      (hf : w.forwarding = some f) (hr : w.retrying = none) (hport : f.port ∉ w.layer.retryList)
      (htimes : f.SentNow w.params w.curTick)
  | retry (p : P) (rest : List P) (hs : w.layer.state = .retry) (hl : w.layer.retryList = p :: rest)
      (he : w.layer.releaseEvent = none) (hr : w.retrying = some p)
      (hf : ∀ f ∈ w.forwarding, f.port = p ∧ f.SentNow w.params w.curTick)

structure Ordered (l : Layer P) (waiting began ended : List P) : Prop where
  nodup : l.retryList.Nodup
  fifo : began = ended ++ l.retryList
  waiting : ∀ q, q ∈ waiting ↔ q ∈ l.waiters

structure Inv (w : LayerWorld P) : Prop where
  phase : w.Phase
  ordered : Ordered w.layer w.waiting w.began w.ended

def RetriesFirst (w w' : LayerWorld P) : Prop :=
  ∀ p, w.retrying = none → w'.retrying = some p → w'.layer.state = .retry ∧
    w.layer.retryList.head? = some p

omit [DecidableEq P] in
theorem RetriesFirst.of_eq {w w' : LayerWorld P} (h : w'.retrying = w.retrying) : w.RetriesFirst w' :=
  fun p hnone hp => absurd (hnone.symm.trans (h.symm.trans hp)) (by simp)

variable {w w' : LayerWorld P} {e : LayerEvent P} {port p : P} {l l' : Layer P}
  {rest waiting began ended : List P}

namespace Ordered

variable (h : Ordered l waiting began ended)
include h

theorem same (hl : l'.retryList = l.retryList) (hw : l'.waiters = l.waiters) :
    Ordered l' waiting began (ended ++ l.retryList.filter (· ∉ l'.retryList)) := by
  refine ⟨hl ▸ h.nodup, ?_, fun q => hw ▸ h.waiting q⟩
  simp +contextual [hl, h.fifo]

theorem push (hport : port ∉ l.retryList)
    (hl : l'.retryList = l.retryList ++ [port]) (hw : l'.waiters = l.waiters ++ [port]) :
    Ordered l' (port :: waiting) (if port ∈ l.retryList then began else began ++ [port])
      (ended ++ l.retryList.filter (· ∉ l'.retryList)) := by
  refine ⟨?_, ?_, fun q => ?_⟩
  · rw [hl]
    exact h.nodup.append (by simp) (by simpa using hport)
  · simp +contextual [hl, hport, h.fifo]
  · simp [hw, h.waiting, or_comm]

variable (hl : l.retryList = p :: rest)
include hl

theorem pop (hl' : l'.retryList = rest) (hw : l'.waiters = l.waiters) :
    Ordered l' waiting began (ended ++ l.retryList.filter (· ∉ l'.retryList)) := by
  have hnodup := h.nodup
  rw [hl] at hnodup
  obtain ⟨hp, hrest⟩ := nodup_cons.mp hnodup
  refine ⟨hl' ▸ hrest, ?_, fun q => hw ▸ h.waiting q⟩
  simp +contextual [hl, hl', hp, h.fifo]

theorem again (hl' : l'.retryList = p :: rest) (hw : l.waiters = rest) (hw' : l'.waiters = p :: rest) :
    Ordered l' (p :: waiting) (if p ∈ l.retryList then began else began ++ [p])
      (ended ++ l.retryList.filter (· ∉ l'.retryList)) := by
  refine ⟨hl' ▸ hl ▸ h.nodup, ?_, fun q => ?_⟩
  · simp +contextual [hl, hl', h.fifo]
  · simp [hw', h.waiting, hw]

theorem retry (hl' : l'.retryList = p :: rest) (hw : l.waiters = p :: rest) (hw' : l'.waiters = rest) :
    Ordered l' (waiting.filter (· ≠ p)) began (ended ++ l.retryList.filter (· ∉ l'.retryList)) := by
  have hnodup := h.nodup
  rw [hl] at hnodup
  obtain ⟨hp, -⟩ := nodup_cons.mp hnodup
  refine ⟨hl' ▸ hl ▸ h.nodup, ?_, fun q => ?_⟩
  · simp +contextual [hl, hl', h.fifo]
  · simp only [mem_filter, h.waiting, hw, hw', mem_cons, decide_eq_true_eq]
    constructor
    · rintro ⟨rfl | hq, hne⟩
      · exact absurd rfl hne
      · exact hq
    · exact fun hq => ⟨.inr hq, fun hne => hp (hne ▸ hq)⟩

end Ordered

omit [DecidableEq P] in
theorem finish_occupies (ht : w.Timed .accepted) (hf : w.forwarding = some f)
    (hsent : f.SentNow w.params w.curTick) :
    0 < f.packetFinishTime ∧ w.curTick ≤ f.packetFinishTime := by
  obtain ⟨htime, hsize, hlt⟩ := ht f hf
  have hfinish : f.packetFinishTime = _ :=
    (congrArg Prod.snd hsent).trans (calcPacketTiming_finish hsize hlt)
  rw [hfinish]
  refine ⟨clockEdge_pos w.params.clock_pos ?_, le_clockEdge w.params.clock_pos⟩
  rcases htime with hcycles | htick | ⟨hdata, hpos⟩
  · exact .inl (Nat.add_pos_left hcycles _)
  · exact .inr htick
  · exact .inl (Nat.add_pos_right _ (words_pos hdata hpos))

omit [DecidableEq P] in
theorem header_occupies {f : Forward P} (ht : w.Timed .rejected)
    (hsent : f.SentNow w.params w.curTick) :
    0 < f.headerFinishTime ∧ w.curTick ≤ f.headerFinishTime := by
  obtain ⟨htime, hlt⟩ := ht
  have hheader : f.headerFinishTime = _ :=
    (congrArg Prod.fst hsent).trans (calcPacketTiming_header hlt)
  rw [hheader]
  exact ⟨clockEdge_pos w.params.clock_pos htime, le_clockEdge w.params.clock_pos⟩

def StepsWell (w : LayerWorld P) (e : LayerEvent P) : Prop :=
  ∃ w', w.apply e = .ok w' ∧ w'.Inv ∧ w.RetriesFirst w'

section

variable (h : w.Inv)
include h

theorem call_spec (ha : w.Admits (.call port pkt)) : w.StepsWell (.call port pkt) := by
  obtain ⟨hport, hother⟩ := ha
  rw [h.ordered.waiting] at hport
  cases h.phase with
  | idle hs hl he hf hr =>
    refine ⟨_, by simp only [apply, tryTiming_of_idle hs, ok_bind]; rfl, ⟨?_, ?_⟩, ?_⟩
    · exact .forward _ rfl he rfl hr (by simp [setLayer, hl]) rfl
    · exact h.ordered.same rfl (waiters_of_ne (hs.trans_ne nofun)).symm
    · exact .of_eq rfl
  | occupied t hs he ht hf =>
    have hw := waiters_of_busy hs
    refine ⟨_, by simp only [apply, tryTiming_of_busy hs, ok_bind]; rfl, ⟨?_, ?_⟩, ?_⟩
    · exact .occupied t hs he ht hf
    · exact h.ordered.push (hw ▸ hport) rfl (by rw [hw]; exact waiters_of_busy hs)
    · exact .of_eq rfl
  | forward f hs he hf hr hfport htimes =>
    have hw := waiters_of_busy hs
    refine ⟨_, by simp only [apply, tryTiming_of_busy hs, ok_bind]; rfl, ⟨?_, ?_⟩, ?_⟩
    · refine .forward f hs he hf hr ?_ htimes
      simpa [setLayer] using ⟨hfport, hother f hf⟩
    · exact h.ordered.push (hw ▸ hport) rfl (by rw [hw]; exact waiters_of_busy hs)
    · exact .of_eq rfl
  | retry p rest hs hl he hr hf =>
    by_cases hp : port = p
    · subst hp
      refine ⟨_, by simp only [apply, tryTiming_of_first hs hl, ok_bind]; rfl, ⟨?_, ?_⟩, ?_⟩
      · exact .retry port rest hs hl he hr fun f hf => by cases hf; exact ⟨rfl, rfl⟩
      · exact h.ordered.same rfl rfl
      · exact .of_eq rfl
    · have hw : w.layer.waiters = rest := waiters_of_retry hs hl
      refine ⟨_, by simp only [apply, tryTiming_of_other hs hl hp, ok_bind]; rfl, ⟨?_, ?_⟩, ?_⟩
      · exact .retry p (rest ++ [port]) hs (congrArg (· ++ [port]) hl) he hr hf
      · refine h.ordered.push ?_ rfl ?_
        · rw [hl, mem_cons, ← hw]
          exact fun hmem => hmem.elim hp hport
        · rw [hw]
          exact waiters_of_retry hs (congrArg (· ++ [port]) hl)
      · exact .of_eq rfl

theorem accepted_spec (ha : w.Admits .accepted) (ht : w.Timed .accepted) :
    w.StepsWell .accepted := by
  obtain ⟨f, hforward⟩ := Option.isSome_iff_exists.mp ha
  cases h.phase with
  | idle hs hl he hf hr | occupied t hs he ht hf => simp [hf] at hforward
  | forward f' hs he hf hr hport htimes =>
    cases hf.symm.trans hforward
    obtain ⟨hpos, hle⟩ := finish_occupies ht hf htimes
    refine ⟨_, by simp only [apply, hf, need, ok_bind, succeededTiming_of_busy he hpos hle hs]; rfl,
      ⟨?_, ?_⟩, ?_⟩
    · exact .occupied _ hs rfl hle rfl
    · exact h.ordered.same rfl rfl
    · exact .of_eq rfl
  | retry p rest hs hl he hr hf =>
    obtain ⟨hpos, hle⟩ := finish_occupies ht hforward (hf f hforward).2
    refine ⟨_, by simp only [apply, hforward, need, ok_bind,
      succeededTiming_of_retry he hpos hle hs hl]; rfl, ⟨?_, ?_⟩, ?_⟩
    · exact .occupied _ rfl rfl hle rfl
    · exact h.ordered.pop hl rfl (waiters_of_retry hs hl).symm
    · exact .of_eq rfl

theorem rejected_spec (ha : w.Admits .rejected) (ht : w.Timed .rejected) :
    w.StepsWell .rejected := by
  obtain ⟨f, hforward⟩ := Option.isSome_iff_exists.mp ha
  cases h.phase with
  | idle hs hl he hf hr | occupied t hs he ht hf => simp [hf] at hforward
  | forward f' hs he hf hr hport htimes =>
    cases hf.symm.trans hforward
    obtain ⟨hpos, hle⟩ := header_occupies ht htimes
    refine ⟨_, by simp only [apply, hf, need, ok_bind, failedTiming_of_busy he hpos hle hs]; rfl,
      ⟨?_, ?_⟩, ?_⟩
    · exact .occupied _ hs rfl hle rfl
    · refine h.ordered.push hport rfl ?_
      rw [waiters_of_busy hs]
      exact waiters_of_busy hs
    · exact .of_eq rfl
  | retry p rest hs hl he hr hf =>
    obtain ⟨rfl, hsent⟩ := hf f hforward
    obtain ⟨hpos, hle⟩ := header_occupies ht hsent
    refine ⟨_, by simp only [apply, hforward, need, ok_bind,
      failedTiming_of_retry he hpos hle hs hl]; rfl, ⟨?_, ?_⟩, ?_⟩
    · exact .occupied _ rfl rfl hle rfl
    · exact h.ordered.again hl hl (waiters_of_retry hs hl) hl
    · exact .of_eq rfl

theorem release_spec (ha : w.Admits .release) : w.StepsWell .release := by
  obtain ⟨⟨hforward, hretrying⟩, hevent⟩ := ha
  cases h.phase with
  | idle hs hl he hf hr | forward f hs he hf hr hport htimes | retry p rest hs hl he hr hf =>
      simp [he] at hevent
  | occupied t hs he ht hf =>
    have hw := waiters_of_busy hs
    cases hl : w.layer.retryList with
    | nil =>
      have hrelease := releaseLayer_nil (l := { w.layer with releaseEvent := none }) rfl hs hl
      refine ⟨_, by simp only [apply, hrelease, ok_bind]; rfl, ⟨?_, ?_⟩, ?_⟩
      · exact .idle rfl hl rfl hf (Option.isNone_iff_eq_none.mp hretrying)
      · exact h.ordered.same rfl hw.symm
      · exact .of_eq rfl
    | cons p rest =>
      have hrelease := releaseLayer_cons (l := { w.layer with releaseEvent := none }) rfl hs hl
      refine ⟨_, by simp only [apply, hrelease, ok_bind]; rfl, ⟨?_, ?_⟩, ?_⟩
      · refine .retry p rest rfl hl rfl rfl fun f hforward => ?_
        cases hf.symm.trans hforward
      · exact h.ordered.retry hl hl (hw.trans hl) (waiters_of_retry rfl hl)
      · rintro q - hq
        cases hq
        exact ⟨rfl, by rw [hl, List.head?_cons]⟩

theorem recvRetry_spec : w.StepsWell .recvRetry := by
  have hnone : w.layer.recvRetry = .ok (w.layer, none) := by
    unfold recvRetry
    split
    · rfl
    · rename_i hl
      rw [if_neg]
      · rfl
      · intro hs
        cases h.phase with
        | idle _ hnil => simp [hnil] at hl
        | occupied t hs' | forward f hs' | retry p rest hs' => simp [hs'] at hs
  refine ⟨w.setLayer w.layer, by simp only [apply, hnone, ok_bind]; rfl,
    ⟨?_, h.ordered.same rfl rfl⟩, .of_eq rfl⟩
  cases h.phase with
  | idle hs hl he hf hr => exact .idle hs hl he hf hr
  | occupied t hs he ht hf => exact .occupied t hs he ht hf
  | forward f hs he hf hr hport htimes => exact .forward f hs he hf hr hport htimes
  | retry p rest hs hl he hr hf => exact .retry p rest hs hl he hr hf

theorem returned_spec (ha : w.Admits .returned) (ht : w.Timed .returned) :
    w.StepsWell .returned := by
  obtain ⟨hforward, hretrying⟩ := ha
  have hforward := Option.isNone_iff_eq_none.mp hforward
  cases h.phase with
  | idle hs hl he hf hr | forward f hs he hf hr hport htimes => simp [hr] at hretrying
  | occupied t hs he hle hf =>
    have hnothing : w.layer.retryWaited w.params w.curTick = .ok w.layer := by
      rw [retryWaited, if_neg (by simp [hs])]
      rfl
    refine ⟨_, by simp only [apply, hnothing, ok_bind]; rfl, ⟨?_, ?_⟩, fun _ _ h => by cases h⟩
    · exact .occupied t hs he hle hf
    · exact h.ordered.same rfl rfl
  | retry p rest hs hl he hr hf =>
    refine ⟨_, by simp only [apply, retryWaited_of_retry he ht hs hl, ok_bind]; rfl, ⟨?_, ?_⟩,
      fun _ _ h => by cases h⟩
    · exact .occupied _ rfl rfl (le_clockEdge w.params.clock_pos) hforward
    · exact h.ordered.pop hl rfl (waiters_of_retry hs hl).symm

theorem advance_spec (ha : w.Admits (.advance now)) :
    w.StepsWell (.advance now) := by
  obtain ⟨⟨hforward, hretrying⟩, hle, hevent⟩ := ha
  refine ⟨_, rfl, ⟨?_, h.ordered⟩, .of_eq rfl⟩
  cases h.phase with
  | idle hs hl he hf hr => exact .idle hs hl he hf hr
  | occupied t hs he ht hf => exact .occupied t hs he (hevent t he) hf
  | forward f hs he hf hr hport htimes => simp [hf] at hforward
  | retry p rest hs hl he hr hf => simp [hr] at hretrying

theorem apply_spec (ha : w.Admits e) (ht : w.Timed e) : w.StepsWell e := by
  cases e with
  | advance now => exact advance_spec h ha
  | call port pkt => exact call_spec h ha
  | accepted => exact accepted_spec h ha ht
  | rejected => exact rejected_spec h ha ht
  | release => exact release_spec h ha
  | recvRetry => exact recvRetry_spec h
  | returned => exact returned_spec h ha ht

end

def create (P : Type) (params : BusParams) : LayerWorld P := { params := params }

structure Arbitrates (w : LayerWorld P) : Prop where
  idle : w.layer.state = .idle → w.layer.retryList = [] ∧ w.layer.releaseEvent = none
  outside : w.Outside → w.layer.state ≠ .retry ∧
    (w.layer.state = .busy ↔ w.layer.releaseEvent.isSome = true)
  waits : ∀ p ∈ w.waiting, w.layer.retryList.count p = 1
  fifo : w.began = w.ended ++ w.layer.retryList

theorem Inv.arbitrates (h : w.Inv) : w.Arbitrates := by
  refine ⟨fun hs => ?_, fun ⟨hforward, hretrying⟩ => ?_, fun p hp => ?_, h.ordered.fifo⟩
  · cases h.phase with
    | idle _ hl he => exact ⟨hl, he⟩
    | occupied t hs' | forward f hs' | retry p rest hs' => simp [hs'] at hs
  · cases h.phase with
    | idle hs _ he => simp [hs, he]
    | occupied t hs he => simp [hs, he]
    | forward f _ _ hf => simp [hf] at hforward
    | retry p rest _ _ _ hr => simp [hr] at hretrying
  · rw [h.ordered.waiting] at hp
    refine count_eq_one_of_mem h.ordered.nodup ?_
    unfold waiters at hp
    split at hp
    · exact mem_of_mem_tail hp
    · exact hp

def sampleBus (headerCycles : Nat) : BusParams := ⟨500, headerCycles, 8, by decide, by decide⟩

def sampleRead : Packet :=
  { id := 1, cmd := .readReq, req := { paddr := 0, size := 8 }, addr := 0, size := 8 }

end LayerWorld

end Gem5
