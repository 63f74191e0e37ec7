import Gem5.Lib.Run
import Gem5.Lib.StableSort
import Gem5.Mem.Packet

/-!
# Packet queues

`mem/packet_queue.cc`. A packet that is being sent is off the list until the receiver
has answered, and the receiver may have further packets put on the list in the
meantime, so that sending is two steps here. Draining and functional accesses are left
out.
-/

namespace Gem5

def maxTick : Nat := 2 ^ 64 - 1

namespace PacketQueue

structure DeferredPacket where
  tick : Nat
  pkt : Packet
  sendAsSnoop : Bool

end PacketQueue

open Lib List PacketQueue

structure PacketQueue where
  transmitList : List PacketQueue.DeferredPacket := []
  sendEvent : Option Nat := none
  waitingOnRetry : Bool := false

namespace PacketQueue

def deferredPacketReady (q : PacketQueue) (curTick : Nat) : Bool :=
  q.transmitList.head?.any (·.tick ≤ curTick)

def deferredPacketReadyTime (q : PacketQueue) : Nat := q.transmitList.head?.elim maxTick (·.tick)

def schedSendEvent (q : PacketQueue) (curTick tick : Nat) : Chk PacketQueue :=
  if q.waitingOnRetry then do
    ensure q.sendEvent.isNone "!sendEvent.scheduled()"
    return q
  else
    match q.sendEvent with
    | none => do
      let event ← scheduleAt none curTick tick
      return { q with sendEvent := event }
    | some t =>
      if tick < t then do
        ensure (decide (curTick ≤ tick)) "when >= curTick()"
        return { q with sendEvent := some tick }
      else return q

def insertBehind (front : DeferredPacket) (rest : List DeferredPacket) (d : DeferredPacket) :
    List DeferredPacket :=
  if (rest.getLastD front).tick ≤ d.tick then front :: rest ++ [d]
  else front :: (rest.takeWhile (·.tick ≤ d.tick) ++ d :: rest.dropWhile (·.tick ≤ d.tick))

def schedSendTiming (q : PacketQueue) (curTick : Nat) (d : DeferredPacket) : Chk PacketQueue := do
  ensure (decide (curTick ≤ d.tick)) "when >= curTick()"
  ensure (!d.pkt.expressSnoop) "!pkt->isExpressSnoop()"
  match q.transmitList with
  | [] => schedSendEvent { q with transmitList := [d] } curTick d.tick
  | front :: rest =>
    if d.tick < front.tick then
      schedSendEvent { q with transmitList := d :: front :: rest } curTick d.tick
    else return { q with transmitList := insertBehind front rest d }

/-- `trySendTiming` up to the call of `sendTiming`, with the packet that is sent. -/
def trySendTiming (q : PacketQueue) (curTick : Nat) : Chk (PacketQueue × DeferredPacket) := do
  ensure (q.deferredPacketReady curTick) "deferredPacketReady()"
  let d ← need q.transmitList.head? (.undefined "transmitList.front()")
  return ({ q with transmitList := q.transmitList.tail }, d)

def scheduleSend (q : PacketQueue) (curTick time : Nat) : Chk PacketQueue :=
  let nextReady := min q.deferredPacketReadyTime time
  if nextReady ≠ maxTick && q.sendEvent.isNone then do
    let event ← scheduleAt q.sendEvent curTick (max nextReady (curTick + 1))
    return { q with sendEvent := event }
  else return q

def sentTiming (q : PacketQueue) (curTick : Nat) (d : DeferredPacket) (accepted : Bool) :
    Chk PacketQueue := do
  let q := { q with waitingOnRetry := !accepted }
  if q.waitingOnRetry then
    ensure q.sendEvent.isNone "!sendEvent.scheduled()"
    return { q with transmitList := d :: q.transmitList }
  else q.scheduleSend curTick maxTick

def retry (q : PacketQueue) (curTick : Nat) : Chk (PacketQueue × DeferredPacket) := do
  ensure q.waitingOnRetry "waitingOnRetry"
  q.trySendTiming curTick

def processSendEvent (q : PacketQueue) (curTick : Nat) : Chk (PacketQueue × DeferredPacket) := do
  ensure (!q.waitingOnRetry) "!waitingOnRetry"
  q.trySendTiming curTick

end PacketQueue

/-- `sending` is the packet the receiver has been asked to take. `inserted` and
`delivered` are the packets that were put on the list and those that were taken. -/
structure PacketQueueWorld where
  queue : PacketQueue := {}
  curTick : Nat := 0
  sending : Option PacketQueue.DeferredPacket := none
  inserted : List PacketQueue.DeferredPacket := []
  delivered : List PacketQueue.DeferredPacket := []

inductive PacketQueueEvent
  | advance (now : Nat)
  | schedSendTiming (d : PacketQueue.DeferredPacket)
  | processSendEvent
  | retry
  | answered (accepted : Bool)

namespace PacketQueueWorld

def apply (w : PacketQueueWorld) : PacketQueueEvent → Chk PacketQueueWorld
  | .advance now => return { w with curTick := now }
  | .schedSendTiming d => do
    let queue ← w.queue.schedSendTiming w.curTick d
    return { w with queue := queue, inserted := w.inserted ++ [d] }
  | .processSendEvent => do
    let (queue, d) ← { w.queue with sendEvent := none }.processSendEvent w.curTick
    return { w with queue := queue, sending := some d }
  | .retry => do
    let (queue, d) ← w.queue.retry w.curTick
    return { w with queue := queue, sending := some d }
  | .answered accepted => do
    let d ← need w.sending (.undefined "nothing is sent")
    let queue ← w.queue.sentTiming w.curTick d accepted
    return { w with
      queue := queue
      sending := none
      delivered := if accepted then w.delivered ++ [d] else w.delivered }

/-- What the surroundings keep to: packets are for now or later, the event fires on time,
and a retry follows a refusal. While a packet is being sent, all that can happen is that
further packets are put on the list. -/
def Admits (w : PacketQueueWorld) : PacketQueueEvent → Prop
  | .advance now => w.sending.isNone ∧ w.curTick ≤ now ∧ ∀ t ∈ w.queue.sendEvent, now ≤ t
  | .schedSendTiming d => w.curTick ≤ d.tick ∧ d.pkt.expressSnoop = false
  | .processSendEvent => w.sending.isNone ∧ w.queue.sendEvent = some w.curTick
  | .retry => w.sending.isNone ∧ w.queue.waitingOnRetry = true
  | .answered _ => w.sending.isSome

instance (w : PacketQueueWorld) (e : PacketQueueEvent) : Decidable (w.Admits e) := by
  rcases e <;> unfold Admits <;> infer_instance

def Step (w : PacketQueueWorld) (e : PacketQueueEvent) (w' : PacketQueueWorld) : Prop :=
  w.Admits e ∧ w.apply e = .ok w'

/-- A packet is refused only if none came to stand at the front while it was being sent,
and none is for the end of time. -/
def Calm (w : PacketQueueWorld) : PacketQueueEvent → Prop
  | .schedSendTiming d => d.tick < maxTick
  | .answered accepted => accepted = false → w.queue.sendEvent = none
  | _ => True

instance (w : PacketQueueWorld) (e : PacketQueueEvent) : Decidable (w.Calm e) := by
  rcases e <;> unfold Calm <;> infer_instance

def Armed (q : PacketQueue) (curTick : Nat) : Prop :=
  ∃ t front rest, q.sendEvent = some t ∧ q.transmitList = front :: rest ∧
    curTick ≤ t ∧ front.tick ≤ t ∧
    t ≤ max front.tick (curTick + 1)

inductive Phase (w : PacketQueueWorld) : Prop
  | empty (hs : w.sending = none) (hl : w.queue.transmitList = []) (he : w.queue.sendEvent = none)
      (hw : w.queue.waitingOnRetry = false)
  | armed (hs : w.sending = none) (hw : w.queue.waitingOnRetry = false) (ha : Armed w.queue w.curTick)
  | waiting (hs : w.sending = none) (hw : w.queue.waitingOnRetry = true)
      (he : w.queue.sendEvent = none) (front : PacketQueue.DeferredPacket)
      (rest : List PacketQueue.DeferredPacket) (hl : w.queue.transmitList = front :: rest)
      (ht : front.tick ≤ w.curTick)
  | sending (d : PacketQueue.DeferredPacket) (hs : w.sending = some d)
      (he : w.queue.sendEvent = none ∨ w.queue.waitingOnRetry = false ∧ Armed w.queue w.curTick)

structure Inv (w : PacketQueueWorld) : Prop where
  phase : w.Phase
  order : SortedStably PacketQueue.DeferredPacket.tick w.inserted
    (w.delivered ++ w.sending.toList ++ w.queue.transmitList)
  past : ∀ d ∈ w.delivered ++ w.sending.toList, d.tick ≤ w.curTick
  bound : ∀ d ∈ w.sending.toList ++ w.queue.transmitList, d.tick < maxTick

variable {w w' : PacketQueueWorld} {q q' : PacketQueue} {e : PacketQueueEvent}
  {d front : PacketQueue.DeferredPacket} {curTick : Nat}

theorem tick_le_getLastD (hsorted : (front :: rest).Pairwise (·.tick ≤ ·.tick)) :
    ∀ x ∈ front :: rest, x.tick ≤ (rest.getLastD front).tick := by
  induction rest generalizing front with
  | nil => simp
  | cons y rest ih =>
    obtain ⟨hfront, hrest⟩ := List.pairwise_cons.mp hsorted
    simp only [List.getLastD_cons]
    rintro x (_ | ⟨_, hx⟩)
    · exact (hfront y mem_cons_self).trans (ih hrest y mem_cons_self)
    · exact ih hrest x hx

theorem insertBehind_eq (hsorted : (front :: rest).Pairwise (·.tick ≤ ·.tick))
    (h : front.tick ≤ d.tick) :
    PacketQueue.insertBehind front rest d = placeAfter PacketQueue.DeferredPacket.tick d
      (front :: rest) := by
  unfold insertBehind
  split
  · rename_i hlast
    have hall : ∀ x ∈ front :: rest, x.tick ≤ d.tick :=
      fun x hx => (tick_le_getLastD hsorted x hx).trans hlast
    have happend : placeAfter PacketQueue.DeferredPacket.tick d ((front :: rest) ++ []) = _ :=
      placeAfter_append hall
    simpa using happend.symm
  · exact (placeAfter_cons_of_le h).symm

structure Scheduled (q : PacketQueue) (curTick : Nat) (d : PacketQueue.DeferredPacket)
    (q' : PacketQueue) : Prop where
  list : q'.transmitList = placeAfter PacketQueue.DeferredPacket.tick d q.transmitList
  waitingOnRetry : q'.waitingOnRetry = q.waitingOnRetry
  unscheduled : q.waitingOnRetry = true → q.sendEvent = none → q'.sendEvent = none
  armed : q.waitingOnRetry = false → Armed q curTick ∨ q.transmitList = [] → Armed q' curTick
  either : q.waitingOnRetry = false → q.sendEvent = none → q'.sendEvent = none ∨ Armed q' curTick

theorem schedSendEvent_spec (hle : curTick ≤ d.tick)
    (hl : placeAfter PacketQueue.DeferredPacket.tick d q.transmitList = d :: l)
    (he : q.sendEvent = none ∨ q.waitingOnRetry = false ∧ ∃ t ∈ q.sendEvent, d.tick < t) :
    ∃ q', PacketQueue.schedSendEvent { q with transmitList := d :: l } curTick d.tick = .ok q' ∧
      Scheduled q curTick d q' := by
  unfold schedSendEvent
  have harmed : ∀ q' : PacketQueue, q'.transmitList = d :: l → q'.sendEvent = some d.tick →
      Armed q' curTick :=
    fun q' hl he => ⟨d.tick, d, l, he, hl, hle, le_rfl, le_max_left ..⟩
  cases hw : q.waitingOnRetry with
  | true =>
    obtain he | ⟨hfalse, -⟩ := he
    · rw [he]
      exact ⟨_, rfl, hl.symm, hw.symm, fun _ _ => rfl, by simp [hw], by simp [hw]⟩
    · simp [hw] at hfalse
  | false =>
    obtain he | ⟨-, t, ht, hlt⟩ := he
    · rw [he]
      simp only [scheduleAt_none hle, ok_bind]
      exact ⟨_, rfl, hl.symm, hw.symm, by simp [hw], fun _ _ => harmed _ rfl rfl,
        fun _ _ => .inr (harmed _ rfl rfl)⟩
    · rw [Option.mem_def.mp ht]
      simp only [hlt, if_true, hle, decide_true, ensure, ok_bind]
      exact ⟨_, rfl, hl.symm, hw.symm, by simp [hw], fun _ _ => harmed _ rfl rfl,
        fun _ _ => .inr (harmed _ rfl rfl)⟩

theorem schedSendTiming_spec (hsorted : q.transmitList.Pairwise (·.tick ≤ ·.tick))
    (hle : curTick ≤ d.tick) (hexpress : d.pkt.expressSnoop = false)
    (he : q.sendEvent = none ∨ q.waitingOnRetry = false ∧ Armed q curTick) :
    ∃ q', q.schedSendTiming curTick d = .ok q' ∧ Scheduled q curTick d q' := by
  have hchecks : q.schedSendTiming curTick d = (match q.transmitList with
      | [] => schedSendEvent { q with transmitList := [d] } curTick d.tick
      | front :: rest =>
        if d.tick < front.tick then
          schedSendEvent { q with transmitList := d :: front :: rest } curTick d.tick
        else return { q with transmitList := insertBehind front rest d }) := by
    simp [schedSendTiming, hle, hexpress, ensure]
  rw [hchecks]
  cases hl : q.transmitList with
  | nil =>
    refine schedSendEvent_spec hle (by rw [hl]; rfl) (he.imp_right ?_)
    rintro ⟨-, t, front, rest, -, hcons, -⟩
    simp [hl] at hcons
  | cons front rest =>
    dsimp only
    split
    · rename_i hlt
      refine schedSendEvent_spec hle (by rw [hl, placeAfter_cons_of_lt hlt]) (he.imp_right ?_)
      rintro ⟨hw, t, front', rest', ht, hcons, -, hfront, -⟩
      cases hl.symm.trans hcons
      exact ⟨hw, t, ht, hlt.trans_le hfront⟩
    · rename_i hlt
      have hfront : front.tick ≤ d.tick := Nat.not_lt.mp hlt
      rw [hl] at hsorted
      have hlist := insertBehind_eq hsorted hfront
      have hkeep : Armed q curTick →
          Armed { q with transmitList := insertBehind front rest d } curTick := by
        rintro ⟨t, front', rest', ht, hcons, hbounds⟩
        cases hl.symm.trans hcons
        exact ⟨t, front, _, ht, hlist.trans (placeAfter_cons_of_le hfront), hbounds⟩
      refine ⟨_, rfl, hlist.trans (by rw [hl]), rfl, fun _ h => h, fun _ h => ?_, fun _ h => .inl h⟩
      obtain harmed | hnil := h
      · exact hkeep harmed
      · simp [hl] at hnil

section

variable (h : w.Inv)

include h

theorem Inv.sorted : w.queue.transmitList.Pairwise (·.tick ≤ ·.tick) :=
  (List.pairwise_append.mp h.order.sorted).2.1

theorem insert_spec (ha : w.Admits (.schedSendTiming d)) (hc : w.Calm (.schedSendTiming d)) :
    ∃ w', w.apply (.schedSendTiming d) = .ok w' ∧ w'.Inv := by
  obtain ⟨hle, hexpress⟩ := ha
  have he : w.queue.sendEvent = none ∨ w.queue.waitingOnRetry = false ∧ Armed w.queue w.curTick := by
    cases h.phase with
    | empty _ _ he => exact .inl he
    | armed _ hw ha => exact .inr ⟨hw, ha⟩
    | waiting _ _ he => exact .inl he
    | sending _ _ he => exact he
  obtain ⟨q', hq', hsched⟩ := schedSendTiming_spec h.sorted hle hexpress he
  refine ⟨{ w with queue := q', inserted := w.inserted ++ [d] }, by
    simp only [apply, hq', ok_bind]; rfl, ?_, ?_, h.past, fun x hx => ?_⟩
  · cases h.phase with
    | empty hs hl he hw => exact .armed hs (hsched.waitingOnRetry.trans hw) (hsched.armed hw (.inr hl))
    | armed hs hw ha => exact .armed hs (hsched.waitingOnRetry.trans hw) (hsched.armed hw (.inl ha))
    | waiting hs hw he front rest hl ht =>
      refine .waiting hs (hsched.waitingOnRetry.trans hw) (hsched.unscheduled hw he) front
        (placeAfter PacketQueue.DeferredPacket.tick d rest) ?_ ht
      rw [hsched.list, hl, placeAfter_cons_of_le (ht.trans hle)]
    | sending d' hs he =>
      refine .sending d' hs ?_
      cases hw : w.queue.waitingOnRetry with
      | true =>
        refine .inl (hsched.unscheduled hw (he.elim id fun he => ?_))
        exact absurd (hw.symm.trans he.1) (by simp)
      | false =>
        refine he.elim (fun he => (hsched.either hw he).imp_right fun ha => ⟨?_, ha⟩)
          fun he => .inr ⟨?_, ?_⟩
        · exact hsched.waitingOnRetry.trans hw
        · exact hsched.waitingOnRetry.trans hw
        · exact hsched.armed hw (.inl he.2)
  · -- what was sent or is being sent is not later than what is inserted now
    have hplace := h.order.place d
    rw [placeAfter_append fun x hx => (h.past x hx).trans hle, ← hsched.list] at hplace
    exact hplace
  · rw [hsched.list, mem_append, mem_placeAfter] at hx
    obtain hx | rfl | hx := hx
    · exact h.bound x (mem_append_left _ hx)
    · exact hc
    · exact h.bound x (List.mem_append_right _ hx)

omit h in
theorem trySendTiming_eq (hl : q.transmitList = front :: rest) (ht : front.tick ≤ curTick) :
    q.trySendTiming curTick = .ok ({ q with transmitList := rest }, front) := by
  simp only [trySendTiming, deferredPacketReady, hl, List.head?_cons, Option.any_some, ht,
    decide_true, ensure, need, if_true, ok_bind, List.tail_cons]
  rfl

theorem Inv.start (hs : w.sending = none) (hl : w.queue.transmitList = front :: rest)
    (ht : front.tick ≤ w.curTick) (q' : PacketQueue) (hq' : q'.transmitList = rest)
    (he : q'.sendEvent = none) :
    Inv { w with queue := q', sending := some front } := by
  have horder := h.order
  have hpast := h.past
  rw [hs] at horder hpast
  refine ⟨.sending front rfl (.inl he), ?_, fun x hx => ?_, fun x hx => h.bound x ?_⟩
  · simpa [hl, hq'] using horder
  · rcases mem_append.mp hx with hx | hx
    · exact hpast x (by simpa using hx)
    · simp only [Option.toList_some, mem_singleton] at hx
      exact hx ▸ ht
  · simpa [hs, hl, hq'] using hx

theorem process_spec (ha : w.Admits .processSendEvent) :
    ∃ w', w.apply .processSendEvent = .ok w' ∧ w'.Inv := by
  obtain ⟨hsending, hevent⟩ := ha
  cases h.phase with
  | empty _ _ he | waiting _ _ he => simp [he] at hevent
  | sending d hs => simp [hs] at hsending
  | armed hs hw ha =>
    obtain ⟨t, front, rest, ht, hl, -, hfront, -⟩ := ha
    cases ht.symm.trans hevent
    refine ⟨_, ?_, h.start hs hl hfront ⟨rest, none, w.queue.waitingOnRetry⟩ rfl rfl⟩
    simp only [apply, processSendEvent, hw, trySendTiming_eq (q := ⟨_, none, _⟩) hl hfront]
    rfl

theorem retry_spec (ha : w.Admits .retry) : ∃ w', w.apply .retry = .ok w' ∧ w'.Inv := by
  obtain ⟨hsending, hretry⟩ := ha
  cases h.phase with
  | empty _ _ _ hw | armed _ hw => simp [hw] at hretry
  | sending d hs => simp [hs] at hsending
  | waiting hs hw he front rest hl ht =>
    refine ⟨_, ?_, h.start hs hl ht { w.queue with transmitList := rest } rfl he⟩
    simp only [apply, retry, hw, ensure, trySendTiming_eq hl ht, if_true, ok_bind]
    rfl

omit h in
theorem scheduleSend_spec (hbound : ∀ x ∈ q.transmitList, x.tick < maxTick)
    (hw : q.waitingOnRetry = false) (he : q.sendEvent = none ∨ Armed q curTick) :
    ∃ q', q.scheduleSend curTick maxTick = .ok q' ∧ q'.transmitList = q.transmitList ∧
      q'.waitingOnRetry = false ∧
      (q.transmitList = [] ∧ q'.sendEvent = none ∨ Armed q' curTick) := by
  obtain he | harmed := he
  · cases hl : q.transmitList with
    | nil =>
      refine ⟨q, ?_, hl, hw, .inl ⟨rfl, he⟩⟩
      simp only [scheduleSend, deferredPacketReadyTime, hl]
      rfl
    | cons front rest =>
      have hlt : front.tick < maxTick := hbound front (by simp [hl])
      have hready : min q.deferredPacketReadyTime maxTick = front.tick := by
        simp only [deferredPacketReadyTime, hl, List.head?_cons, Option.elim_some]
        exact min_eq_left hlt.le
      have hle : curTick ≤ max front.tick (curTick + 1) := (Nat.le_succ _).trans (le_max_right ..)
      refine ⟨{ q with sendEvent := some (max front.tick (curTick + 1)) }, ?_, hl, hw, .inr ?_⟩
      · simp only [scheduleSend, hready, he, scheduleAt_none hle, ne_eq, hlt.ne, not_false_eq_true,
          decide_true, Option.isNone_none, Bool.and_true, if_true, ok_bind]
        rfl
      · exact ⟨_, front, rest, rfl, hl, hle, le_max_left .., le_rfl⟩
  · refine ⟨q, ?_, rfl, hw, .inr harmed⟩
    obtain ⟨t, front, rest, ht, -⟩ := harmed
    simp only [scheduleSend, ht, Option.isNone_some, Bool.and_false]
    rfl

theorem accepted_spec (ha : w.Admits (.answered true)) :
    ∃ w', w.apply (.answered true) = .ok w' ∧ w'.Inv := by
  obtain ⟨d, hd⟩ := Option.isSome_iff_exists.mp ha
  have he : w.queue.sendEvent = none ∨ w.queue.waitingOnRetry = false ∧ Armed w.queue w.curTick := by
    cases h.phase with
    | empty hs | armed hs | waiting hs => simp [hs] at hd
    | sending _ _ he => exact he
  obtain ⟨q', hq', hlist, hw, hphase⟩ :=
    scheduleSend_spec (q := { w.queue with waitingOnRetry := false })
    (fun x hx => h.bound x (List.mem_append_right _ hx)) rfl (he.imp_right fun he => he.2)
  have horder := h.order
  have hpast := h.past
  rw [hd] at horder hpast
  refine ⟨{ w with queue := q', sending := none, delivered := w.delivered ++ [d] }, ?_, ?_, ?_, ?_, ?_⟩
  · simp only [apply, hd, need, ok_bind, sentTiming, Bool.not_true, hq']
    rfl
  · obtain ⟨hnil, hevent⟩ | harmed := hphase
    · exact .empty rfl (hlist.trans hnil) hevent hw
    · exact .armed rfl hw harmed
  · simpa [hlist] using horder
  · simpa using hpast
  · exact fun x hx => h.bound x (List.mem_append_right _ (hlist ▸ hx))

theorem refused_spec (ha : w.Admits (.answered false)) (hc : w.Calm (.answered false)) :
    ∃ w', w.apply (.answered false) = .ok w' ∧ w'.Inv := by
  obtain ⟨d, hd⟩ := Option.isSome_iff_exists.mp ha
  have he : w.queue.sendEvent = none := hc rfl
  have horder := h.order
  have hpast := h.past
  rw [hd] at horder hpast
  refine ⟨{ w with
    queue := { w.queue with waitingOnRetry := true, transmitList := d :: w.queue.transmitList },
      sending := none },
    ?_, ?_, ?_, ?_, fun x hx => ?_⟩
  · simp only [apply, hd, need, ok_bind, sentTiming, Bool.not_false, he, ensure]
    rfl
  · exact .waiting rfl rfl he d _ rfl (hpast d (by simp))
  · simpa using horder
  · exact fun x hx => hpast x (mem_append_left _ (by simpa using hx))
  · refine h.bound x ?_
    rw [hd]
    exact hx

theorem advance_spec (ha : w.Admits (.advance now)) :
    ∃ w', w.apply (.advance now) = .ok w' ∧ w'.Inv := by
  obtain ⟨hsending, hle, hevent⟩ := ha
  refine ⟨_, rfl, ?_, h.order, fun x hx => (h.past x hx).trans hle, h.bound⟩
  cases h.phase with
  | empty hs hl he hw => exact .empty hs hl he hw
  | waiting hs hw he front rest hl ht => exact .waiting hs hw he front rest hl (ht.trans hle)
  | sending d hs => simp [hs] at hsending
  | armed hs hw ha =>
    obtain ⟨t, front, rest, ht, hl, -, hfront, hmax⟩ := ha
    refine .armed hs hw ⟨t, front, rest, ht, hl, hevent t ht, hfront, hmax.trans ?_⟩
    exact max_le_max le_rfl (Nat.succ_le_succ hle)

theorem apply_spec (ha : w.Admits e) (hc : w.Calm e) : ∃ w', w.apply e = .ok w' ∧ w'.Inv := by
  cases e with
  | advance now => exact advance_spec h ha
  | schedSendTiming d => exact insert_spec h ha hc
  | processSendEvent => exact process_spec h ha
  | retry => exact retry_spec h ha
  | answered accepted =>
    cases accepted with
    | true => exact accepted_spec h ha
    | false => exact refused_spec h ha hc

/-- What was taken, followed by what is being sent and what waits, is what was inserted in
the order of its ticks, and as long as something waits there is something to wait for. -/
structure Delivers (w : PacketQueueWorld) : Prop where
  order : SortedStably PacketQueue.DeferredPacket.tick w.inserted
    (w.delivered ++ w.sending.toList ++ w.queue.transmitList)
  progress : w.sending = none → ∀ front ∈ w.queue.transmitList.head?,
    w.queue.waitingOnRetry = true ∨ ∃ t ∈ w.queue.sendEvent, t ≤ max front.tick (w.curTick + 1)

theorem Inv.delivers : w.Delivers := by
  refine ⟨h.order, fun hsending front hfront => ?_⟩
  cases h.phase with
  | empty _ hl => simp [hl] at hfront
  | waiting _ hw => exact .inl hw
  | sending d hs => simp [hs] at hsending
  | armed _ _ ha =>
    obtain ⟨t, front', rest, ht, hl, -, -, hmax⟩ := ha
    rw [hl] at hfront
    cases hfront
    exact .inr ⟨t, ht, hmax⟩

end

def sampleDeferred (id tick : Nat) : PacketQueue.DeferredPacket where
  tick := tick
  pkt := { id := id, cmd := .readResp, req := { paddr := 0, size := 8 }, addr := 0, size := 8 }
  sendAsSnoop := false

end PacketQueueWorld

end Gem5
