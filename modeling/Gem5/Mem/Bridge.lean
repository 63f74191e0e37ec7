import Gem5.Lib.Run
import Gem5.Mem.Packet

/-!
# The bridge between two buses

`mem/bridge.cc`. Requests taken by the slave port wait in the master port's
transmit list, responses taken by the master port wait in the slave port's.
The two lists are drained in the same way, so that part is written once, as
`SendQueue`; the ports add the credit for responses and the stalled request.

The peers of the bridge are the environment: they hand over requests and
responses, take or refuse what the bridge sends, and retry after a refusal.
-/

namespace Gem5

structure DeferredPacket where
  tick : Nat
  pkt : Packet

structure SendQueue where
  transmitList : List DeferredPacket
  sendEvent : Option Nat

open Lib List SendQueue

namespace SendQueue

def empty : SendQueue := ⟨[], none⟩

def arm (q : SendQueue) (now tick : Nat) : Chk SendQueue :=
  if q.transmitList.isEmpty then do
    let event ← scheduleAt q.sendEvent now tick
    return { q with sendEvent := event }
  else
    return q

def pushBack (q : SendQueue) (pkt : Packet) (tick : Nat) : SendQueue :=
  { q with transmitList := q.transmitList ++ [⟨tick, pkt⟩] }

def head (q : SendQueue) (now : Nat) : Chk Packet :=
  match q.transmitList with
  | [] => .error (.assertion "!transmitList.empty()")
  | d :: _ => do
    ensure (d.tick ≤ now) "tick <= curTick()"
    return d.pkt

def popFront (q : SendQueue) (clock now : Nat) : Chk SendQueue :=
  match q.transmitList.tail with
  | [] => return { q with transmitList := [] }
  | d :: rest => do
    let event ← scheduleAt q.sendEvent now (max d.tick (clockEdge clock now 0))
    return ⟨d :: rest, event⟩

def pkts (q : SendQueue) : List Packet := q.transmitList.map (·.pkt)

end SendQueue

structure BridgeParams where
  clock : Nat
  delay : Nat
  reqQueueLimit : Nat
  respQueueLimit : Nat

structure Bridge where
  masterPort : SendQueue
  slavePort : SendQueue
  outstandingResponses : Nat
  retryReq : Bool

namespace Bridge

def initial : Bridge := ⟨.empty, .empty, 0, false⟩

def respQueueFull (p : BridgeParams) (b : Bridge) : Bool :=
  b.outstandingResponses == p.respQueueLimit

def reqQueueFull (p : BridgeParams) (b : Bridge) : Bool :=
  b.masterPort.transmitList.length == p.reqQueueLimit

/-- A packet whose response comes back through the bridge gets a `RequestState`,
which saves its sender state and source. -/
def saveRequestState (pkt : Packet) : Chk Packet :=
  if !pkt.memInhibit && pkt.needsResponse then do
    ensure pkt.src.isSome "isSrcValid()"
    return { pkt with senderState := .requestState pkt.senderState pkt.src }
  else
    return pkt

def schedTimingReq (p : BridgeParams) (now : Nat) (b : Bridge) (pkt : Packet) (tick : Nat) :
    Chk Bridge := do
  let pkt ← saveRequestState pkt
  let q ← b.masterPort.arm now tick
  ensure (q.transmitList.length != p.reqQueueLimit) "transmitList.size() != reqQueueLimit"
  return { b with masterPort := q.pushBack pkt tick }

def recvTimingReq (p : BridgeParams) (now : Nat) (b : Bridge) (pkt : Packet) :
    Chk (Bridge × Bool) :=
  if b.retryReq then
    return (b, false)
  else if b.reqQueueFull p then
    return ({ b with retryReq := true }, false)
  else if pkt.needsResponse then
    if b.respQueueFull p then
      return ({ b with retryReq := true }, false)
    else do
      ensure (b.outstandingResponses != p.respQueueLimit) "outstandingResponses != respQueueLimit"
      let b := { b with outstandingResponses := b.outstandingResponses + 1, retryReq := false }
      let b ← b.schedTimingReq p now pkt (clockEdge p.clock now p.delay)
      return (b, true)
  else
    return (b, true)

def schedTimingResp (now : Nat) (b : Bridge) (pkt : Packet) (tick : Nat) : Chk Bridge :=
  match pkt.senderState with
  | .requestState origSenderState origSrc => do
    let pkt := { pkt with dest := origSrc, senderState := origSenderState }
    ensure pkt.dest.isSome "pkt->isDestValid()"
    let q ← b.slavePort.arm now tick
    return { b with slavePort := q.pushBack pkt tick }
  | _ => .error (.assertion "req_state != NULL")

def recvTimingResp (p : BridgeParams) (now : Nat) (b : Bridge) (pkt : Packet) : Chk Bridge :=
  b.schedTimingResp now pkt (clockEdge p.clock now p.delay)

/-- `taken` is what the peer's `recvTimingReq` returns. The retry the bridge may
send at the end lets the requesting side offer its request again, as a step of
its own. -/
def masterTrySendTiming (p : BridgeParams) (now : Nat) (b : Bridge) (taken : Bool) :
    Chk (Bridge × Packet) := do
  let pkt ← b.masterPort.head now
  if taken then
    let q ← b.masterPort.popFront p.clock now
    return ({ b with masterPort := q, retryReq := false }, pkt)
  else
    return (b, pkt)

def slaveTrySendTiming (p : BridgeParams) (now : Nat) (b : Bridge) (taken : Bool) :
    Chk (Bridge × Packet) := do
  let pkt ← b.slavePort.head now
  if taken then
    ensure (b.outstandingResponses != 0) "outstandingResponses != 0"
    let q ← b.slavePort.popFront p.clock now
    let b := { b with slavePort := q, outstandingResponses := b.outstandingResponses - 1 }
    return ({ b with retryReq := b.reqQueueFull p && b.retryReq }, pkt)
  else
    return (b, pkt)

end Bridge

inductive BridgeAction
  | recvTimingReq (pkt : Packet)
  | recvTimingResp (k : Nat) (pkt : Packet)
  | sendReq (taken : Bool)
  | retryReq (taken : Bool)
  | sendResp (taken : Bool)
  | retryResp (taken : Bool)
  | wait (ticks : Nat)

/-- The bridge, the clock, and the history: the requests it accepted, those
the memory side took, the responses the requesting side took. `unanswered` are
the taken requests the memory side owes a response, `inhibited` those that
some cache answers past the bridge. -/
structure BridgeWorld where
  now : Nat
  bridge : Bridge
  accepted : List Packet
  sent : List Packet
  answered : List Packet
  unanswered : List Packet
  inhibited : List Packet
  reqRefused : Bool
  respRefused : Bool

namespace BridgeWorld

def initial : BridgeWorld := ⟨0, .initial, [], [], [], [], [], false, false⟩

def offerReq (w : BridgeWorld) (b : Bridge) (pkt : Packet) (taken : Bool) : BridgeWorld :=
  if taken then
    { w with
      bridge := b
      sent := w.sent ++ [pkt]
      unanswered := if pkt.needsResponse && !pkt.memInhibit then w.unanswered ++ [pkt]
        else w.unanswered
      inhibited := if pkt.needsResponse && pkt.memInhibit then w.inhibited ++ [pkt]
        else w.inhibited
      reqRefused := false }
  else
    { w with bridge := b, reqRefused := true }

def offerResp (w : BridgeWorld) (b : Bridge) (pkt : Packet) (taken : Bool) : BridgeWorld :=
  if taken then
    { w with bridge := b, answered := w.answered ++ [pkt], respRefused := false }
  else
    { w with bridge := b, respRefused := true }

def nextReady (q : SendQueue) : Chk Nat :=
  need (q.transmitList.head?.map (·.tick)) (.undefined "transmitList.front()")

def step (p : BridgeParams) (w : BridgeWorld) : BridgeAction → Chk BridgeWorld
  | .recvTimingReq pkt => do
    let (b, result) ← w.bridge.recvTimingReq p w.now pkt
    return { w with bridge := b, accepted := if result then w.accepted ++ [pkt] else w.accepted }
  | .recvTimingResp k pkt => do
    let b ← w.bridge.recvTimingResp p w.now pkt
    return { w with bridge := b, unanswered := w.unanswered.eraseIdx k }
  | .sendReq taken => do
    let b := { w.bridge with masterPort := { w.bridge.masterPort with sendEvent := none } }
    let (b, pkt) ← b.masterTrySendTiming p w.now taken
    return w.offerReq b pkt taken
  | .retryReq taken => do
    let ready ← nextReady w.bridge.masterPort
    if ready ≤ w.now then
      let (b, pkt) ← w.bridge.masterTrySendTiming p w.now taken
      return w.offerReq b pkt taken
    else
      let event ← scheduleAt w.bridge.masterPort.sendEvent w.now ready
      let q := { w.bridge.masterPort with sendEvent := event }
      return { w with bridge := { w.bridge with masterPort := q }, reqRefused := false }
  | .sendResp taken => do
    let b := { w.bridge with slavePort := { w.bridge.slavePort with sendEvent := none } }
    let (b, pkt) ← b.slaveTrySendTiming p w.now taken
    return w.offerResp b pkt taken
  | .retryResp taken => do
    let ready ← nextReady w.bridge.slavePort
    if ready ≤ w.now then
      let (b, pkt) ← w.bridge.slaveTrySendTiming p w.now taken
      return w.offerResp b pkt taken
    else
      let event ← scheduleAt w.bridge.slavePort.sendEvent w.now ready
      let q := { w.bridge.slavePort with sendEvent := event }
      return { w with bridge := { w.bridge with slavePort := q }, respRefused := false }
  | .wait ticks => return { w with now := w.now + ticks }

/-- What the peers may do: a bus has set the source of every request, the
memory side answers a request it took and keeps its sender state, a retry
follows a refusal, an event fires at its tick and time does not pass it. -/
def Allowed (w : BridgeWorld) : BridgeAction → Prop
  | .recvTimingReq pkt => pkt.src.isSome
  | .recvTimingResp k pkt =>
    ∃ q, w.unanswered[k]? = some q ∧ pkt.id = q.id ∧ pkt.senderState = q.senderState
  | .sendReq _ => w.bridge.masterPort.sendEvent = some w.now
  | .retryReq _ => w.reqRefused
  | .sendResp _ => w.bridge.slavePort.sendEvent = some w.now
  | .retryResp _ => w.respRefused
  | .wait ticks =>
    (∀ t, w.bridge.masterPort.sendEvent = some t → w.now + ticks ≤ t) ∧
      ∀ t, w.bridge.slavePort.sendEvent = some t → w.now + ticks ≤ t

def Step (p : BridgeParams) (w : BridgeWorld) (a : BridgeAction) (w' : BridgeWorld) : Prop :=
  w.Allowed a ∧ w.step p a = .ok w'

def due (w : BridgeWorld) : List Packet := w.accepted.filter (·.needsResponse)

/-- Every accepted request was sent once, in the order of acceptance, or waits
in the master port's list; the credit counts the responses still due, and both
bounds hold. -/
structure Forwards (p : BridgeParams) (w : BridgeWorld) : Prop where
  inOrder : w.accepted.map (·.id) = (w.sent ++ w.bridge.masterPort.pkts).map (·.id)
  reqBound : w.bridge.masterPort.transmitList.length ≤ p.reqQueueLimit
  answeredOnce : (w.answered.map (·.id)).Subperm (w.due.map (·.id))
  credit : w.bridge.outstandingResponses + w.answered.length = w.due.length
  respBound : w.bridge.outstandingResponses ≤ p.respQueueLimit

def Queues (p : BridgeParams) (w : BridgeWorld) : BridgeAction → Prop
  | .recvTimingReq pkt => pkt.needsResponse ∨ w.bridge.retryReq ∨ w.bridge.reqQueueFull p
  | _ => True

end BridgeWorld

namespace SendQueue

inductive Live : SendQueue → Nat → Bool → Prop
  | idle : Live ⟨[], none⟩ now false
  | armed : now ≤ t → d.tick ≤ t → Live ⟨d :: rest, some t⟩ now false
  | refused : d.tick ≤ now → Live ⟨d :: rest, none⟩ now true

theorem Live.push (h : Live q now r) (ht : now ≤ tick) (pkt : Packet) :
    ∃ q', q.arm now tick = .ok q' ∧ q'.transmitList = q.transmitList ∧
      Live (q'.pushBack pkt tick) now r := by
  cases h with
  | idle =>
    refine ⟨⟨[], some tick⟩, ?_, rfl, .armed ht (Nat.le_refl _)⟩
    simp [arm, scheduleAt, ht]
  | armed hn hd => exact ⟨_, rfl, rfl, .armed hn hd⟩
  | refused hd => exact ⟨_, rfl, rfl, .refused hd⟩

theorem Live.fire (h : Live q now r) (he : q.sendEvent = some now) :
    r = false ∧ Live { q with sendEvent := none } now true := by
  cases h with
  | idle => cases he
  | armed _ hd =>
    simp only [Option.some.injEq] at he
    exact ⟨rfl, .refused (he ▸ hd)⟩
  | refused _ => cases he

theorem Live.head_eq (h : Live q now true) :
    ∃ d rest, q.transmitList = d :: rest ∧ d.tick ≤ now ∧ q.head now = .ok d.pkt := by
  cases h with
  | refused hd =>
    refine ⟨_, _, rfl, hd, ?_⟩
    simp [head, hd]

theorem Live.popFront_eq (h : Live q now true) (hc : 0 < clock) :
    ∃ q', q.popFront clock now = .ok q' ∧ q'.transmitList = q.transmitList.tail ∧
      Live q' now false := by
  cases h with
  | @refused _ _ rest hd =>
    cases rest with
    | nil => exact ⟨_, rfl, rfl, .idle⟩
    | cons e rest =>
      have hn : now ≤ max e.tick (clockEdge clock now 0) :=
        Nat.le_trans (le_clockEdge hc) (Nat.le_max_right ..)
      refine ⟨_, ?_, rfl, .armed hn (Nat.le_max_left ..)⟩
      simp only [popFront, scheduleAt, tail_cons, hn, decide_true, ensure_true, ok_bind]
      rfl

theorem Live.wait (h : Live q now r) (hw : ∀ t, q.sendEvent = some t → now + n ≤ t) :
    Live q (now + n) r := by
  cases h with
  | idle => exact .idle
  | armed _ hd => exact .armed (hw _ rfl) hd
  | refused hd => exact .refused (Nat.le_trans hd (Nat.le_add_right ..))

@[simp] theorem pkts_pushBack (q : SendQueue) (pkt : Packet) (tick : Nat) :
    (q.pushBack pkt tick).pkts = q.pkts ++ [pkt] := by
  simp [pkts, pushBack]

theorem length_pkts (q : SendQueue) : q.pkts.length = q.transmitList.length :=
  length_map _

end SendQueue

namespace Bridge

def Saved (pkt : Packet) : Prop := ∃ state src, pkt.senderState = .requestState state (some src)

variable {p : BridgeParams} {b : Bridge} {pkt : Packet} {now : Nat} {r : Bool}

theorem saveRequestState_eq (h : pkt.src.isSome) :
    ∃ pkt', saveRequestState pkt = .ok pkt' ∧ pkt'.id = pkt.id ∧ pkt'.cmd = pkt.cmd ∧
      pkt'.memInhibit = pkt.memInhibit ∧ (pkt.needsResponse → ¬pkt.memInhibit → Saved pkt') := by
  unfold saveRequestState
  split
  · obtain ⟨src, hs⟩ := Option.isSome_iff_exists.mp h
    refine ⟨{ pkt with senderState := .requestState pkt.senderState pkt.src }, ?_, rfl, rfl, rfl,
      fun _ _ => ⟨pkt.senderState, src, by simp [hs]⟩⟩
    simp [h]
  · rename_i hcond
    refine ⟨pkt, rfl, rfl, rfl, rfl, fun hn hi => ?_⟩
    simp [hn, hi] at hcond

inductive Arrival (p : BridgeParams) (b : Bridge) (now : Nat) (r : Bool) (pkt : Packet) :
    Bridge → Bool → Prop
  | refused (h : pkt.needsResponse ∨ b.retryReq ∨ b.reqQueueFull p) :
    Arrival p b now r pkt { b with retryReq := true } false
  | queued (hn : pkt.needsResponse) (hreq : b.reqQueueFull p = false)
    (hresp : b.respQueueFull p = false) (hl : q.Live now r)
    (hq : q.pkts = b.masterPort.pkts ++ [pkt']) (hid : pkt'.id = pkt.id)
    (hcmd : pkt'.cmd = pkt.cmd) (hsaved : ¬pkt'.memInhibit → Saved pkt') :
    Arrival p b now r pkt ⟨q, b.slavePort, b.outstandingResponses + 1, false⟩ true
  | dropped (hn : pkt.needsResponse = false) (hretry : b.retryReq = false)
    (hreq : b.reqQueueFull p = false) : Arrival p b now r pkt b true

theorem recvTimingReq_arrival (hl : b.masterPort.Live now r) (hs : pkt.src.isSome)
    (hc : 0 < p.clock) :
    ∃ b' acc, b.recvTimingReq p now pkt = .ok (b', acc) ∧ Arrival p b now r pkt b' acc := by
  unfold recvTimingReq
  cases hretry : b.retryReq with
  | true =>
    refine ⟨_, _, rfl, ?_⟩
    have hb : b = { b with retryReq := true } := by rw [← hretry]
    rw [hb]
    exact .refused (.inr (.inl rfl))
  | false =>
    cases hreq : b.reqQueueFull p with
    | true => exact ⟨_, _, rfl, .refused (.inr (.inr hreq))⟩
    | false =>
      cases hn : pkt.needsResponse with
      | false => exact ⟨_, _, rfl, .dropped hn hretry hreq⟩
      | true =>
        cases hresp : b.respQueueFull p with
        | true => exact ⟨_, _, rfl, .refused (.inl hn)⟩
        | false =>
          obtain ⟨pkt', hsave, hid, hcmd, hinh, hsaved⟩ := saveRequestState_eq hs
          obtain ⟨q, harm, hq, hlive⟩ :=
            hl.push (le_clockEdge hc : now ≤ clockEdge p.clock now p.delay) pkt'
          have hpkts : (q.pushBack pkt' (clockEdge p.clock now p.delay)).pkts =
              b.masterPort.pkts ++ [pkt'] := by
            rw [pkts_pushBack, pkts, hq, pkts]
          refine ⟨_, true, ?_, .queued hn hreq hresp hlive hpkts hid hcmd fun hi => hsaved hn ?_⟩
          · have hne : b.outstandingResponses ≠ p.respQueueLimit := by
              simpa [respQueueFull] using hresp
            have hroom : b.masterPort.transmitList.length ≠ p.reqQueueLimit := by
              simpa [reqQueueFull] using hreq
            simp only [Bool.false_eq_true, if_false, if_true, bne_iff_ne.mpr hne, ensure_true,
              ok_bind, schedTimingReq, hsave, harm, hq, bne_iff_ne.mpr hroom]
            rfl
          · rwa [hinh] at hi

theorem recvTimingResp_eq (hl : b.slavePort.Live now r) (hs : Saved pkt) (hc : 0 < p.clock) :
    ∃ q pkt', b.recvTimingResp p now pkt = .ok { b with slavePort := q } ∧ q.Live now r ∧
      q.pkts = b.slavePort.pkts ++ [pkt'] ∧ pkt'.id = pkt.id := by
  obtain ⟨state, src, hs⟩ := hs
  let pkt' := { pkt with dest := some src, senderState := state }
  obtain ⟨q, harm, hq, hlive⟩ := hl.push (le_clockEdge hc : now ≤ clockEdge p.clock now p.delay) pkt'
  refine ⟨q.pushBack pkt' (clockEdge p.clock now p.delay), pkt', ?_, hlive, ?_, rfl⟩
  · simp only [recvTimingResp, schedTimingResp, hs, Option.isSome_some, ensure_true, ok_bind, harm]
    rfl
  · rw [pkts_pushBack, pkts, hq, pkts]

theorem masterTrySendTiming_refused (hl : b.masterPort.Live now true) :
    ∃ pkt, b.masterTrySendTiming p now false = .ok (b, pkt) := by
  obtain ⟨d, rest, -, -, hd⟩ := hl.head_eq
  exact ⟨d.pkt, by simp only [masterTrySendTiming, hd, ok_bind]; rfl⟩

theorem masterTrySendTiming_taken (hl : b.masterPort.Live now true) (hc : 0 < p.clock) :
    ∃ q pkt, b.masterTrySendTiming p now true = .ok
      ({ b with masterPort := q, retryReq := false }, pkt) ∧
      q.Live now false ∧ b.masterPort.pkts = pkt :: q.pkts := by
  obtain ⟨d, rest, hlist, -, hd⟩ := hl.head_eq
  obtain ⟨q, hpop, hq, hlive⟩ := hl.popFront_eq hc
  refine ⟨q, d.pkt, ?_, hlive, ?_⟩
  · simp only [masterTrySendTiming, hd, ok_bind, if_true, hpop]
    rfl
  · simp [pkts, hq, hlist]

theorem slaveTrySendTiming_refused (hl : b.slavePort.Live now true) :
    ∃ pkt, b.slaveTrySendTiming p now false = .ok (b, pkt) := by
  obtain ⟨d, rest, -, -, hd⟩ := hl.head_eq
  exact ⟨d.pkt, by simp only [slaveTrySendTiming, hd, ok_bind]; rfl⟩

theorem slaveTrySendTiming_taken (hl : b.slavePort.Live now true) (hc : 0 < p.clock)
    (ho : b.slavePort.pkts.length ≤ b.outstandingResponses) :
    ∃ q pkt retry, b.slaveTrySendTiming p now true = .ok
      (⟨b.masterPort, q, b.outstandingResponses - 1, retry⟩, pkt) ∧
      q.Live now false ∧ b.slavePort.pkts = pkt :: q.pkts := by
  obtain ⟨d, rest, hlist, -, hd⟩ := hl.head_eq
  obtain ⟨q, hpop, hq, hlive⟩ := hl.popFront_eq hc
  have hne : b.outstandingResponses ≠ 0 := by
    rw [length_pkts, hlist, length_cons] at ho
    omega
  let c := { b with slavePort := q, outstandingResponses := b.outstandingResponses - 1 }
  refine ⟨q, d.pkt, c.reqQueueFull p && c.retryReq, ?_, hlive, ?_⟩
  · simp only [slaveTrySendTiming, hd, ok_bind, if_true, bne_iff_ne.mpr hne, ensure_true, hpop]
    rfl
  · simp [pkts, hq, hlist]

end Bridge

namespace BridgeWorld

variable {p : BridgeParams} {w w' : BridgeWorld} {a : BridgeAction}

def pending (w : BridgeWorld) : List Nat :=
  (w.bridge.slavePort.pkts ++ w.unanswered ++ w.inhibited ++
    w.bridge.masterPort.pkts.filter (·.needsResponse)).map (·.id)

structure Inv (p : BridgeParams) (w : BridgeWorld) : Prop where
  reqLive : w.bridge.masterPort.Live w.now w.reqRefused
  respLive : w.bridge.slavePort.Live w.now w.respRefused
  reqBound : w.bridge.masterPort.pkts.length ≤ p.reqQueueLimit
  respBound : w.bridge.outstandingResponses ≤ p.respQueueLimit
  balance : (w.due.map (·.id)).Perm (w.answered.map (·.id) ++ w.pending)
  credit : w.bridge.outstandingResponses + w.answered.length = w.due.length
  saved : ∀ pkt ∈ w.unanswered, Bridge.Saved pkt
  queued : ∀ pkt ∈ w.bridge.masterPort.pkts,
    pkt.needsResponse → ¬pkt.memInhibit → Bridge.Saved pkt

def InOrder (w : BridgeWorld) : Prop :=
  w.accepted.map (·.id) = (w.sent ++ w.bridge.masterPort.pkts).map (·.id)

def StepsWell (p : BridgeParams) (w : BridgeWorld) (a : BridgeAction) : Prop :=
  ∃ w', w.step p a = .ok w' ∧ w'.Inv p ∧ (w.InOrder → (w'.InOrder ↔ w.Queues p a))

theorem inv_initial : Inv p initial := by
  refine ⟨.idle, .idle, Nat.zero_le _, Nat.zero_le _, .nil, rfl, ?_, ?_⟩
  · intro pkt h
    cases h
  · intro pkt h
    cases h

section

variable (hc : 0 < p.clock) (h : w.Inv p)
include hc h

theorem stepsWell_recvTimingReq (hs : pkt.src.isSome) : w.StepsWell p (.recvTimingReq pkt) := by
  obtain ⟨b, acc, he, harr⟩ := Bridge.recvTimingReq_arrival h.reqLive hs hc
  refine ⟨_, by simp only [step, he, ok_bind]; rfl, ?_⟩
  cases harr with
  | refused hq =>
    exact ⟨{ h with }, fun ho => ⟨fun _ => hq, fun _ => ho⟩⟩
  | dropped hn hretry hreq =>
    have hdue : (w.accepted ++ [pkt]).filter (·.needsResponse) = w.due := by simp [due, hn]
    refine ⟨{ h with balance := ?_, credit := ?_ }, fun ho => ⟨fun ho' => ?_, fun hq => ?_⟩⟩
    · simp only [due, if_true, hdue]
      exact h.balance
    · simp only [due, if_true, hdue]
      exact h.credit
    · simp only [InOrder, if_true, map_append] at ho ho'
      rw [ho] at ho'
      simpa using congrArg List.length ho'
    · simp [Queues, hn, hretry, hreq] at hq
  | queued hn hreq hresp hl hq hid hcmd hsaved =>
    rename_i pkt' q
    have hn' : pkt'.needsResponse = true := by rw [Packet.needsResponse, hcmd]; exact hn
    have hdue : (w.accepted ++ [pkt]).filter (·.needsResponse) = w.due ++ [pkt] := by
      simp [due, hn]
    refine ⟨⟨hl, h.respLive, ?_, ?_, ?_, ?_, h.saved, ?_⟩, fun ho => ⟨fun _ => .inl hn, fun _ => ?_⟩⟩
    · have := h.reqBound
      simp only [Bridge.reqQueueFull, beq_eq_false_iff_ne, ← length_pkts] at hreq
      simp only [hq, length_append, length_singleton]
      omega
    · have := h.respBound
      simp only [Bridge.respQueueFull, beq_eq_false_iff_ne] at hresp
      simp only
      omega
    · have hb := h.balance.append_right [pkt.id]
      simp only [due, if_true, hdue, pending, hq] at hb ⊢
      simpa [hn', hid] using hb
    · have := h.credit
      simp only [due, if_true, hdue, length_append, length_singleton] at this ⊢
      omega
    · intro pk hmem
      rw [hq, mem_append, mem_singleton] at hmem
      rcases hmem with hmem | rfl
      · exact h.queued pk hmem
      · exact fun _ => hsaved
    · simp only [InOrder, if_true, map_append, hq, ← append_assoc] at ho ⊢
      rw [ho]
      simp [hid]

theorem stepsWell_recvTimingResp
    (ha : w.Allowed (.recvTimingResp k pkt)) : w.StepsWell p (.recvTimingResp k pkt) := by
  obtain ⟨u, hu, hid, hstate⟩ := ha
  obtain ⟨state, src, hs⟩ := h.saved u (mem_of_getElem? hu)
  obtain ⟨q, pkt', he, hl, hq, hid'⟩ :=
    Bridge.recvTimingResp_eq h.respLive ⟨state, src, hstate.trans hs⟩ hc
  refine ⟨{ w with bridge := { w.bridge with slavePort := q }, unanswered := w.unanswered.eraseIdx k },
    by simp only [step, he, ok_bind]; rfl, ?_, fun ho => ⟨fun _ => trivial, fun _ => ho⟩⟩
  refine { h with respLive := hl, balance := ?_, saved := ?_ }
  · have hb := h.balance
    obtain ⟨hk, rfl⟩ := List.getElem?_eq_some_iff.mp hu
    have hperm := (getElem_cons_eraseIdx_perm hk).map fun u : Packet => u.id
    simp only [due, pending, hq, map_append, map_cons, map_nil, hid', hid] at hb ⊢
    refine hb.trans (perm_iff_count.mpr fun i => ?_)
    have hi := hperm.count_eq i
    simp only [map_cons, count_append, count_cons, count_nil] at hi ⊢
    omega
  · intro pk hmem
    exact h.saved pk (mem_of_mem_eraseIdx hmem)

omit hc h in
theorem nextReady_of_live {q : SendQueue} {now : Nat} (hl : q.Live now true) :
    ∃ ready, nextReady q = .ok ready ∧ ready ≤ now := by
  obtain ⟨d, rest, hlist, hd, -⟩ := hl.head_eq
  exact ⟨d.tick, by simp [nextReady, hlist, need], hd⟩

theorem stepsWell_retryReq (ha : w.reqRefused = true) (taken : Bool) :
    w.StepsWell p (.retryReq taken) := by
  have hl := h.reqLive
  rw [ha] at hl
  obtain ⟨ready, hr, hd⟩ := nextReady_of_live hl
  cases taken with
  | false =>
    obtain ⟨pkt, he⟩ := Bridge.masterTrySendTiming_refused (p := p) hl
    refine ⟨{ w with reqRefused := true }, ?_, ?_, fun ho => ⟨fun _ => trivial, fun _ => ho⟩⟩
    · simp only [step, hr, ok_bind, hd, if_true, he]
      rfl
    · exact { h with reqLive := hl }
  | true =>
    obtain ⟨q, pkt, he, hlive, hq⟩ := Bridge.masterTrySendTiming_taken hl hc
    refine ⟨_, by simp only [step, hr, ok_bind, hd, if_true, he]; rfl, ?_, fun ho => ?_⟩
    · simp only [offerReq, if_true]
      refine ⟨hlive, h.respLive, ?_, h.respBound, ?_, h.credit, ?_, ?_⟩
      · have := h.reqBound
        rw [hq, length_cons] at this
        exact Nat.le_of_succ_le this
      · have hb := h.balance
        simp only [due, pending, hq] at hb ⊢
        refine hb.trans (perm_iff_count.mpr fun i => ?_)
        cases hn : pkt.needsResponse <;> cases hi : pkt.memInhibit <;>
          simp [hn, count_cons]
        all_goals omega
      · intro pk hmem
        have hpkt := h.queued pkt (hq ▸ mem_cons_self)
        split at hmem
        · rename_i hn
          simp only [Bool.and_eq_true, Bool.not_eq_true'] at hn
          rcases mem_append.mp hmem with hmem | hmem
          · exact h.saved pk hmem
          · rw [mem_singleton.mp hmem]
            exact hpkt hn.1 (by simp [hn.2])
        · exact h.saved pk hmem
      · intro pk hmem
        exact h.queued pk (hq ▸ mem_cons_of_mem _ hmem)
    · refine ⟨fun _ => trivial, fun _ => ?_⟩
      simp only [InOrder, offerReq, if_true, hq] at ho ⊢
      simpa using ho

omit hc in
theorem Inv.slavePort_le : w.bridge.slavePort.pkts.length ≤ w.bridge.outstandingResponses := by
  have hlen := h.balance.length_eq
  have hcredit := h.credit
  simp only [pending, length_map, length_append] at hlen
  omega

theorem stepsWell_retryResp (ha : w.respRefused = true) (taken : Bool) :
    w.StepsWell p (.retryResp taken) := by
  have hl := h.respLive
  rw [ha] at hl
  obtain ⟨ready, hr, hd⟩ := nextReady_of_live hl
  cases taken with
  | false =>
    obtain ⟨pkt, he⟩ := Bridge.slaveTrySendTiming_refused (p := p) hl
    refine ⟨{ w with respRefused := true }, ?_, ?_, fun ho => ⟨fun _ => trivial, fun _ => ho⟩⟩
    · simp only [step, hr, ok_bind, hd, if_true, he]
      rfl
    · exact { h with respLive := hl }
  | true =>
    obtain ⟨q, pkt, retry, he, hlive, hq⟩ := Bridge.slaveTrySendTiming_taken hl hc h.slavePort_le
    refine ⟨_, by simp only [step, hr, ok_bind, hd, if_true, he]; rfl, ?_,
      fun ho => ⟨fun _ => trivial, fun _ => by exact ho⟩⟩
    simp only [offerResp, if_true]
    have hle := h.slavePort_le
    have hbound := h.respBound
    have hcredit := h.credit
    rw [hq, length_cons] at hle
    refine { h with respLive := hlive, respBound := ?_, balance := ?_, credit := ?_ }
    · simp only
      omega
    · have hb := h.balance
      simp only [due, pending, hq] at hb ⊢
      simpa using hb
    · simp only [due, length_append, length_singleton] at hcredit ⊢
      omega

def fireReq (w : BridgeWorld) : BridgeWorld :=
  let q := { w.bridge.masterPort with sendEvent := none }
  { w with bridge := { w.bridge with masterPort := q }, reqRefused := true }

def fireResp (w : BridgeWorld) : BridgeWorld :=
  let q := { w.bridge.slavePort with sendEvent := none }
  { w with bridge := { w.bridge with slavePort := q }, respRefused := true }

theorem stepsWell_sendReq (ha : w.bridge.masterPort.sendEvent = some w.now) (taken : Bool) :
    w.StepsWell p (.sendReq taken) := by
  have hl := (h.reqLive.fire ha).2
  have hinv : w.fireReq.Inv p := { h with reqLive := hl }
  obtain ⟨ready, hr, hd⟩ := nextReady_of_live (q := w.fireReq.bridge.masterPort) hl
  have hsame : w.step p (.sendReq taken) = w.fireReq.step p (.retryReq taken) := by
    have hd' : ready ≤ w.fireReq.now := hd
    simp only [step, hr, ok_bind, hd', if_true]
    rfl
  unfold StepsWell
  rw [hsame]
  exact stepsWell_retryReq hc hinv rfl taken

theorem stepsWell_sendResp (ha : w.bridge.slavePort.sendEvent = some w.now) (taken : Bool) :
    w.StepsWell p (.sendResp taken) := by
  have hl := (h.respLive.fire ha).2
  have hinv : w.fireResp.Inv p := { h with respLive := hl }
  obtain ⟨ready, hr, hd⟩ := nextReady_of_live (q := w.fireResp.bridge.slavePort) hl
  have hsame : w.step p (.sendResp taken) = w.fireResp.step p (.retryResp taken) := by
    have hd' : ready ≤ w.fireResp.now := hd
    simp only [step, hr, ok_bind, hd', if_true]
    rfl
  unfold StepsWell
  rw [hsame]
  exact stepsWell_retryResp hc hinv rfl taken

theorem stepsWell (ha : w.Allowed a) : w.StepsWell p a := by
  cases a with
  | recvTimingReq pkt => exact stepsWell_recvTimingReq hc h ha
  | recvTimingResp k pkt => exact stepsWell_recvTimingResp hc h ha
  | sendReq taken => exact stepsWell_sendReq hc h ha taken
  | retryReq taken => exact stepsWell_retryReq hc h ha taken
  | sendResp taken => exact stepsWell_sendResp hc h ha taken
  | retryResp taken => exact stepsWell_retryResp hc h ha taken
  | wait ticks =>
    refine ⟨_, rfl, ?_, fun ho => ⟨fun _ => trivial, fun _ => ho⟩⟩
    exact { h with reqLive := h.reqLive.wait ha.1, respLive := h.respLive.wait ha.2 }

end

theorem Inv.forwards (h : w.Inv p) (ho : w.InOrder) : w.Forwards p where
  inOrder := ho
  reqBound := w.bridge.masterPort.length_pkts ▸ h.reqBound
  answeredOnce := (sublist_append_left _ _).subperm.trans h.balance.symm.subperm
  credit := h.credit
  respBound := h.respBound

def samplePacket (cmd : MemCmd) : Packet where
  id := 7
  cmd := cmd
  req := { paddr := 0, size := 64 }
  addr := 0
  size := 64
  src := some 0

/-- A run whose arrivals all `Queues` forwards every accepted request, and the
next step keeps doing so exactly if it does too. -/
theorem run_forwards (hc : 0 < p.clock)
    (h : Runs (fun w a w' => Step p w a w' ∧ w.Queues p a) initial as w) :
    w.Forwards p ∧ ∀ a w', Step p w a w' → (w'.Forwards p ↔ w.Queues p a) := by
  have hinv : w.Inv p ∧ w.InOrder := by
    refine h.invariant (P := fun w => w.Inv p ∧ w.InOrder) ⟨inv_initial, rfl⟩ ?_
    intro t a u ht hu
    obtain ⟨hu', hord⟩ := of_returns (stepsWell hc ht.1 hu.1.1) hu.1.2
    exact ⟨hu', (hord ht.2).mpr hu.2⟩
  refine ⟨hinv.1.forwards hinv.2, fun a w' hs => ?_⟩
  obtain ⟨hu, hord⟩ := of_returns (stepsWell hc hinv.1 hs.1) hs.2
  exact ⟨fun hf => (hord hinv.2).mp hf.inOrder, fun hq => hu.forwards ((hord hinv.2).mpr hq)⟩

/-- A writeback needs no response: with both lists empty the bridge accepts it
and forgets it. -/
theorem not_forwards_writeback :
    ∃ w, Runs (Step ⟨1, 0, 1, 1⟩) initial [.recvTimingReq (samplePacket .writeback)] w ∧
      w.accepted.map (·.id) = [7] ∧ w.sent.map (·.id) = [] ∧
      w.bridge.masterPort.transmitList.length = 0 ∧ ¬w.Forwards ⟨1, 0, 1, 1⟩ := by
  refine ⟨_, .single ⟨rfl, rfl⟩, rfl, rfl, rfl, fun h => ?_⟩
  have horder := congrArg List.length h.inOrder
  exact absurd horder (by decide)

theorem run_forwards_read :
    ∃ as w, Runs (fun w a w' => Step ⟨1, 0, 1, 1⟩ w a w' ∧ w.Queues ⟨1, 0, 1, 1⟩ a) initial as w ∧
      w.answered.map (·.id) = [7] ∧ w.Forwards ⟨1, 0, 1, 1⟩ := by
  have h1 : Runs (fun w a w' => Step ⟨1, 0, 1, 1⟩ w a w' ∧ w.Queues ⟨1, 0, 1, 1⟩ a) initial
      [.recvTimingReq (samplePacket .readReq)] _ := .single ⟨⟨rfl, rfl⟩, .inl rfl⟩
  have h2 := h1.snoc (a := BridgeAction.sendReq true) ⟨⟨rfl, rfl⟩, trivial⟩
  have h3 := h2.snoc (a := BridgeAction.recvTimingResp 0 { samplePacket .readResp with
    senderState := .requestState .null (some 0) }) ⟨⟨⟨_, rfl, rfl, rfl⟩, rfl⟩, trivial⟩
  have h4 := h3.snoc (a := BridgeAction.sendResp true) ⟨⟨rfl, rfl⟩, trivial⟩
  exact ⟨_, _, h4, rfl, (run_forwards (by decide) h4).1⟩

end BridgeWorld

end Gem5
