import Gem5.Lib.Run

/-!
# Data accesses of the timing CPU

`cpu/simple/timing.cc`: a load or store is sent to the data cache as one packet or, if it
crosses a line, as two. Each packet can be refused and is sent again at a retry, and each
response comes at a clock edge or is put off to the next one. What the memory system answers
is an argument of the functions that send. A packet is named by its fragment index, with 0
for one that is not split. A response that is refused because another one is put off already
just comes again.
-/

namespace Gem5

open Lib List

inductive TimingStatus
  | running
  | dtbWaitResponse
  | dcacheRetry
  | dcacheWaitResponse
  deriving DecidableEq

/-- A translated load or store: `doAccess` is what `handleLockedWrite` says of a store that is
not split. -/
structure DataAccess where
  read : Bool
  split : Bool
  noAccess : Bool := false
  mmappedIpr : Bool := false
  doAccess : Bool := true
  deriving DecidableEq

structure DataResponse where
  pkt : Fin 2
  isError : Bool := false
  deriving DecidableEq

/-- `fragments` are the indices that are not `NULL`. Beside the CPU's own variables stand what
the memory system accepted and refused, what was answered, and the calls of `completeAcc`. -/
structure TimingCPU where
  access : DataAccess
  status : TimingStatus := .running
  dcachePkt : Option (Fin 2) := none
  outstanding : Nat := 0
  fragments : List (Fin 2) := []
  tickEvent : Option DataResponse := none
  iprEvent : Option (Fin 2) := none
  accepted : List (Fin 2) := []
  owesRetry : Bool := false
  answered : List (Fin 2) := []
  completeAccs : Nat := 0

def DataAccess.packets (a : DataAccess) : List (Fin 2) :=
  if a.noAccess || a.mmappedIpr then [] else if a.split then [0, 1]
  else if a.read || a.doAccess then [0] else []

namespace TimingCPU

section Functions

variable (cpu : TimingCPU) (pkt : Fin 2)

def getPendingFragment : Option (Fin 2) :=
  if 0 ∈ cpu.fragments then some 0 else if 1 ∈ cpu.fragments then some 1 else none

def clearFromParent : TimingCPU :=
  { cpu with fragments := cpu.fragments.filter (· ≠ pkt) }

/-- `handleReadPacket`, and `handleWritePacket` for the packet its callers have just put into
`dcache_pkt`. -/
def handlePacket (accepts : Bool) : TimingCPU × Bool :=
  if cpu.access.mmappedIpr then
    ({ cpu with iprEvent := some pkt, status := .dcacheWaitResponse, dcachePkt := none }, true)
  else if accepts then
    ({ cpu with
      accepted := cpu.accepted ++ [pkt], status := .dcacheWaitResponse, dcachePkt := none }, true)
  else ({ cpu with owesRetry := true, status := .dcacheRetry, dcachePkt := some pkt }, false)

def completeAcc : TimingCPU :=
  { cpu with status := .running, completeAccs := cpu.completeAccs + 1 }

def completeDataAccess (isError : Bool) : Chk TimingCPU := do
  ensure (!isError) "!pkt->isError()"
  ensure (cpu.status == .dcacheWaitResponse || cpu.status == .dtbWaitResponse || cpu.access.noAccess)
    ("_status == DcacheWaitResponse || _status == DTBWaitResponse || " ++
      "pkt->req->getFlags().isSet(Request::NO_ACCESS)")
  if cpu.access.split && !cpu.access.noAccess then
    ensure (cpu.outstanding != 0) "main_send_state->outstanding != 0"
    let cpu := { cpu with outstanding := cpu.outstanding - 1 }
    return if cpu.outstanding != 0 then cpu else cpu.completeAcc
  else return cpu.completeAcc

def sendData (accepts : Bool) : Chk TimingCPU :=
  if cpu.access.noAccess then do
    ensure cpu.dcachePkt.isNone "!dcache_pkt"
    cpu.completeDataAccess false
  else if cpu.access.read || cpu.access.doAccess then return (cpu.handlePacket 0 accepts).1
  else completeDataAccess { cpu with status := .dcacheWaitResponse } false

def sendFragment (accepts : Bool) : TimingCPU × Bool :=
  let (cpu, sent) := cpu.handlePacket pkt accepts
  (if sent then cpu.clearFromParent pkt else cpu, sent)

def sendSplitData (first second : Bool) : Chk TimingCPU := do
  ensure (!cpu.access.mmappedIpr) "!req1->isMmappedIpr() && !req2->isMmappedIpr()"
  if cpu.access.noAccess then
    ensure cpu.dcachePkt.isNone "!dcache_pkt"
    cpu.completeDataAccess false
  else
    let (cpu, sent) := sendFragment { cpu with outstanding := 2, fragments := [0, 1] } 0 first
    return if sent then (cpu.sendFragment 1 second).1 else cpu

def finishTranslation (first second : Bool) : Chk TimingCPU :=
  let cpu := { cpu with status := .running }
  if cpu.access.split then cpu.sendSplitData first second else cpu.sendData first

def process (resp : DataResponse) : Chk TimingCPU :=
  completeDataAccess { cpu with answered := cpu.answered ++ [resp.pkt] } resp.isError

def recvTimingResp (resp : DataResponse) (onEdge : Bool) : Chk TimingCPU :=
  if onEdge then cpu.process resp
  else return { cpu with tickEvent := cpu.tickEvent.or (some resp) }

def resend (first second : Bool) : TimingCPU :=
  if !first then { cpu with owesRetry := true }
  else
    let cpu := { cpu with accepted := cpu.accepted ++ [pkt] }
    if cpu.access.split then
      let cpu := cpu.clearFromParent pkt
      if cpu.getPendingFragment = some 1 then (cpu.sendFragment 1 second).1
      else { cpu with status := .dcacheWaitResponse, dcachePkt := none }
    else { cpu with status := .dcacheWaitResponse, dcachePkt := none }

def recvRetry (first second : Bool) : Chk TimingCPU := do
  let pkt ← need cpu.dcachePkt (.assertion "cpu->dcache_pkt != NULL")
  ensure (cpu.status == .dcacheRetry) "cpu->_status == DcacheRetry"
  return resend { cpu with owesRetry := false } pkt first second

end Functions

end TimingCPU

/-- `initiate` is `readMem` or `writeMem`; `tick` and `ipr` are the CPU's events. -/
inductive TimingEvent
  | initiate (access : DataAccess)
  | finishTranslation (first second : Bool)
  | response (resp : DataResponse) (onEdge : Bool)
  | tick
  | ipr
  | retry (first second : Bool)

namespace TimingCPU

variable {cpu : TimingCPU} {unsent : List (Fin 2)} {pkt : Fin 2} {resp : DataResponse}

def apply (cpu : TimingCPU) : TimingEvent → Chk TimingCPU
  | .initiate access => return { access, status := .dtbWaitResponse }
  | .finishTranslation first second => cpu.finishTranslation first second
  | .response resp onEdge => cpu.recvTimingResp resp onEdge
  | .tick => do
    let resp ← need cpu.tickEvent (.undefined "tickEvent")
    process { cpu with tickEvent := none } resp
  | .ipr => do
    let _ ← need cpu.iprEvent (.undefined "IprEvent")
    completeDataAccess { cpu with iprEvent := none } false
  | .retry first second => cpu.recvRetry first second

/-- Accesses come one after the other, what was accepted and not answered yet can be answered,
and a retry follows a refusal. The parts of a split access are no IPRs. -/
def Admits (cpu : TimingCPU) : TimingEvent → Prop
  | .initiate access => cpu.status = .running ∧ (access.split && access.mmappedIpr) = false
  | .finishTranslation _ _ => cpu.status = .dtbWaitResponse
  | .response resp _ => resp.pkt ∈ cpu.accepted ∧ resp.pkt ∉ cpu.answered ∧
      cpu.tickEvent.map (·.pkt) ≠ some resp.pkt
  | .tick => cpu.tickEvent.isSome
  | .ipr => cpu.iprEvent.isSome
  | .retry _ _ => cpu.owesRetry

/-- No response carries an error, and none is processed while a packet waits for its retry. -/
def AnsweredSent (cpu : TimingCPU) : TimingEvent → Prop
  | .response resp onEdge => resp.isError = false ∧ (onEdge → cpu.status ≠ .dcacheRetry)
  | .tick => cpu.status ≠ .dcacheRetry
  | _ => True

instance (cpu : TimingCPU) : DecidablePred cpu.Admits := fun e => by
  rcases e <;> unfold Admits <;> infer_instance

instance (cpu : TimingCPU) : DecidablePred cpu.AnsweredSent := fun e => by
  rcases e <;> unfold AnsweredSent <;> infer_instance

def create : TimingCPU where
  access := { read := true, split := false, noAccess := true }
  completeAccs := 1

/-- What an access does: each packet is accepted once, and the instruction is completed once,
when all were accepted and answered. -/
structure Exact (cpu : TimingCPU) : Prop where
  accepted : cpu.accepted <+: cpu.access.packets
  answered : cpu.answered.Nodup ∧ cpu.answered ⊆ cpu.accepted
  completeAccs : cpu.completeAccs = if cpu.status = .running then 1 else 0
  all : cpu.status = .running → cpu.accepted = cpu.access.packets ∧ cpu.access.packets ⊆ cpu.answered
  completes : cpu.access.packets ≠ [] → cpu.access.packets ⊆ cpu.answered → cpu.status = .running
  retry : cpu.dcachePkt.isSome ↔ cpu.status = .dcacheRetry

theorem packets_of_split {a : DataAccess} (h : a.noAccess = false ∧ a.mmappedIpr = false)
    (hsplit : a.split = true) :
    a.packets = [0, 1] := by
  simp [DataAccess.packets, h, hsplit]

theorem packets_of_whole {a : DataAccess} (hsplit : a.split = false) :
    a.packets = [] ∨ a.packets = [0] := by
  unfold DataAccess.packets
  rw [hsplit]
  repeat' split
  all_goals simp_all

theorem packets_nodup (a : DataAccess) : a.packets.Nodup := by
  unfold DataAccess.packets
  repeat' split
  all_goals decide

structure Sending (cpu : TimingCPU) (unsent : List (Fin 2)) : Prop where
  access : cpu.access.noAccess = false ∧ cpu.access.mmappedIpr = false
  packets : cpu.access.packets = cpu.accepted ++ unsent
  fragments : cpu.access.split → cpu.fragments = unsent
  answered : cpu.answered.Nodup ∧ cpu.answered ⊆ cpu.accepted
  outstanding : cpu.access.split → cpu.outstanding + cpu.answered.length = 2
  left : cpu.answered.length < cpu.access.packets.length
  tickEvent : ∀ resp ∈ cpu.tickEvent,
    resp.isError = false ∧ resp.pkt ∈ cpu.accepted ∧ resp.pkt ∉ cpu.answered
  iprEvent : cpu.iprEvent = none
  completeAccs : cpu.completeAccs = 0

structure Waiting (cpu : TimingCPU) (pkt : Fin 2) (unsent : List (Fin 2)) :
    Prop extends cpu.Sending (pkt :: unsent) where
  dcachePkt : cpu.dcachePkt = some pkt
  status : cpu.status = .dcacheRetry
  owesRetry : cpu.owesRetry = true

structure Sent (cpu : TimingCPU) (unsent : List (Fin 2)) : Prop extends cpu.Sending unsent where
  dcachePkt : cpu.dcachePkt = none
  status : cpu.status = .dcacheWaitResponse
  owesRetry : cpu.owesRetry = false

structure Quiet (cpu : TimingCPU) (packets : List (Fin 2)) (n : Nat) : Prop where
  whole : (cpu.access.split && cpu.access.mmappedIpr) = false
  dcachePkt : cpu.dcachePkt = none
  tickEvent : cpu.tickEvent = none
  iprEvent : cpu.iprEvent = none
  owesRetry : cpu.owesRetry = false
  accepted : cpu.accepted = packets
  answered : cpu.answered.Nodup ∧ cpu.answered ⊆ packets ∧ packets ⊆ cpu.answered
  completeAccs : cpu.completeAccs = n

inductive Phase (cpu : TimingCPU) : Prop
  | done (h : cpu.Quiet cpu.access.packets 1) (status : cpu.status = .running)
  | translating (h : cpu.Quiet [] 0) (status : cpu.status = .dtbWaitResponse)
  | ipr (h : Quiet { cpu with iprEvent := none } [] 0) (status : cpu.status = .dcacheWaitResponse)
      (packets : cpu.access.packets = []) (split : cpu.access.split = false)
  | waiting (pkt : Fin 2) (unsent : List (Fin 2)) (h : cpu.Waiting pkt unsent)
  | sent (h : cpu.Sent [])

theorem Quiet.exact (h : cpu.Quiet [] 0)
    (hstatus : cpu.status ≠ .running ∧ cpu.status ≠ .dcacheRetry) : cpu.Exact where
  accepted := h.accepted ▸ nil_prefix
  answered := ⟨h.answered.1, h.accepted ▸ h.answered.2.1⟩
  completeAccs := by rw [h.completeAccs, if_neg hstatus.1]
  all hs := absurd hs hstatus.1
  completes hne hsub := absurd (subset_nil.mp (List.Subset.trans hsub h.answered.2.1)) hne
  retry := by simp [h.dcachePkt, hstatus.2]

theorem Sending.exact (h : cpu.Sending unsent) (hstatus : cpu.status ≠ .running)
    (hretry : cpu.dcachePkt.isSome ↔ cpu.status = .dcacheRetry) : cpu.Exact where
  accepted := h.packets ▸ prefix_append ..
  answered := h.answered
  completeAccs := by rw [h.completeAccs, if_neg hstatus]
  all hs := absurd hs hstatus
  completes _ hsub := by
    have hle := ((packets_nodup cpu.access).subperm hsub).length_le
    exact absurd h.left hle.not_gt
  retry := hretry

theorem Phase.exact (h : cpu.Phase) : cpu.Exact := by
  cases h with
  | done h hs =>
    exact ⟨h.accepted ▸ prefix_refl _,
      ⟨h.answered.1, h.accepted ▸ h.answered.2.1⟩, by rw [h.completeAccs, if_pos hs],
      fun _ => ⟨h.accepted, h.answered.2.2⟩, fun _ _ => hs, by simp [h.dcachePkt, hs]⟩
  | translating h hs => exact h.exact (by simp [hs])
  | ipr h hs => exact { h.exact (by simp [hs]) with }
  | waiting pkt unsent h | sent h =>
      exact h.toSending.exact (by simp [h.status]) (by simp [h.dcachePkt, h.status])

section Send

variable (h : cpu.Sending (pkt :: unsent))
include h

theorem Sending.accept (howes : cpu.owesRetry = false) (fragments : List (Fin 2))
    (hfragments : cpu.access.split → fragments = unsent) :
    Sent { cpu with
      accepted := cpu.accepted ++ [pkt], fragments, status := .dcacheWaitResponse,
      dcachePkt := none } unsent :=
  { h with
    packets := by simp [h.packets]
    fragments := hfragments
    answered := ⟨h.answered.1, subset_append_of_subset_left _ h.answered.2⟩
    tickEvent := fun p hp =>
      (h.tickEvent p hp).imp_right fun htick => ⟨mem_append_left _ htick.1, htick.2⟩
    dcachePkt := rfl, status := rfl, owesRetry := howes }

theorem Sending.reject : Waiting { cpu with
    owesRetry := true, status := .dcacheRetry, dcachePkt := some pkt } pkt unsent :=
  { h with dcachePkt := rfl, status := rfl, owesRetry := rfl }

theorem Sending.filter (hsplit : cpu.access.split = true) :
    cpu.fragments.filter (· ≠ pkt) = unsent := by
  have hnodup := packets_nodup cpu.access
  rw [h.packets, nodup_append, nodup_cons] at hnodup
  rw [h.fragments hsplit, filter_cons_of_neg (by simp), filter_eq_self]
  intro p hp
  simpa using ne_of_mem_of_not_mem hp hnodup.2.1.1

end Send

theorem sendFragment_eq (hipr : cpu.access.mmappedIpr = false) (accepts : Bool) :
    cpu.sendFragment pkt accepts =
    if accepts then
      ({ cpu with
        accepted := cpu.accepted ++ [pkt], fragments := cpu.fragments.filter (· ≠ pkt)
        status := .dcacheWaitResponse, dcachePkt := none }, true)
    else ({ cpu with owesRetry := true, status := .dcacheRetry, dcachePkt := some pkt }, false) := by
  cases accepts <;> simp [sendFragment, handlePacket, clearFromParent, hipr]

theorem Sending.last (h : cpu.Sending [pkt]) (howes : cpu.owesRetry = false)
    (hsplit : cpu.access.split = true) (accepts : Bool) : (cpu.sendFragment pkt accepts).1.Phase := by
  rw [sendFragment_eq h.access.2]
  cases accepts with
  | false => exact .waiting pkt [] h.reject
  | true => exact .sent (h.accept howes _ fun _ => h.filter hsplit)

theorem Sent.process (h : cpu.Sent []) (hpkt : cpu.Admits (.response resp onEdge))
    (herror : resp.isError = false) : ∃ cpu', cpu.process resp = .ok cpu' ∧ cpu'.Phase := by
  have hpackets : cpu.access.packets = cpu.accepted := by simpa using h.packets
  have hanswered : (cpu.answered ++ [resp.pkt]).Nodup ∧
      cpu.answered ++ [resp.pkt] ⊆ cpu.access.packets := by
    rw [hpackets]
    exact ⟨concat_eq_append ▸ h.answered.1.concat hpkt.2.1,
      append_subset.mpr ⟨h.answered.2, by simpa using hpkt.1⟩⟩
  have htick : ∀ p ∈ cpu.tickEvent, p.pkt ∉ cpu.answered ++ [resp.pkt] := by
    intro p hp hmem
    rcases mem_append.mp hmem with hans | hself
    · exact (h.tickEvent p hp).2.2 hans
    · exact hpkt.2.2 (Option.map_eq_some_iff.mpr ⟨p, hp, mem_singleton.mp hself⟩)
  have hdone : cpu.answered.length + 1 = cpu.access.packets.length → ∀ outstanding,
      (completeAcc { cpu with answered := cpu.answered ++ [resp.pkt], outstanding }).Phase := by
    intro hlength outstanding
    have hall : cpu.access.packets ⊆ cpu.answered ++ [resp.pkt] := by
      refine ((hanswered.1.subperm hanswered.2).perm_of_length_le ?_).symm.subset
      simp [hlength]
    refine .done ⟨by simp [completeAcc, h.access.2], h.dcachePkt, ?_, h.iprEvent,
      h.owesRetry, hpackets.symm, ⟨hanswered.1, hanswered.2, hall⟩,
      congrArg (· + 1) h.completeAccs⟩ rfl
    refine Option.eq_none_iff_forall_ne_some.mpr fun p hp => ?_
    exact htick p hp (hall (hpackets ▸ (h.tickEvent p hp).2.1))
  have hleft := h.left
  unfold TimingCPU.process completeDataAccess
  rw [herror, show (cpu.status == .dcacheWaitResponse) = true by simp [h.status]]
  cases hsplit : cpu.access.split with
  | false =>
    refine ⟨_, rfl, hdone ?_ _⟩
    rcases packets_of_whole hsplit with hp | hp <;> rw [hp] at hleft ⊢ <;> simp at hleft ⊢
    exact hleft
  | true =>
    have hout := h.outstanding hsplit
    have htwo : cpu.access.packets.length = 2 := by rw [packets_of_split h.access hsplit]; rfl
    rw [h.access.1, show (cpu.outstanding != 0) = true by simp; omega]
    refine ⟨_, rfl, ?_⟩
    by_cases hlast : cpu.outstanding - 1 = 0
    · rw [show (cpu.outstanding - 1 != 0) = false by simp [hlast]]
      exact hdone (by omega) _
    · rw [show (cpu.outstanding - 1 != 0) = true by simp [hlast]]
      refine .sent { h with
        answered := ⟨hanswered.1, hpackets ▸ hanswered.2⟩, outstanding := fun _ => ?_, left := ?_
        tickEvent := fun p hp => ⟨(h.tickEvent p hp).1, (h.tickEvent p hp).2.1, htick p hp⟩ }
      · simp; omega
      · simp; omega

theorem Waiting.resend (h : cpu.Waiting pkt unsent) (first second : Bool) :
    (TimingCPU.resend { cpu with owesRetry := false } pkt first second).Phase := by
  have hsending : Sending { cpu with owesRetry := false } (pkt :: unsent) := { h with }
  cases first with
  | false => exact .waiting pkt unsent { h with owesRetry := rfl }
  | true =>
    simp only [TimingCPU.resend, Bool.not_true, Bool.false_eq_true, if_false]
    cases hsplit : cpu.access.split with
    | false =>
      have hlength := congrArg List.length h.packets
      have hnil : unsent = [] := by
        rcases packets_of_whole hsplit with hp | hp <;> simp [hp] at hlength
        exact length_eq_zero_iff.mp (by omega)
      subst hnil
      exact .sent (hsending.accept rfl cpu.fragments fun hs => by simp [hsplit] at hs)
    | true =>
      have hnext := hsending.accept rfl _ fun _ => h.filter hsplit
      have hpackets := h.packets
      rw [packets_of_split h.access hsplit] at hpackets
      rw [if_pos rfl]
      rcases hacc : cpu.accepted with - | ⟨p, rest⟩
      · obtain ⟨rfl, rfl⟩ : pkt = 0 ∧ unsent = [1] := by simpa [hacc, eq_comm] using hpackets
        rw [if_pos (by rw [getPendingFragment, clearFromParent, h.filter hsplit]; rfl)]
        rw [hacc] at hnext
        exact Sending.last { hnext with } rfl hsplit second
      · have hnil : unsent = [] := by
          have hlength := congrArg List.length hpackets
          simp [hacc] at hlength
          exact length_eq_zero_iff.mp (by omega)
        subst hnil
        rw [if_neg (by rw [getPendingFragment, clearFromParent, h.filter hsplit]; simp), ← hacc]
        exact .sent hnext

theorem Quiet.completeDataAccess (h : cpu.Quiet [] 0) (hpackets : cpu.access.packets = [])
    (hwhole : (cpu.access.split && !cpu.access.noAccess) = false)
    (hstatus : cpu.status = .dcacheWaitResponse ∨ cpu.access.noAccess = true) :
    ∃ cpu', cpu.completeDataAccess false = .ok cpu' ∧ cpu'.Phase := by
  refine ⟨cpu.completeAcc, ?_, .done { h with
    accepted := h.accepted.trans hpackets.symm
    answered := hpackets.symm ▸ h.answered
    completeAccs := congrArg (· + 1) h.completeAccs } rfl⟩
  unfold TimingCPU.completeDataAccess
  rw [hwhole]
  rcases hstatus with hs | hs <;> simp [hs, ensure]

theorem Quiet.sending (h : cpu.Quiet [] 0)
    (haccess : cpu.access.noAccess = false ∧ cpu.access.mmappedIpr = false)
    (hpackets : cpu.access.packets = packets) (hne : packets ≠ []) (outstanding : Nat)
    (fragments : List (Fin 2)) (hsplit : cpu.access.split → outstanding = 2 ∧ fragments = packets) :
    Sending { cpu with outstanding, fragments } packets where
  access := haccess
  packets := by simp [h.accepted, hpackets]
  fragments hs := (hsplit hs).2
  answered := ⟨h.answered.1, h.accepted ▸ h.answered.2.1⟩
  outstanding hs := by simp [(hsplit hs).1, subset_nil.mp h.answered.2.1]
  left := by simpa [subset_nil.mp h.answered.2.1, length_pos_iff, hpackets] using hne
  tickEvent := by simp [h.tickEvent]
  iprEvent := h.iprEvent
  completeAccs := h.completeAccs

theorem Quiet.sendData (h : cpu.Quiet [] 0) (hsplit : cpu.access.split = false) (accepts : Bool) :
    ∃ cpu', cpu.sendData accepts = .ok cpu' ∧ cpu'.Phase := by
  have hwhole : cpu.access.split ≠ true := by simp [hsplit]
  unfold TimingCPU.sendData
  cases hno : cpu.access.noAccess with
  | true =>
    rw [h.dcachePkt]
    exact h.completeDataAccess (by simp [DataAccess.packets, hno]) (by simp [hsplit]) (.inr hno)
  | false =>
    cases hgo : cpu.access.read || cpu.access.doAccess with
    | false =>
      have hwait : Quiet { cpu with status := .dcacheWaitResponse } [] 0 := { h with }
      exact hwait.completeDataAccess (by simp [DataAccess.packets, hsplit, hgo])
        (by simp [hsplit]) (.inl rfl)
    | true =>
      refine ⟨_, rfl, ?_⟩
      unfold handlePacket
      cases hipr : cpu.access.mmappedIpr with
      | true =>
        exact .ipr { h with dcachePkt := rfl, iprEvent := rfl } rfl
          (by simp [DataAccess.packets, hipr]) hsplit
      | false =>
        have hsending : cpu.Sending [0] :=
          h.sending ⟨hno, hipr⟩ (by simp [DataAccess.packets, hno, hipr, hsplit, hgo])
          (by simp) cpu.outstanding cpu.fragments fun hs => absurd hs hwhole
        cases accepts with
        | false => exact .waiting 0 [] hsending.reject
        | true => exact .sent (hsending.accept h.owesRetry cpu.fragments fun hs => absurd hs hwhole)

theorem Quiet.sendSplitData (h : cpu.Quiet [] 0) (hsplit : cpu.access.split = true)
    (first second : Bool) :
    ∃ cpu', cpu.sendSplitData first second = .ok cpu' ∧ cpu'.Phase := by
  have hipr : cpu.access.mmappedIpr = false := by simpa [hsplit] using h.whole
  unfold TimingCPU.sendSplitData
  rw [hipr]
  cases hno : cpu.access.noAccess with
  | true =>
    rw [h.dcachePkt]
    exact h.completeDataAccess (by simp [DataAccess.packets, hno]) (by simp [hno]) (.inr hno)
  | false =>
    have hsending := h.sending ⟨hno, hipr⟩ (packets_of_split ⟨hno, hipr⟩ hsplit) (by simp) 2 [0, 1]
      fun _ => ⟨rfl, rfl⟩
    rw [sendFragment_eq hsending.access.2]
    cases first with
    | false => exact ⟨_, rfl, .waiting 0 [1] hsending.reject⟩
    | true =>
      refine ⟨_, rfl, ?_⟩
      exact (hsending.accept h.owesRetry _ fun _ => hsending.filter hsplit).last
        h.owesRetry hsplit second

theorem Sending.recvTimingResp (h : cpu.Sending unsent) (hresp : resp.isError = false ∧
      resp.pkt ∈ cpu.accepted ∧ resp.pkt ∉ cpu.answered) :
    Sending { cpu with tickEvent := cpu.tickEvent.or (some resp) } unsent := by
  refine { h with tickEvent := fun p hp => ?_ }
  cases htick : cpu.tickEvent with
  | none => simp_all
  | some q => exact h.tickEvent p (by simpa [htick] using hp)

theorem Phase.response (h : cpu.Phase) (hadmits : cpu.Admits (.response resp onEdge))
    (hsent : cpu.AnsweredSent (.response resp onEdge)) :
    ∃ cpu', cpu.recvTimingResp resp onEdge = .ok cpu' ∧ cpu'.Phase := by
  have ⟨hacc, hnot, htick⟩ := hadmits
  obtain ⟨herror, hsent⟩ := hsent
  cases h with
  | done h => exact absurd (h.answered.2.2 (h.accepted ▸ hacc)) hnot
  | translating h => simp [h.accepted] at hacc
  | ipr h => simp [show cpu.accepted = [] from h.accepted] at hacc
  | waiting p unsent h =>
    cases onEdge with
    | true => exact absurd h.status (hsent rfl)
    | false => exact ⟨_, rfl,
        .waiting p unsent { h.toSending.recvTimingResp ⟨herror, hacc, hnot⟩, h with }⟩
  | sent h =>
    cases onEdge with
    | true => exact h.process hadmits herror
    | false => exact ⟨_, rfl, .sent { h.toSending.recvTimingResp ⟨herror, hacc, hnot⟩, h with }⟩

theorem Phase.apply (h : cpu.Phase) (e : TimingEvent) (hadmits : cpu.Admits e)
    (hsent : cpu.AnsweredSent e) :
    ∃ cpu', cpu.apply e = .ok cpu' ∧ cpu'.Phase := by
  cases e with
  | initiate access => exact ⟨_, rfl,
      .translating ⟨hadmits.2, rfl, rfl, rfl, rfl, rfl, by simp, rfl⟩ rfl⟩
  | response resp onEdge => exact h.response hadmits hsent
  | finishTranslation first second =>
    have hstatus : cpu.status = .dtbWaitResponse := hadmits
    cases h with
    | done _ hs | ipr _ hs => simp [hs] at hstatus
    | waiting p unsent h | sent h => simp [h.status] at hstatus
    | translating h =>
      have hrunning : Quiet { cpu with status := .running } [] 0 := { h with }
      simp only [TimingCPU.apply, TimingCPU.finishTranslation]
      cases hsplit : cpu.access.split with
      | false => exact hrunning.sendData hsplit first
      | true => exact hrunning.sendSplitData hsplit first second
  | tick =>
    obtain ⟨resp, htick⟩ := Option.isSome_iff_exists.mp hadmits
    simp only [TimingCPU.apply, htick, need]
    cases h with
    | done h | translating h => simp [h.tickEvent] at htick
    | ipr h => simp [show cpu.tickEvent = none from h.tickEvent] at htick
    | waiting p unsent h => exact absurd h.status hsent
    | sent h =>
      have hlast : Sent { cpu with tickEvent := none } [] := { h with tickEvent := by simp }
      obtain ⟨herror, hacc, hnot⟩ := h.tickEvent resp htick
      have hresp : Admits { cpu with tickEvent := none } (.response resp true) := ⟨hacc, hnot, by simp⟩
      exact hlast.process hresp herror
  | ipr =>
    obtain ⟨pkt, hipr⟩ := Option.isSome_iff_exists.mp hadmits
    simp only [TimingCPU.apply, hipr, need]
    cases h with
    | done h | translating h | waiting p unsent h | sent h => simp [h.iprEvent] at hipr
    | ipr h hs hpackets hsplit => exact h.completeDataAccess hpackets (by simp [hsplit]) (.inl hs)
  | retry first second =>
    have howes : cpu.owesRetry = true := hadmits
    cases h with
    | done h | translating h | sent h => simp [h.owesRetry] at howes
    | ipr h => simp [show cpu.owesRetry = false from h.owesRetry] at howes
    | waiting p unsent h =>
      refine ⟨_, ?_, h.resend first second⟩
      rw [TimingCPU.apply, TimingCPU.recvRetry, h.dcachePkt, h.status]
      rfl

theorem run_completes_once {events : List TimingEvent}
    (hrun : Runs (fun cpu e cpu' => (cpu.Admits e ∧ cpu.apply e = .ok cpu') ∧ cpu.AnsweredSent e)
      create events cpu) :
    cpu.Exact ∧ ∀ e, cpu.Admits e → cpu.AnsweredSent e → ∃ cpu', cpu.apply e = .ok cpu' := by
  have hcreate : create.Phase := .done ⟨rfl, rfl, rfl, rfl, rfl, rfl, by decide, rfl⟩ rfl
  have hphase : cpu.Phase := by
    refine hrun.invariant hcreate fun cpu e cpu' h hstep => ?_
    exact of_returns (h.apply e hstep.1.1 hstep.2) hstep.1.2
  refine ⟨hphase.exact, fun e hadmits hsent => ?_⟩
  obtain ⟨next, happly, -⟩ := hphase.apply e hadmits hsent
  exact ⟨next, happly⟩

theorem run_completes_once_split : ∃ cpu,
    Runs (fun cpu e cpu' => (cpu.Admits e ∧ cpu.apply e = .ok cpu') ∧ cpu.AnsweredSent e) create
      [.initiate { read := true, split := true }, .finishTranslation true false, .retry true true,
        .response ⟨1, false⟩ false, .response ⟨0, false⟩ true, .tick] cpu ∧
    (cpu.accepted = [0, 1] ∧ cpu.answered = [0, 1] ∧ cpu.completeAccs = 1) ∧ cpu.Exact :=
  runs_of_play_under Admits apply AnsweredSent (by decide +kernel) fun _ hrun =>
    (run_completes_once hrun).1

/-- The first half of a split load is answered while the second waits for its retry. -/
theorem answered_before_retry : ∃ cpu,
    Runs (fun cpu e cpu' => cpu.Admits e ∧ cpu.apply e = .ok cpu') create
      [.initiate { read := true, split := true }, .finishTranslation true false] cpu ∧
    cpu.Admits (.response ⟨0, false⟩ true) ∧ cpu.apply (.response ⟨0, false⟩ true) = .error (.assertion
      ("_status == DcacheWaitResponse || _status == DTBWaitResponse || " ++
        "pkt->req->getFlags().isSet(Request::NO_ACCESS)")) :=
  runs_of_play Admits apply (by decide +kernel)

end TimingCPU

end Gem5
