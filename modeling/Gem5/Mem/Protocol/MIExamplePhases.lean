import Gem5.Mem.Protocol.MIExample

/-!
# Where a cache of the MI example stands

A line's state at a cache does not say enough: a cache in `MI` may still have the only copy
of the line, and one in `IM` may or may not be known to the directory. A phase says what the
cache has and which messages from and to it are on their way. What a cache does with a
message is a step from one phase to another.
-/

namespace Gem5

namespace MIExample

inductive Phase
  | out
  | asked
  /-- The directory has taken its request; nobody has sent the data. -/
  | waiting
  | arriving (source : Sender)
  | owned
  | evicting
  /-- Its writeback was refused, which it learns after the request that was forwarded to it. -/
  | refused
  /-- Its writeback was taken and is on the way to the memory. -/
  | flushed
  | acked
  /-- It has passed the line on, with its writeback still on the way. -/
  | stale
  | nacked
  deriving DecidableEq

inductive Role
  | outside
  | flushing
  | waiting
  | holding
  deriving DecidableEq

namespace Phase

def role : Phase → Role
  | .waiting => .waiting
  | .arriving _ | .owned | .evicting | .refused => .holding
  | .flushed => .flushing
  | .out | .asked | .acked | .stale | .nacked => .outside

def reply : Phase → List ForwardMsg
  | .refused | .nacked => [.WB_NACK]
  | .acked => [.WB_ACK]
  | _ => []

end Phase

def missState : CpuRequest → L1State
  | .LD | .IFETCH => .IS
  | .ST _ => .IM

def L1Node.Missing (n : L1Node) : Prop :=
  n.mandatoryQueue = [] ∧ ∃ request d d', n.requestTable = some request ∧
    n.entry = some ⟨missState request, d⟩ ∧ n.tbe = some ⟨missState request, d'⟩

def L1Node.Unserved (n : L1Node) : Prop := n.mandatoryQueue = n.requestTable.toList

def Phase.Controls (b : DataBlock) (n : L1Node) : Phase → Prop
  | .out => n.Unserved ∧ n.tbe = none ∧ (∀ entry, n.entry = some entry → entry.cacheState = .I) ∧
      n.requestFromCache = []
  | .asked => n.Missing ∧ n.requestFromCache = [.GETX]
  | .waiting | .arriving _ => n.Missing ∧ n.requestFromCache = []
  | .owned => n.Unserved ∧ n.tbe = none ∧ n.entry = some ⟨.M, b⟩ ∧ n.requestFromCache = []
  | .evicting => n.Unserved ∧ n.tbe = some ⟨.MI, b⟩ ∧ n.entry = none ∧ n.requestFromCache = [.PUTX b]
  | .refused => n.Unserved ∧ n.tbe = some ⟨.MI, b⟩ ∧ n.entry = none ∧ n.requestFromCache = []
  | .flushed | .acked => n.Unserved ∧ (∃ d, n.tbe = some ⟨.MI, d⟩) ∧ n.entry = none ∧
      n.requestFromCache = []
  | .stale => n.Unserved ∧ (∃ d, n.tbe = some ⟨.II, d⟩) ∧ n.entry = none ∧ ∃ d,
      n.requestFromCache = [.PUTX d]
  | .nacked => n.Unserved ∧ (∃ d, n.tbe = some ⟨.II, d⟩) ∧ n.entry = none ∧ n.requestFromCache = []

open Lib L1Node

namespace L1Node

variable {n : L1Node} {source : Sender} {request : CpuRequest} {b : DataBlock}

theorem getState_of_tbe {tbe : L1TBE} (h : n.tbe = some tbe) : n.getState = tbe.tbeState := by
  simp [getState, h]

theorem getState_of_entry {entry : L1Entry} (h : n.tbe = none) (he : n.entry = some entry) :
    n.getState = entry.cacheState := by
  simp [getState, h, he]

theorem forwardRequestNetworkIn_cons (h : n.forwardToCache = msg :: rest) :
    n.forwardRequestNetworkIn i = n.doTransition i .directory (forwardEvent msg) := by
  rw [forwardRequestNetworkIn, h]

theorem doTransition_stall (h : n.getState.transition event = some ([.z_stall], n.getState)) :
    n.doTransition i source event = .ok { node := n } := by
  simp [doTransition, h]

theorem doTransition_row (hstate : n.getState = state)
    (hrow : state.transition event = some (actions, next)) (hstall : .z_stall ∉ actions) :
    n.doTransition i source event = actions.foldlM (L1Action.exec i source) { node := n } >>= fun s =>
      pure { s with node := s.node.setState next } := by
  rw [doTransition, hstate, hrow]
  exact if_neg hstall

def missed (n : L1Node) (request : CpuRequest) : L1Node :=
  { n with
    tbe := some ⟨missState request, .clear⟩
    entry := some ⟨missState request, (n.entry.getD ⟨.I, .clear⟩).dataBlk⟩
    requestFromCache := n.requestFromCache ++ [.GETX]
    mandatoryQueue := n.mandatoryQueue.tail }

theorem doTransition_miss (h : n.getState = .I) (htbe : n.tbe = none) :
    n.doTransition i source (mandatoryRequestTypeToEvent request) = .ok
      { node := n.missed request } := by
  cases request <;>
    rw [mandatoryRequestTypeToEvent, doTransition_row h rfl (by decide)] <;>
    simp [htbe, missState, setState, missed]

theorem doTransition_evict (htbe : n.tbe = none) (hentry : n.entry = some ⟨.M, b⟩)
    (h : event = .Replacement ∨ event = .Inv) :
    n.doTransition i source event =
      .ok { node := { n with
        tbe := some ⟨.MI, b⟩
        entry := none
        requestFromCache := n.requestFromCache ++ [.PUTX b] } } := by
  have hstate := getState_of_entry htbe hentry
  rcases h with rfl | rfl <;>
    rw [doTransition_row hstate rfl (by decide)] <;>
    simp [htbe, hentry, validEntry, validTBE, need, setState]

def access (i : Nat) (b : DataBlock) : CpuRequest → LineOp
  | .LD | .IFETCH => .load i b
  | .ST w => .store i w

theorem doTransition_hit (htbe : n.tbe = none) (hentry : n.entry = some ⟨.M, b⟩)
    (htable : n.requestTable = some request) :
    n.doTransition i source (mandatoryRequestTypeToEvent request) =
      .ok { node := { n with
        requestTable := none
        mandatoryQueue := n.mandatoryQueue.tail
        entry := some ⟨.M, (access i b request).after b⟩ }, ops := [access i b request] } := by
  have hstate := getState_of_entry htbe hentry
  cases request <;>
    rw [mandatoryRequestTypeToEvent, doTransition_row hstate rfl (by decide)] <;>
    simp [readCallback, writeCallback, htbe, hentry, htable, validEntry, need, setState,
      access, LineOp.after]

def filled (n : L1Node) (source : Sender) (b : DataBlock) : L1Node :=
  { n with
    entry := some ⟨.M, b⟩
    tbe := none
    requestTable := none
    responseToCache := Function.update n.responseToCache source (n.responseToCache source).tail }

theorem doTransition_data (htbe : n.tbe = some ⟨missState request, d⟩)
    (hentry : n.entry = some ⟨missState request, d'⟩) (htable : n.requestTable = some request)
    (hhead : (n.responseToCache source).head? = some b) :
    n.doTransition i source .Data =
      .ok { node := n.filled source ((access i b request).after b), ops := [access i b request] } := by
  have hstate := getState_of_tbe htbe
  cases request <;>
    rw [doTransition_row hstate rfl (by decide)] <;>
    simp [readCallback, writeCallback, htbe, hentry, htable, hhead, validEntry, need, setState,
      access, LineOp.after, filled]

theorem doTransition_drop (h : n.getState = .I) (htbe : n.tbe = none) :
    n.doTransition i source .Replacement = .ok { node := { n with entry := none } } := by
  rw [doTransition_row h rfl (by decide)]
  simp [htbe, setState]

theorem doTransition_pass (htbe : n.tbe = none) (hentry : n.entry = some ⟨.M, b⟩)
    (hforward : n.forwardToCache = .GETX m :: rest) :
    n.doTransition i source .Fwd_GETX =
      .ok { node := { n with entry := some ⟨.I, b⟩, forwardToCache := rest }, sent := [(m, b)] } := by
  rw [doTransition_row (getState_of_entry htbe hentry) rfl (by decide)]
  simp [htbe, hentry, hforward,
    validEntry, forwardRequestor, need, setState]

theorem doTransition_passTBE (htbe : n.tbe = some ⟨.MI, b⟩) (hentry : n.entry = none)
    (hforward : n.forwardToCache = .GETX m :: rest) :
    n.doTransition i source .Fwd_GETX =
      .ok { node := { n with tbe := some ⟨.II, b⟩, forwardToCache := rest }, sent := [(m, b)] } := by
  rw [doTransition_row (getState_of_tbe htbe) rfl (by decide)]
  simp [htbe, hentry, hforward,
    validTBE, forwardRequestor, need, setState]

theorem doTransition_ignore (htbe : n.tbe = some ⟨.MI, d⟩) (hentry : n.entry = none) :
    n.doTransition i source .Inv = .ok
      { node := { n with forwardToCache := n.forwardToCache.tail } } := by
  have hn : n = { n with tbe := some ⟨.MI, d⟩, entry := none } := by rw [← htbe, ← hentry]
  rw [doTransition_row (getState_of_tbe htbe) rfl (by decide), hn]
  simp [setState]

theorem doTransition_end (hentry : n.entry = none)
    (h : n.tbe = some ⟨.MI, d⟩ ∧ event = .Writeback_Ack ∨ n.tbe = some ⟨.II, d⟩ ∧
      event = .Writeback_Nack) :
    n.doTransition i source event =
      .ok { node := { n with tbe := none, forwardToCache := n.forwardToCache.tail } } := by
  rcases h with ⟨htbe, rfl⟩ | ⟨htbe, rfl⟩ <;>
    rw [doTransition_row (getState_of_tbe htbe) rfl (by decide)] <;>
    simp [htbe, hentry, setState]

end L1Node

/-- A cache is in a phase. `inv` says that an invalidation is on the way to it, `next` who
it has to pass the line on to. -/
structure InPhase (b : DataBlock) (p : Phase) (inv : Bool) (next : Option Nat)
    (n : L1Node) : Prop where
  forwards : n.forwardToCache = (if inv then [.INV] else []) ++
    (next.map ForwardMsg.GETX).toList ++ p.reply
  responses : ∀ source, n.responseToCache source = if p = .arriving source then [b] else []
  controls : p.Controls b n

namespace InPhase

variable {b : DataBlock} {p : Phase} {inv : Bool} {next : Option Nat} {n : L1Node}

theorem block (h : InPhase b p inv next n) (hrole : p.role ≠ .holding) : InPhase b' p inv next n := by
  cases p with
  | arriving | owned | evicting | refused => exact absurd rfl hrole
  | _ => exact ⟨h.forwards, h.responses, h.controls⟩

theorem empty : InPhase b .out false none {} :=
  ⟨rfl, fun _ => rfl, rfl, rfl, by simp, rfl⟩

theorem link (h : InPhase b p false none n) (hreply : p.reply = []) (m : Nat) :
    InPhase b p false (some m) { n with forwardToCache := n.forwardToCache ++ [.GETX m] } :=
  ⟨by simp [h.forwards, hreply], h.responses, by cases p <;> exact h.controls⟩

theorem invalidate (h : InPhase b p false none n) (hreply : p.reply = []) :
    InPhase b p true none { n with forwardToCache := n.forwardToCache ++ [.INV] } :=
  ⟨by simp [h.forwards, hreply], h.responses, by cases p <;> exact h.controls⟩

theorem answer (h : InPhase b .flushed inv none n) :
    InPhase b' .acked inv none { n with forwardToCache := n.forwardToCache ++ [.WB_ACK] } :=
  ⟨by simp [h.forwards, Phase.reply], by simpa using h.responses, h.controls⟩

theorem receive (h : InPhase b .waiting inv next n) (source : Sender) :
    InPhase b' (.arriving source) inv next
      { n with
        responseToCache := Function.update n.responseToCache source
          (n.responseToCache source ++ [b']) } := by
  refine ⟨h.forwards, fun source' => ?_, h.controls⟩
  have hnone := h.responses
  rcases eq_or_ne source' source with rfl | hne
  · simp [hnone]
  · simp [Function.update_of_ne hne, hnone, Ne.symm hne]

theorem take_getx (h : InPhase b .asked inv next n) :
    InPhase b .waiting inv next { n with requestFromCache := [] } :=
  ⟨h.forwards, by simpa using h.responses, h.controls.1, rfl⟩

theorem take_putx (h : InPhase b .evicting inv next n) :
    InPhase b .flushed inv next { n with requestFromCache := [] } :=
  ⟨h.forwards, by simpa using h.responses, h.controls.1, ⟨b, h.controls.2.1⟩, h.controls.2.2.1, rfl⟩

theorem refuse (h : InPhase b p inv next n)
    (hp : p = .evicting ∧ p' = .refused ∨ p = .stale ∧ p' = .nacked) :
    InPhase b p' inv next { n with
      requestFromCache := [], forwardToCache := n.forwardToCache ++ [.WB_NACK] } := by
  rcases hp with ⟨rfl, rfl⟩ | ⟨rfl, rfl⟩ <;>
    exact ⟨by simp [h.forwards, Phase.reply], by simpa using h.responses,
      h.controls.1, h.controls.2.1, h.controls.2.2.1, rfl⟩

section

variable (h : InPhase b p inv next n)

include h

theorem makeRequest (request : CpuRequest) :
    InPhase b p inv next (n.makeRequest request) := by
  unfold L1Node.makeRequest
  split
  · exact h
  · rename_i hnone
    refine ⟨h.forwards, h.responses, ?_⟩
    have hc := h.controls
    have hun : n.Unserved → L1Node.Unserved
        { n with requestTable := some request, mandatoryQueue := n.mandatoryQueue ++ [request] } := by
      intro hun
      simp [L1Node.Unserved, hun.trans (congrArg Option.toList hnone)]
    have hmiss : ¬ n.Missing := by
      rintro ⟨-, request, d, d', hsome, -⟩
      simp [hnone] at hsome
    cases p with
    | asked | waiting | arriving => exact absurd hc.1 hmiss
    | out | owned | evicting | refused | flushed | acked | stale | nacked => exact ⟨hun hc.1, hc.2⟩

structure Stays (b : DataBlock) (p : Phase) (inv : Bool) (next : Option Nat) (s : L1Step) (p' : Phase)
    (inv' : Bool) : Prop where
  sent : s.sent = []
  role : p'.role = p.role
  node : InPhase (latest b s.ops) p' inv' next s.node
  reads : Consistent b s.ops
  dma : s.ops.filterMap LineOp.dmaValue = []
  ops : s.ops = [] ∨ p.role = .holding
  inv : inv' = true → inv = true ∧ (p = .acked → p' = .acked)
  refused : p' = .refused → p = .refused
  stale : p' = .stale → p = .stale

omit h in
theorem Stays.quiet (hnode : InPhase b p' inv' next n')
    (hrole : p'.role = p.role) (hinv : inv' = true → inv = true ∧ (p = .acked → p' = .acked))
    (hrefused : p' = .refused → p = .refused) (hstale : p' = .stale → p = .stale) :
    Stays b p inv next { node := n' } p' inv' :=
  ⟨rfl, hrole, hnode, trivial, rfl, .inl rfl, hinv, hrefused, hstale⟩

omit h in
theorem Stays.served (hrole : p.role = .holding)
    (hnode : InPhase ((access i b request).after b) .owned inv next n') :
    Stays b p inv next { node := n', ops := [access i b request] } .owned inv := by
  refine ⟨rfl, hrole.symm, hnode, ?_, ?_, .inr hrole, fun hinv => ⟨hinv, ?_⟩, nofun, nofun⟩
  · cases request <;> simp [Consistent, access, LineOp.Reads]
  · cases request <;> rfl
  · rintro rfl
    cases hrole

theorem stall : Stays b p inv next { node := n } p inv :=
  .quiet h rfl (fun hinv => ⟨hinv, id⟩) id id

omit h in
theorem missing_stalls (h : n.Missing)
    (hevent : event = .Replacement ∨ event = .Inv ∨ event = .Fwd_GETX) :
    n.doTransition i source event = .ok { node := n } := by
  obtain ⟨-, request, d, d', -, -, htbe⟩ := h
  refine doTransition_stall ?_
  rw [getState_of_tbe htbe]
  rcases hevent with rfl | rfl | rfl <;> cases request <;> rfl

theorem getState_of_written (hentry : n.entry = none) (htbe : n.tbe ≠ none) :
    n.getState = .MI ∨ n.getState = .II := by
  have hc := h.controls
  cases p with
  | out | owned => exact absurd hc.2.1 htbe
  | asked | waiting | arriving =>
    obtain ⟨-, request, d, d', -, hsome, -⟩ := hc.1
    simp [hentry] at hsome
  | evicting | refused => exact .inl (getState_of_tbe hc.2.1)
  | flushed | acked =>
    obtain ⟨d, htbe⟩ := hc.2.1
    exact .inl (getState_of_tbe htbe)
  | stale | nacked =>
    obtain ⟨d, htbe⟩ := hc.2.1
    exact .inr (getState_of_tbe htbe)

theorem mandatoryQueueIn (hne : n.mandatoryQueue.isEmpty = false) :
    ∃ s p', n.mandatoryQueueIn i = .ok s ∧ Stays b p inv next s p' inv := by
  have hc := h.controls
  have hmiss : ¬ n.Missing := fun hmiss => by simp [hmiss.1] at hne
  have hun : n.Unserved → ∃ request, n.mandatoryQueue.tail = [] ∧ n.requestTable = some request ∧
      n.mandatoryQueueIn i = n.doTransition i .directory (mandatoryRequestTypeToEvent request) := by
    intro hun
    cases htable : n.requestTable with
    | none => simp [hun.trans (congrArg Option.toList htable)] at hne
    | some request =>
      have hqueue : n.mandatoryQueue = [request] := hun.trans (congrArg Option.toList htable)
      exact ⟨request, by rw [hqueue]; rfl, rfl, by rw [L1Node.mandatoryQueueIn, hqueue]⟩
  have hwritten : n.Unserved → n.entry = none → n.tbe ≠ none →
      ∃ s p', n.mandatoryQueueIn i = .ok s ∧ Stays b p inv next s p' inv := by
    intro hu hentry htbe
    obtain ⟨request, -, -, hin⟩ := hun hu
    refine ⟨_, p, hin.trans (doTransition_stall ?_), h.stall⟩
    rcases h.getState_of_written hentry htbe with h | h <;> rw [h] <;> cases request <;> rfl
  cases p with
  | asked | waiting | arriving => exact absurd hc.1 hmiss
  | evicting | refused => exact hwritten hc.1 hc.2.2.1 (by simp [hc.2.1])
  | flushed | acked | stale | nacked =>
    obtain ⟨d, htbe⟩ := hc.2.1
    exact hwritten hc.1 hc.2.2.1 (by simp [htbe])
  | out =>
    obtain ⟨hu, htbe, hentry, hrequests⟩ := hc
    obtain ⟨request, htail, htable, hin⟩ := hun hu
    have hstate : n.getState = .I := by
      cases he : n.entry with
      | none => simp [getState, htbe, he]
      | some entry => rw [getState_of_entry htbe he, hentry entry he]
    have hnode : InPhase b .asked inv next (n.missed request) :=
      ⟨h.forwards, by simpa [missed] using h.responses, ⟨htail, request, _, _, htable, rfl, rfl⟩,
        by simp [missed, hrequests]⟩
    exact ⟨_, .asked, hin.trans (doTransition_miss hstate htbe),
      .quiet hnode rfl (fun hinv => ⟨hinv, nofun⟩) nofun nofun⟩
  | owned =>
    obtain ⟨hu, htbe, hentry, hrequests⟩ := hc
    obtain ⟨request, htail, htable, hin⟩ := hun hu
    exact ⟨_, .owned, hin.trans (doTransition_hit htbe hentry htable),
      .served rfl ⟨h.forwards, by simpa using h.responses, htail, htbe, rfl, hrequests⟩⟩

theorem replacement (hentry : n.entry.isSome) :
    ∃ s p', n.doTransition i .directory .Replacement = .ok s ∧ Stays b p inv next s p' inv := by
  have hc := h.controls
  have hnone : n.entry = none → False := fun hnone => by simp [hnone] at hentry
  cases p with
  | asked | waiting | arriving => exact ⟨_, _, missing_stalls hc.1 (.inl rfl), h.stall⟩
  | evicting | refused | flushed | acked | stale | nacked => exact (hnone hc.2.2.1).elim
  | out =>
    obtain ⟨hu, htbe, hI, hrequests⟩ := hc
    obtain ⟨entry, he⟩ := Option.isSome_iff_exists.mp hentry
    have hstate : n.getState = .I := by rw [getState_of_entry htbe he, hI entry he]
    exact ⟨_, .out, doTransition_drop hstate htbe,
      .quiet ⟨h.forwards, h.responses, hu, htbe, nofun, hrequests⟩ rfl (fun hinv => ⟨hinv, id⟩) id id⟩
  | owned =>
    obtain ⟨hu, htbe, hM, hrequests⟩ := hc
    exact ⟨_, .evicting, doTransition_evict htbe hM (.inl rfl),
      .quiet ⟨h.forwards, by simpa using h.responses, hu, rfl, rfl, by simp [hrequests]⟩ rfl
        (fun hinv => ⟨hinv, nofun⟩) nofun nofun⟩

theorem responseNetworkIn
    (hne : (n.responseToCache source).isEmpty = false) :
    ∃ s p', n.responseNetworkIn i source = .ok s ∧ Stays b p inv next s p' inv := by
  rw [h.responses source] at hne
  split at hne
  · rename_i heq
    subst heq
    have hresponse : n.responseToCache source = [b] := by rw [h.responses source, if_pos rfl]
    have hhead : (n.responseToCache source).head? = some b := by rw [hresponse]; rfl
    have hin : n.responseNetworkIn i source = n.doTransition i source .Data := by
      rw [responseNetworkIn, hresponse]
    obtain ⟨⟨hqueue, request, d, d', htable, hentry, htbe⟩, hrequests⟩ := h.controls
    refine ⟨_, .owned, hin.trans (doTransition_data htbe hentry htable hhead),
      .served rfl ⟨h.forwards, fun source' => ?_, hqueue, rfl, rfl, hrequests⟩⟩
    rcases eq_or_ne source' source with rfl | hne'
    · simp [filled, hresponse]
    · simp [filled, Function.update_of_ne hne', h.responses, Ne.symm hne']
  · simp at hne

end

structure Passes (b : DataBlock) (p : Phase) (m : Nat) (s : L1Step) (p' : Phase) : Prop where
  sent : s.sent = [(m, b)]
  ops : s.ops = []
  held : p.role = .holding
  role : p'.role = .outside
  node : InPhase b p' false none s.node

theorem forward_inv (h : InPhase b p true none n) (hp : p.role ≠ .outside ∨ p = .acked)
    (hrefused : p ≠ .refused) :
    ∃ s p' inv', n.forwardRequestNetworkIn i = .ok s ∧ Stays b p true none s p' inv' := by
  have hc := h.controls
  have hforwards : n.forwardToCache = .INV :: p.reply := by simp [h.forwards]
  have hin : n.forwardRequestNetworkIn i = n.doTransition i .directory .Inv :=
    forwardRequestNetworkIn_cons hforwards
  have htail : n.forwardToCache.tail = p.reply := by rw [hforwards, List.tail_cons]
  have hignore : ∀ {d}, n.tbe = some ⟨.MI, d⟩ → n.entry = none →
      ∃ s p' inv', n.forwardRequestNetworkIn i = .ok s ∧ Stays b p true none s p' inv' :=
        fun htbe hentry =>
    ⟨_, p, false, hin.trans (doTransition_ignore htbe hentry),
      .quiet ⟨htail, h.responses, hc⟩ rfl nofun id id⟩
  cases p with
  | out | asked | stale | nacked => simp [Phase.role] at hp
  | refused => exact absurd rfl hrefused
  | waiting | arriving => exact ⟨_, _, true,
      hin.trans (missing_stalls hc.1 (.inr (.inl rfl))), h.stall⟩
  | owned =>
    obtain ⟨hu, htbe, hM, hrequests⟩ := hc
    exact ⟨_, .evicting, true, hin.trans (doTransition_evict htbe hM (.inr rfl)),
      .quiet ⟨h.forwards, by simpa using h.responses, hu, rfl, rfl, by simp [hrequests]⟩ rfl
        (fun hinv => ⟨hinv, nofun⟩) nofun nofun⟩
  | evicting => exact hignore hc.2.1 hc.2.2.1
  | flushed | acked =>
    obtain ⟨d, htbe⟩ := hc.2.1
    exact hignore htbe hc.2.2.1

theorem forward_getx (h : InPhase b p false (some m) n) (hp : p.role = .waiting ∨ p.role = .holding) :
    (∃ s, n.forwardRequestNetworkIn i = .ok s ∧ Stays b p false (some m) s p false) ∨
      ∃ s p', n.forwardRequestNetworkIn i = .ok s ∧ Passes b p m s p' := by
  have hc := h.controls
  have hforwards : n.forwardToCache = .GETX m :: p.reply := by simp [h.forwards]
  have hin : n.forwardRequestNetworkIn i = n.doTransition i .directory .Fwd_GETX :=
    forwardRequestNetworkIn_cons hforwards
  cases p with
  | out | asked | flushed | acked | stale | nacked => simp [Phase.role] at hp
  | waiting | arriving => exact .inl ⟨_, hin.trans (missing_stalls hc.1 (.inr (.inr rfl))), h.stall⟩
  | owned =>
    obtain ⟨hu, htbe, hM, hrequests⟩ := hc
    exact .inr ⟨_, .out, hin.trans (doTransition_pass htbe hM hforwards), rfl, rfl, rfl, rfl,
      rfl, by simpa using h.responses, hu, htbe, by simp, hrequests⟩
  | evicting =>
    obtain ⟨hu, htbe, hentry, hrequests⟩ := hc
    exact .inr ⟨_, .stale, hin.trans (doTransition_passTBE htbe hentry hforwards), rfl, rfl, rfl, rfl,
      rfl, by simpa using h.responses, hu, ⟨b, rfl⟩, hentry, b, hrequests⟩
  | refused =>
    obtain ⟨hu, htbe, hentry, hrequests⟩ := hc
    exact .inr ⟨_, .nacked, hin.trans (doTransition_passTBE htbe hentry hforwards), rfl, rfl, rfl, rfl,
      rfl, by simpa using h.responses, hu, ⟨b, rfl⟩, hentry, hrequests⟩

theorem forward_reply (h : InPhase b p false none n) (hne : n.forwardToCache.isEmpty = false)
    (hrefused : p ≠ .refused) :
    ∃ s p', n.forwardRequestNetworkIn i = .ok s ∧ Stays b p false none s p' false := by
  have hc := h.controls
  have hforwards : n.forwardToCache = p.reply := by simp [h.forwards]
  cases p with
  | out | asked | waiting | arriving | owned | evicting | flushed | stale =>
      simp [hforwards, Phase.reply] at hne
  | refused => exact absurd rfl hrefused
  | acked | nacked =>
    obtain ⟨hu, ⟨d, htbe⟩, hentry, hrequests⟩ := hc
    refine ⟨_, .out, (forwardRequestNetworkIn_cons hforwards).trans
      (doTransition_end (d := d) hentry ?_),
      .quiet ⟨by rw [hforwards]; rfl, by simpa using h.responses, hu, rfl, by simp [hentry],
        hrequests⟩ rfl nofun nofun nofun⟩
    simp [htbe, forwardEvent]

end InPhase

end MIExample

end Gem5
