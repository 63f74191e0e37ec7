import Gem5.Mem.Cache.TimingSteps

/-!
# Runs of a cache in timing mode

What can happen to a cache, in any order: requests, responses, snoops, and turns
to send. Every packet that asks for a response is answered at most once, and not
before it was sent.
-/

namespace Gem5

open Lib MissPath Cache

/-- `request` comes from the CPU side and `response` from the memory side;
`snoopResponse` is what a cache above answers to a snoop, and `downstream` a cache below that has
taken the request of a register or sent it on. -/
inductive CacheEvent
  | request (now : Nat) (pkt : Packet)
  | response (now : Nat) (pkt : Packet) (replies : List Target → SnoopReply)
  | snoopResponse (now : Nat) (pkt : Packet) (replies : List Target → SnoopReply)
  | snoop (now : Nat) (pkt : Packet) (reply : SnoopReply)
  | downstream (r : MSHRRef) (pending : Bool)
  | send (now : Nat) (offer : Option Packet) (above : SnoopReply) (replies : List Target → SnoopReply)
    (sent : Bool) (reply : SnoopReply)

/-- The cache and its surroundings. `expected` are the registers whose answer is
still to come, and `accepted` the numbers of the requests that were let in and are
to be answered here. -/
structure CacheWorld (σ : Type) where
  cache : Cache σ
  expected : List MSHRRef := []
  accepted : List Nat := []

namespace CacheWorld

variable {σ : Type} [TagStore σ]

def create (params : CacheParams) (tags : σ) (mshrs writeBuffers : Nat) : CacheWorld σ where
  cache := { store := { params := params, tags := tags }, path := .create mshrs writeBuffers }

def remaining (w : CacheWorld σ) (pkt : Packet) : List MSHRRef :=
  match Cache.mshrOf pkt with
  | .ok r => w.expected.erase r
  | .error _ => w.expected

def apply (w : CacheWorld σ) : CacheEvent → Chk (CacheWorld σ)
  | .request now pkt => do
    let (cache, accepted) ← w.cache.recvTimingReq now pkt fun _ => {}
    return { w with
      cache := cache
      accepted := if accepted && pkt.needsResponse && !pkt.memInhibit then pkt.id :: w.accepted
        else w.accepted }
  | .response now pkt replies => do
    let cache ← w.cache.handleResponse now pkt replies
    return { w with cache := cache, expected := w.remaining pkt }
  | .snoopResponse now pkt replies => do
    let cache ← w.cache.timingAccess now pkt replies
    return { w with cache := cache, expected := w.remaining pkt }
  | .snoop now pkt reply => do
    let cache ← w.cache.snoopTiming now pkt reply
    return { w with cache := cache }
  | .downstream r pending => do
    let m ← (w.cache.path.register r).noteDownstream pending
    return { w with cache := { w.cache with path := w.cache.path.setRegister r m } }
  | .send now offer above replies sent reply => do
    let (cache, out) ← w.cache.sendDeferredPacket now offer above replies sent reply
    return { w with cache := cache, expected := out.awaited.toList ++ w.expected }

/-- What the surroundings keep to: packets are told apart by their numbers, an answer
is to a register that expects one, and prefetchers offer prefetches. -/
def Admits (w : CacheWorld σ) : CacheEvent → Prop
  | .request _ pkt => pkt.isResponse = false ∧ pkt.id ∉ w.accepted
  | .response _ pkt _ => ∃ r ∈ w.expected, Cache.mshrOf pkt = .ok r
  | .snoopResponse _ pkt _ => pkt.isResponse = true ∧ ∀ r, Cache.mshrOf pkt = .ok r → r ∈ w.expected
  | .snoop .. => True
  | .downstream r _ => r ∈ w.expected
  | .send _ offer _ _ _ _ => ∀ pkt, offer = some pkt → pkt.cmd = .hardPFReq

instance (w : CacheWorld σ) : (e : CacheEvent) → Decidable (w.Admits e)
  | .request .. => inferInstanceAs (Decidable (_ ∧ _))
  | .response _ pkt _ =>
    decidable_of_iff ((Cache.mshrOf pkt).toOption.any (· ∈ w.expected) = true) <| by
      simp only [Admits]
      cases Cache.mshrOf pkt <;> simp [Except.toOption]
  | .snoopResponse _ pkt _ =>
    decidable_of_iff (pkt.isResponse = true ∧
      (Cache.mshrOf pkt).toOption.all (· ∈ w.expected) = true) <| by
      simp only [Admits]
      cases Cache.mshrOf pkt <;> simp [Except.toOption]
  | .snoop .. => .isTrue trivial
  | .downstream .. => inferInstanceAs (Decidable (_ ∈ _))
  | .send _ offer _ _ _ _ => inferInstanceAs (Decidable (∀ pkt ∈ offer, _))

def Step (w : CacheWorld σ) (e : CacheEvent) (w' : CacheWorld σ) : Prop :=
  w.Admits e ∧ w.apply e = .ok w'

def Operations (quiet : Prop) (w : CacheWorld σ) (ops : List PathOp) : CacheEvent → Prop
  | .request now pkt =>
    if pkt.memInhibit = true then ops = []
    else if w.cache.path.portBlocked = true then ops = [.refuse]
    else Cache.Request quiet w.cache.params.numTarget now pkt ops
  | .response now pkt _ => ∃ r, Cache.mshrOf pkt = .ok r ∧ Cache.Response quiet now r ops
  | .snoopResponse now pkt _ => ops = [] ∨ ∃ r, Cache.mshrOf pkt = .ok r ∧
      Cache.Response quiet now r ops
  | .snoop now pkt _ => w.cache.Snoop now pkt ops
  | .downstream r pending => ops = [.downstream r pending]
  | .send now offer _ _ _ _ => ∃ out, Cache.Sending quiet now offer ops out ∧
    ((∃ op ∈ ops, op.fills .mshrs = true) → w.cache.prefetches now = true)

def arrivals (w : CacheWorld σ) : CacheEvent → List Nat
  | .request _ pkt =>
    if !pkt.memInhibit && !w.cache.path.portBlocked && pkt.needsResponse then [pkt.id] else []
  | _ => []

structure Sane (w : CacheWorld σ) : Prop where
  path : w.cache.path.Inv
  nodup : w.expected.Nodup
  expected : ∀ r ∈ w.expected, OnItsWay w.cache.path r

variable {E : Fault → Prop} {quiet : Prop} {w w' : CacheWorld σ} {e : CacheEvent}

structure Happens (quiet : Prop) (w : CacheWorld σ) (e : CacheEvent) (ops : List PathOp)
    (w' : CacheWorld σ) :
    Prop where
  reaches : w.cache.Reaches ops w'.cache
  operations : w.Operations quiet ops e
  sane : w'.Sane
  accepted : w'.accepted = w.arrivals e ++ w.accepted

omit [TagStore σ] in
theorem Sane.keep {ops : List PathOp} {c' : Cache σ} {expected : List MSHRRef} {accepted : List Nat}
    (h : w.Sane) (hreach : w.cache.Reaches ops c') (hsub : expected.Sublist w.expected)
    (hops : ∀ r ∈ expected, ∀ op ∈ ops, ∀ now wasFull, op ≠ .retire now wasFull r) :
    Sane ⟨c', expected, accepted⟩ :=
  ⟨run_inv hreach.runs h.path, h.nodup.sublist hsub,
    fun r hr => (h.expected r (hsub.subset hr)).run h.path hreach.runs (hops r hr)⟩

omit [TagStore σ] in
theorem Sane.answered (h : w.Sane)
    (hreach : w.cache.Reaches ops c') (hr : Cache.mshrOf pkt = .ok r)
    (hresp : Cache.Response quiet now r ops) : Sane ⟨c', w.remaining pkt, w.accepted⟩ := by
  rw [remaining, hr]
  refine h.keep hreach List.erase_sublist fun r' hr' => hresp.retires ?_
  exact (h.nodup.mem_erase_iff.mp hr').1

variable (hE : Mild E) (htemp : E tempFault) (hσ : TagStore.Behaves σ E quiet)

include hE hσ in
theorem request_meets (h : w.Sane) (ha : w.Admits (.request now pkt))
    (hroom : ∀ ix, w.cache.path.Room E quiet ix) :
    Meets (fun w' => ∃ ops, Happens quiet w (.request now pkt) ops w') E
      (w.apply (.request now pkt)) := by
  cases hinh : pkt.memInhibit with
  | true =>
    rw [apply, recvTimingReq, if_neg (by simp [hinh])]
    simp only [bind_assoc]
    refine (timingAccess_meets hE hσ h.path hroom ha.1).bind fun c' ⟨_, ops, hreach, hops⟩ => ?_
    rw [if_pos hinh] at hops
    subst hops
    refine ⟨[], hreach, ?_, h.keep hreach (.refl _) (by simp), ?_⟩
    · simp [Operations, hinh]
    · simp [arrivals, hinh]
  | false =>
    cases hport : w.cache.path.portBlocked with
    | true =>
      rw [apply, recvTimingReq, if_pos (by simp [hinh, hport])]
      have hreach : w.cache.Reaches [.refuse]
          { w.cache with path := { w.cache.path with mustSendRetry := true } } :=
            ⟨.single ⟨trivial, rfl⟩, rfl⟩
      refine ⟨[.refuse], hreach, ?_, h.keep hreach (.refl _) (by simp), ?_⟩
      · simp [Operations, hinh, hport]
      · simp [arrivals, hport]
    | false =>
      rw [apply, recvTimingReq, if_neg (by simp [hport])]
      simp only [bind_assoc]
      refine (timingAccess_meets hE hσ h.path hroom ha.1).bind fun c' ⟨_, ops, hreach, hops⟩ => ?_
      rw [if_neg (by simp [hinh])] at hops
      refine ⟨ops, hreach, ?_, h.keep hreach (.refl _) fun r _ => hops.retires r, ?_⟩
      · simpa [Operations, hinh, hport] using hops
      · cases hneeds : pkt.needsResponse <;> simp [arrivals, hinh, hport, hneeds]

include hE htemp hσ in
theorem apply_meets (h : w.Sane) (ha : w.Admits e) (hroom : ∀ ix, w.cache.path.Room E quiet ix) :
    Meets (fun w' => ∃ ops, Happens quiet w e ops w') E (w.apply e) := by
  cases e with
  | request now pkt => exact request_meets hE hσ h ha hroom
  | response now pkt replies =>
    obtain ⟨r, hr, hof⟩ := ha
    refine (handleResponse_meets hE hσ h.path (fun r' hof' => ⟨?_, .inr htemp⟩)
      (hroom .writeBuffer)).bind fun c' hc => ?_
    · cases hof.symm.trans hof'
      exact (h.expected r hr).1
    obtain ⟨r', ops, hof', hreach, hresp, -⟩ := hc
    exact ⟨ops, hreach, ⟨r', hof', hresp⟩, h.answered hreach hof' hresp, rfl⟩
  | snoopResponse now pkt replies =>
    refine (timingAccess_response_meets hE hσ h.path (hroom .writeBuffer) ha.1
      fun r hr => ⟨(h.expected r (ha.2 r hr)).1, .inr htemp⟩).bind fun c' hc => ?_
    obtain ⟨ops, hreach, ⟨rfl, hof, -⟩ | ⟨r, hof, hresp, -⟩⟩ := hc
    · have hsame : w.remaining pkt = w.expected := by
        unfold remaining
        split
        · rename_i r hr
          exact absurd hr (hof r)
        · rfl
      exact ⟨[], hreach, .inl rfl, h.keep hreach (hsame ▸ .refl _) (by simp), rfl⟩
    · exact ⟨ops, hreach, .inr ⟨r, hof, hresp⟩, h.answered hreach hof hresp, rfl⟩
  | snoop now pkt reply =>
    refine (snoopTiming_meets hE hσ h.path).bind fun c' hc => ?_
    obtain ⟨-, ops, hreach, hsnoop⟩ := hc
    exact ⟨ops, hreach, hsnoop, h.keep hreach (.refl _) fun r _ => hsnoop.retires r, rfl⟩
  | downstream r b =>
    refine ((noteDownstream_faults hE).and fun _ hm => hm).bind fun m hm => ?_
    have hs : w.cache.path.Step (.downstream r b) (w.cache.path.setRegister r m) :=
      ⟨(h.expected r ha).1, by simp only [MissPath.apply, hm.2, ok_bind]; rfl⟩
    have hreach : w.cache.Reaches [.downstream r b]
      { w.cache with path := w.cache.path.setRegister r m } := ⟨.single hs, rfl⟩
    exact ⟨_, hreach, rfl, h.keep hreach (.refl _) (by simp), rfl⟩
  | send now offer above replies sent reply =>
    refine (sendDeferredPacket_meets hE hσ h.path hroom).bind fun r hr => ?_
    obtain ⟨-, ops, hsends⟩ := hr
    refine ⟨ops, hsends.reaches, ⟨r.2, hsends.sending, hsends.prefetch⟩,
      ⟨run_inv hsends.reaches.runs h.path, ?_, ?_⟩, rfl⟩
    · cases hout : r.2.awaited with
      | none => exact h.nodup
      | some r =>
        refine List.nodup_cons.mpr ⟨fun hr => ?_, h.nodup⟩
        exact (hsends.awaits r hout).2 (h.expected r hr)
    · intro r hr
      rcases List.mem_append.mp hr with hr | hr
      · exact (hsends.awaits r (Option.mem_toList.mp hr)).1
      · exact hsends.keeps r (h.expected r hr)

omit [TagStore σ] in
theorem create_sane (params : CacheParams) (tags : σ) (mshrs writeBuffers : Nat) :
    (create params tags mshrs writeBuffers).Sane := by
  have hnotFull : ∀ n reserve, reserve ≤ (MSHRQueue.create n reserve).numEntries →
      false = (MSHRQueue.create n reserve).isFull := by
    intro n reserve hle
    refine (decide_eq_false ?_).symm
    simp only [MSHRQueue.create] at hle ⊢
    omega
  refine ⟨⟨fun ix => ?_, fun ix _ hsize => ?_, rfl, rfl⟩, List.nodup_nil, by simp [create]⟩
  · cases ix
    exacts [.create .., .create ..]
  · cases ix
    exacts [hnotFull _ _ hsize, hnotFull _ _ hsize]

theorem step_happens (hσ : TagStore.Behaves σ (fun _ => True) quiet) (h : w.Sane) (hs : w.Step e w') :
    ∃ ops, Happens quiet w e ops w' := by
  have hmeets := apply_meets (E := fun _ => True) (fun _ _ _ => trivial) trivial hσ h hs.1
    fun _ => .inl trivial
  exact hmeets.result hs.2

def sampleRequest (id : Nat) (cmd : MemCmd) (addr : Nat) : Packet where
  id := id
  cmd := cmd
  req := { paddr := addr, size := 4 }
  addr := addr
  size := 4

def sampleResponse (cmd : MemCmd) (addr index : Nat) : Packet :=
  { sampleRequest 0 cmd addr with senderState := .mshr .mshrs index }

def sampleParams : CacheParams where
  blkSize := 4
  hitLatency := 1
  responseLatency := 1
  numTarget := 2
  maxMasters := 1

end CacheWorld

end Gem5
